/-
Every section keeps its three views in step, as long as items are added.

The ghost lists say what should be in a section: what was added, in order,
and a new pair where it replaced an old one. `OrderedItems` ties the memory to
the lists, for all sections at once: no item is in two of them, so a write
to a link changes one. What `cf_pair_find` returns is then read off the
list (`OrderedItems.kept`).
-/
import WinRadius.Proofs.ConfTrees
import WinRadius.Lib.Linked

namespace WinRadius

open Lib

variable {heap heap' : ConfHeap} {lists : Nat → List ConfItem} {cs n : Nat}
  {ci : ConfItem} {cp : ConfPair} {attr : List UInt8} {xs ys : List ConfItem}

-- ======== the views

/-- An item that is a pair of the name. -/
def ConfItem.named (attr : List UInt8) : ConfItem → Option ConfPair
  | .pair cp => if cp.attr = attr then some cp else none
  | _ => none

/-- The first pair of the name. -/
def pairNamed (attr : List UInt8) (xs : List ConfItem) : Option ConfPair :=
  xs.findSome? (ConfItem.named attr)

/-- The views of a section agree on its items: the links lead through
them, the tail is the last of them, and a name finds the first pair it is
the name of, else what the section of `templ` has. -/
structure Kept (heap : ConfHeap) (cs : Nat) (xs : List ConfItem) : Prop where
  list : Segment ConfItem.ident heap.next (heap.sections cs).children xs none
  tail : (heap.sections cs).tail = xs.getLast?
  find : ∀ n attr, cfPairFind heap (n + 1) cs (some attr) =
    match pairNamed attr xs, (heap.sections cs).templ with
    | none, some templ => cfPairFind heap n templ (some attr)
    | cp, _ => some cp

/-- The memory holds the items of one section. -/
structure Tidy (heap : ConfHeap) (cs : Nat) (xs : List ConfItem) : Prop where
  list : Segment ConfItem.ident heap.next (heap.sections cs).children xs none
  tail : (heap.sections cs).tail = xs.getLast?
  nodup : (xs.map ConfItem.ident).Nodup
  old : ∀ x ∈ xs, x.ident < heap.fresh
  pairs : ∀ cp, cp ∈ (heap.sections cs).pairTree.root.toList
    ↔ pairNamed cp.attr xs = some cp

/-- The memory holds the items of every section, each in one of them. -/
structure OrderedItems (heap : ConfHeap) (lists : Nat → List ConfItem) : Prop where
  trees : heap.Trees
  tidy : ∀ cs, Tidy heap cs (lists cs)
  apart : ∀ a b, a ≠ b → ∀ x ∈ lists a, ∀ y ∈ lists b, x.ident ≠ y.ident
  unborn : ∀ a, heap.fresh ≤ a → lists a = []

-- ======== names

theorem named_eq_some {x : ConfItem} :
    x.named attr = some cp ↔ x = .pair cp ∧ cp.attr = attr := by
  unfold ConfItem.named
  cases x with
  | pair cp' =>
      dsimp only
      split
      · next h =>
          constructor
          · intro hcp
            cases hcp
            exact ⟨rfl, h⟩
          · intro ⟨hcp, _⟩
            cases hcp
            rfl
      · next h =>
          constructor
          · intro hcp
            cases hcp
          · intro ⟨hcp, hattr⟩
            cases hcp
            exact absurd hattr h
  | part cs => simp
  | data cd => simp

theorem pairNamed_mem (h : pairNamed attr xs = some cp) :
    .pair cp ∈ xs ∧ cp.attr = attr := by
  obtain ⟨x, hx, hnamed⟩ := List.exists_of_findSome?_eq_some h
  obtain ⟨hxcp, hattr⟩ := named_eq_some.mp hnamed
  subst hxcp
  exact ⟨hx, hattr⟩

theorem pairNamed_append :
    pairNamed attr (xs ++ ys)
      = (pairNamed attr xs).or (pairNamed attr ys) :=
  List.findSome?_append

theorem pairNamed_eq_none :
    pairNamed attr xs = none ↔ ∀ cp, .pair cp ∈ xs → cp.attr ≠ attr := by
  unfold pairNamed
  rw [List.findSome?_eq_none_iff]
  constructor
  · intro h cp hcp hattr
    have hnone := h _ hcp
    rw [named_eq_some.mpr ⟨rfl, hattr⟩] at hnone
    cases hnone
  · intro h x hx
    cases hnamed : x.named attr with
    | none => rfl
    | some cp =>
        obtain ⟨hxcp, hattr⟩ := named_eq_some.mp hnamed
        subst hxcp
        exact absurd hattr (h cp hx)

-- ======== lookups

/-- The tree of pairs finds the first pair of a name. -/
theorem Tidy.finddata (h : Tidy heap cs xs) (ht : heap.Trees)
    (attr : List UInt8) :
    rbtreeFinddata (heap.sections cs).pairTree { ident := 0, attr := attr }
      = pairNamed attr xs := by
  have hiff := (ht cs).pairs.finddata_eq_some_iff
    { ident := 0, attr := attr }
  cases hnamed : pairNamed attr xs with
  | some cp =>
      obtain ⟨-, hattr⟩ := pairNamed_mem hnamed
      apply (hiff cp).mpr
      refine ⟨(h.pairs cp).mpr (by rw [hattr, hnamed]), ?_⟩
      rw [hattr]
  | none =>
      cases hfind : rbtreeFinddata (heap.sections cs).pairTree
          { ident := 0, attr := attr } with
      | none => rfl
      | some cp =>
          obtain ⟨hmem, hkey⟩ := (hiff cp).mp hfind
          have hattr : cp.attr = attr := byteKey_inj.mp hkey
          have hcp := (h.pairs cp).mp hmem
          rw [hattr, hnamed] at hcp
          cases hcp

/-- `cf_pair_find` of a name, one section on. -/
theorem cfPairFind_name :
    cfPairFind heap (n + 1) cs (some attr) =
      match rbtreeFinddata (heap.sections cs).pairTree
          { ident := 0, attr := attr }, (heap.sections cs).templ with
      | none, some templ => cfPairFind heap n templ (some attr)
      | cp, _ => some cp := by
  rw [cfPairFind]
  simp only [Option.bind_eq_bind, Option.bind_some]
  cases rbtreeFinddata (heap.sections cs).pairTree
      { ident := 0, attr := attr } with
  | none =>
      cases (heap.sections cs).templ with
      | none => rfl
      | some templ => rfl
  | some cp => rfl

theorem OrderedItems.kept (h : OrderedItems heap lists) (cs : Nat) :
    Kept heap cs (lists cs) := by
  have htidy := h.tidy cs
  refine ⟨htidy.list, htidy.tail, fun n attr => ?_⟩
  rw [cfPairFind_name, htidy.finddata h.trees]

-- ======== adding

theorem Tidy.children_nil (h : Tidy heap cs []) :
    (heap.sections cs).children = none
      ∧ (heap.sections cs).tail = none :=
  ⟨h.list, h.tail⟩

/-- An item is new when it is in no list and nothing is linked to it. -/
structure NewItem (heap : ConfHeap) (lists : Nat → List ConfItem)
    (ci : ConfItem) : Prop where
  old : ci.ident < heap.fresh
  alone : heap.next ci.ident = none
  apart : ∀ a, ∀ x ∈ lists a, x.ident ≠ ci.ident

/-- `cf_item_add` up to its loop: the item is linked in. -/
theorem cfItemAdd_link (h : OrderedItems heap lists) (hci : NewItem heap lists ci)
    (cs n : Nat) :
    ∃ heap₁, cfItemAdd n heap cs ci = addLoop cs n heap₁ (some ci)
      ∧ heap₁.Trees ∧ heap₁.fresh = heap.fresh
      ∧ heap₁.next ci.ident = none
      ∧ (∀ a ≠ cs, SameItems (heap.sections a) (heap₁.sections a))
      ∧ (heap₁.sections cs).pairTree = (heap.sections cs).pairTree
      ∧ Segment ConfItem.ident heap₁.next (heap₁.sections cs).children
          (lists cs ++ [ci]) none
      ∧ ∀ a ≠ cs, Segment ConfItem.ident heap₁.next
          (heap₁.sections a).children (lists a) none := by
  have htidy := h.tidy cs
  unfold cfItemAdd
  dsimp only
  obtain hnil | ⟨xs, t, hxs⟩ := (lists cs).eq_nil_or_concat
  · rw [hnil] at htidy ⊢
    obtain ⟨hc, ht⟩ := htidy.children_nil
    rw [hc, ht]
    dsimp only
    obtain ⟨hp, hs, hn, hd⟩ := h.trees cs
    refine ⟨_, rfl, h.trees.setSection ⟨hp, hs, hn, hd⟩, rfl, hci.alone,
      fun a ha => ?_, ?_, ?_, fun a ha => ?_⟩
    · rw [ConfHeap.setSection_of_ne ha]
      exact SameItems.refl _
    · rw [ConfHeap.setSection_self]
    · rw [ConfHeap.setSection_self]
      exact ⟨rfl, hci.alone⟩
    · rw [ConfHeap.setSection_of_ne ha]
      exact (h.tidy a).list
  · rw [List.concat_eq_append] at hxs
    have hlist := htidy.list
    have htail := htidy.tail
    have hnodup := htidy.nodup
    have ht : t ∈ lists cs := by
      rw [hxs]
      exact List.mem_concat_self
    rw [hxs] at hlist htail hnodup ⊢
    rw [List.getLast?_concat] at htail
    have hne : ∀ y ∈ xs, y.ident ≠ t.ident := by
      intro y hy heq
      rw [List.map_append, List.nodup_append] at hnodup
      exact hnodup.2.2 y.ident (List.mem_map_of_mem hy) t.ident
        (List.mem_singleton_self _) heq
    have hcti : ci.ident ≠ t.ident := (hci.apart cs t ht).symm
    cases hc : (heap.sections cs).children with
    | none =>
        rw [hc] at hlist
        cases xs with
        | nil => cases hlist.1
        | cons x xs => cases hlist.1
    | some c =>
        rw [htail]
        dsimp only
        refine ⟨_, rfl, h.trees, rfl, ?_, fun a ha => SameItems.refl _, rfl,
          ?_, fun a ha => ?_⟩
        · exact (Function.update_of_ne hcti _ _).trans hci.alone
        · apply segment_append.mpr
          refine ⟨some ci, hlist.redirect hne, rfl, ?_⟩
          exact (Function.update_of_ne hcti _ _).trans hci.alone
        · exact (h.tidy a).list.update fun x hx => h.apart a cs ha x hx t ht

/-- The names that were there keep their first pair, the item's may get
one. -/
theorem pairNamed_snoc :
    pairNamed cp.attr (xs ++ [ci]) = some cp
      ↔ pairNamed cp.attr xs = some cp
        ∨ ci = .pair cp ∧ pairNamed cp.attr xs = none := by
  have hone : pairNamed cp.attr [ci] = ci.named cp.attr := by
    unfold pairNamed
    rw [List.findSome?_cons]
    cases ci.named cp.attr with
    | none => rfl
    | some cp' => rfl
  rw [pairNamed_append, hone]
  cases pairNamed cp.attr xs with
  | some cp' => simp
  | none =>
      rw [Option.none_or, named_eq_some]
      simp

/-- `cf_item_add` of a new item: it is the last of its section. -/
theorem OrderedItems.itemAdd (h : OrderedItems heap lists)
    (hci : NewItem heap lists ci) (hcs : cs < heap.fresh) :
    ∃ heap', cfItemAdd (n + 1) heap cs ci = some heap'
      ∧ OrderedItems heap' (Function.update lists cs (lists cs ++ [ci])) := by
  have htidy := h.tidy cs
  obtain ⟨heap₁, hlink, htrees, hfresh, halone, hsame, hpairs, hlist,
    hothers⟩ := cfItemAdd_link h hci cs (n + 1)
  obtain ⟨heap', hadd, htrees', hnext, hfresh', hsame', hc, ht, -, hmem⟩ :=
    addItem_ok htrees cs ci
  refine ⟨heap', ?_, htrees', fun a => ?_, ?_, ?_⟩
  · rw [hlink, addLoop, hadd, Option.bind_eq_bind, Option.bind_some, hnext,
      halone]
    cases n with
    | zero => rfl
    | succ n => rfl
  · by_cases ha : a = cs
    · subst ha
      rw [Function.update_self]
      refine ⟨by rw [hnext, hc]; exact hlist, ?_, ?_, ?_, fun cp => ?_⟩
      · rw [ht, List.getLast?_concat]
      · rw [List.map_append, List.nodup_append]
        refine ⟨htidy.nodup, List.nodup_singleton _, ?_⟩
        intro k hk k' hk' heq
        obtain ⟨x, hx, hxk⟩ := List.mem_map.mp hk
        have hk'' : k' = ci.ident := List.mem_singleton.mp hk'
        exact hci.apart a x hx (by rw [hxk, heq, hk''])
      · intro x hx
        rw [hfresh', hfresh]
        obtain hx | hx := List.mem_append.mp hx
        · exact htidy.old x hx
        · rw [List.mem_singleton.mp hx]
          exact hci.old
      · rw [hmem, hpairs, htidy.pairs, pairNamed_snoc, pairNamed_eq_none]
        apply or_congr Iff.rfl
        apply and_congr Iff.rfl
        constructor
        · intro hnone cp' hcp' hattr
          -- the first of the name would be in the tree
          cases hfirst : pairNamed cp.attr (lists a) with
          | none => exact pairNamed_eq_none.mp hfirst cp' hcp' hattr
          | some first =>
              obtain ⟨-, hattr'⟩ := pairNamed_mem hfirst
              apply hnone first
              · rw [htidy.pairs, hattr', hfirst]
              · exact hattr'
        · intro hnone z hz
          exact hnone z (pairNamed_mem ((htidy.pairs z).mp hz)).1
    · rw [Function.update_of_ne ha]
      obtain ⟨hc₁, ht₁, hp₁, -⟩ := (hsame a ha).trans (hsame' a ha)
      have hothers' := hothers a ha
      have hold := h.tidy a
      refine ⟨?_, by rw [ht₁]; exact hold.tail, hold.nodup, ?_, ?_⟩
      · rw [hnext, (hsame' a ha).1]
        exact hothers'
      · rw [hfresh', hfresh]
        exact hold.old
      · rw [hp₁]
        exact hold.pairs
  · have hmemup : ∀ a, ∀ x ∈ Function.update lists cs (lists cs ++ [ci]) a,
        x ∈ lists a ∨ a = cs ∧ x = ci := by
      intro a x hx
      by_cases ha : a = cs
      · subst ha
        rw [Function.update_self] at hx
        obtain hx | hx := List.mem_append.mp hx
        · exact Or.inl hx
        · exact Or.inr ⟨rfl, List.mem_singleton.mp hx⟩
      · rw [Function.update_of_ne ha] at hx
        exact Or.inl hx
    intro a b hab x hx y hy
    obtain hx | ⟨hacs, hxci⟩ := hmemup a x hx
    · obtain hy | ⟨-, hyci⟩ := hmemup b y hy
      · exact h.apart a b hab x hx y hy
      · rw [hyci]
        exact hci.apart a x hx
    · obtain hy | ⟨hbcs, -⟩ := hmemup b y hy
      · rw [hxci]
        exact (hci.apart b y hy).symm
      · exact absurd (hacs.trans hbcs.symm) hab
  · intro a ha
    rw [hfresh', hfresh] at ha
    rw [Function.update_of_ne (by omega)]
    exact h.unborn a ha

-- ======== allocation

/-- An address is given out; the section there, if it is one, is empty. -/
theorem OrderedItems.grow (h : OrderedItems heap lists) (htrees : heap'.Trees)
    (hnext : heap'.next = Function.update heap.next heap.fresh none)
    (hfresh : heap'.fresh = heap.fresh + 1)
    (hsame : ∀ a ≠ heap.fresh, SameItems (heap.sections a) (heap'.sections a))
    (hnew : Tidy heap' heap.fresh []) :
    OrderedItems heap' lists
      ∧ ∀ ci : ConfItem, ci.ident = heap.fresh → NewItem heap' lists ci := by
  refine ⟨⟨htrees, fun a => ?_, h.apart, fun a ha => ?_⟩,
    fun ci hci => ⟨?_, ?_, ?_⟩⟩
  · by_cases ha : a = heap.fresh
    · subst ha
      rw [h.unborn heap.fresh (le_refl _)]
      exact hnew
    · obtain ⟨hc, ht, hp, -⟩ := hsame a ha
      have htidy := h.tidy a
      refine ⟨?_, by rw [ht]; exact htidy.tail, htidy.nodup, ?_, ?_⟩
      · rw [hc, hnext]
        apply htidy.list.update
        intro x hx
        have hlt := htidy.old x hx
        omega
      · intro x hx
        have hlt := htidy.old x hx
        omega
      · rw [hp]
        exact htidy.pairs
  · apply h.unborn
    omega
  · omega
  · rw [hnext, hci]
    exact Function.update_self _ _ _
  · intro a x hx
    have hlt := (h.tidy a).old x hx
    omega

/-- A section without items holds none. -/
theorem tidy_nil (hc : (heap.sections cs).children = none)
    (ht : (heap.sections cs).tail = none)
    (hp : (heap.sections cs).pairTree.root.toList = []) :
    Tidy heap cs [] := by
  refine ⟨hc, ht, List.nodup_nil, ?_, fun cp => ?_⟩
  · intro x hx
    cases hx
  · rw [hp]
    constructor
    · intro hcp
      cases hcp
    · intro hcp
      cases hcp

/-- The allocation of a pair or of data. -/
theorem OrderedItems.item (h : OrderedItems heap lists) (hheap : heap' =
      { heap.setNext heap.fresh none with fresh := heap.fresh + 1 }) :
    OrderedItems heap' lists
      ∧ ∀ ci : ConfItem, ci.ident = heap.fresh → NewItem heap' lists ci := by
  subst hheap
  have htidy := h.tidy heap.fresh
  rw [h.unborn heap.fresh (le_refl _)] at htidy
  obtain ⟨hc, ht⟩ := htidy.children_nil
  refine h.grow h.trees rfl rfl (fun a _ => SameItems.refl _)
    (tidy_nil hc ht ?_)
  apply List.eq_nil_iff_forall_not_mem.mpr
  intro cp hcp
  cases (htidy.pairs cp).mp hcp

/-- The allocation of a section. -/
theorem OrderedItems.part (h : OrderedItems heap lists) (name1 : List UInt8)
    (name2 : Option (List UInt8)) (parent : Option Nat) :
    OrderedItems (cfSectionAlloc heap name1 name2 parent).1 lists
      ∧ ∀ ci : ConfItem, ci.ident = heap.fresh →
          NewItem (cfSectionAlloc heap name1 name2 parent).1 lists ci := by
  have hself := (heap.setNext heap.fresh none).setSection_self heap.fresh
    { name1 := name1, name2 := if name2 = some [] then none else name2,
      parent := parent }
  unfold cfSectionAlloc
  refine h.grow ?_ rfl rfl ?_ (tidy_nil ?_ ?_ ?_)
  · have htrees : (heap.setNext heap.fresh none).Trees := h.trees
    exact htrees.setSection (sectionTrees_new rfl rfl rfl rfl)
  · intro a ha
    dsimp only
    rw [ConfHeap.setSection_of_ne ha]
    exact SameItems.refl _
  · exact congrArg ConfSection.children hself
  · exact congrArg ConfSection.tail hself
  · exact congrArg (fun s => s.pairTree.root.toList) hself

end WinRadius
