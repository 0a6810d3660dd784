/-
What `cf_pair_replace` does to the views of a section.

The walk puts the new pair into the place of the old one and the other
links stay (`replaceLoop_spec`); the tree drops the pair that has the name,
whichever that is, and gets the new one; the tail is not written. So the
views stay in step exactly when the old pair is the one its name finds and
not the last item (`replace_kept_iff`).
-/
import WinRadius.Proofs.ConfItems

namespace WinRadius

open Lib

variable {heap heap' : ConfHeap} {lists : Nat → List ConfItem} {cs n : Nat}
  {ci cn last c : ConfItem} {cp newp : ConfPair} {attr : List UInt8}
  {as bs xs ys : List ConfItem} {p q : Option ConfItem}

/-- In a list without repetitions, the items around one are others. -/
theorem around_ne (h : (xs.map ConfItem.ident).Nodup)
    (hxs : xs = as ++ c :: bs) :
    (∀ y ∈ as, y.ident ≠ c.ident) ∧ ∀ y ∈ bs, y.ident ≠ c.ident := by
  rw [hxs, List.map_append, List.map_cons, List.nodup_append,
    List.nodup_cons] at h
  obtain ⟨-, ⟨hbs, -⟩, has⟩ := h
  constructor
  · intro y hy
    exact has y.ident (List.mem_map_of_mem hy) c.ident List.mem_cons_self
  · intro y hy heq
    have hmap := List.mem_map_of_mem (f := ConfItem.ident) hy
    rw [heq] at hmap
    exact hbs hmap

-- ======== the walk

/-- The walk ends where the old item would be. The induction is on the
rest of the list. -/
theorem replaceLoop_none
    (h : Segment ConfItem.ident heap.next (heap.load cs p) ys none)
    (hne : ∀ y ∈ ys, y.ident ≠ ci.ident) (hn : ys.length < n) :
    replaceLoop cs ci cn n heap p = some heap := by
  induction ys generalizing p n with
  | nil =>
      cases n with
      | zero => cases hn
      | succ n =>
          have hp : heap.load cs p = none := h
          rw [replaceLoop, hp]
  | cons y ys ih =>
      cases n with
      | zero => cases hn
      | succ n =>
          rw [replaceLoop, h.1]
          dsimp only
          rw [if_neg (hne y List.mem_cons_self)]
          have hrest : Segment ConfItem.ident heap.next
              (heap.load cs (some y)) ys none := h.2
          apply ih hrest
          · exact fun z hz => hne z (List.mem_cons_of_mem y hz)
          · rw [List.length_cons] at hn
            omega

/-- The walk finds the old item behind `as`. -/
theorem replaceLoop_some
    (h : Segment ConfItem.ident heap.next (heap.load cs p) as (some c))
    (hne : ∀ y ∈ as, y.ident ≠ ci.ident) (hc : c.ident = ci.ident)
    (hn : as.length < n) :
    replaceLoop cs ci cn n heap p =
      some (((heap.setNext cn.ident (heap.next c.ident)).store cs
        (as.getLast?.or p) (some cn)).setNext ci.ident none) := by
  induction as generalizing p n with
  | nil =>
      cases n with
      | zero => cases hn
      | succ n =>
          have hp : heap.load cs p = some c := h
          rw [replaceLoop, hp]
          dsimp only
          rw [if_pos hc]
          rfl
  | cons y ys ih =>
      cases n with
      | zero => cases hn
      | succ n =>
          rw [replaceLoop, h.1]
          dsimp only
          rw [if_neg (hne y List.mem_cons_self)]
          rw [ih (p := some y) h.2
            (fun z hz => hne z (List.mem_cons_of_mem y hz))
            (by rw [List.length_cons] at hn; omega)]
          rw [List.getLast?_cons]
          cases ys.getLast? with
          | none => rfl
          | some z => rfl

/-- The list with the new pair in the place of the old one. -/
def replacePair (cp newp : ConfPair) (xs : List ConfItem) : List ConfItem :=
  xs.map fun x => if x.ident = cp.ident then .pair newp else x

theorem replacePair_none (h : ∀ x ∈ xs, x.ident ≠ cp.ident) :
    replacePair cp newp xs = xs := by
  unfold replacePair
  rw [List.map_congr_left fun x hx => if_neg (h x hx)]
  exact List.map_id' xs

theorem replacePair_some (has : ∀ x ∈ as, x.ident ≠ cp.ident)
    (hc : c.ident = cp.ident) (hbs : ∀ x ∈ bs, x.ident ≠ cp.ident) :
    replacePair cp newp (as ++ c :: bs) = as ++ .pair newp :: bs := by
  have happ : replacePair cp newp (as ++ c :: bs)
      = replacePair cp newp as ++ replacePair cp newp (c :: bs) :=
    List.map_append
  have hcons : replacePair cp newp (c :: bs)
      = .pair newp :: replacePair cp newp bs := by
    unfold replacePair
    rw [List.map_cons, if_pos hc]
  rw [happ, hcons, replacePair_none has, replacePair_none hbs]

/-- After the walk: the links lead through `xs` in the section, and through
the same items as before in the others. -/
structure Walked (heap heap' : ConfHeap) (lists : Nat → List ConfItem)
    (cs : Nat) (xs : List ConfItem) : Prop where
  fresh_eq : heap'.fresh = heap.fresh
  others : ∀ a ≠ cs, heap'.sections a = heap.sections a
  same : heap'.sections cs = { heap.sections cs with
    children := (heap'.sections cs).children }
  list : Segment ConfItem.ident heap'.next (heap'.sections cs).children xs
    none
  lists_eq : ∀ a ≠ cs, Segment ConfItem.ident heap'.next
    (heap.sections a).children (lists a) none

/-- The links written for an item that is found. -/
theorem walked_some (h : OrderedItems heap lists)
    (hnew : NewItem heap lists (.pair newp))
    (hxs : lists cs = as ++ .pair cp :: bs) :
    Walked heap (((heap.setNext newp.ident (heap.next cp.ident)).store cs
        (as.getLast?.or none) (some (.pair newp))).setNext cp.ident none)
      lists cs (as ++ .pair newp :: bs) := by
  have hlist := (h.tidy cs).list
  have hnodup := (h.tidy cs).nodup
  have hmem : ∀ x, x ∈ as ∨ x = .pair cp ∨ x ∈ bs → x ∈ lists cs := by
    intro x hx
    rw [hxs, List.mem_append, List.mem_cons]
    exact hx
  have hcp : ConfItem.pair cp ∈ lists cs := hmem _ (Or.inr (Or.inl rfl))
  -- the new pair is none of the items, the old one only itself
  have hfresh : ∀ a, ∀ x ∈ lists a, x.ident ≠ newp.ident := hnew.apart
  have hne : newp.ident ≠ cp.ident := (hfresh cs _ hcp).symm
  obtain ⟨hascp, hbscp⟩ := around_ne hnodup hxs
  rw [hxs, List.map_append, List.map_cons, List.nodup_append] at hnodup
  have hasbs : ∀ x ∈ as, ∀ y ∈ bs, x.ident ≠ y.ident := fun x hx y hy =>
    hnodup.2.2 x.ident (List.mem_map_of_mem hx) y.ident
      (List.mem_cons_of_mem _ (List.mem_map_of_mem hy))
  rw [hxs, segment_append] at hlist
  obtain ⟨q, hleft, hq, hright⟩ := hlist
  subst hq
  have hright' : Segment ConfItem.ident heap.next (heap.next cp.ident) bs
    none := hright
  have hothers : ∀ a ≠ cs, ∀ x ∈ lists a, x.ident ≠ cp.ident :=
    fun a ha x hx => h.apart a cs ha x hx _ hcp
  -- behind the new pair, the links of the old one
  have hbehind : Segment ConfItem.ident
      (Function.update (Function.update heap.next newp.ident
        (heap.next cp.ident)) cp.ident none) (heap.next cp.ident) bs none :=
    (hright'.update fun x hx => hfresh cs x (hmem x (Or.inr (Or.inr hx)))).update
      hbscp
  obtain hnil | ⟨as', t, hsnoc⟩ := as.eq_nil_or_concat
  · subst hnil
    obtain ⟨heap₃, hheap⟩ : ∃ heap₃, heap₃ = ((heap.setNext newp.ident
      (heap.next cp.ident)).store cs (([] : List ConfItem).getLast?.or none)
        (some (.pair newp))).setNext cp.ident none := ⟨_, rfl⟩
    have hnext : heap₃.next = Function.update (Function.update heap.next
        newp.ident (heap.next cp.ident)) cp.ident none := by
      rw [hheap]
      rfl
    have hsec : heap₃.sections cs =
        { heap.sections cs with children := some (.pair newp) } := by
      rw [hheap]
      exact ConfHeap.setSection_self _ _ _
    have hsecs : ∀ a ≠ cs, heap₃.sections a = heap.sections a := by
      intro a ha
      rw [hheap]
      exact ConfHeap.setSection_of_ne ha
    rw [← hheap]
    refine ⟨by rw [hheap]; rfl, hsecs, by rw [hsec], ?_, fun a ha => ?_⟩
    · rw [hsec, hnext]
      refine ⟨rfl, ?_⟩
      have hlink : Function.update (Function.update heap.next newp.ident
          (heap.next cp.ident)) cp.ident none newp.ident
          = heap.next cp.ident := by
        rw [Function.update_of_ne hne, Function.update_self]
      have hident : (ConfItem.pair newp).ident = newp.ident := rfl
      rw [hident, hlink]
      exact hbehind
    · rw [hnext]
      exact ((h.tidy a).list.update (hfresh a)).update (hothers a ha)
  · rw [List.concat_eq_append] at hsnoc
    subst hsnoc
    have htas : t ∈ as' ++ [t] := List.mem_append_right _
      (List.mem_singleton_self t)
    have htcp := hascp t htas
    have htcs := hmem t (Or.inl htas)
    have htnew := hfresh cs t htcs
    have hasnew : ∀ x ∈ as' ++ [t], x.ident ≠ newp.ident :=
      fun x hx => hfresh cs x (hmem x (Or.inl hx))
    have hast : ∀ x ∈ as', x.ident ≠ t.ident :=
      (around_ne hnodup.1 rfl).1
    obtain ⟨heap₃, hheap⟩ : ∃ heap₃, heap₃ = ((heap.setNext newp.ident
      (heap.next cp.ident)).store cs ((as' ++ [t]).getLast?.or none)
        (some (.pair newp))).setNext cp.ident none := ⟨_, rfl⟩
    have hnext : heap₃.next = Function.update (Function.update
        (Function.update heap.next newp.ident (heap.next cp.ident)) t.ident
          (some (.pair newp))) cp.ident none := by
      rw [hheap, List.getLast?_concat]
      rfl
    have hsecs : heap₃.sections = heap.sections := by
      rw [hheap, List.getLast?_concat]
      rfl
    rw [← hheap]
    refine ⟨?_, fun a _ => by rw [hsecs], by rw [hsecs], ?_, fun a ha => ?_⟩
    · rw [hheap, List.getLast?_concat]
      rfl
    · rw [hsecs, hnext]
      apply segment_append.mpr
      refine ⟨some (.pair newp), ?_, rfl, ?_⟩
      · exact ((hleft.update hasnew).redirect hast).update hascp
      · have hlink : Function.update (Function.update (Function.update
            heap.next newp.ident (heap.next cp.ident)) t.ident
              (some (.pair newp))) cp.ident none newp.ident
            = heap.next cp.ident := by
          rw [Function.update_of_ne hne, Function.update_of_ne htnew.symm,
            Function.update_self]
        have hident : (ConfItem.pair newp).ident = newp.ident := rfl
        rw [hident, hlink]
        apply Segment.update _ hbscp
        apply Segment.update _ fun x hx => (hasbs t htas x hx).symm
        exact hright'.update fun x hx =>
          hfresh cs x (hmem x (Or.inr (Or.inr hx)))
    · rw [hnext]
      apply Segment.update _ (hothers a ha)
      apply Segment.update _ fun x hx => h.apart a cs ha x hx t htcs
      exact (h.tidy a).list.update (hfresh a)

/-- An item at the address of a pair is the pair. -/
def SamePair (lists : Nat → List ConfItem) (cp : ConfPair) : Prop :=
  ∀ a, ∀ x ∈ lists a, x.ident = cp.ident → x = .pair cp

/-- The walk ends, and has replaced what there was to replace. -/
theorem replaceLoop_ok (h : OrderedItems heap lists)
    (hnew : NewItem heap lists (.pair newp)) (hcp : SamePair lists cp)
    (hn : (lists cs).length < n) :
    ∃ heap', replaceLoop cs (.pair cp) (.pair newp) n heap none = some heap'
      ∧ Walked heap heap' lists cs (replacePair cp newp (lists cs)) := by
  have htidy := h.tidy cs
  by_cases hfound : ∃ x ∈ lists cs, x.ident = cp.ident
  · obtain ⟨x, hx, hident⟩ := hfound
    have hxcp := hcp cs x hx hident
    subst hxcp
    obtain ⟨as, bs, hxs⟩ := List.append_of_mem hx
    obtain ⟨hascp, hbscp⟩ := around_ne htidy.nodup hxs
    have hlist := htidy.list
    rw [hxs, segment_append] at hlist
    obtain ⟨q, hleft, hq, -⟩ := hlist
    subst hq
    refine ⟨_, replaceLoop_some hleft hascp rfl ?_, ?_⟩
    · rw [hxs, List.length_append] at hn
      omega
    · rw [hxs, replacePair_some hascp rfl hbscp]
      exact walked_some h hnew hxs
  · have hne : ∀ x ∈ lists cs, x.ident ≠ cp.ident :=
      fun x hx heq => hfound ⟨x, hx, heq⟩
    refine ⟨heap, replaceLoop_none htidy.list hne hn, ?_⟩
    rw [replacePair_none hne]
    exact ⟨rfl, fun _ _ => rfl, rfl, htidy.list, fun a _ => (h.tidy a).list⟩

-- ======== the operation

/-- What `cf_pair_replace` leaves, with the new pair. -/
structure Replaced (heap heap' : ConfHeap) (lists : Nat → List ConfItem)
    (cs : Nat) (cp newp : ConfPair) : Prop where
  trees : heap'.Trees
  fresh_eq : heap'.fresh = heap.fresh + 1
  list : ∀ a, Segment ConfItem.ident heap'.next (heap'.sections a).children
    (Function.update lists cs (replacePair cp newp (lists cs)) a) none
  tail : ∀ a, (heap'.sections a).tail = (heap.sections a).tail
  templ : ∀ a, (heap'.sections a).templ = (heap.sections a).templ
  others : ∀ a ≠ cs, (heap'.sections a).pairTree = (heap.sections a).pairTree
  pairs : ∀ y, y ∈ (heap'.sections cs).pairTree.root.toList
    ↔ y = newp
      ∨ y ∈ (heap.sections cs).pairTree.root.toList ∧ y.attr ≠ cp.attr

theorem cfPairReplace_ok (h : OrderedItems heap lists) (hcp : SamePair lists cp)
    (value : Option (List UInt8)) (hn : (lists cs).length < n) :
    ∃ heap', cfPairReplace n heap cs cp value = some (heap',
        ⟨heap.fresh, cp.attr, value, cp.opToken, cp.valueType⟩)
      ∧ Replaced heap heap' lists cs cp
        ⟨heap.fresh, cp.attr, value, cp.opToken, cp.valueType⟩ := by
  obtain ⟨newp, hnewp⟩ : ∃ newp : ConfPair, newp =
    ⟨heap.fresh, cp.attr, value, cp.opToken, cp.valueType⟩ := ⟨_, rfl⟩
  obtain ⟨heap₁, hheap⟩ : ∃ heap₁ : ConfHeap, heap₁ =
    { heap.setNext heap.fresh none with fresh := heap.fresh + 1 } := ⟨_, rfl⟩
  have halloc : cfPairAlloc heap cp.attr value cp.opToken cp.valueType
      = (heap₁, newp) := by
    rw [hheap, hnewp]
    rfl
  have hsec₁ : heap₁.sections = heap.sections := by
    rw [hheap]
    rfl
  obtain ⟨h₁, hitem⟩ := h.item hheap
  have hnew : NewItem heap₁ lists (.pair newp) := by
    apply hitem
    rw [hnewp]
    rfl
  obtain ⟨heap₂, hloop, hwalk⟩ := replaceLoop_ok h₁ hnew hcp hn
  have hpairs₂ : (heap₂.sections cs).pairTree = (heap.sections cs).pairTree := by
    rw [hwalk.same, hsec₁]
  obtain ⟨hp, hs, hnm, hd⟩ := h.trees cs
  obtain ⟨hwf, hmem⟩ := hp.deletebydata_spec cp
  obtain ⟨t, b, hins, hwf', hb, hmem'⟩ :=
    hwf.insertnode_spec (d := newp) trivial
  -- the name is free once the pair that had it is out
  have hfree : b = true := by
    apply hb.mpr
    intro y hy hkey
    apply ((hmem y).mp hy).2
    rw [hkey, hnewp]
  obtain ⟨s, hsdef⟩ : ∃ s, s = { heap₂.sections cs with pairTree := t } :=
    ⟨_, rfl⟩
  have hrun : cfPairReplace n heap cs cp value
      = some (heap₂.setSection cs s, newp) := by
    unfold cfPairReplace
    rw [halloc]
    simp only [Option.bind_eq_bind, hloop, Option.bind_some, hpairs₂, hins,
      ← hsdef]
    rfl
  have hother : ∀ a ≠ cs,
      (heap₂.setSection cs s).sections a = heap.sections a := by
    intro a ha
    rw [ConfHeap.setSection_of_ne ha, hwalk.others a ha, hsec₁]
  have hself : (heap₂.setSection cs s).sections cs = { heap.sections cs with
      children := (heap₂.sections cs).children, pairTree := t } := by
    rw [ConfHeap.setSection_self, hsdef, hwalk.same, hsec₁]
  rw [← hnewp]
  refine ⟨_, hrun, fun a => ?_, ?_, fun a => ?_, fun a => ?_, fun a => ?_,
    fun a ha => by rw [hother a ha], fun y => ?_⟩
  · by_cases ha : a = cs
    · subst ha
      rw [hself]
      exact ⟨hwf', hs, hnm, hd⟩
    · rw [hother a ha]
      exact h.trees a
  · have hfresh : (heap₂.setSection cs s).fresh = heap₂.fresh := rfl
    rw [hfresh, hwalk.fresh_eq, hheap]
  · by_cases ha : a = cs
    · subst ha
      rw [hself, Function.update_self]
      exact hwalk.list
    · rw [hother a ha, Function.update_of_ne ha, ← hsec₁]
      exact hwalk.lists_eq a ha
  · by_cases ha : a = cs
    · subst ha
      rw [hself]
    · rw [hother a ha]
  · by_cases ha : a = cs
    · subst ha
      rw [hself]
    · rw [hother a ha]
  · rw [hself, hmem', hmem]
    constructor
    · intro hy
      obtain ⟨hy, hattr⟩ | ⟨-, hy⟩ := hy
      · exact Or.inr ⟨hy, fun heq => hattr (by rw [heq])⟩
      · exact Or.inl hy
    · intro hy
      obtain hy | ⟨hy, hattr⟩ := hy
      · exact Or.inr ⟨hfree, hy⟩
      · exact Or.inl ⟨hy, fun heq => hattr (byteKey_inj.mp heq)⟩

-- ======== the condition

/-- The pair is the first of its name in the section, and not the last
item. -/
def Replaceable (xs : List ConfItem) (cp : ConfPair) : Prop :=
  pairNamed cp.attr xs = some cp ∧ xs.getLast? ≠ some (.pair cp)

instance : Decidable (Replaceable xs cp) :=
  inferInstanceAs (Decidable (_ ∧ _))

theorem pairNamed_cons {x : ConfItem} :
    pairNamed attr (x :: xs) = (x.named attr).or (pairNamed attr xs) := by
  unfold pairNamed
  rw [List.findSome?_cons]
  cases x.named attr with
  | none => rfl
  | some cp => rfl

/-- The list around the first pair of its name. -/
theorem split_first (h : pairNamed cp.attr xs = some cp) :
    ∃ as bs, xs = as ++ .pair cp :: bs ∧ pairNamed cp.attr as = none := by
  obtain ⟨as, x, bs, hxs, hx, has⟩ := List.findSome?_eq_some_iff.mp h
  have hxcp := (named_eq_some.mp hx).1
  subst hxcp
  exact ⟨as, bs, hxs, List.findSome?_eq_none_iff.mpr has⟩

/-- A new pair at the place of the first of its name is the first of the
name, and no other name sees it. -/
theorem pairNamed_replaced {y : ConfPair} (hattr : newp.attr = cp.attr)
    (has : pairNamed cp.attr as = none) :
    pairNamed y.attr (as ++ .pair newp :: bs) = some y ↔
      y = newp ∨ pairNamed y.attr (as ++ .pair cp :: bs) = some y
        ∧ y.attr ≠ cp.attr := by
  rw [pairNamed_append, pairNamed_append, pairNamed_cons, pairNamed_cons]
  by_cases hy : y.attr = cp.attr
  · have hnew : (ConfItem.pair newp).named cp.attr = some newp :=
      named_eq_some.mpr ⟨rfl, hattr⟩
    rw [hy, has, hnew]
    simp only [Option.none_or, Option.some_or, Option.some.injEq, ne_eq,
      not_true_eq_false, and_false, or_false]
    exact eq_comm
  · have hnamed : ∀ p : ConfPair, p.attr = cp.attr →
        (ConfItem.pair p).named y.attr = none := by
      intro p hp
      unfold ConfItem.named
      exact if_neg fun heq => hy (heq.symm.trans hp)
    rw [hnamed newp hattr, hnamed cp rfl]
    constructor
    · exact fun h => Or.inr ⟨h, hy⟩
    · intro h
      obtain h | ⟨h, -⟩ := h
      · exact absurd (h ▸ hattr) hy
      · exact h

/-- Replacing the pair its name finds, in front of the last item, keeps
everything. -/
theorem Replaced.ordered (hr : Replaced heap heap' lists cs cp newp)
    (h : OrderedItems heap lists) (hident : newp.ident = heap.fresh)
    (hattr : newp.attr = cp.attr) (hok : Replaceable (lists cs) cp) :
    OrderedItems heap' (Function.update lists cs
      (replacePair cp newp (lists cs))) := by
  have htidy := h.tidy cs
  obtain ⟨as, bs, hxs, has⟩ := split_first hok.1
  have hnodup := htidy.nodup
  rw [hxs, List.map_append, List.map_cons, List.nodup_append,
    List.nodup_cons] at hnodup
  obtain ⟨hasnd, ⟨-, hbsnd⟩, hasbs⟩ := hnodup
  obtain ⟨hascp, hbscp⟩ := around_ne htidy.nodup hxs
  have hlist' : replacePair cp newp (lists cs) = as ++ .pair newp :: bs := by
    rw [hxs]
    exact replacePair_some hascp rfl hbscp
  have hlt : ∀ a, ∀ x ∈ lists a, x.ident ≠ newp.ident := by
    intro a x hx
    have hold := (h.tidy a).old x hx
    omega
  -- the members of the new lists are old, or the new pair
  have hmem : ∀ a, ∀ x ∈ Function.update lists cs
      (replacePair cp newp (lists cs)) a,
      x ∈ lists a ∨ a = cs ∧ x = .pair newp := by
    intro a x hx
    by_cases ha : a = cs
    · subst ha
      rw [Function.update_self, hlist', List.mem_append, List.mem_cons] at hx
      rw [hxs, List.mem_append, List.mem_cons]
      tauto
    · rw [Function.update_of_ne ha] at hx
      exact Or.inl hx
  refine ⟨hr.trees, fun a => ?_, ?_, fun a ha => ?_⟩
  · refine ⟨hr.list a, ?_, ?_, fun x hx => ?_, ?_⟩
    · rw [hr.tail, (h.tidy a).tail]
      by_cases ha : a = cs
      · subst ha
        have hlast := hok.2
        rw [Function.update_self, hlist', hxs]
        rw [hxs] at hlast
        cases bs with
        | nil => exact absurd List.getLast?_concat hlast
        | cons b bs =>
            rw [List.getLast?_append, List.getLast?_append]
            rfl
      · rw [Function.update_of_ne ha]
    · by_cases ha : a = cs
      · subst ha
        rw [Function.update_self, hlist', List.map_append, List.map_cons,
          List.nodup_append, List.nodup_cons]
        refine ⟨hasnd, ⟨?_, hbsnd⟩, ?_⟩
        · intro hin
          obtain ⟨x, hx, heq⟩ := List.mem_map.mp hin
          refine hlt a x ?_ heq
          rw [hxs]
          exact List.mem_append_right _ (List.mem_cons_of_mem _ hx)
        · intro k hk k' hk' heq
          obtain hk' | hk' := List.mem_cons.mp hk'
          · obtain ⟨x, hx, hxk⟩ := List.mem_map.mp hk
            refine hlt a x ?_ (by rw [hxk, heq, hk']; rfl)
            rw [hxs]
            exact List.mem_append_left _ hx
          · exact hasbs k hk k' (List.mem_cons_of_mem _ hk') heq
      · rw [Function.update_of_ne ha]
        exact (h.tidy a).nodup
    · rw [hr.fresh_eq]
      obtain hx | ⟨-, hx⟩ := hmem a x hx
      · have hold := (h.tidy a).old x hx
        omega
      · rw [hx]
        have hnew : (ConfItem.pair newp).ident = newp.ident := rfl
        omega
    · intro y
      by_cases ha : a = cs
      · subst ha
        rw [hr.pairs, Function.update_self, hlist', htidy.pairs,
          pairNamed_replaced hattr has, hxs]
      · rw [hr.others a ha, Function.update_of_ne ha]
        exact (h.tidy a).pairs y
  · intro a b hab x hx y hy
    obtain hx | ⟨hacs, hxnew⟩ := hmem a x hx
    · obtain hy | ⟨-, hynew⟩ := hmem b y hy
      · exact h.apart a b hab x hx y hy
      · rw [hynew]
        exact hlt a x hx
    · obtain hy | ⟨hbcs, -⟩ := hmem b y hy
      · rw [hxnew]
        exact (hlt b y hy).symm
      · exact absurd (hacs.trans hbcs.symm) hab
  · rw [hr.fresh_eq] at ha
    have hnil := h.unborn a (by omega)
    have hne : a ≠ cs := by
      intro heq
      rw [heq, hxs] at hnil
      exact List.append_ne_nil_of_right_ne_nil as (List.cons_ne_nil _ _) hnil
    rw [Function.update_of_ne hne]
    exact hnil

/-- The views stay in step exactly when the pair may be replaced. -/
theorem Replaced.kept_iff (hr : Replaced heap heap' lists cs cp newp)
    (h : OrderedItems heap lists) (hident : newp.ident = heap.fresh)
    (hattr : newp.attr = cp.attr) (hcp : SamePair lists cp) :
    (∀ a, Kept heap' a (Function.update lists cs
        (replacePair cp newp (lists cs)) a))
      ↔ Replaceable (lists cs) cp := by
  constructor
  · intro hkept
    have hk := hkept cs
    rw [Function.update_self] at hk
    have hlt : ∀ x ∈ lists cs, x.ident ≠ newp.ident := by
      intro x hx
      have hold := (h.tidy cs).old x hx
      omega
    -- the name finds the new pair, so it is in the list
    have hfound : rbtreeFinddata (heap'.sections cs).pairTree
        { ident := 0, attr := cp.attr } = some newp := by
      apply ((hr.trees cs).pairs.finddata_eq_some_iff _ _).mpr
      refine ⟨(hr.pairs newp).mpr (Or.inl rfl), ?_⟩
      rw [hattr]
    have hnamed : pairNamed cp.attr (replacePair cp newp (lists cs))
        = some newp := by
      have hfind := hk.find 0 cp.attr
      rw [cfPairFind_name, hfound] at hfind
      cases hnamed : pairNamed cp.attr (replacePair cp newp (lists cs)) with
      | some p =>
          rw [hnamed] at hfind
          exact (Option.some.inj hfind).symm
      | none =>
          rw [hnamed] at hfind
          cases htempl : (heap'.sections cs).templ with
          | none =>
              rw [htempl] at hfind
              cases hfind
          | some t =>
              rw [htempl] at hfind
              cases hfind
    have hcpin : .pair cp ∈ lists cs := by
      obtain ⟨hin, -⟩ := pairNamed_mem hnamed
      obtain ⟨x, hx, heq⟩ := List.mem_map.mp hin
      split at heq
      · next hid =>
          rw [hcp cs x hx hid] at hx
          exact hx
      · exact absurd (congrArg ConfItem.ident heq) (hlt x hx)
    refine ⟨?_, fun hlast => ?_⟩
    · obtain ⟨as, bs, hxs⟩ := List.append_of_mem hcpin
      obtain ⟨hascp, hbscp⟩ := around_ne (h.tidy cs).nodup hxs
      have hrep : replacePair cp newp (lists cs) = as ++ .pair newp :: bs := by
        rw [hxs]
        exact replacePair_some hascp rfl hbscp
      have has : pairNamed cp.attr as = none := by
        cases hp : pairNamed cp.attr as with
        | none => rfl
        | some p =>
            rw [hrep, pairNamed_append, hp] at hnamed
            cases hnamed
            refine absurd rfl (hlt (.pair newp) ?_)
            rw [hxs]
            exact List.mem_append_left _ (pairNamed_mem hp).1
      have hself : (ConfItem.pair cp).named cp.attr = some cp :=
        named_eq_some.mpr ⟨rfl, rfl⟩
      rw [hxs, pairNamed_append, has, pairNamed_cons, hself]
      rfl
    · have htail := hk.tail
      rw [hr.tail, (h.tidy cs).tail, hlast] at htail
      have hin := List.mem_of_getLast? htail.symm
      obtain ⟨x, hx, heq⟩ := List.mem_map.mp hin
      split at heq
      · exact hlt _ hcpin (congrArg ConfItem.ident heq).symm
      · next hid => exact hid (congrArg ConfItem.ident heq)
  · intro hok a
    exact (hr.ordered h hident hattr hok).kept a

end WinRadius
