/-
The trees of a section: all of them are ordered by what their comparison
reads, and adding an item keeps that.

`addItem_ok` says once what a round of `cf_item_add` does: the tail is the
item, a pair whose name is not there yet enters the tree of pairs, and of
the other sections only trees of second names change (`SameItems`).
-/
import WinRadius.Model.ConfSection
import WinRadius.Proofs.PacketKeys
import Mathlib.Order.WithBot

namespace WinRadius

open Lib

variable {heap heap' : ConfHeap} {cs : Nat} {ci : ConfItem}
  {s s' : ConfSection}

-- ======== comparisons

theorem strcmp_spec (a b : List UInt8) :
    (strcmp a b < 0 ↔ byteKey a < byteKey b)
      ∧ (strcmp a b = 0 ↔ byteKey a = byteKey b) := by
  induction a generalizing b with
  | nil =>
      cases b with
      | nil => simp [strcmp, byteKey]
      | cons y b => simp [strcmp, byteKey]
  | cons x a ih =>
      cases b with
      | nil => simp [strcmp, byteKey]
      | cons y b =>
          have hcons : ∀ (z : UInt8) (l : List UInt8),
              byteKey (z :: l) = (z.toNat : Int) :: byteKey l :=
            fun _ _ => rfl
          obtain ⟨ih1, ih2⟩ := ih b
          have hlt : x < y ↔ (x.toNat : Int) < y.toNat := by
            rw [UInt8.lt_iff_toNat_lt]
            omega
          have hgt : y < x ↔ (y.toNat : Int) < x.toNat := by
            rw [UInt8.lt_iff_toNat_lt]
            omega
          rw [strcmp, hcons, hcons, List.cons_lt_cons_iff, List.cons.injEq,
            ← ih1, ← ih2]
          simp only [hlt, hgt]
          exact ⟨cmp_lt_iff _ _ _, cmp_eq_iff _ _ _⟩

theorem pairCmp_lawful :
    RbLawful pairCmp (fun _ => True) fun x => byteKey x.attr :=
  ⟨fun a b _ => (strcmp_spec a.attr b.attr).1,
    fun a b _ => (strcmp_spec a.attr b.attr).2⟩

theorem sectionCmp_lawful :
    RbLawful sectionCmp (fun _ => True) fun x => byteKey x.name1 :=
  ⟨fun a b _ => (strcmp_spec a.name1 b.name1).1,
    fun a b _ => (strcmp_spec a.name1 b.name1).2⟩

/-- What `name2_cmp` compares: no name comes first. -/
def name2Key (x : ConfPart) : WithBot (List Int) :=
  match x.name2 with
  | none => ⊥
  | some name => (byteKey name : WithBot (List Int))

theorem name2Cmp_lawful :
    RbLawful name2Cmp (fun _ => True) name2Key := by
  constructor
  · intro a b _
    unfold name2Cmp name2Key
    cases a.name2 with
    | none =>
        cases b.name2 with
        | none => simp
        | some y => simp [WithBot.bot_lt_coe]
    | some x =>
        cases b.name2 with
        | none => simp
        | some y =>
            dsimp only
            rw [WithBot.coe_lt_coe]
            exact (strcmp_spec x y).1
  · intro a b _
    unfold name2Cmp name2Key
    cases a.name2 with
    | none =>
        cases b.name2 with
        | none => simp
        | some y => simp
    | some x =>
        cases b.name2 with
        | none => simp
        | some y =>
            dsimp only
            rw [WithBot.coe_inj]
            exact (strcmp_spec x y).2

/-- What `data_cmp` compares, in its order. -/
def dataKey (x : ConfData) : Int ×ₗ List Int := toLex (x.flag, byteKey x.name)

theorem dataCmp_lawful :
    RbLawful dataCmp (fun _ => True) dataKey := by
  constructor
  · intro a b _
    unfold dataCmp dataKey
    rw [Prod.Lex.toLex_lt_toLex]
    dsimp only
    rw [← (strcmp_spec a.name b.name).1]
    split
    · omega
    · omega
  · intro a b _
    unfold dataCmp dataKey
    rw [toLex_inj, Prod.mk.injEq, ← (strcmp_spec a.name b.name).2]
    split
    · omega
    · omega

-- ======== trees

/-- The trees of a section are ordered. -/
structure SectionTrees (s : ConfSection) : Prop where
  pairs : s.pairTree.Wf (fun _ => True) fun x => byteKey x.attr
  sections : ∀ t, s.sectionTree = some t →
    t.Wf (fun _ => True) fun x => byteKey x.name1
  names : ∀ t, s.name2Tree = some t → t.Wf (fun _ => True) name2Key
  datas : ∀ t, s.dataTree = some t → t.Wf (fun _ => True) dataKey

/-- So are those of every section. -/
def ConfHeap.Trees (heap : ConfHeap) : Prop :=
  ∀ a, SectionTrees (heap.sections a)

/-- Nothing that a lookup of a pair reads has changed. -/
def SameItems (s s' : ConfSection) : Prop :=
  s'.children = s.children ∧ s'.tail = s.tail ∧ s'.pairTree = s.pairTree
    ∧ s'.templ = s.templ

theorem SameItems.refl (s : ConfSection) : SameItems s s :=
  ⟨rfl, rfl, rfl, rfl⟩

theorem SameItems.trans {t : ConfSection} (h : SameItems s s')
    (h' : SameItems s' t) : SameItems s t :=
  ⟨h'.1.trans h.1, h'.2.1.trans h.2.1, h'.2.2.1.trans h.2.2.1,
    h'.2.2.2.trans h.2.2.2⟩

/-- A section of no items has ordered trees. -/
theorem sectionTrees_new (hp : s.pairTree = rbtreeCreate pairCmp false)
    (hs : s.sectionTree = none) (hn : s.name2Tree = none)
    (hd : s.dataTree = none) : SectionTrees s := by
  refine ⟨?_, ?_, ?_, ?_⟩
  · rw [hp]
    exact rbtreeCreate_wf pairCmp_lawful
  · rw [hs]
    intro t ht
    cases ht
  · rw [hn]
    intro t ht
    cases ht
  · rw [hd]
    intro t ht
    cases ht

theorem ConfHeap.setSection_self (heap : ConfHeap) (cs : Nat)
    (s : ConfSection) : (heap.setSection cs s).sections cs = s :=
  Function.update_self _ _ _

theorem ConfHeap.setSection_of_ne {a : Nat} (ha : a ≠ cs) :
    (heap.setSection cs s).sections a = heap.sections a :=
  Function.update_of_ne ha _ _

theorem ConfHeap.Trees.setSection (h : heap.Trees) (hs : SectionTrees s) :
    (heap.setSection cs s).Trees := by
  intro a
  by_cases ha : a = cs
  · subst ha
    rw [heap.setSection_self]
    exact hs
  · rw [ConfHeap.setSection_of_ne ha]
    exact h a

theorem sameItems_setSection (hs : SameItems (heap.sections cs) s) (a : Nat) :
    SameItems (heap.sections a) ((heap.setSection cs s).sections a) := by
  by_cases ha : a = cs
  · subst ha
    rw [heap.setSection_self]
    exact hs
  · rw [ConfHeap.setSection_of_ne ha]
    exact SameItems.refl _

/-- A tree that is created when it is not there. -/
theorem wf_getD {α κ : Type} [LinearOrder κ] {compare : α → α → Int}
    {key : α → κ} {tree : Option (RbTree α)}
    (law : RbLawful compare (fun _ => True) key)
    (h : ∀ t, tree = some t → t.Wf (fun _ => True) key) :
    (tree.getD (rbtreeCreate compare false)).Wf (fun _ => True) key := by
  cases tree with
  | none => exact rbtreeCreate_wf law
  | some t => exact h t rfl

-- ======== adding

/-- What is left of the memory when only trees of sections change. -/
structure TreesOnly (heap heap' : ConfHeap) : Prop where
  next_eq : heap'.next = heap.next
  fresh_eq : heap'.fresh = heap.fresh
  same : ∀ a, SameItems (heap.sections a) (heap'.sections a)

theorem addPart_ok (h : heap.Trees) (cs : Nat) (csNew : ConfPart) :
    ∃ heap', addPart heap cs csNew = some heap' ∧ heap'.Trees
      ∧ TreesOnly heap heap' := by
  have hwf := wf_getD sectionCmp_lawful (h cs).sections
  obtain ⟨t, b, hins, hwf', -⟩ := hwf.insertnode_spec (d := csNew) trivial
  obtain ⟨s, hs⟩ : ∃ s, s = { heap.sections cs with sectionTree := some t } :=
    ⟨_, rfl⟩
  have hst : SectionTrees s := by
    rw [hs]
    refine ⟨(h cs).pairs, ?_, (h cs).names, (h cs).datas⟩
    intro u hu
    cases hu
    exact hwf'
  have hsame : SameItems (heap.sections cs) s := by
    rw [hs]
    exact ⟨rfl, rfl, rfl, rfl⟩
  have h₁ : (heap.setSection cs s).Trees := h.setSection hst
  unfold addPart
  simp only [hins, Option.bind_eq_bind, Option.bind_some, ← hs]
  cases hfind : rbtreeFinddata t csNew with
  | none =>
      exact ⟨_, rfl, h₁, rfl, rfl, sameItems_setSection hsame⟩
  | some oldCs =>
      have hold := h₁ oldCs.ident
      obtain ⟨u, b', hins', hwfu, -⟩ :=
        (wf_getD name2Cmp_lawful hold.names).insertnode_spec (d := csNew)
          trivial
      dsimp only
      rw [hins']
      refine ⟨_, rfl, h₁.setSection ?_, rfl, rfl, fun a => ?_⟩
      · refine ⟨hold.pairs, hold.sections, ?_, hold.datas⟩
        intro v hv
        cases hv
        exact hwfu
      · apply (sameItems_setSection hsame a).trans
        apply sameItems_setSection
        exact ⟨rfl, rfl, rfl, rfl⟩

/-- What a round of `cf_item_add` does. -/
theorem addItem_ok (h : heap.Trees) (cs : Nat) (ci : ConfItem) :
    ∃ heap', addItem heap cs ci = some heap' ∧ heap'.Trees
      ∧ heap'.next = heap.next ∧ heap'.fresh = heap.fresh
      ∧ (∀ a ≠ cs, SameItems (heap.sections a) (heap'.sections a))
      ∧ (heap'.sections cs).children = (heap.sections cs).children
      ∧ (heap'.sections cs).tail = some ci
      ∧ (heap'.sections cs).templ = (heap.sections cs).templ
      ∧ ∀ y, y ∈ (heap'.sections cs).pairTree.root.toList
          ↔ y ∈ (heap.sections cs).pairTree.root.toList
            ∨ ci = .pair y
              ∧ ∀ z ∈ (heap.sections cs).pairTree.root.toList,
                  z.attr ≠ y.attr := by
  obtain ⟨hpairs, hsections, hnames, hdatas⟩ := h cs
  unfold addItem
  cases ci with
  | pair cp =>
      obtain ⟨t, b, hins, hwf, hb, hmem⟩ :=
        hpairs.insertnode_spec (d := cp) trivial
      simp only [hins, Option.bind_eq_bind, Option.bind_some]
      refine ⟨_, rfl, h.setSection ⟨hwf, hsections, hnames, hdatas⟩, rfl, rfl,
        fun a ha => ?_, ?_⟩
      · rw [ConfHeap.setSection_of_ne ha]
        exact SameItems.refl _
      · simp only [ConfHeap.setSection_self]
        refine ⟨trivial, trivial, trivial, fun y => ?_⟩
        rw [hmem, hb]
        constructor
        · intro hy
          obtain hy | ⟨hnew, hcp⟩ := hy
          · exact Or.inl hy
          · subst hcp
            refine Or.inr ⟨rfl, fun z hz heq => hnew z hz ?_⟩
            rw [heq]
        · intro hy
          obtain hy | ⟨hcp, hnew⟩ := hy
          · exact Or.inl hy
          · cases hcp
            refine Or.inr ⟨fun z hz heq => hnew z hz ?_, rfl⟩
            exact byteKey_inj.mp heq
  | part csNew =>
      obtain ⟨s, hs⟩ : ∃ s, s = { heap.sections cs with
          tail := some (.part csNew) } := ⟨_, rfl⟩
      have htrees : (heap.setSection cs s).Trees := by
        apply h.setSection
        rw [hs]
        exact ⟨hpairs, hsections, hnames, hdatas⟩
      obtain ⟨heap', hadd, htrees', hnext, hfresh, hsame⟩ :=
        addPart_ok htrees cs csNew
      obtain ⟨hc, ht, hp, htempl⟩ := hsame cs
      rw [heap.setSection_self] at hc ht hp htempl
      simp only [← hs]
      refine ⟨heap', hadd, htrees', hnext, hfresh, fun a ha => ?_, ?_⟩
      · have hsame' := hsame a
        rw [ConfHeap.setSection_of_ne ha] at hsame'
        exact hsame'
      · rw [hc, ht, hp, htempl, hs]
        refine ⟨rfl, rfl, rfl, fun y => ⟨Or.inl, ?_⟩⟩
        intro hy
        obtain hy | ⟨hcp, -⟩ := hy
        · exact hy
        · cases hcp
  | data cd =>
      obtain ⟨t, b, hins, hwf, -⟩ := (wf_getD dataCmp_lawful
        hdatas).insertnode_spec (d := cd) trivial
      simp only [hins, Option.bind_eq_bind, Option.bind_some]
      refine ⟨_, rfl, h.setSection ⟨hpairs, hsections, hnames, ?_⟩, rfl, rfl,
        fun a ha => ?_, ?_⟩
      · intro u hu
        cases hu
        exact hwf
      · rw [ConfHeap.setSection_of_ne ha]
        exact SameItems.refl _
      · simp only [ConfHeap.setSection_self]
        refine ⟨trivial, trivial, trivial, fun y => ⟨Or.inl, ?_⟩⟩
        intro hy
        obtain hy | ⟨hcp, -⟩ := hy
        · exact hy
        · cases hcp

end WinRadius
