/-
Whole runs of the operations on the sections of a configuration.

A run begins with no sections; sections are made, pairs, sections and data
are added to them, pairs are replaced. As long as a replaced pair is the
one its name finds and not the last item, every section keeps its views in
step, and the first replacement that is not like that breaks them
(`conf_kept_iff`): the tail stays behind, or a name finds the new pair in
front of which another stands.
-/
import WinRadius.Proofs.ConfReplace
import WinRadius.Lib.Run

namespace WinRadius

open Lib

variable {heap heap' : ConfHeap} {lists : Nat → List ConfItem} {cs m n : Nat}
  {p : Option ConfItem} {cp : ConfPair}

-- ======== operations

/-- What is done to the sections of a configuration. -/
inductive ConfOp where
  /-- `cf_section_alloc` of a section in no other. -/
  | root (name1 : List UInt8)
  /-- `cf_pair_alloc` and `cf_item_add`. -/
  | pair (cs : Nat) (attr : List UInt8) (value : Option (List UInt8))
      (opToken valueType : FrToken)
  /-- `cf_section_alloc` and `cf_item_add`. -/
  | part (cs : Nat) (name1 : List UInt8) (name2 : Option (List UInt8))
  /-- `cf_data_add`. -/
  | data (cs : Nat) (name : List UInt8) (flag : Int)
  /-- The section that is looked into next is set. -/
  | templ (cs templ : Nat)
  /-- `cf_pair_replace`. -/
  | replace (cs : Nat) (cp : ConfPair) (value : Option (List UInt8))

/-- The memory, and what should be in each section. -/
abbrev ConfState : Type := ConfHeap × (Nat → List ConfItem)

/-- An item is added, and is the last. -/
def addState (n : Nat) (heap : ConfHeap) (lists : Nat → List ConfItem)
    (cs : Nat) (ci : ConfItem) : Option ConfState :=
  (cfItemAdd n heap cs ci).map fun heap =>
    (heap, Function.update lists cs (lists cs ++ [ci]))

/-- One operation. -/
def confOp (n : Nat) (s : ConfState) : ConfOp → Option ConfState
  | .root name1 => some ((cfSectionAlloc s.1 name1 none none).1, s.2)
  | .pair cs attr value opToken valueType =>
      let (heap, cp) := cfPairAlloc s.1 attr value opToken valueType
      addState n heap s.2 cs (.pair cp)
  | .part cs name1 name2 =>
      let (heap, csNew) := cfSectionAlloc s.1 name1 name2 (some cs)
      addState n heap s.2 cs (.part csNew)
  | .data cs name flag =>
      let (heap, cd) := cfDataAlloc s.1 name flag
      addState n heap s.2 cs (.data cd)
  | .templ cs templ => some (s.1.setSection cs
      { s.1.sections cs with templ := some templ }, s.2)
  | .replace cs cp value =>
      (cfPairReplace n s.1 cs cp value).map fun (heap, newp) =>
        (heap, Function.update s.2 cs (replacePair cp newp (s.2 cs)))

/-- The section of an operation is there, and the pair that is replaced is
one. -/
def ConfOp.Allowed (s : ConfState) : ConfOp → Prop
  | .root _ => True
  | .pair cs _ _ _ _ => cs < s.1.fresh
  | .part cs _ _ => cs < s.1.fresh
  | .data cs _ _ => cs < s.1.fresh
  | .templ cs _ => cs < s.1.fresh
  | .replace cs cp _ => cs < s.1.fresh ∧ SamePair s.2 cp

/-- A pair that is replaced is the one its name finds, and not the last
item of its section. -/
def ConfOp.Careful (s : ConfState) : ConfOp → Prop
  | .replace cs cp _ => Replaceable (s.2 cs) cp
  | _ => True

/-- A step by an operation. -/
def ConfStep (op : ConfOp) (s s' : ConfState) : Prop :=
  op.Allowed s ∧ ∃ n, confOp n s op = some s'

/-- The sections keep their views in step. -/
def ConfKept (s : ConfState) : Prop := ∀ cs, Kept s.1 cs (s.2 cs)

/-- No sections. -/
def confEmpty : ConfState := ({}, fun _ => [])

-- ======== steps

theorem ordered_empty : OrderedItems {} fun _ => [] := by
  refine ⟨fun _ => sectionTrees_new rfl rfl rfl rfl,
    fun _ => tidy_nil rfl rfl rfl, ?_, fun _ _ => rfl⟩
  intro a b _ x hx
  cases hx

/-- The walk gives the same with more steps. -/
theorem replaceLoop_mono {ci cn : ConfItem} (hmn : m ≤ n)
    (h : replaceLoop cs ci cn m heap p = some heap') :
    replaceLoop cs ci cn n heap p = some heap' := by
  induction m generalizing n p with
  | zero => cases h
  | succ m ih =>
      cases n with
      | zero => omega
      | succ n =>
          rw [replaceLoop] at h ⊢
          cases hload : heap.load cs p with
          | none =>
              rw [hload] at h
              exact h
          | some item =>
              rw [hload] at h
              dsimp only at h ⊢
              split at h
              · next hid =>
                  rw [if_pos hid]
                  exact h
              · next hid =>
                  rw [if_neg hid]
                  exact ih (by omega) h

theorem cfPairReplace_mono {value : Option (List UInt8)}
    {r : ConfHeap × ConfPair} (hmn : m ≤ n)
    (h : cfPairReplace m heap cs cp value = some r) :
    cfPairReplace n heap cs cp value = some r := by
  unfold cfPairReplace at h ⊢
  dsimp only at h ⊢
  obtain ⟨heap₂, hloop, hrest⟩ := Option.bind_eq_some_iff.mp h
  rw [replaceLoop_mono hmn hloop]
  exact hrest

/-- An item that was just allocated is added. -/
theorem addState_ok {ci : ConfItem} (h : OrderedItems heap lists)
    (hci : NewItem heap lists ci) (hcs : cs < heap.fresh) :
    (∃ s', addState (n + 1) heap lists cs ci = some s')
      ∧ ∀ s', addState n heap lists cs ci = some s' → OrderedItems s'.1 s'.2 := by
  constructor
  · obtain ⟨heap', hadd, -⟩ := h.itemAdd (n := n) hci hcs
    refine ⟨(heap', Function.update lists cs (lists cs ++ [ci])), ?_⟩
    unfold addState
    rw [hadd]
    rfl
  · intro s' hs
    unfold addState at hs
    obtain ⟨heap', hadd, hs'⟩ := Option.map_eq_some_iff.mp hs
    cases n with
    | zero =>
        exfalso
        obtain ⟨heap₁, hlink, -⟩ := cfItemAdd_link h hci cs 0
        rw [hlink] at hadd
        cases hadd
    | succ n =>
        obtain ⟨heap'', hadd', hord⟩ := h.itemAdd (n := n) hci hcs
        rw [hadd] at hadd'
        cases hadd'
        rw [← hs']
        exact hord

/-- The section looked into next is no view of the items. -/
theorem OrderedItems.setTempl (h : OrderedItems heap lists) (cs : Nat)
    (templ : Option Nat) :
    OrderedItems (heap.setSection cs { heap.sections cs with templ := templ })
      lists := by
  obtain ⟨hp, hs, hn, hd⟩ := h.trees cs
  refine ⟨h.trees.setSection ⟨hp, hs, hn, hd⟩, fun a => ?_, h.apart,
    h.unborn⟩
  have htidy := h.tidy a
  by_cases ha : a = cs
  · subst ha
    refine ⟨?_, ?_, htidy.nodup, htidy.old, ?_⟩
    · rw [ConfHeap.setSection_self]
      exact htidy.list
    · rw [ConfHeap.setSection_self]
      exact htidy.tail
    · rw [ConfHeap.setSection_self]
      exact htidy.pairs
  · refine ⟨?_, ?_, htidy.nodup, htidy.old, ?_⟩
    · rw [ConfHeap.setSection_of_ne ha]
      exact htidy.list
    · rw [ConfHeap.setSection_of_ne ha]
      exact htidy.tail
    · rw [ConfHeap.setSection_of_ne ha]
      exact htidy.pairs

/-- An operation on a section that is there can be done. -/
theorem exists_confStep {s : ConfState} (h : OrderedItems s.1 s.2) (op : ConfOp)
    (hop : op.Allowed s) : ∃ s', ConfStep op s s' := by
  cases op with
  | root name1 => exact ⟨_, hop, 0, rfl⟩
  | pair cs attr value opToken valueType =>
      obtain ⟨hord, hnew⟩ := h.item rfl
      obtain ⟨⟨s', hs'⟩, -⟩ := addState_ok (n := 0) hord
        (hnew (.pair ⟨s.1.fresh, attr, value, opToken, valueType⟩) rfl)
        (Nat.lt_succ_of_lt hop)
      exact ⟨s', hop, 1, hs'⟩
  | part cs name1 name2 =>
      obtain ⟨hord, hnew⟩ := h.part name1 name2 (some cs)
      obtain ⟨⟨s', hs'⟩, -⟩ := addState_ok (n := 0) hord
        (hnew (.part (cfSectionAlloc s.1 name1 name2 (some cs)).2) rfl)
        (Nat.lt_succ_of_lt hop)
      exact ⟨s', hop, 1, hs'⟩
  | data cs name flag =>
      obtain ⟨hord, hnew⟩ := h.item rfl
      obtain ⟨⟨s', hs'⟩, -⟩ := addState_ok (n := 0) hord
        (hnew (.data ⟨s.1.fresh, name, flag⟩) rfl) (Nat.lt_succ_of_lt hop)
      exact ⟨s', hop, 1, hs'⟩
  | templ cs templ => exact ⟨_, hop, 0, rfl⟩
  | replace cs cp value =>
      obtain ⟨heap', hrep, -⟩ := cfPairReplace_ok h hop.2 value
        (Nat.lt_add_one (s.2 cs).length)
      have hrun : confOp ((s.2 cs).length + 1) s (.replace cs cp value)
          = some (heap', Function.update s.2 cs (replacePair cp
            ⟨s.1.fresh, cp.attr, value, cp.opToken, cp.valueType⟩
            (s.2 cs))) := by
        dsimp only [confOp]
        rw [hrep]
        rfl
      exact ⟨_, hop, _, hrun⟩

/-- What a step leaves: the sections in order after a careful one, and the
views in step after no other. -/
theorem ConfStep.spec {s s' : ConfState} {op : ConfOp}
    (hstep : ConfStep op s s') (h : OrderedItems s.1 s.2) :
    (op.Careful s → OrderedItems s'.1 s'.2) ∧ (ConfKept s' ↔ op.Careful s) := by
  obtain ⟨hop, n, hs'⟩ := hstep
  -- the operations but one are always careful
  have hadd : (op.Careful s ∧ OrderedItems s'.1 s'.2) →
      (op.Careful s → OrderedItems s'.1 s'.2) ∧ (ConfKept s' ↔ op.Careful s) :=
    fun ⟨hc, hord⟩ => ⟨fun _ => hord, fun _ => hc, fun _ => hord.kept⟩
  cases op with
  | root name1 =>
      cases hs'
      exact hadd ⟨trivial, (h.part name1 none none).1⟩
  | pair cs attr value opToken valueType =>
      obtain ⟨hord, hnew⟩ := h.item rfl
      exact hadd ⟨trivial, (addState_ok hord (hnew (.pair
        ⟨s.1.fresh, attr, value, opToken, valueType⟩) rfl)
        (Nat.lt_succ_of_lt hop)).2 s' hs'⟩
  | part cs name1 name2 =>
      obtain ⟨hord, hnew⟩ := h.part name1 name2 (some cs)
      exact hadd ⟨trivial, (addState_ok hord (hnew (.part
        (cfSectionAlloc s.1 name1 name2 (some cs)).2) rfl)
        (Nat.lt_succ_of_lt hop)).2 s' hs'⟩
  | data cs name flag =>
      obtain ⟨hord, hnew⟩ := h.item rfl
      exact hadd ⟨trivial, (addState_ok hord (hnew (.data
        ⟨s.1.fresh, name, flag⟩) rfl) (Nat.lt_succ_of_lt hop)).2 s' hs'⟩
  | templ cs templ =>
      cases hs'
      exact hadd ⟨trivial, h.setTempl cs (some templ)⟩
  | replace cs cp value =>
      obtain ⟨heap', hrep, hr⟩ := cfPairReplace_ok h hop.2 value
        (Nat.lt_succ_of_le (le_max_right n (s.2 cs).length))
      obtain ⟨⟨heap₂, newp⟩, hrep', hs''⟩ := Option.map_eq_some_iff.mp hs'
      rw [cfPairReplace_mono (by omega) hrep'] at hrep
      cases hrep
      rw [← hs'']
      exact ⟨hr.ordered h rfl rfl, hr.kept_iff h rfl rfl hop.2⟩

-- ======== runs

theorem ordered_reached {s : ConfState}
    (h : Reaches (fun s s' => ∃ op : ConfOp, op.Careful s ∧ ConfStep op s s')
      confEmpty s) : OrderedItems s.1 s.2 :=
  h.invariant (fun s => OrderedItems s.1 s.2) ordered_empty
    fun _ _ hord ⟨_, hc, hstep⟩ => (hstep.spec hord).1 hc

/-- In every run whose replacements are careful, each section keeps its
views in step; whatever comes next can be done, and keeps them in step
exactly when it is careful too. -/
theorem conf_kept_iff (s : ConfState)
    (h : Reaches (fun s s' => ∃ op : ConfOp, op.Careful s ∧ ConfStep op s s')
      confEmpty s) :
    ConfKept s ∧ ∀ op : ConfOp, op.Allowed s →
      (∃ s', ConfStep op s s')
        ∧ ∀ s', ConfStep op s s' → (ConfKept s' ↔ op.Careful s) := by
  have hord := ordered_reached h
  refine ⟨hord.kept, fun op hop => ⟨exists_confStep hord op hop, ?_⟩⟩
  intro s' hstep
  exact (hstep.spec hord).2

-- ======== a section of two pairs

/-- A pair of a section is the item at its address. -/
theorem OrderedItems.samePair {lists : Nat → List ConfItem}
    (h : OrderedItems heap lists) (hcp : .pair cp ∈ lists cs) :
    SamePair lists cp := by
  intro a x hx hid
  by_cases ha : a = cs
  · subst ha
    exact List.inj_on_of_nodup_map (h.tidy a).nodup hx hcp hid
  · exact absurd hid (h.apart a cs ha x hx _ hcp)

/-- A pair is added to the items of its section. -/
theorem ConfStep.pair_lists {s s' : ConfState} {attr : List UInt8}
    {value : Option (List UInt8)} {opToken valueType : FrToken}
    (h : ConfStep (.pair cs attr value opToken valueType) s s') :
    s'.2 cs = s.2 cs ++ [.pair ⟨s.1.fresh, attr, value, opToken, valueType⟩]
    := by
  obtain ⟨-, n, hrun⟩ := h
  obtain ⟨heap, -, hs⟩ := Option.map_eq_some_iff.mp hrun
  rw [← hs]
  exact Function.update_self ..

/-- A pair is replaced in the items of its section. -/
theorem ConfStep.replace_lists {s s' : ConfState}
    {value : Option (List UInt8)} (h : ConfStep (.replace cs cp value) s s') :
    s'.2 cs = replacePair cp
      ⟨s.1.fresh, cp.attr, value, cp.opToken, cp.valueType⟩ (s.2 cs) := by
  obtain ⟨-, n, hrun⟩ := h
  obtain ⟨⟨heap, newp⟩, hrep, hs⟩ := Option.map_eq_some_iff.mp hrun
  obtain ⟨heap₁, -, hrep⟩ := Option.bind_eq_some_iff.mp hrep
  obtain ⟨tree, -, hrep⟩ := Option.bind_eq_some_iff.mp hrep
  cases hrep
  rw [← hs]
  exact Function.update_self ..

/-- The first pair of a section. -/
def portPair : ConfPair where
  ident := 1
  attr := ascii "port"
  value := some (ascii "1812")
  opToken := .opEq
  valueType := .bareWord

/-- A section that reads `port = 1812`. -/
theorem exists_portSection : ∃ s₁ s₂ : ConfState,
    ConfStep (.root (ascii "main")) confEmpty s₁
      ∧ ConfStep (.pair 0 (ascii "port") (some (ascii "1812")) .opEq
        .bareWord) s₁ s₂
      ∧ OrderedItems s₂.1 s₂.2 ∧ s₂.2 0 = [.pair portPair]
      ∧ portPair.ident < s₂.1.fresh := by
  obtain ⟨s₁, hs₁⟩ : ∃ s₁ : ConfState, s₁ =
    ((cfSectionAlloc {} (ascii "main") none none).1, fun _ => []) :=
    ⟨_, rfl⟩
  have hroot : ConfStep (.root (ascii "main")) confEmpty s₁ :=
    ⟨trivial, 0, by rw [hs₁]; rfl⟩
  have hord₁ := (hroot.spec ordered_empty).1 trivial
  obtain ⟨s₂, hpair⟩ := exists_confStep hord₁ (.pair 0 (ascii "port")
    (some (ascii "1812")) .opEq .bareWord) (by rw [hs₁]; exact Nat.one_pos)
  have hord₂ := (hpair.spec hord₁).1 trivial
  have hlist : s₂.2 0 = [.pair portPair] := by
    rw [hpair.pair_lists, hs₁]
    rfl
  exact ⟨s₁, s₂, hroot, hpair, hord₂, hlist, (hord₂.tidy 0).old
    (.pair portPair) (by rw [hlist]; exact List.mem_singleton_self _)⟩

/-- A second pair is added to it, and the first one is replaced: it has its
new value, and the views are in step. -/
theorem conf_kept_replaced : ∃ s₁ s₂ s₃ s₄ : ConfState,
    ConfStep (.root (ascii "main")) confEmpty s₁
      ∧ ConfStep (.pair 0 (ascii "port") (some (ascii "1812")) .opEq
        .bareWord) s₁ s₂
      ∧ ConfStep (.pair 0 (ascii "host") (some (ascii "a")) .opEq
        .bareWord) s₂ s₃
      ∧ ConfStep (.replace 0 portPair (some (ascii "1813"))) s₃ s₄
      ∧ s₄.2 0 = [.pair { portPair with
          ident := s₃.1.fresh, value := some (ascii "1813") },
        .pair ⟨s₂.1.fresh, ascii "host", some (ascii "a"), .opEq,
          .bareWord⟩]
      ∧ ConfKept s₄ := by
  obtain ⟨s₁, s₂, hroot, hpair, hord₂, hlist, hfresh⟩ := exists_portSection
  obtain ⟨s₃, hhost⟩ := exists_confStep hord₂ (.pair 0 (ascii "host")
    (some (ascii "a")) .opEq .bareWord) (Nat.zero_lt_of_lt hfresh)
  have hord₃ := (hhost.spec hord₂).1 trivial
  have hlist₃ := hhost.pair_lists
  rw [hlist] at hlist₃
  have hport : .pair portPair ∈ s₃.2 0 := by
    rw [hlist₃]
    exact List.mem_cons_self
  obtain ⟨s₄, hreplace⟩ := exists_confStep hord₃
    (.replace 0 portPair (some (ascii "1813")))
    ⟨Nat.zero_lt_of_lt ((hord₃.tidy 0).old _ hport), hord₃.samePair hport⟩
  have hcareful : Replaceable (s₃.2 0) portPair := by
    rw [hlist₃]
    refine ⟨rfl, fun hlast => ?_⟩
    have hident : s₂.1.fresh = portPair.ident :=
      congrArg ConfItem.ident (Option.some.inj hlast)
    omega
  have hrun : Reaches (fun s s' => ∃ op : ConfOp, op.Careful s
      ∧ ConfStep op s s') confEmpty s₄ :=
    ((((Reaches.refl.step ⟨.root _, trivial, hroot⟩).step
      ⟨.pair _ _ _ _ _, trivial, hpair⟩).step
      ⟨.pair _ _ _ _ _, trivial, hhost⟩).step
      ⟨.replace _ _ _, hcareful, hreplace⟩)
  refine ⟨s₁, s₂, s₃, s₄, hroot, hpair, hhost, hreplace, ?_,
    (conf_kept_iff s₄ hrun).1⟩
  have hne : ¬ s₂.1.fresh = portPair.ident := by omega
  rw [hreplace.replace_lists, hlist₃]
  simp [replacePair, ConfItem.ident, hne]

/-- Where `port = 1812` is the only item, its replacement leaves the tail
behind. -/
theorem confReplace_breaks :
    ∃ s₁ s₂ s₃ : ConfState, ConfStep (.root (ascii "main")) confEmpty s₁
      ∧ ConfStep (.pair 0 (ascii "port") (some (ascii "1812")) .opEq
        .bareWord) s₁ s₂
      ∧ ConfStep (.replace 0 portPair (some (ascii "1813"))) s₂ s₃
      ∧ ¬ ConfKept s₃ := by
  obtain ⟨s₁, s₂, hroot, hpair, hord₂, hlist, hfresh⟩ := exists_portSection
  have hport : .pair portPair ∈ s₂.2 0 := by
    rw [hlist]
    exact List.mem_singleton_self _
  obtain ⟨s₃, hreplace⟩ := exists_confStep hord₂
    (.replace 0 portPair (some (ascii "1813")))
    ⟨Nat.zero_lt_of_lt hfresh, hord₂.samePair hport⟩
  refine ⟨s₁, s₂, s₃, hroot, hpair, hreplace, fun hkept => ?_⟩
  have hcareful : Replaceable (s₂.2 0) portPair :=
    (hreplace.spec hord₂).2.mp hkept
  rw [hlist] at hcareful
  exact hcareful.2 rfl

end WinRadius
