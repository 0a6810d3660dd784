/-
heap.cpp keeps a heap: the order, the position stored in each object, and
exactly the objects that were inserted and not extracted since.

# The two loops

`fr_heap_bubble` moves one defect up (`OrderedBut`), and the loop of
`fr_heap_extract` moves a hole down (`Hollow`). A hole that ends before the
last element is filled with that one, which is a defect again: the filled
element may belong above the hole as well as below the old one.

# The positions

Each step writes the position of the object it has moved. What stands at
the defect, or was left behind in the hole, is the one object whose
position is not right in between.
-/
import WinRadius.Lib.BinaryHeap
import WinRadius.Model.Heap
import WinRadius.Proofs.RbRefines

namespace WinRadius

open Lib.BinaryHeap

section heap

variable {α : Type} [DecidableEq α]

namespace FrHeap

variable {hp : FrHeap α}

/-- The order that the heap's comparison gives. -/
def Le (hp : FrHeap α) (a b : α) : Prop := hp.cmp a b ≤ 0

/-- What holds of a heap between two calls. -/
structure Valid (hp : FrHeap α) : Prop where
  order : Ordered hp.Le hp.p
  placed : ∀ (i : Nat) x, hp.p[i]? = some x → hp.index x = i

/-- What no call changes. -/
def SameKind (hp hp' : FrHeap α) : Prop :=
  hp'.cmp = hp.cmp ∧ hp'.offset = hp.offset

omit [DecidableEq α] in
theorem SameKind.trans {hp₁ hp₂ hp₃ : FrHeap α} (h : SameKind hp₁ hp₂)
    (h' : SameKind hp₂ hp₃) : SameKind hp₁ hp₃ :=
  ⟨h'.1.trans h.1, h'.2.trans h.2⟩

omit [DecidableEq α] in
theorem le_refl (tc : TotalCompare hp.cmp) (a : α) : hp.Le a a := by
  have h := tc.swap a a
  show hp.cmp a a ≤ 0
  omega

omit [DecidableEq α] in
theorem le_trans (tc : TotalCompare hp.cmp) (a b c : α) (hab : hp.Le a b)
    (hbc : hp.Le b c) : hp.Le a c :=
  tc.trans a b c hab hbc

omit [DecidableEq α] in
/-- What is not less is no less. -/
theorem le_of_not_lt (tc : TotalCompare hp.cmp) {a b : α}
    (h : ¬ hp.cmp a b < 0) : hp.Le b a := by
  rw [tc.swap] at h
  exact Int.not_lt.mp h

/-- The position of the object at a node is written. -/
theorem writeOffset_eq (hp : FrHeap α) (hoff : hp.offset ≠ 0)
    {node : Nat} {d : α} (hd : hp.p[node]? = some d) (v : Int) :
    hp.writeOffset node v = some { hp with
      index := fun x => if x = d then v else hp.index x } := by
  unfold writeOffset
  rw [if_neg hoff, hd]
  rfl

-- ======== fr_heap_bubble

/-- What the loop of `fr_heap_bubble` starts from and keeps. -/
structure Rising (hp : FrHeap α) (child : Nat) : Prop where
  order : OrderedBut hp.Le hp.p child
  placed : Placed hp.index hp.p child
  alone : Alone hp.p child

/-- The defect is gone: the last `SET_OFFSET`. -/
theorem Rising.stop {child : Nat} {d : α} (h : Rising hp child)
    (hoff : hp.offset ≠ 0) (hd : hp.p[child]? = some d)
    (ho : Ordered hp.Le hp.p) :
    ∃ hp', hp.setOffset child = some hp' ∧ hp'.Valid ∧ hp'.p = hp.p
      ∧ SameKind hp hp' :=
  ⟨_, writeOffset_eq hp hoff hd _, ⟨ho, h.placed.write h.alone hd⟩, rfl,
    rfl, rfl⟩

/-- One exchange with the parent. -/
theorem Rising.up {child : Nat} {above here : α} (h : Rising hp child)
    (tc : TotalCompare hp.cmp) (hoff : hp.offset ≠ 0) (hpos : 0 < child)
    (ha : hp.p[heapParent child]? = some above)
    (hh : hp.p[child]? = some here) (hle : hp.Le here above) :
    ∃ hp', { hp with
        p := (hp.p.set child above).set (heapParent child) here
        : FrHeap α }.setOffset child = some hp'
      ∧ Rising hp' (heapParent child)
      ∧ hp'.p = (hp.p.set child above).set (heapParent child) here
      ∧ SameKind hp hp' := by
  have hlt : heapParent child < child := parent_lt hpos
  have hlen := (List.getElem?_eq_some_iff.mp hh).1
  have hc : ((hp.p.set child above).set (heapParent child) here)[child]?
      = some above := by
    rw [List.getElem?_set_ne (by omega), List.getElem?_set_self hlen]
  have hp' : ((hp.p.set child above).set (heapParent child)
      here)[heapParent child]? = some here := by
    rw [List.getElem?_set_self (by rw [List.length_set]; omega)]
  refine ⟨_, writeOffset_eq { hp with
    p := (hp.p.set child above).set (heapParent child) here } hoff hc _,
    ⟨?_, ?_, ?_⟩, rfl, rfl, rfl⟩
  · exact h.order.up (le_trans tc) hpos ha hh hle
  · -- the old parent is at `child` now, and its position is written
    intro i x hip hx
    show (if x = above then (child : Int) else hp.index x) = i
    rcases getElem?_swap_cases hx with ⟨hi, -⟩ | ⟨-, hi, hxa⟩ | ⟨-, hic, hx⟩
    · exact absurd hi hip
    · rw [if_pos hxa, hi]
    · have hix := h.placed i x hic hx
      have hne : x ≠ above := by
        intro e
        have hpa := h.placed _ _ (Nat.ne_of_lt hlt) ha
        rw [← e, hix] at hpa
        exact hip (Int.ofNat_inj.mp hpa)
      rw [if_neg hne]
      exact hix
  · intro i x hip hx he
    rw [hp'] at he
    cases he
    rcases getElem?_swap_cases hx with ⟨hi, -⟩ | ⟨-, hi, hxa⟩ | ⟨-, hic, hx⟩
    · exact absurd hi hip
    · -- the two that were exchanged differ
      rw [← hxa] at ha
      exact h.alone _ _ (Nat.ne_of_lt hlt) ha hh
    · exact h.alone i _ hic hx hh

/-- `fr_heap_bubble` repairs a heap with one defect. -/
theorem bubble_spec (fuel : Nat) : ∀ (hp : FrHeap α) (child : Nat),
    TotalCompare hp.cmp → hp.offset ≠ 0 → child < fuel →
    child < hp.p.length → Rising hp child →
    ∃ hp', bubble fuel hp child = some hp' ∧ hp'.Valid
      ∧ hp'.p.Perm hp.p ∧ SameKind hp hp' := by
  induction fuel with
  | zero =>
      intro hp child _ _ hf
      omega
  | succ fuel ih =>
      intro hp child tc hoff hf hlen h
      obtain ⟨here, hh⟩ : ∃ x, hp.p[child]? = some x :=
        ⟨_, List.getElem?_eq_getElem hlen⟩
      by_cases hpos : 0 < child
      · have hlt : heapParent child < child := parent_lt hpos
        obtain ⟨above, ha⟩ : ∃ x, hp.p[heapParent child]? = some x :=
          ⟨_, List.getElem?_eq_getElem (hlt.trans hlen)⟩
        simp only [bubble, if_pos hpos, ha, hh, Option.bind_eq_bind,
          Option.bind_some]
        by_cases hc : hp.cmp above here < 0
        · -- the parent is smaller
          rw [if_pos hc]
          have hedge : Edge hp.Le hp.p (heapParent child) child := by
            intro x y hx hy
            rw [ha] at hx
            rw [hh] at hy
            cases hx
            cases hy
            exact Int.le_of_lt hc
          obtain ⟨hp', heq, hv, hpp, hs⟩ :=
            h.stop hoff hh (h.order.ordered hedge)
          exact ⟨hp', heq, hv, hpp ▸ List.Perm.refl _, hs⟩
        · rw [if_neg hc]
          obtain ⟨hp₁, heq, hr, hpp, hs⟩ :=
            h.up tc hoff hpos ha hh (le_of_not_lt tc hc)
          rw [heq]
          have hperm : hp₁.p.Perm hp.p := by
            rw [hpp]
            exact swap_perm ha hh
          obtain ⟨hp', heq', hv, hp'p, hs'⟩ := ih hp₁ (heapParent child)
            (by rw [hs.1]; exact tc) (by rw [hs.2]; exact hoff)
            (by omega) (by rw [hperm.length_eq]; omega) hr
          exact ⟨hp', heq', hv, hp'p.trans hperm, hs.trans hs'⟩
      · have h0 : child = 0 := by omega
        subst h0
        simp only [bubble, if_neg hpos]
        obtain ⟨hp', heq, hv, hpp, hs⟩ :=
          h.stop hoff hh h.order.ordered_zero
        exact ⟨hp', heq, hv, hpp ▸ List.Perm.refl _, hs⟩

end FrHeap

open FrHeap

/-- `fr_heap_insert` of an object that is not in the heap: it is added,
or a larger array was needed and not to be had. -/
theorem frHeapInsert_spec {hp : FrHeap α} (tc : TotalCompare hp.cmp)
    (hoff : hp.offset ≠ 0) (hv : hp.Valid) (grown : Bool) {d : α}
    (hd : d ∉ hp.p) :
    (∃ hp', frHeapInsert hp grown d = some (hp', 1) ∧ hp'.Valid
      ∧ hp'.p.Perm (d :: hp.p) ∧ SameKind hp hp')
    ∨ (frHeapInsert hp grown d = some (hp, 0)
      ∧ hp.p.length = hp.size ∧ grown = false) := by
  by_cases hfull : hp.p.length = hp.size ∧ grown = false
  · right
    unfold frHeapInsert
    rw [if_pos hfull]
    exact ⟨rfl, hfull⟩
  · left
    unfold frHeapInsert
    rw [if_neg hfull]
    obtain ⟨size, hsize⟩ : ∃ n, n = if hp.p.length = hp.size
      then 2 * hp.size else hp.size := ⟨_, rfl⟩
    rw [← hsize]
    obtain ⟨hp₁, h₁⟩ : ∃ h : FrHeap α,
      h = { hp with size := size, p := hp.p ++ [d] } := ⟨_, rfl⟩
    have hp1 : hp₁.p = hp.p ++ [d] := by rw [h₁]
    have hidx : hp₁.index = hp.index := by rw [h₁]
    have hle : hp₁.Le = hp.Le := by rw [h₁]; rfl
    have hlast : hp₁.p[hp.p.length]? = some d := by simp [hp1]
    have hbefore {i : Nat} {x : α} (hi : i ≠ hp.p.length)
        (hx : hp₁.p[i]? = some x) : hp.p[i]? = some x := by
      have hlen := (List.getElem?_eq_some_iff.mp hx).1
      simp only [hp1, List.length_append, List.length_singleton] at hlen
      rwa [hp1, List.getElem?_append_left (by omega)] at hx
    have hr : Rising hp₁ hp.p.length := by
      constructor
      · rw [hle, hp1]
        exact hv.order.append d
      · intro i x hi hx
        rw [hidx]
        exact hv.placed i x (hbefore hi hx)
      · intro i x hi hx he
        rw [hlast] at he
        cases he
        exact hd (List.mem_of_getElem? (hbefore hi hx))
    obtain ⟨hp', heq, hv', hperm, hs⟩ := bubble_spec (hp.p.length + 1) hp₁
      hp.p.length (by rw [h₁]; exact tc) (by rw [h₁]; exact hoff)
      (Nat.lt_succ_self _) (by simp [hp1]) hr
    refine ⟨hp', ?_, hv', ?_, ?_⟩
    · rw [h₁] at heq
      simp only [heq, Option.bind_eq_bind, Option.bind_some]
    · rw [hp1] at hperm
      exact hperm.trans (List.perm_append_singleton d hp.p)
    · rw [h₁] at hs
      exact hs

namespace FrHeap

variable {hp : FrHeap α}

-- ======== fr_heap_extract

/-- What the loop of `fr_heap_extract` keeps. -/
structure Sinking (hp : FrHeap α) (hole : Nat) : Prop where
  order : Hollow hp.Le hp.p hole
  placed : Placed hp.index hp.p hole

omit [DecidableEq α] in
/-- The child that moves up is a child of the hole, and the least. -/
theorem smallerChild_spec (tc : TotalCompare hp.cmp) {k max : Nat}
    (hmax : max + 1 = hp.p.length) (hk : heapLeft k ≤ max) :
    ∃ c d, hp.smallerChild max (heapLeft k) = some c ∧ c ≤ max ∧ 0 < c
      ∧ parent c = k ∧ hp.p[c]? = some d
      ∧ ∀ i y, 0 < i → parent i = k → i ≠ c → hp.p[i]? = some y →
          hp.Le d y := by
  have hchild {i : Nat} (hi : 0 < i) (hp : parent i = k) :
      i = heapLeft k ∨ i = heapLeft k + 1 := by
    unfold parent at hp
    unfold heapLeft
    omega
  have hpl : parent (heapLeft k) = k := by
    unfold parent heapLeft
    omega
  have hpr : parent (heapLeft k + 1) = k := by
    unfold parent heapLeft
    omega
  have hpos : 0 < heapLeft k := by
    unfold heapLeft
    omega
  obtain ⟨left, hl⟩ : ∃ x, hp.p[heapLeft k]? = some x :=
    ⟨_, List.getElem?_eq_getElem (by omega)⟩
  by_cases he : heapLeft k = max
  · -- the last element is an only child
    refine ⟨heapLeft k, left, ?_, hk, hpos, hpl, hl, ?_⟩
    · unfold smallerChild
      rw [if_neg (not_not.mpr he)]
    · intro i y hi hpi hne hy
      have hlen := (List.getElem?_eq_some_iff.mp hy).1
      rcases hchild hi hpi with h | h <;> omega
  · obtain ⟨right, hr⟩ : ∃ x, hp.p[heapLeft k + 1]? = some x :=
      ⟨_, List.getElem?_eq_getElem (by omega)⟩
    have heq : hp.smallerChild max (heapLeft k) = some
        (if hp.cmp right left < 0 then heapLeft k + 1
          else heapLeft k) := by
      unfold smallerChild
      rw [if_pos he, hr, hl]
      rfl
    by_cases hc : hp.cmp right left < 0
    · rw [if_pos hc] at heq
      refine ⟨_, right, heq, by omega, by omega, hpr, hr, ?_⟩
      intro i y hi hpi hne hy
      rcases hchild hi hpi with h | h
      · rw [h, hl] at hy
        cases hy
        exact Int.le_of_lt hc
      · exact absurd h hne
    · rw [if_neg hc] at heq
      refine ⟨_, left, heq, hk, hpos, hpl, hl, ?_⟩
      intro i y hi hpi hne hy
      rcases hchild hi hpi with h | h
      · exact absurd h hne
      · rw [h, hr] at hy
        cases hy
        exact le_of_not_lt tc hc

/-- One step of the hole. -/
theorem Sinking.down {k c : Nat} {d : α} (h : Sinking hp k)
    (hoff : hp.offset ≠ 0) (hc : 0 < c) (hck : parent c = k)
    (hd : hp.p[c]? = some d)
    (hmin : ∀ i y, 0 < i → parent i = k → i ≠ c → hp.p[i]? = some y →
      hp.Le d y) :
    ∃ hp', { hp with p := hp.p.set k d : FrHeap α }.setOffset k
        = some hp'
      ∧ Sinking hp' c ∧ hp'.p = hp.p.set k d ∧ SameKind hp hp' := by
  have hkc : k < c := hck ▸ parent_lt hc
  have hlen := (List.getElem?_eq_some_iff.mp hd).1
  have hk : (hp.p.set k d)[k]? = some d :=
    List.getElem?_set_self (by omega)
  refine ⟨_, writeOffset_eq { hp with p := hp.p.set k d } hoff hk _,
    ⟨?_, ?_⟩, rfl, rfl, rfl⟩
  · exact h.order.down hc hck hd hmin
  · intro i x hic hx
    show (if x = d then (k : Int) else hp.index x) = i
    rcases getElem?_set_cases hx with ⟨hi, hxd⟩ | ⟨hik, hx⟩
    · rw [if_pos hxd, hi]
    · have hix := h.placed i x hik hx
      have hne : x ≠ d := by
        intro e
        have hdc := h.placed c d (by omega) hd
        rw [← e, hix] at hdc
        exact hic (Int.ofNat_inj.mp hdc)
      rw [if_neg hne]
      exact hix

/-- The loop ends with the hole at a position without children. -/
theorem sink_spec (max : Nat) (fuel : Nat) : ∀ (hp : FrHeap α) (k : Nat),
    TotalCompare hp.cmp → hp.offset ≠ 0 → max + 1 = hp.p.length →
    k ≤ max → max < k + fuel → Sinking hp k →
    ∃ hp' h, sink max fuel hp k = some (hp', h) ∧ h ≤ max
      ∧ max < heapLeft h ∧ hp'.p.length = hp.p.length ∧ Sinking hp' h
      ∧ (hp'.p.eraseIdx h).Perm (hp.p.eraseIdx k) ∧ SameKind hp hp' := by
  induction fuel with
  | zero =>
      intro hp k _ _ _ hk hf
      omega
  | succ fuel ih =>
      intro hp k tc hoff hmax hk hf h
      by_cases hl : heapLeft k ≤ max
      · obtain ⟨c, d, hsc, hcm, hc, hck, hd, hmin⟩ :=
          smallerChild_spec tc hmax hl
        obtain ⟨hp₁, heq, hs₁, hpp, hk₁⟩ := h.down hoff hc hck hd hmin
        simp only [sink, if_pos hl, hsc, hd, heq, Option.bind_eq_bind,
          Option.bind_some]
        have hkc : k < c := hck ▸ parent_lt hc
        have hlen : hp₁.p.length = hp.p.length := by
          rw [hpp, List.length_set]
        obtain ⟨hp', hole, hrun, hle, hleaf, hlen', hs', hperm, hk'⟩ :=
          ih hp₁ c (by rw [hk₁.1]; exact tc) (by rw [hk₁.2]; exact hoff)
            (by rw [hlen]; exact hmax) hcm (by omega) hs₁
        refine ⟨hp', hole, hrun, hle, hleaf, hlen'.trans hlen, hs', ?_,
          hk₁.trans hk'⟩
        rw [hpp] at hperm
        exact hperm.trans (hole_perm (by omega) (by omega) hd)
      · simp only [sink, if_neg hl]
        exact ⟨hp, k, rfl, hk, by omega, rfl, h, List.Perm.refl _,
          rfl, rfl⟩

/-- The hole is filled with the last element, or is cut off. -/
theorem fill_spec (tc : TotalCompare hp.cmp) (hoff : hp.offset ≠ 0)
    {max h : Nat} (hmax : max + 1 = hp.p.length) (hh : h ≤ max)
    (hleaf : max < heapLeft h) (hs : Sinking hp h) :
    ∃ hp', hp.fill max h = some hp' ∧ hp'.Valid
      ∧ hp'.p.Perm (hp.p.eraseIdx h) ∧ SameKind hp hp' := by
  have hdrop {i : Nat} {x : α} (hx : hp.p.dropLast[i]? = some x) :
      hp.p[i]? = some x ∧ i < max := by
    rw [List.getElem?_dropLast] at hx
    split at hx
    next hlt => exact ⟨hx, by omega⟩
    next => cases hx
  by_cases he : h = max
  · subst he
    refine ⟨{ hp with p := hp.p.dropLast }, ?_, ⟨?_, ?_⟩, ?_, rfl, rfl⟩
    · unfold fill
      rw [if_neg (not_not.mpr rfl)]
    · exact hs.order.dropLast (by omega)
    · intro i x hx
      obtain ⟨hx, hi⟩ := hdrop hx
      exact hs.placed i x (by omega) hx
    · rw [List.eraseIdx_eq_dropLast hmax]
  · obtain ⟨last, hlast⟩ : ∃ x, hp.p[max]? = some x :=
      ⟨_, List.getElem?_eq_getElem (by omega)⟩
    obtain ⟨hp₁, h₁⟩ : ∃ q : FrHeap α,
      q = { hp with p := hp.p.dropLast.set h last } := ⟨_, rfl⟩
    have hp1 : hp₁.p = hp.p.dropLast.set h last := by rw [h₁]
    have hidx : hp₁.index = hp.index := by rw [h₁]
    have hle : hp₁.Le = hp.Le := by rw [h₁]; rfl
    have hlen : hp₁.p.length = max := by
      rw [hp1, List.length_set, List.length_dropLast]
      omega
    have hhole : hp₁.p[h]? = some last := by
      rw [hp1, List.getElem?_set_self]
      rw [List.length_dropLast]
      omega
    have hoth {i : Nat} {x : α} (hi : i ≠ h) (hx : hp₁.p[i]? = some x) :
        hp.p[i]? = some x ∧ i < max := by
      rw [hp1] at hx
      rcases getElem?_set_cases hx with ⟨hih, -⟩ | ⟨-, hx⟩
      · exact absurd hih hi
      · exact hdrop hx
    have hr : Rising hp₁ h := by
      constructor
      · rw [hle, hp1]
        refine hs.order.fill ?_ last
        unfold heapLeft at hleaf
        omega
      · intro i x hi hx
        rw [hidx]
        exact hs.placed i x hi (hoth hi hx).1
      · -- the last element had another position
        intro i x hi hx hx'
        rw [hhole] at hx'
        cases hx'
        obtain ⟨hx, him⟩ := hoth hi hx
        have h₁ := hs.placed i _ hi hx
        have h₂ := hs.placed max _ (fun e => he e.symm) hlast
        omega
    obtain ⟨hp', heq, hv, hperm, hk⟩ := bubble_spec (h + 1) hp₁ h
      (by rw [h₁]; exact tc) (by rw [h₁]; exact hoff)
      (Nat.lt_succ_self _) (by omega) hr
    refine ⟨hp', ?_, hv, ?_, ?_⟩
    · unfold fill
      rw [if_pos he, hlast]
      show bubble (h + 1) { hp with p := hp.p.dropLast.set h last } h = _
      rw [← h₁]
      exact heq
    · have hcut : hp₁.p = (hp.p.set h last).eraseIdx max := by
        rw [hp1, List.eraseIdx_eq_dropLast (by simpa using hmax),
          List.dropLast_eq_take, List.dropLast_eq_take, List.length_set,
          List.take_set]
      rw [hcut] at hperm
      exact hperm.trans (hole_perm (by omega) he hlast)
    · rw [h₁] at hk
      exact hk

omit [DecidableEq α] in
/-- The position that extraction starts from is that of the object which
is taken. -/
theorem start_spec (hoff : hp.offset ≠ 0) (hv : hp.Valid) {data : Option α}
    {d : α} (hd : data.or (frHeapPeek hp) = some d)
    (hin : ∀ x, data = some x → x ∈ hp.p) :
    ∃ k, hp.start data = some k ∧ hp.p[k]? = some d := by
  cases data with
  | none => exact ⟨0, rfl, hd⟩
  | some x =>
      cases hd
      obtain ⟨k, hk⟩ := List.getElem?_of_mem (hin _ rfl)
      have hlen := (List.getElem?_eq_some_iff.mp hk).1
      have hix := hv.placed k _ hk
      refine ⟨k, ?_, hk⟩
      unfold start
      simp only [if_neg hoff, hix]
      rw [if_neg (by omega)]
      simp

end FrHeap

/-- `fr_heap_extract` of NULL, or of an object that is in the heap. -/
theorem frHeapExtract_spec {hp : FrHeap α} (tc : TotalCompare hp.cmp)
    (hoff : hp.offset ≠ 0) (hv : hp.Valid) (data : Option α) {d : α}
    (hd : data.or (frHeapPeek hp) = some d)
    (hin : ∀ x, data = some x → x ∈ hp.p) :
    ∃ hp', frHeapExtract hp data = some (hp', 1) ∧ hp'.Valid
      ∧ d ∈ hp.p ∧ hp'.p.Perm (hp.p.erase d) ∧ SameKind hp hp' := by
  obtain ⟨k, hstart, hk⟩ := start_spec hoff hv hd hin
  obtain ⟨hklen, hkd⟩ := List.getElem?_eq_some_iff.mp hk
  have halone : Alone hp.p k := by
    intro i x hi hx hx'
    have h₁ := hv.placed i x hx
    have h₂ := hv.placed k x hx'
    omega
  obtain ⟨hp₁, h₁⟩ : ∃ q : FrHeap α, q = { hp with
    index := fun x => if x = d then -1 else hp.index x } := ⟨_, rfl⟩
  have hreset : hp.resetOffset k = some hp₁ := by
    rw [h₁]
    exact writeOffset_eq hp hoff hk _
  have hs₁ : Sinking hp₁ k := by
    rw [h₁]
    constructor
    · exact hv.order.hollow (le_trans tc) k
    · exact Placed.forget (fun i x _ hx => hv.placed i x hx) halone hk _
  have hk₁ : SameKind hp hp₁ := by
    rw [h₁]
    exact ⟨rfl, rfl⟩
  have hp1 : hp₁.p = hp.p := by rw [h₁]
  obtain ⟨max, hmax⟩ : ∃ n, n = hp.p.length - 1 := ⟨_, rfl⟩
  have hlen : max + 1 = hp.p.length := by omega
  obtain ⟨hp₂, h, hsink, hh, hleaf, hlen₂, hs₂, hperm₂, hk₂⟩ :=
    sink_spec max (max + 1) hp₁ k (by rw [hk₁.1]; exact tc)
      (by rw [hk₁.2]; exact hoff) (by rw [hp1]; exact hlen) (by omega)
      (by omega) hs₁
  have hk₁₂ := hk₁.trans hk₂
  obtain ⟨hp₃, hfill, hv₃, hperm₃, hk₃⟩ := fill_spec
    (by rw [hk₁₂.1]; exact tc) (by rw [hk₁₂.2]; exact hoff)
    (by rw [hlen₂, hp1]; exact hlen) hh hleaf hs₂
  refine ⟨hp₃, ?_, hv₃, List.mem_of_getElem? hk, ?_, hk₁₂.trans hk₃⟩
  · unfold frHeapExtract
    rw [if_neg (by omega)]
    simp only [hstart, ← hmax, hreset, hsink, hfill, Option.bind_eq_bind,
      Option.bind_some]
  · have hout : (hp.p.eraseIdx k).Perm (hp.p.erase d) := by
      have h₁ := List.getElem_cons_eraseIdx_perm hklen
      rw [hkd] at h₁
      exact List.Perm.cons_inv (h₁.trans
        (List.perm_cons_erase (List.mem_of_getElem? hk)))
    rw [hp1] at hperm₂
    exact (hperm₃.trans hperm₂).trans hout

omit [DecidableEq α] in
/-- `fr_heap_peek` shows a minimum. -/
theorem FrHeap.Valid.peek {hp : FrHeap α} (hv : hp.Valid)
    (tc : TotalCompare hp.cmp) {x : α} (hx : frHeapPeek hp = some x) :
    ∀ y ∈ hp.p, hp.cmp x y ≤ 0 := by
  intro y hy
  obtain ⟨i, hi⟩ := List.getElem?_of_mem hy
  exact hv.order.root (FrHeap.le_refl tc) (FrHeap.le_trans tc) hx i y hi

end heap

end WinRadius
