/-
Every run of calls on a heap: what is in the heap is what was inserted and
not extracted since, in order, with its positions.

The invariant `Good` is that of one call (`Valid`) with the account of the
elements. Each call keeps it and goes through: what the callers may ask
for never leads to an access outside of the array.
-/
import WinRadius.Proofs.Heap

namespace WinRadius

open Lib Lib.BinaryHeap

section run

variable {α : Type} [DecidableEq α] {cmp : α → α → Int} {s : HeapRun α}

namespace HeapRun

/-- What holds between two calls. -/
structure Good (cmp : α → α → Int) (s : HeapRun α) : Prop where
  compare : s.hp.cmp = cmp
  offset : s.hp.offset ≠ 0
  valid : s.hp.Valid
  nodup : s.hp.p.Nodup
  content : ∀ x, x ∈ s.hp.p ↔ x ∈ s.content

omit [DecidableEq α] in
/-- A heap that was just created. -/
theorem Good.create {offset : Nat} (hoff : offset ≠ 0) (index : α → Int) :
    Good cmp ⟨frHeapCreate cmp offset index, ∅⟩ := by
  constructor
  · rfl
  · exact hoff
  · constructor
    · intro i _ x y _ hy
      cases hy
    · intro i x hx
      cases hx
  · exact List.nodup_nil
  · intro x
    simp [frHeapCreate]

omit [DecidableEq α] in
/-- A heap without elements. -/
theorem Good.peek_none (h : Good cmp s) :
    frHeapPeek s.hp = none ↔ s.content = ∅ := by
  unfold frHeapPeek
  rw [List.getElem?_eq_none_iff, Nat.le_zero, List.length_eq_zero_iff,
    List.eq_nil_iff_forall_not_mem, Finset.eq_empty_iff_forall_notMem]
  exact forall_congr' fun x => not_congr (h.content x)

/-- An insertion adds the element, or fails and changes nothing. -/
theorem Good.insert (h : Good cmp s) (tc : TotalCompare cmp) {d : α}
    (hd : d ∉ s.content) (grown : Bool) :
    ∃ t code, s.call (.insert d grown) = some (t, code) ∧ Good cmp t
      ∧ (code = 1 ∧ t.content = Insert.insert d s.content
        ∨ code = 0 ∧ t = s ∧ grown = false
          ∧ s.hp.p.length = s.hp.size) := by
  have hdp : d ∉ s.hp.p := fun hin => hd ((h.content d).mp hin)
  rcases frHeapInsert_spec (by rw [h.compare]; exact tc) h.offset h.valid
    grown hdp with ⟨hp', heq, hv, hperm, hk⟩ | ⟨heq, hfull, hg⟩
  · refine ⟨⟨hp', Insert.insert d s.content⟩, 1, ?_, ?_, Or.inl ⟨rfl, rfl⟩⟩
    · simp only [call, heq, Option.bind_eq_bind, Option.bind_some, if_true]
    · constructor
      · exact hk.1.trans h.compare
      · rw [hk.2]
        exact h.offset
      · exact hv
      · exact hperm.nodup_iff.mpr (List.nodup_cons.mpr ⟨hdp, h.nodup⟩)
      · intro x
        rw [hperm.mem_iff, List.mem_cons, Finset.mem_insert, h.content]
  · refine ⟨s, 0, ?_, h, Or.inr ⟨rfl, rfl, hg, hfull⟩⟩
    simp only [call, heq, Option.bind_eq_bind, Option.bind_some]
    rfl

/-- An extraction from an empty heap changes nothing. -/
theorem Good.extract_empty (h : Good cmp s) (data : Option α)
    (hs : s.content = ∅) : s.call (.extract data) = some (s, 0) := by
  have hnil : s.hp.p.length = 0 := by
    have := h.peek_none.mpr hs
    unfold frHeapPeek at this
    rw [List.getElem?_eq_none_iff] at this
    omega
  have heq : frHeapExtract s.hp data = some (s.hp, 0) := by
    unfold frHeapExtract
    rw [if_pos hnil]
  simp only [call, heq, Option.bind_eq_bind, Option.bind_some]
  rfl

/-- An extraction takes its element out: the one it is given, or what
peek shows. -/
theorem Good.extract (h : Good cmp s) (tc : TotalCompare cmp)
    (data : Option α) {d : α} (hd : data.or (frHeapPeek s.hp) = some d)
    (hin : ∀ x, data = some x → x ∈ s.content) :
    ∃ t, s.call (.extract data) = some (t, 1) ∧ Good cmp t
      ∧ t.content = s.content.erase d := by
  obtain ⟨hp', heq, hv, hdp, hperm, hk⟩ := frHeapExtract_spec
    (by rw [h.compare]; exact tc) h.offset h.valid data hd
    (fun x hx => (h.content x).mpr (hin x hx))
  refine ⟨⟨hp', s.content.erase d⟩, ?_, ?_, rfl⟩
  · simp only [call, heq, hd, Option.bind_eq_bind, Option.bind_some,
      if_true, Option.toFinset_some, Finset.sdiff_singleton_eq_erase]
  · constructor
    · exact hk.1.trans h.compare
    · rw [hk.2]
      exact h.offset
    · exact hv
    · exact hperm.nodup_iff.mpr (h.nodup.erase d)
    · intro x
      rw [hperm.mem_iff, h.nodup.mem_erase_iff, Finset.mem_erase, h.content]

/-- Every call keeps what holds. -/
theorem Good.step {t : HeapRun α} (h : Good cmp s) (tc : TotalCompare cmp)
    (hst : HeapRun.Step s t) : Good cmp t := by
  obtain ⟨c, code, hadm, hcall⟩ := hst
  cases c with
  | insert d grown =>
      obtain ⟨u, _, hcall', hu, -⟩ := h.insert tc hadm grown
      rw [hcall] at hcall'
      cases hcall'
      exact hu
  | extract data =>
      by_cases hs : s.content = ∅
      · rw [h.extract_empty data hs] at hcall
        cases hcall
        exact h
      · have hpeek : frHeapPeek s.hp ≠ none := mt h.peek_none.mp hs
        obtain ⟨d, hd⟩ : ∃ d, data.or (frHeapPeek s.hp) = some d := by
          cases data with
          | none => exact Option.ne_none_iff_exists'.mp hpeek
          | some d => exact ⟨d, rfl⟩
        have hin : ∀ x, data = some x → x ∈ s.content := by
          intro x hx
          subst hx
          exact hadm
        obtain ⟨u, hcall', hu, -⟩ := h.extract tc data hd hin
        rw [hcall] at hcall'
        cases hcall'
        exact hu

end HeapRun

/-- In every run: the heap order at every index, each element's position
in the element, the elements that were inserted and not extracted since,
a minimum first; and what the calls do next. -/
theorem heap_in_every_run (tc : TotalCompare cmp) {offset : Nat}
    (hoff : offset ≠ 0) (index : α → Int)
    (h : Reaches HeapRun.Step ⟨frHeapCreate cmp offset index, ∅⟩ s) :
    (∀ i x y, 0 < i → s.hp.p[heapParent i]? = some x →
      s.hp.p[i]? = some y → cmp x y ≤ 0)
    ∧ (∀ (i : Nat) x, s.hp.p[i]? = some x → s.hp.index x = i)
    ∧ (s.hp.p.Nodup ∧ ∀ x, x ∈ s.hp.p ↔ x ∈ s.content)
    ∧ (frHeapPeek s.hp = none ↔ s.content = ∅)
    ∧ (∀ x, frHeapPeek s.hp = some x →
      x ∈ s.content ∧ ∀ y ∈ s.content, cmp x y ≤ 0)
    ∧ (∀ d grown, d ∉ s.content →
      ∃ t code, s.call (.insert d grown) = some (t, code)
        ∧ (code = 1 ∧ t.content = insert d s.content
          ∨ code = 0 ∧ t = s ∧ grown = false
            ∧ s.hp.p.length = s.hp.size))
    ∧ (∀ data, s.content = ∅ → s.call (.extract data) = some (s, 0))
    ∧ (∀ d ∈ s.content, ∃ t, s.call (.extract (some d)) = some (t, 1)
      ∧ t.content = s.content.erase d)
    ∧ ∀ x, frHeapPeek s.hp = some x →
      ∃ t, s.call (.extract none) = some (t, 1)
        ∧ t.content = s.content.erase x := by
  have hg : HeapRun.Good cmp s := h.invariant (HeapRun.Good cmp)
    (HeapRun.Good.create hoff index) fun _ _ hg hst => hg.step tc hst
  have tc' : TotalCompare s.hp.cmp := by
    rw [hg.compare]
    exact tc
  refine ⟨?_, hg.valid.placed, ⟨hg.nodup, hg.content⟩, hg.peek_none, ?_, ?_,
    hg.extract_empty, ?_, ?_⟩
  · intro i x y hi hx hy
    rw [← hg.compare]
    exact hg.valid.order i hi x y hx hy
  · intro x hx
    refine ⟨(hg.content x).mp (List.mem_of_getElem? hx), ?_⟩
    intro y hy
    rw [← hg.compare]
    exact hg.valid.peek tc' hx y ((hg.content y).mpr hy)
  · intro d grown hd
    obtain ⟨t, code, hcall, -, hcode⟩ := hg.insert tc hd grown
    exact ⟨t, code, hcall, hcode⟩
  · intro d hd
    obtain ⟨t, hcall, -, hc⟩ := hg.extract tc (some d) rfl
      (fun x hx => Option.some.inj hx ▸ hd)
    exact ⟨t, hcall, hc⟩
  · intro x hx
    obtain ⟨t, hcall, -, hc⟩ := hg.extract tc none hx
      (fun x hx => nomatch hx)
    exact ⟨t, hcall, hc⟩

end run

/-- The comparison of numbers. -/
def natCmp (a b : Nat) : Int := a - b

theorem natCmp_total : TotalCompare natCmp := by
  constructor
  · intro a b
    unfold natCmp
    omega
  · intro a b c hab hbc
    unfold natCmp at *
    omega

/-- Three elements are inserted, and the least of them is extracted. -/
theorem heap_in_every_run_of_two :
    ∃ s, Reaches HeapRun.Step ⟨frHeapCreate natCmp 8 fun _ => 77, ∅⟩ s
      ∧ frHeapPeek s.hp = some 4 ∧ ∀ y ∈ s.content, natCmp 4 y ≤ 0 := by
  obtain ⟨s, hs, hp⟩ : ∃ s,
      Reaches HeapRun.Step ⟨frHeapCreate natCmp 8 fun _ => 77, ∅⟩ s
        ∧ frHeapPeek s.hp = some 4 := by
    have h₀ : Reaches HeapRun.Step
        ⟨frHeapCreate natCmp 8 fun _ => 77, ∅⟩ _ := .refl
    have h₁ := h₀.step ⟨.insert 7 true, 1, by decide, rfl⟩
    have h₂ := h₁.step ⟨.insert 3 true, 1, by decide, rfl⟩
    have h₃ := h₂.step ⟨.insert 4 true, 1, by decide, rfl⟩
    have h₄ := h₃.step ⟨.extract (some 3), 1, by decide, rfl⟩
    exact ⟨_, h₄, rfl⟩
  have h := heap_in_every_run natCmp_total (by decide) _ hs
  exact ⟨s, hs, hp, (h.2.2.2.2.1 4 hp).2⟩

end WinRadius
