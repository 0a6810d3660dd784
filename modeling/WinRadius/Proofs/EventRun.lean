/-
Every run of calls on an event list: the owners' pointers, and what became
of each insertion.

The numbers of the insertions are distributed over three places: the
events that have run, those that were removed, and those that are pending.
A call moves a number from the last to one of the others, or adds a new
one to the last.
-/
import WinRadius.Proofs.Event

namespace WinRadius

open Lib

namespace FrEventList

variable {el : FrEventList}

-- ======== what each function does

/-- What is pending once the event of a pointer is gone. -/
def without (el : FrEventList) (evP : Option Nat) : List FrEvent :=
  match el.cell evP with
  | none => el.times.p
  | some ev => el.times.p.erase ev

theorem Good.mem_without (h : Good el) {evP : Option Nat} {x : FrEvent}
    (hx : x ∈ el.without evP) :
    x ∈ el.times.p ∧ el.cell evP ≠ some x := by
  unfold without at hx
  cases hc : el.cell evP with
  | none =>
      rw [hc] at hx
      exact ⟨hx, nofun⟩
  | some ev =>
      rw [hc] at hx
      obtain ⟨hne, hx⟩ := h.nodup.mem_erase_iff.mp hx
      exact ⟨hx, fun e => hne (Option.some.inj e).symm⟩

/-- `fr_event_delete`, of any pointer. -/
theorem Good.frEventDelete (h : Good el) (evP : Option Nat) :
    ∃ el' code, frEventDelete el evP = some (el', code) ∧ Good el'
      ∧ el'.times.p.Perm (el.without evP) ∧ el'.cell evP = none := by
  cases hc : el.cell evP with
  | none =>
      refine ⟨el, 0, ?_, h, ?_, hc⟩
      · unfold WinRadius.frEventDelete
        rw [hc]
      · unfold without
        rw [hc]
  | some ev =>
      obtain ⟨el', heq, hg, hperm, hcells⟩ := h.delete hc
      refine ⟨el', 1, heq, hg, ?_, ?_⟩
      · unfold without
        rw [hc]
        exact hperm
      · unfold cell at hc ⊢
        obtain ⟨o, ho, -⟩ := Option.bind_eq_some_iff.mp hc
        rw [ho] at hcells ⊢
        show el'.cells o = none
        rw [hcells, cells_setCell, if_pos rfl]

end FrEventList

/-- An event that is made is at its address, with its pointer. -/
theorem EventArgs.made_eq {a : EventArgs} {addr : Nat} {ev : FrEvent}
    (h : a.made addr = some ev) :
    ev.addr = addr ∧ ev.evP = a.evP ∧ a.made 0 ≠ none := by
  unfold made at h ⊢
  obtain ⟨callback, hcb, h⟩ := Option.bind_eq_some_iff.mp h
  obtain ⟨when, hw, h⟩ := Option.bind_eq_some_iff.mp h
  split at h
  · cases h
  next hu =>
    cases h
    refine ⟨rfl, rfl, ?_⟩
    simp only [hcb, hw, Option.bind_eq_bind, Option.bind_some, if_neg hu]
    nofun

namespace FrEventList

variable {el : FrEventList}

/-- `fr_event_insert`: bad arguments change nothing; else the pointer's
event goes, and the new one comes if there is memory. -/
theorem Good.frEventInsert (h : Good el) (a : EventArgs)
    (hfresh : ∀ ev ∈ el.times.p, a.malloc = some ev.addr →
      el.cell a.evP = some ev) :
    ∃ el' code, frEventInsert el a = some (el', code) ∧ Good el'
      ∧ (a.made 0 = none ∧ code = 0 ∧ el' = el
        ∨ a.made 0 ≠ none ∧ code = 0
          ∧ el'.times.p.Perm (el.without a.evP)
        ∨ a.made 0 ≠ none ∧ code = 1
          ∧ ∃ ev, a.malloc.bind a.made = some ev ∧ ev ∉ el.without a.evP
            ∧ el'.times.p.Perm (ev :: el.without a.evP)) := by
  by_cases hm : a.made 0 = none
  · refine ⟨el, 0, ?_, h, Or.inl ⟨hm, rfl, rfl⟩⟩
    unfold WinRadius.frEventInsert
    rw [if_pos hm]
  · obtain ⟨el₁, _, hdel, hg₁, hperm₁, hnull⟩ := h.frEventDelete a.evP
    cases hev : a.malloc.bind a.made with
    | none =>
        refine ⟨el₁, 0, ?_, hg₁, Or.inr (Or.inl ⟨hm, rfl, hperm₁⟩)⟩
        unfold WinRadius.frEventInsert
        simp only [if_neg hm, hdel, hev, Option.bind_eq_bind,
          Option.bind_some]
    | some ev =>
        obtain ⟨addr, haddr, hmade⟩ := Option.bind_eq_some_iff.mp hev
        obtain ⟨hat, hevP, -⟩ := EventArgs.made_eq hmade
        -- the memory of a pending event is not given out
        have hnew : ∀ x ∈ el.without a.evP, x.addr ≠ ev.addr := by
          intro x hx e
          obtain ⟨hxp, hxc⟩ := h.mem_without hx
          exact hxc (hfresh x hxp (by rw [haddr, e, hat]))
        obtain ⟨el', code, hadd, hg', hcase⟩ := hg₁.add a.grown
          (fun x hx => hnew x (hperm₁.mem_iff.mp hx))
          (by rw [hevP]; exact hnull)
        have heq : WinRadius.frEventInsert el a = some (el', code) := by
          unfold WinRadius.frEventInsert
          simp only [if_neg hm, hdel, hev, Option.bind_eq_bind,
            Option.bind_some]
          exact hadd
        refine ⟨el', code, heq, hg', Or.inr ?_⟩
        rcases hcase with ⟨hcode, hperm, -⟩ | ⟨hcode, -, hp, -⟩
        · exact Or.inr ⟨hm, hcode, ev, rfl, fun hin => hnew ev hin rfl,
            hperm.trans (hperm₁.cons ev)⟩
        · exact Or.inl ⟨hm, hcode, hp ▸ hperm₁⟩

/-- `fr_event_run`: the earliest event, if it is due. -/
theorem Good.frEventRun (h : Good el) (when : Timeval) :
    ∃ el' r, frEventRun el when = some (el', r) ∧ Good el'
      ∧ (r.ran = none ∧ el' = el
          ∧ (∀ x ∈ el.times.p, ¬ x.when.NotAfter when)
        ∨ ∃ ev, r.ran = some ev ∧ ev ∈ el.times.p
          ∧ ev.when.NotAfter when
          ∧ (∀ x ∈ el.times.p, ev.when.NotAfter x.when)
          ∧ el'.times.p.Perm (el.times.p.erase ev)) := by
  cases hp : frHeapPeek el.times with
  | none =>
      refine ⟨el, ⟨none, ⟨0, 0⟩⟩, ?_, h, Or.inl ⟨rfl, rfl, ?_⟩⟩
      · unfold WinRadius.frEventRun
        rw [hp]
      · unfold frHeapPeek at hp
        rw [List.getElem?_eq_none_iff, Nat.le_zero,
          List.length_eq_zero_iff] at hp
        rw [hp]
        nofun
  | some ev =>
      have hin : ev ∈ el.times.p := List.mem_of_getElem? hp
      have hmin : ∀ x ∈ el.times.p, ev.when.NotAfter x.when := by
        intro x hx
        have := h.valid.peek h.total hp x hx
        rw [h.compare] at this
        exact (frEventListTimeCmp_notAfter ev x).mp this
      by_cases hlate : when.tvSec < ev.when.tvSec
          ∨ (ev.when.tvSec = when.tvSec ∧ when.tvUsec < ev.when.tvUsec)
      · refine ⟨el, ⟨none, ev.when⟩, ?_, h, Or.inl ⟨rfl, rfl, ?_⟩⟩
        · unfold WinRadius.frEventRun
          simp only [hp, if_pos hlate]
        · intro x hx
          have := hmin x hx
          unfold Timeval.NotAfter at *
          omega
      · obtain ⟨times, heq, hperm, hg⟩ := h.takeOut hin
        refine ⟨_, ⟨some ev, when⟩, ?_, hg,
          Or.inr ⟨ev, rfl, hin, ?_, hmin, hperm⟩⟩
        · unfold WinRadius.frEventRun
          simp only [hp, if_neg hlate, times_setCell, heq,
            Option.bind_eq_bind, Option.bind_some]
        · unfold Timeval.NotAfter
          omega

end FrEventList

-- ======== the history

namespace EventRun

variable {s t : EventRun}

/-- Every insertion is in one place, once. -/
def Accounted (s : EventRun) : Prop :=
  (s.ran ++ s.removed ++ s.el.times.p.map s.serial).Perm
    (List.range s.inserted)

/-- What holds of a list and its history between two calls. -/
structure Good (s : EventRun) : Prop where
  list : s.el.Good
  accounted : s.Accounted

theorem Good.create (index : FrEvent → Int) : Good (create index) :=
  ⟨FrEventList.Good.create index, List.Perm.refl _⟩

/-- The numbers of what stays pending, and of what leaves. -/
theorem count_erase {p : List FrEvent} {ev : FrEvent} (hin : ev ∈ p)
    (f : FrEvent → Nat) (n : Nat) :
    (p.map f).count n
      = [f ev].count n + ((p.erase ev).map f).count n := by
  have h := ((List.perm_cons_erase hin).map f).count_eq n
  rw [List.map_cons, List.count_cons] at h
  rw [h, List.count_singleton]
  omega

/-- The number of a removed event changes its place. -/
theorem count_remove (h : s.el.Good) (evP : Option Nat) (n : Nat) :
    (s.remove evP).count n + ((s.el.without evP).map s.serial).count n
      = s.removed.count n + (s.el.times.p.map s.serial).count n := by
  unfold remove FrEventList.without
  cases hc : s.el.cell evP with
  | none => simp
  | some ev =>
      rw [count_erase (h.of_cell hc).1 s.serial n]
      simp only [Option.map_some, Option.toList_some, List.count_append]
      omega

/-- A deletion keeps the history. -/
theorem Good.delete (h : Good s) (evP : Option Nat) :
    ∃ t, s.delete evP = some t ∧ Good t := by
  obtain ⟨el', code, heq, hg, hperm, -⟩ := h.list.frEventDelete evP
  refine ⟨{ s with el := el', removed := s.remove evP }, ?_, hg, ?_⟩
  · unfold EventRun.delete
    rw [heq]
    rfl
  · refine List.perm_iff_count.mpr fun n => ?_
    have h₁ := h.accounted.count_eq n
    have h₂ := count_remove h.list evP n
    have h₃ := (hperm.map s.serial).count_eq n
    simp only [List.count_append] at h₁ ⊢
    omega

/-- An insertion gives the new event the next number. -/
theorem Good.insert (h : Good s) {a : EventArgs}
    (hfresh : s.Admits (.insert a)) :
    ∃ t code, s.insert a = some (t, code) ∧ Good t
      ∧ (code = 1 → t.inserted = s.inserted + 1
        ∧ ∃ ev, a.malloc.bind a.made = some ev ∧ ev ∈ t.el.times.p
          ∧ t.serial ev = s.inserted)
      ∧ (code ≠ 1 → t.inserted = s.inserted) := by
  obtain ⟨el', code, heq, hg, hcase⟩ := h.list.frEventInsert a hfresh
  have hfail (hc : code = 0) : s.insert a = some ({ s with
      el := el'
      removed := if a.made 0 = none then s.removed else s.remove a.evP },
      0) := by
    unfold EventRun.insert
    simp only [heq, hc, Option.bind_eq_bind, Option.bind_some, if_true]
    split <;> rfl
  rcases hcase with ⟨hm, hc, hel⟩ | ⟨hm, hc, hperm⟩ | ⟨hm, hc, ev, hev, hnew, hperm⟩
  · -- refused
    refine ⟨_, 0, hfail hc, ⟨hg, ?_⟩, nofun, fun _ => rfl⟩
    rw [if_pos hm, hel]
    exact h.accounted
  · -- no memory
    refine ⟨_, 0, hfail hc, ⟨hg, ?_⟩, nofun, fun _ => rfl⟩
    rw [if_neg hm]
    refine List.perm_iff_count.mpr fun n => ?_
    have h₁ := h.accounted.count_eq n
    have h₂ := count_remove h.list a.evP n
    have h₃ := (hperm.map s.serial).count_eq n
    simp only [List.count_append] at h₁ ⊢
    omega
  · obtain ⟨serial, hser⟩ : ∃ f, f = fun x =>
        if x = ev then s.inserted else s.serial x := ⟨_, rfl⟩
    have hself : serial ev = s.inserted := by rw [hser]; exact if_pos rfl
    have hrest : (s.el.without a.evP).map serial
        = (s.el.without a.evP).map s.serial := by
      refine List.map_congr_left fun x hx => ?_
      rw [hser]
      exact if_neg fun e : x = ev => hnew (e ▸ hx)
    refine ⟨{ s with
      el := el'
      removed := s.remove a.evP
      inserted := s.inserted + 1
      serial := serial }, 1, ?_, ⟨hg, ?_⟩, fun _ => ⟨rfl, ev, hev, ?_, hself⟩,
      fun hne => absurd rfl hne⟩
    · unfold EventRun.insert
      simp only [heq, hc, hev, if_neg hm, hser, Option.bind_eq_bind,
        Option.bind_some, one_ne_zero, if_false]
    · refine List.perm_iff_count.mpr fun n => ?_
      have h₁ := h.accounted.count_eq n
      have h₂ := count_remove h.list a.evP n
      have h₃ := (hperm.map serial).count_eq n
      rw [List.map_cons, hrest, hself, List.count_cons] at h₃
      simp only [List.count_append, List.range_succ,
        List.count_singleton] at h₁ ⊢
      omega
    · exact hperm.mem_iff.mpr List.mem_cons_self

/-- A run moves the number of the event it runs. -/
theorem Good.run (h : Good s) (when : Timeval) :
    ∃ t r, s.run when = some (t, r) ∧ Good t
      ∧ (r.ran = none ∧ t = s
          ∧ (∀ x ∈ s.el.times.p, ¬ x.when.NotAfter when)
        ∨ ∃ ev, r.ran = some ev ∧ ev ∈ s.el.times.p
          ∧ ev.when.NotAfter when
          ∧ (∀ x ∈ s.el.times.p, ev.when.NotAfter x.when)
          ∧ t.ran = s.serial ev :: s.ran) := by
  obtain ⟨el', r, heq, hg, hcase⟩ := h.list.frEventRun when
  have hrun : s.run when = some ({ s with
      el := el', ran := (r.ran.map s.serial).toList ++ s.ran }, r) := by
    unfold EventRun.run
    rw [heq]
    rfl
  rcases hcase with ⟨hr, hel, hnone⟩ | ⟨ev, hr, hin, hdue, hmin, hperm⟩
  · rw [hr, hel] at hrun
    exact ⟨s, r, hrun, h, Or.inl ⟨hr, rfl, hnone⟩⟩
  · rw [hr] at hrun
    refine ⟨_, r, hrun, ⟨hg, ?_⟩, Or.inr ⟨ev, hr, hin, hdue, hmin, rfl⟩⟩
    refine List.perm_iff_count.mpr fun n => ?_
    have h₁ := h.accounted.count_eq n
    have h₂ := count_erase hin s.serial n
    have h₃ := (hperm.map s.serial).count_eq n
    simp only [List.count_append, Option.map_some,
      Option.toList_some] at h₁ ⊢
    omega

/-- Every call keeps what holds, -/
theorem Good.step (h : Good s) (hst : Step s t) : Good t := by
  obtain ⟨c, hadm, hcall⟩ := hst
  cases c with
  | insert a =>
      obtain ⟨u, _, heq, hu, -⟩ := h.insert hadm
      rw [call, heq] at hcall
      cases hcall
      exact hu
  | delete evP =>
      obtain ⟨u, heq, hu⟩ := h.delete evP
      rw [call, heq] at hcall
      cases hcall
      exact hu
  | run when =>
      obtain ⟨u, _, heq, hu, -⟩ := h.run when
      rw [call, heq] at hcall
      cases hcall
      exact hu

/-- and goes through. -/
theorem Good.goes_through (h : Good s) {c : EventCall}
    (hadm : s.Admits c) : ∃ t, s.call c = some t := by
  cases c with
  | insert a =>
      obtain ⟨t, _, heq, -⟩ := h.insert hadm
      exact ⟨t, by rw [call, heq]; rfl⟩
  | delete evP =>
      obtain ⟨t, heq, -⟩ := h.delete evP
      exact ⟨t, heq⟩
  | run when =>
      obtain ⟨t, _, heq, -⟩ := h.run when
      exact ⟨t, by rw [call, heq]; rfl⟩

end EventRun

/-- In every run: a pointer holds an event exactly when it is pending and
is the pointer's; every insertion has run once, was removed once, or is
pending; and the event that runs next is due, with none before it. -/
theorem events_in_every_run {index : FrEvent → Int} {s : EventRun}
    (h : Reaches EventRun.Step (EventRun.create index) s) :
    (∀ o, (s.el.cells o = none ↔
        ∀ ev ∈ s.el.times.p, ev.evP ≠ some o)
      ∧ (s.el.times.p.filter (·.evP = some o)).length ≤ 1
      ∧ ∀ ev, s.el.cells o = some ev ↔
        ev ∈ s.el.times.p ∧ ev.evP = some o)
    ∧ (s.ran ++ s.removed ++ s.el.times.p.map s.serial).Perm
      (List.range s.inserted)
    ∧ (∀ when, ∃ t r, s.run when = some (t, r)
      ∧ (r.ran = none ∧ t = s
          ∧ (∀ x ∈ s.el.times.p, ¬ x.when.NotAfter when)
        ∨ ∃ ev, r.ran = some ev ∧ ev ∈ s.el.times.p
          ∧ ev.when.NotAfter when
          ∧ (∀ x ∈ s.el.times.p, ev.when.NotAfter x.when)
          ∧ t.ran = s.serial ev :: s.ran))
    ∧ (∀ a, s.Admits (.insert a) → ∃ t code,
      s.insert a = some (t, code)
        ∧ (code = 1 → t.inserted = s.inserted + 1
          ∧ ∃ ev, a.malloc.bind a.made = some ev ∧ ev ∈ t.el.times.p
            ∧ t.serial ev = s.inserted)
        ∧ (code ≠ 1 → t.inserted = s.inserted))
    ∧ ∀ c, s.Admits c → ∃ t, s.call c = some t := by
  have hg : s.Good := h.invariant EventRun.Good
    (EventRun.Good.create index) fun _ _ hg hst => hg.step hst
  refine ⟨fun o => ⟨?_, ?_, hg.list.cells o⟩, hg.accounted, ?_, ?_,
    fun c hadm => hg.goes_through hadm⟩
  · rw [Option.eq_none_iff_forall_ne_some]
    constructor
    · intro hnull ev hev hevP
      exact hnull ev ((hg.list.cells o ev).mpr ⟨hev, hevP⟩)
    · intro hnone ev hev
      obtain ⟨hin, hevP⟩ := (hg.list.cells o ev).mp hev
      exact hnone ev hin hevP
  · -- two events of one pointer are one event
    have hnd : (s.el.times.p.filter (·.evP = some o)).Nodup :=
      hg.list.nodup.filter _
    rw [← List.toFinset_card_of_nodup hnd, Finset.card_le_one]
    intro x hx y hy
    simp only [List.mem_toFinset, List.mem_filter,
      decide_eq_true_eq] at hx hy
    have hxc := (hg.list.cells o x).mpr hx
    rw [(hg.list.cells o y).mpr hy] at hxc
    exact (Option.some.inj hxc).symm
  · intro when
    obtain ⟨t, r, heq, -, hcase⟩ := hg.run when
    exact ⟨t, r, heq, hcase⟩
  · intro a hadm
    obtain ⟨t, code, heq, -, hcase⟩ := hg.insert hadm
    exact ⟨t, code, heq, hcase⟩

/-- One event replaced at its address, the second run, the third pending
through another pointer. -/
theorem events_in_every_run_of_three :
    ∃ s, Reaches EventRun.Step (EventRun.create fun _ => 77) s
      ∧ s.ran = [1] ∧ s.removed = [0] ∧ s.el.cells 0 = none
      ∧ (s.ran ++ s.removed ++ s.el.times.p.map s.serial).Perm
        (List.range s.inserted) := by
  have h₀ : Reaches EventRun.Step (EventRun.create fun _ => 77) _ := .refl
  have h₁ := h₀.step ⟨.insert ⟨some 1, 0, some ⟨5, 0⟩, some 0, some 100,
    true⟩, by decide, rfl⟩
  have h₂ := h₁.step ⟨.insert ⟨some 1, 0, some ⟨3, 0⟩, some 0, some 100,
    true⟩, by decide, rfl⟩
  have h₃ := h₂.step ⟨.insert ⟨some 1, 1, some ⟨9, 0⟩, some 1, some 200,
    true⟩, by decide, rfl⟩
  have h₄ := h₃.step ⟨.run ⟨4, 0⟩, by decide, rfl⟩
  exact ⟨_, h₄, rfl, rfl, rfl, (events_in_every_run h₄).2.1⟩

end WinRadius
