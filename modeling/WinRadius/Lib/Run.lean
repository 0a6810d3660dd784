/-
Runs of a transition system: reachability under a partial step function
and the induction that turns a one-step invariant into a statement about
every state of every run. Runs with what is seen of each step, and the
simulation that gives another system a run with the same trace. Walks
over a list that stop early.
-/
import Mathlib.Tactic

namespace WinRadius.Lib

section run

variable {σ : Type} (next : σ → σ → Prop)

/-- `Reaches next s t`: some finite run of `next` leads from `s` to
`t`. -/
inductive Reaches (s : σ) : σ → Prop where
  | refl : Reaches s s
  | step {t u : σ} : Reaches s t → next t u → Reaches s u

variable {next}

/-- What holds first and survives every step holds all along. -/
theorem Reaches.invariant {s t : σ} (Inv : σ → Prop)
    (h : Reaches next s t) (h0 : Inv s)
    (hstep : ∀ a b, Inv a → next a b → Inv b) : Inv t := by
  induction h with
  | refl => exact h0
  | step _ hn ih => exact hstep _ _ ih hn

/-- Runs compose. -/
theorem Reaches.trans {s t u : σ} (h : Reaches next s t)
    (h' : Reaches next t u) : Reaches next s u := by
  induction h' with
  | refl => exact h
  | step _ hn ih => exact ih.step hn

/-- A step in front of a run. -/
theorem Reaches.head {s t u : σ} (hn : next s t)
    (h : Reaches next t u) : Reaches next s u :=
  (Reaches.refl.step hn).trans h

/-- A run that is given by what happens in it. -/
theorem Reaches.of_foldlM {ε : Type} {f : σ → ε → Option σ} {es : List ε}
    (hstep : ∀ s t, ∀ e ∈ es, f s e = some t → next s t) {s t : σ}
    (h : es.foldlM f s = some t) : Reaches next s t := by
  induction es generalizing s with
  | nil =>
      cases h
      exact .refl
  | cons e es ih =>
      rw [List.foldlM_cons] at h
      obtain ⟨u, hu, hrest⟩ := Option.bind_eq_some_iff.mp h
      exact Reaches.head (hstep s u e List.mem_cons_self hu)
        (ih (fun a b e' he => hstep a b e' (List.mem_cons_of_mem _ he)) hrest)

end run

section trace

variable {σ τ ι : Type}

/-- `Trace next s tr t`: a run from `s` to `t` whose steps show `tr`. -/
inductive Trace (next : σ → ι → σ → Prop) (s : σ) : List ι → σ → Prop where
  | nil : Trace next s [] s
  | snoc {tr : List ι} {t u : σ} {i : ι} : Trace next s tr t →
      next t i u → Trace next s (tr ++ [i]) u

variable {next : σ → ι → σ → Prop}

/-- Where every step is matched, every trace is. -/
theorem Trace.simulate {s t : σ} {s' : τ} {tr : List ι}
    (next' : τ → ι → τ → Prop) (R : σ → τ → Prop) (h : Trace next s tr t) (h0 : R s s')
    (hstep : ∀ a b a' i, R a a' → next a i b →
      ∃ b', next' a' i b' ∧ R b b') :
    ∃ t', Trace next' s' tr t' ∧ R t t' := by
  induction h with
  | nil => exact ⟨s', .nil, h0⟩
  | snoc _ hn ih =>
      obtain ⟨t', htr, hr⟩ := ih
      obtain ⟨u', hn', hr'⟩ := hstep _ _ t' _ hr hn
      exact ⟨u', htr.snoc hn', hr'⟩

end trace

-- ======== walks that stop early

/-- The members of a list up to the first that `p` holds of, that one too. -/
def upToFirst {α : Type} (p : α → Bool) : List α → List α
  | [] => []
  | x :: xs => if p x then [x] else x :: upToFirst p xs

theorem upToFirst_front {α : Type} (p : α → Bool) (xs : List α) :
    upToFirst p xs <+: xs := by
  induction xs with
  | nil => exact List.prefix_refl _
  | cons x xs ih =>
      rw [upToFirst]
      split
      · exact ⟨xs, rfl⟩
      · exact (List.prefix_cons_inj x).mpr ih

theorem upToFirst_of_none {α : Type} {p : α → Bool} {xs : List α}
    (h : xs.any p = false) : upToFirst p xs = xs := by
  induction xs with
  | nil => rfl
  | cons x xs ih =>
      rw [List.any_cons, Bool.or_eq_false_iff] at h
      rw [upToFirst, h.1, ih h.2]
      rfl

theorem upToFirst_eq_nil {α : Type} {p : α → Bool} {xs : List α} :
    upToFirst p xs = [] ↔ xs = [] := by
  cases xs with
  | nil => exact Iff.rfl
  | cons x xs =>
      rw [upToFirst]
      split
      · simp
      · simp

/-- The walk has come to a member that `p` holds of, if there is one. -/
theorem any_upToFirst {α : Type} (p : α → Bool) (xs : List α) :
    (upToFirst p xs).any p = xs.any p := by
  induction xs with
  | nil => rfl
  | cons x xs ih =>
      rw [upToFirst, List.any_cons]
      split
      · next h => simp [h]
      · rw [List.any_cons, ih]

end WinRadius.Lib
