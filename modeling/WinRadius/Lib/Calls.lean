/-
Machines that are called: each call gives an answer and the next state, or
fails. Two machines that stay related call by call give the same answers
to every list of calls (`answers_eq`).
-/
import Mathlib.Tactic.Cases

namespace WinRadius.Lib

section calls

variable {σ τ ι ω : Type} (call : σ → ι → Option (ω × σ))

/-- The answers to a list of calls, and the state after it. -/
def answers : σ → List ι → Option (List ω × σ)
  | s, [] => some ([], s)
  | s, i :: is => do
      let (o, s) ← call s i
      let (os, s) ← answers s is
      some (o :: os, s)

/-- The answers of a machine whose calls do not fail. -/
def allAnswers (call' : τ → ι → ω × τ) : τ → List ι → List ω × τ
  | t, [] => ([], t)
  | t, i :: is =>
      let (o, t) := call' t i
      let (os, t) := allAnswers call' t is
      (o :: os, t)

variable {call}

/-- A machine that answers each call as an abstract one does answers every
list of calls as it does. -/
theorem answers_eq {call' : τ → ι → ω × τ} {R : σ → τ → Prop}
    (hstep : ∀ s t i, R s t →
      ∃ s', call s i = some ((call' t i).1, s') ∧ R s' (call' t i).2)
    {s : σ} {t : τ} (h : R s t) (is : List ι) :
    ∃ s', answers call s is = some ((allAnswers call' t is).1, s')
      ∧ R s' (allAnswers call' t is).2 := by
  induction is generalizing s t with
  | nil => exact ⟨s, rfl, h⟩
  | cons i is ih =>
      obtain ⟨s₁, hcall, h₁⟩ := hstep s t i h
      obtain ⟨s₂, hrest, h₂⟩ := ih h₁
      refine ⟨s₂, ?_, h₂⟩
      rw [answers, hcall]
      dsimp only [Option.bind_eq_bind, Option.bind_some]
      rw [hrest]
      rfl

end calls

end WinRadius.Lib
