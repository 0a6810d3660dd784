/-
The latest of the greatest: a fold that keeps the last entry whose key no
later entry reaches.
-/
import Mathlib.Order.Basic
import Mathlib.Tactic

namespace WinRadius.Lib

section latest

variable {κ α : Type} [LinearOrder κ]

/-- An entry is kept until another one has a key that is as great. -/
def latest (best x : κ × α) : κ × α := if best.1 ≤ x.1 then x else best

theorem latest_of_le {best x : κ × α} (h : best.1 ≤ x.1) :
    latest best x = x := if_pos h

theorem latest_of_lt {best x : κ × α} (h : x.1 < best.1) :
    latest best x = best := if_neg (not_le.mpr h)

/-- Either every key is below the first one, or the fold ends with the
last of the greatest. -/
theorem foldl_latest (best : κ × α) (l : List (κ × α)) :
    (l.foldl latest best = best ∧ ∀ x ∈ l, x.1 < best.1)
      ∨ ∃ front back, l = front ++ l.foldl latest best :: back
        ∧ best.1 ≤ (l.foldl latest best).1
        ∧ (∀ x ∈ front, x.1 ≤ (l.foldl latest best).1)
        ∧ ∀ x ∈ back, x.1 < (l.foldl latest best).1 := by
  induction l generalizing best with
  | nil => exact .inl ⟨rfl, fun x hx => absurd hx List.not_mem_nil⟩
  | cons y l ih =>
      rw [List.foldl_cons]
      by_cases hle : best.1 ≤ y.1
      · rw [latest_of_le hle]
        rcases ih y with ⟨heq, hlt⟩ | ⟨front, back, hl, hge, hfront, hback⟩
        · rw [heq]
          exact .inr ⟨[], l, rfl, hle, fun x hx => absurd hx List.not_mem_nil,
            hlt⟩
        · refine .inr ⟨y :: front, back, ?_, hle.trans hge, ?_, hback⟩
          · rw [List.cons_append, ← hl]
          · intro x hx
            rcases List.mem_cons.mp hx with rfl | hx
            · exact hge
            · exact hfront x hx
      · rw [latest_of_lt (not_le.mp hle)]
        rcases ih best with ⟨heq, hlt⟩ | ⟨front, back, hl, hge, hfront, hback⟩
        · rw [heq]
          refine .inl ⟨rfl, fun x hx => ?_⟩
          rcases List.mem_cons.mp hx with rfl | hx
          · exact not_le.mp hle
          · exact hlt x hx
        · refine .inr ⟨y :: front, back, ?_, hge, ?_, hback⟩
          · rw [List.cons_append, ← hl]
          · intro x hx
            rcases List.mem_cons.mp hx with rfl | hx
            · exact (not_le.mp hle).le.trans hge
            · exact hfront x hx

end latest

end WinRadius.Lib
