/-
Arithmetic of signed integers of 32 bits as C defines it: a result that
does not fit has no meaning, and ends the run.

Beside it the average of two values in whole numbers: a step from one
value towards another, of a part of the way that is rounded towards zero,
ends between the two.
-/
import Mathlib.Tactic

namespace WinRadius.Lib

/-- A value of 32 bits with a sign. -/
def FitsInt (n : Int) : Prop := -2147483648 ≤ n ∧ n ≤ 2147483647

instance (n : Int) : Decidable (FitsInt n) :=
  inferInstanceAs (Decidable (_ ∧ _))

/-- A result that has to fit. -/
def checked (n : Int) : Option Int := if FitsInt n then some n else none

theorem checked_of_fits {n : Int} (h : FitsInt n) : checked n = some n :=
  if_pos h

theorem FitsInt.of_le {n : Int} (h : 0 ≤ n) (h' : n ≤ 2147483647) :
    FitsInt n := ⟨by omega, h'⟩

/-- Between two values, in either order. -/
def Between (a b n : Int) : Prop := min a b ≤ n ∧ n ≤ max a b

/-- A part of a way is no longer than the way. -/
theorem tdiv_part {f s d : Int} (hf : 0 ≤ f) (hfs : f ≤ s) (hs : 0 < s)
    (hd : 0 ≤ d) : 0 ≤ (f * d).tdiv s ∧ (f * d).tdiv s ≤ d := by
  have hfd : 0 ≤ f * d := Int.mul_nonneg hf hd
  rw [Int.tdiv_eq_ediv_of_nonneg hfd]
  refine ⟨Int.ediv_nonneg hfd hs.le, ?_⟩
  have hle : f * d ≤ d * s := by
    rw [Int.mul_comm]
    exact Int.mul_le_mul_of_nonneg_left hfs hd
  exact Int.ediv_le_of_le_mul hs hle

/-- A step from `a` towards `b`. -/
theorem step_between {f s a b : Int} (hf : 0 ≤ f) (hfs : f ≤ s)
    (hs : 0 < s) : Between a b (a + (f * (b - a)).tdiv s) := by
  rcases le_total a b with hab | hba
  · obtain ⟨h0, h1⟩ := tdiv_part hf hfs hs (Int.sub_nonneg.mpr hab)
    rw [Between, min_eq_left hab, max_eq_right hab]
    omega
  · obtain ⟨h0, h1⟩ := tdiv_part hf hfs hs (Int.sub_nonneg.mpr hba)
    have hneg : f * (b - a) = -(f * (a - b)) := by ring
    rw [Between, min_eq_right hba, max_eq_left hba, hneg, Int.neg_tdiv]
    omega

end WinRadius.Lib
