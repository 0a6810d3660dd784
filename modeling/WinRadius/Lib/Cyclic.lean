/-
Numbers that are counted around a cycle.

# Arcs

`Arc a b m` says that `m` is on the way from `a` to `b`, both included.
Where `b` is in front of `a`, the way goes around the end.

# How long a predicate holds

`Lasts n p now` is how many steps from `now` on around a cycle of `n` the
predicate `p` holds. A stronger predicate lasts as long exactly when it
holds as far as the other one (`Lasts.agree`).
-/
import Mathlib.Tactic

namespace WinRadius.Lib.Cyclic

-- ======== arcs

/-- `m` is on the way from `a` to `b`. -/
def Arc (a b m : Nat) : Prop :=
  if a ≤ b then a ≤ m ∧ m ≤ b else a ≤ m ∨ m ≤ b

instance (a b m : Nat) : Decidable (Arc a b m) :=
  inferInstanceAs (Decidable (ite _ _ _))

theorem arc_self {a m : Nat} : Arc a a m ↔ m = a := by
  rw [Arc, if_pos (Nat.le_refl a)]
  omega

/-- A way begins with its first number. -/
theorem arc_step {n a b m : Nat} (ha : a < n) (hb : b < n) (hm : m < n)
    (hne : a ≠ b) : Arc a b m ↔ m = a ∨ Arc ((a + 1) % n) b m := by
  unfold Arc
  by_cases hlast : a + 1 = n
  · rw [hlast, Nat.mod_self, if_neg (by omega), if_pos (by omega)]
    omega
  · rw [Nat.mod_eq_of_lt (by omega)]
    split
    · rw [if_pos (by omega)]
      omega
    · split
      · omega
      · omega

-- ======== lasting

/-- How long `p` holds from `now` on: `none` where it holds everywhere. -/
inductive Lasts (n : Nat) (p : Nat → Prop) (now : Nat) :
    Option Nat → Prop where
  | always : (∀ m, m < n → p m) → Lasts n p now none
  | upTo {k : Nat} : (∀ j < k, p ((now + j) % n)) → ¬p ((now + k) % n) →
      Lasts n p now (some k)

section lasting

variable {n now : Nat} {p q : Nat → Prop} {a b : Option Nat}

/-- The number that is `k` steps from another one. -/
theorem steps_reach {m : Nat} (hm : m < n) (hnow : now < n) :
    ∃ k < n, (now + k) % n = m := by
  by_cases hle : now ≤ m
  · exact ⟨m - now, by omega, by
      rw [Nat.add_sub_cancel' hle, Nat.mod_eq_of_lt hm]⟩
  · refine ⟨n - (now - m), by omega, ?_⟩
    rw [show now + (n - (now - m)) = m + n by omega, Nat.add_mod_right,
      Nat.mod_eq_of_lt hm]

/-- There is always an answer. -/
theorem Lasts.total (n : Nat) (p : Nat → Prop) (hnow : now < n) :
    ∃ a, Lasts n p now a := by
  classical
  by_cases hall : ∀ m, m < n → p m
  · exact ⟨none, .always hall⟩
  · have hsome : ∃ k, ¬p ((now + k) % n) := by
      by_contra hno
      apply hall
      intro m hm
      obtain ⟨k, -, hk⟩ := steps_reach hm hnow
      rw [← hk]
      exact not_not.mp fun h => hno ⟨k, h⟩
    refine ⟨some (Nat.find hsome), .upTo ?_ (Nat.find_spec hsome)⟩
    exact fun j hj => not_not.mp (Nat.find_min hsome hj)

/-- When a stronger predicate lasts as long. -/
theorem Lasts.agree (hqp : ∀ m, q m → p m) (hnow : now < n)
    (hq : Lasts n q now a) (hp : Lasts n p now b) :
    a = b ↔ ∀ k, (∀ j ≤ k, p ((now + j) % n)) → q ((now + k) % n) := by
  constructor
  · rintro rfl k hk
    cases hq with
    | always hall => exact hall _ (Nat.mod_lt _ (by omega))
    | @upTo k' hbefore _ =>
        cases hp with
        | upTo _ hend =>
            have hlt : k < k' := by
              by_contra hle
              exact hend (hk k' (by omega))
            exact hbefore k hlt
  · intro hfar
    cases hq with
    | always hall =>
        cases hp with
        | always _ => rfl
        | upTo _ hend =>
            exact (hend (hqp _ (hall _ (Nat.mod_lt _ (by omega))))).elim
    | @upTo k hbefore hend =>
        cases hp with
        | always hall =>
            exact (hend (hfar k fun j _ =>
              hall _ (Nat.mod_lt _ (by omega)))).elim
        | @upTo k' hbefore' hend' =>
            rcases Nat.lt_trichotomy k k' with hlt | heq | hlt
            · exact (hend (hfar k fun j hj => hbefore' j (by omega))).elim
            · rw [heq]
            · exact (hend' (hqp _ (hbefore k' hlt))).elim

/-- Only the numbers of the cycle matter. -/
theorem Lasts.congr (h : Lasts n p now a) (hnow : now < n)
    (heq : ∀ m < n, p m ↔ q m) : Lasts n q now a := by
  have hpos : 0 < n := by omega
  cases h with
  | always hall => exact .always fun m hm => (heq m hm).mp (hall m hm)
  | upTo hbefore hend =>
      refine .upTo (fun j hj => ?_) (fun hq => hend ?_)
      · exact (heq _ (Nat.mod_lt _ hpos)).mp (hbefore j hj)
      · exact (heq _ (Nat.mod_lt _ hpos)).mpr hq

/-- There is one answer. -/
theorem Lasts.unique (hnow : now < n) (ha : Lasts n p now a)
    (hb : Lasts n p now b) : a = b := by
  refine (ha.agree (fun _ h => h) hnow hb).mpr ?_
  exact fun k hk => hk k (Nat.le_refl k)

end lasting

end WinRadius.Lib.Cyclic
