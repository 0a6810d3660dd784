/-
Sorting by passes that exchange neighbours: a pass goes down the list,
exchanges two neighbours that are out of order, and goes on behind both;
passes are made until one exchanges nothing.

A pass that exchanges something takes at least one pair of elements out of
the pairs that stand the wrong way round (`inversions`), so that the passes
end; one that exchanges nothing has seen every pair of neighbours. Elements
with the same key are never exchanged.
-/
import Mathlib.Tactic

namespace WinRadius.Lib

section exchange

variable {α κ : Type} [LinearOrder κ] (key : α → κ)

-- ======== passes

/-- A pass, and whether it exchanged something. -/
def exchangePass : List α → List α × Bool
  | a :: b :: rest =>
      if key b < key a then (b :: a :: (exchangePass rest).1, true)
      else (a :: (exchangePass (b :: rest)).1, (exchangePass (b :: rest)).2)
  | l => (l, false)

/-- The passes, `n` of them at most. -/
def exchangeSort : Nat → List α → Option (List α)
  | 0, _ => none
  | n + 1, l =>
      if (exchangePass key l).2 then exchangeSort n (exchangePass key l).1
      else some l

/-- How many pairs stand the wrong way round. -/
def inversions : List α → Nat
  | [] => 0
  | a :: l => l.countP (fun b => key b < key a) + inversions l

variable {key}

variable (key) in
theorem exchangePass_perm (l : List α) : (exchangePass key l).1.Perm l := by
  fun_induction exchangePass key l with
  | case1 a b rest hlt ih =>
      exact ((ih.cons a).cons b).trans (List.Perm.swap a b rest)
  | case2 a b rest hlt ih => exact ih.cons a
  | case3 l _ => exact .refl l

/-- A pass keeps the order of the elements of one key. -/
theorem exchangePass_stable (k : κ) (l : List α) :
    (exchangePass key l).1.filter (key · = k)
      = l.filter (key · = k) := by
  fun_induction exchangePass key l with
  | case1 a b rest hlt ih =>
      by_cases ha : key a = k
      · have hb : key b ≠ k := fun hb => absurd hlt (by rw [ha, hb]; exact lt_irrefl k)
        simp [ha, hb, ih]
      · by_cases hb : key b = k
        · simp [ha, hb, ih]
        · simp [ha, hb, ih]
  | case2 a b rest hlt ih =>
      rw [List.filter_cons, ih, List.filter_cons (x := a)]
  | case3 l _ => rfl

variable (key) in
/-- A pass that exchanges something leaves fewer pairs the wrong way
round; none leaves more. -/
theorem inversions_exchangePass (l : List α) :
    inversions key (exchangePass key l).1
        + (if (exchangePass key l).2 then 1 else 0)
      ≤ inversions key l := by
  fun_induction exchangePass key l with
  | case1 a b rest hlt ih =>
      have hperm := exchangePass_perm key rest
      have hle : inversions key (exchangePass key rest).1
          ≤ inversions key rest := by omega
      simp only [inversions, List.countP_cons, hperm.countP_eq,
        decide_eq_true_eq, if_pos hlt, if_neg hlt.not_gt, if_true]
      omega
  | case2 a b rest hlt ih =>
      have hperm := exchangePass_perm key (b :: rest)
      show (exchangePass key (b :: rest)).1.countP _
          + inversions key (exchangePass key (b :: rest)).1
          + (if (exchangePass key (b :: rest)).2 then 1 else 0)
        ≤ (b :: rest).countP _ + inversions key (b :: rest)
      rw [hperm.countP_eq]
      omega
  | case3 l _ => simp

/-- A pass that exchanges nothing has found the list in order. -/
theorem exchangePass_done {l : List α} (h : (exchangePass key l).2 = false) :
    (exchangePass key l).1 = l ∧ l.Pairwise (key · ≤ key ·) := by
  fun_induction exchangePass key l with
  | case1 a b rest hlt ih => cases h
  | case2 a b rest hlt ih =>
      obtain ⟨heq, hsorted⟩ := ih h
      refine ⟨by rw [heq], List.pairwise_cons.mpr ⟨?_, hsorted⟩⟩
      have hab : key a ≤ key b := not_lt.mp hlt
      intro c hc
      rcases List.mem_cons.mp hc with rfl | hc
      · exact hab
      · exact hab.trans ((List.pairwise_cons.mp hsorted).1 c hc)
  | case3 l hshort =>
      refine ⟨rfl, ?_⟩
      cases l with
      | nil => exact .nil
      | cons a l =>
          cases l with
          | nil => exact List.pairwise_singleton _ a
          | cons b rest => exact absurd rfl (hshort a b rest)

-- ======== sorts

/-- What makes a list the sorted one of another. -/
structure StablySorted (key : α → κ) (sorted l : List α) : Prop where
  perm : sorted.Perm l
  ordered : sorted.Pairwise (key · ≤ key ·)
  stable : ∀ k, sorted.filter (key · = k) = l.filter (key · = k)

/-- More passes than there are pairs the wrong way round sort the list. -/
theorem exchangeSort_sorts {l : List α} {n : Nat}
    (hn : inversions key l < n) :
    ∃ sorted, exchangeSort key n l = some sorted
      ∧ StablySorted key sorted l := by
  induction n generalizing l with
  | zero => omega
  | succ n ih =>
      have hinv := inversions_exchangePass key l
      rw [exchangeSort]
      split
      · next hswap =>
          rw [if_pos hswap] at hinv
          obtain ⟨sorted, hsorted, h⟩ :=
            ih (l := (exchangePass key l).1) (by omega)
          exact ⟨sorted, hsorted, h.perm.trans (exchangePass_perm key l),
            h.ordered, fun k => (h.stable k).trans (exchangePass_stable k l)⟩
      · next hswap =>
          have hdone := exchangePass_done (Bool.eq_false_of_not_eq_true hswap)
          exact ⟨l, rfl, .refl l, hdone.2, fun _ => rfl⟩

variable (key) in
theorem inversions_le (l : List α) : inversions key l ≤ l.length ^ 2 := by
  induction l with
  | nil => exact Nat.le_refl 0
  | cons a l ih =>
      have hcount := List.countP_le_length (p := fun b => key b < key a) (l := l)
      rw [inversions, List.length_cons]
      nlinarith

end exchange

end WinRadius.Lib
