/-
The two bit tables of hash.cpp, and the order they put on keys.

`reverse` turns the bits of a key around, so that keys with the same low
bits, those of one bucket, are neighbours in the order of their reversed
keys whatever the size of the table (`reverse_between`). `parent_of`
discards the highest bit, so a bucket's keys come before those of the
buckets split off from it (`reverse_lt_of_subset`).
-/
import WinRadius.Model.Hash

namespace WinRadius

open Lib

-- ======== reverse

/-- The table, computed. -/
theorem reversedByte_eq :
    reversedByte = (List.range 256).map fun b =>
      ((BitVec.ofNat 8 b).reverse).toNat := by
  decide +kernel

theorem reversedByte_getD {b : Nat} (hb : b < 256) :
    reversedByte.getD b 0 = ((BitVec.ofNat 8 b).reverse).toNat := by
  rw [reversedByte_eq, List.getD_eq_getElem?_getD, List.getElem?_map,
    List.getElem?_range hb]
  rfl

/-- The table reverses a byte. -/
theorem reversedByte_testBit {b i : Nat} (hb : b < 256) (hi : i < 8) :
    (reversedByte.getD b 0).testBit i = b.testBit (7 - i) := by
  rw [reversedByte_getD hb, BitVec.testBit_toNat, BitVec.getLsbD_reverse,
    BitVec.getMsbD_eq_getLsbD, BitVec.getLsbD_ofNat]
  simp [hi, show 7 - i < 8 by omega]

theorem reversedByte_lt {b : Nat} (hb : b < 256) :
    reversedByte.getD b 0 < 256 := by
  rw [reversedByte_getD hb]
  exact BitVec.isLt _

/-- A bit of a word put together from four bytes. -/
theorem testBit_bytes {a b c d : Nat} (hb : b < 256) (hc : c < 256)
    (hd : d < 256) (i : Nat) :
    ((a <<< 24) ||| (b <<< 16) ||| (c <<< 8) ||| d).testBit i
      = if i < 8 then d.testBit i
        else if i < 16 then c.testBit (i - 8)
        else if i < 24 then b.testBit (i - 16)
        else a.testBit (i - 24) := by
  have hhigh {x j : Nat} (hx : x < 256) (hj : 8 ≤ j) :
      x.testBit j = false :=
    Nat.testBit_lt_two_pow (lt_of_lt_of_le hx
      (by simpa using Nat.pow_le_pow_right (by omega : 0 < 2) hj))
  simp only [Nat.testBit_or, Nat.testBit_shiftLeft]
  split
  · simp [show ¬24 ≤ i by omega, show ¬16 ≤ i by omega,
      show ¬8 ≤ i by omega]
  · split
    · simp [show ¬24 ≤ i by omega, show ¬16 ≤ i by omega,
        show 8 ≤ i by omega, hhigh hd (show 8 ≤ i by omega)]
    · split
      · simp [show ¬24 ≤ i by omega, show 16 ≤ i by omega,
          show 8 ≤ i by omega, hhigh hd (show 8 ≤ i by omega),
          hhigh hc (show 8 ≤ i - 8 by omega)]
      · simp [show 24 ≤ i by omega, show 16 ≤ i by omega,
          show 8 ≤ i by omega, hhigh hd (show 8 ≤ i by omega),
          hhigh hc (show 8 ≤ i - 8 by omega),
          hhigh hb (show 8 ≤ i - 16 by omega)]

/-- The bits of a key's byte. -/
theorem testBit_byte (n s j : Nat) (hj : j < 8) :
    (n / 2 ^ s % 256).testBit j = n.testBit (s + j) := by
  rw [show 256 = 2 ^ 8 from rfl, Nat.testBit_mod_two_pow,
    Nat.testBit_div_two_pow]
  simp [hj, Nat.add_comm]

theorem reverse_testBit (key : UInt32) {i : Nat} (hi : i < 32) :
    (reverse key).testBit i = key.toNat.testBit (31 - i) := by
  have hb (n : Nat) : n % 256 < 256 := Nat.mod_lt _ (by omega)
  have h0 := testBit_byte key.toNat 0
  have h8 := testBit_byte key.toNat 8
  have h16 := testBit_byte key.toNat 16
  have h24 := testBit_byte key.toNat 24
  simp only [Nat.pow_zero, Nat.div_one, Nat.reducePow] at h0 h8 h16 h24
  unfold reverse
  rw [testBit_bytes (reversedByte_lt (hb _)) (reversedByte_lt (hb _))
    (reversedByte_lt (hb _))]
  split
  · rw [reversedByte_testBit (hb _) (by omega), h24 _ (by omega)]
    congr 1
    omega
  · split
    · rw [reversedByte_testBit (hb _) (by omega), h16 _ (by omega)]
      congr 1
      omega
    · split
      · rw [reversedByte_testBit (hb _) (by omega), h8 _ (by omega)]
        congr 1
        omega
      · rw [reversedByte_testBit (hb _) (by omega), h0 _ (by omega)]
        congr 1
        omega

theorem reverse_testBit_high (key : UInt32) {i : Nat} (hi : 32 ≤ i) :
    (reverse key).testBit i = false := by
  have hb (n : Nat) : n % 256 < 256 := Nat.mod_lt _ (by omega)
  have hlow := reversedByte_lt (hb key.toNat)
  unfold reverse
  rw [testBit_bytes (reversedByte_lt (hb _)) (reversedByte_lt (hb _))
    (reversedByte_lt (hb _)),
    if_neg (by omega), if_neg (by omega), if_neg (by omega)]
  refine Nat.testBit_lt_two_pow (lt_of_lt_of_le hlow ?_)
  simpa using Nat.pow_le_pow_right (by omega : 0 < 2)
    (by omega : 8 ≤ i - 24)

/-- The first `k` bits of a reversed key: its bucket in a table of `2 ^ k`
buckets, turned around. -/
def rank (k : Nat) (key : UInt32) : Nat := reverse key >>> (32 - k)

theorem rank_testBit {k : Nat} (hk : k ≤ 32) (key : UInt32) (i : Nat) :
    (rank k key).testBit i
      = if i < k then key.toNat.testBit (k - 1 - i) else false := by
  unfold rank
  rw [Nat.testBit_shiftRight]
  split
  · rw [reverse_testBit key (by omega)]
    congr 1
    omega
  · exact reverse_testBit_high key (by omega)

theorem rank_eq_iff {k : Nat} (hk : k ≤ 32) {a b : UInt32} :
    rank k a = rank k b ↔ a.toNat % 2 ^ k = b.toNat % 2 ^ k := by
  constructor
  · intro h
    apply Nat.eq_of_testBit_eq
    intro i
    rw [Nat.testBit_mod_two_pow, Nat.testBit_mod_two_pow]
    by_cases hi : i < k
    · have hbit := congrArg (fun n => n.testBit (k - 1 - i)) h
      simp only [rank_testBit hk, if_pos (show k - 1 - i < k by omega),
        show k - 1 - (k - 1 - i) = i by omega] at hbit
      simp [hi, hbit]
    · simp [hi]
  · intro h
    apply Nat.eq_of_testBit_eq
    intro i
    rw [rank_testBit hk, rank_testBit hk]
    split
    · next hi =>
        have hbit := congrArg (fun n => n.testBit (k - 1 - i)) h
        simp only [Nat.testBit_mod_two_pow,
          show k - 1 - i < k by omega, decide_true, Bool.true_and] at hbit
        exact hbit
    · rfl

theorem reverse_inj {a b : UInt32} (h : reverse a = reverse b) :
    a = b := by
  have hr : rank 32 a = rank 32 b := by
    unfold rank
    rw [h]
  have hmod := (rank_eq_iff (le_refl 32)).mp hr
  rw [Nat.mod_eq_of_lt a.toNat_lt, Nat.mod_eq_of_lt b.toNat_lt] at hmod
  exact UInt32.toNat_inj.mp hmod

theorem rank_mono {k : Nat} {a b : UInt32} (h : reverse a ≤ reverse b) :
    rank k a ≤ rank k b := by
  unfold rank
  rw [Nat.shiftRight_eq_div_pow, Nat.shiftRight_eq_div_pow]
  exact Nat.div_le_div_right h

/-- Taking more bits than a key has changes nothing. -/
theorem key_mod_min (key : UInt32) (k : Nat) :
    key.toNat % 2 ^ k = key.toNat % 2 ^ min k 32 := by
  rcases Nat.le_total k 32 with hk | hk
  · rw [Nat.min_eq_left hk]
  · rw [Nat.min_eq_right hk, Nat.mod_eq_of_lt key.toNat_lt,
      Nat.mod_eq_of_lt (lt_of_lt_of_le key.toNat_lt
        (Nat.pow_le_pow_right (by omega) hk))]

/-- Keys of one bucket are neighbours. -/
theorem reverse_between {k : Nat} {a b c : UInt32}
    (hab : reverse a ≤ reverse b) (hbc : reverse b ≤ reverse c)
    (h : a.toNat % 2 ^ k = c.toNat % 2 ^ k) :
    b.toNat % 2 ^ k = a.toNat % 2 ^ k := by
  rw [key_mod_min a, key_mod_min c] at h
  rw [key_mod_min a, key_mod_min b]
  have hk : min k 32 ≤ 32 := Nat.min_le_right k 32
  have hac := (rank_eq_iff hk).mpr h
  have h1 : rank (min k 32) a ≤ rank (min k 32) b := rank_mono hab
  have h2 : rank (min k 32) b ≤ rank (min k 32) c := rank_mono hbc
  exact (rank_eq_iff hk).mp (by omega)

/-- A bucket with some of the bits of another one comes first. -/
theorem reverse_lt_of_subset {k : Nat} {a b : UInt32}
    (hsub : ∀ i, (a.toNat % 2 ^ k).testBit i = true →
      (b.toNat % 2 ^ k).testBit i = true)
    (hne : a.toNat % 2 ^ k ≠ b.toNat % 2 ^ k) :
    reverse a < reverse b := by
  rw [key_mod_min a, key_mod_min b] at hsub hne
  have hk : min k 32 ≤ 32 := Nat.min_le_right k 32
  have hle : rank (min k 32) a ≤ rank (min k 32) b := by
    have hand : rank (min k 32) a &&& rank (min k 32) b
        = rank (min k 32) a := by
      apply Nat.eq_of_testBit_eq
      intro i
      rw [Nat.testBit_and, rank_testBit hk, rank_testBit hk]
      split
      · next hi =>
          have hi' : min k 32 - 1 - i < min k 32 := by omega
          have := hsub (min k 32 - 1 - i)
          simp only [Nat.testBit_mod_two_pow, hi', decide_true,
            Bool.true_and] at this
          cases ha : a.toNat.testBit (min k 32 - 1 - i) with
          | false => rfl
          | true => rw [this ha]; rfl
      · rfl
    rw [← hand]
    exact Nat.and_le_right
  have hne' : rank (min k 32) a ≠ rank (min k 32) b :=
    fun h => hne ((rank_eq_iff hk).mp h)
  by_contra hge
  exact hne' (le_antisymm hle (rank_mono (not_lt.mp hge)))

-- ======== parent_of

/-- The table, computed. -/
theorem parentByte_table :
    parentByte = (List.range 256).map fun b =>
      if b = 0 then 0 else b - 2 ^ b.log2 := by
  decide +kernel

theorem parentByte_eq {j b : Nat} (hb : b < 256) (h1 : 2 ^ j ≤ b)
    (h2 : b < 2 ^ (j + 1)) : parentByte.getD b 0 = b - 2 ^ j := by
  have hne : b ≠ 0 := by
    have := Nat.two_pow_pos j
    omega
  have hlog : b.log2 = j := (Nat.log2_eq_iff hne).mpr ⟨h1, h2⟩
  rw [parentByte_table, List.getD_eq_getElem?_getD, List.getElem?_map,
    List.getElem?_range hb]
  simp [hne, hlog]

/-- The part of a number above `s` bits loses its highest bit. -/
theorem parent_high {e s j : Nat} (hs : s ≤ j) (hj : j - s < 8)
    (h1 : 2 ^ j ≤ e) (h2 : e < 2 ^ (j + 1)) :
    e % 2 ^ s ||| (parentByte.getD (e / 2 ^ s) 0 <<< s) = e - 2 ^ j := by
  have hpow : 2 ^ j = 2 ^ (j - s) * 2 ^ s := by
    rw [← Nat.pow_add]
    congr 1
    omega
  have hpow1 : 2 ^ (j + 1) = 2 ^ (j - s + 1) * 2 ^ s := by
    rw [← Nat.pow_add]
    congr 1
    omega
  have hpos : 0 < 2 ^ s := Nat.two_pow_pos s
  have hq1 : 2 ^ (j - s) ≤ e / 2 ^ s := by
    rw [Nat.le_div_iff_mul_le hpos, ← hpow]
    exact h1
  have hq2 : e / 2 ^ s < 2 ^ (j - s + 1) := by
    rw [Nat.div_lt_iff_lt_mul hpos, ← hpow1]
    exact h2
  have hq3 : e / 2 ^ s < 2 ^ 8 := lt_of_lt_of_le hq2
    (Nat.pow_le_pow_right (by omega) (by omega))
  rw [parentByte_eq hq3 hq1 hq2, Nat.or_comm,
    ← Nat.shiftLeft_add_eq_or_of_lt (Nat.mod_lt _ hpos), Nat.shiftLeft_eq,
    Nat.sub_mul, ← hpow]
  have hdm := Nat.div_add_mod e (2 ^ s)
  rw [Nat.mul_comm] at hdm
  have hle : 2 ^ j ≤ e / 2 ^ s * 2 ^ s := by
    rw [hpow]
    exact Nat.mul_le_mul_right _ hq1
  omega

/-- `parent_of` discards the highest bit. -/
theorem parentOf_eq {e j : Nat} (hj : j < 32) (h1 : 2 ^ j ≤ e)
    (h2 : e < 2 ^ (j + 1)) : parentOf e = e - 2 ^ j := by
  have hmono {a b : Nat} (h : a ≤ b) : 2 ^ a ≤ 2 ^ b :=
    Nat.pow_le_pow_right (by omega) h
  unfold parentOf
  rcases Nat.lt_or_ge j 8 with h8 | h8
  · have : e < 2 ^ 8 := lt_of_lt_of_le h2 (hmono (by omega))
    rw [if_neg (by omega), if_neg (by omega), if_neg (by omega)]
    exact parentByte_eq this h1 h2
  · have g8 : 2 ^ 8 ≤ e := (hmono h8).trans h1
    rcases Nat.lt_or_ge j 16 with h16 | h16
    · have : e < 2 ^ 16 := lt_of_lt_of_le h2 (hmono (by omega))
      rw [if_neg (by omega), if_neg (by omega), if_pos (by omega)]
      exact parent_high (s := 8) h8 (by omega) h1 h2
    · have g16 : 2 ^ 16 ≤ e := (hmono h16).trans h1
      rcases Nat.lt_or_ge j 24 with h24 | h24
      · have : e < 2 ^ 24 := lt_of_lt_of_le h2 (hmono (by omega))
        rw [if_neg (by omega), if_pos (by omega)]
        exact parent_high (s := 16) h16 (by omega) h1 h2
      · have g24 : 2 ^ 24 ≤ e := (hmono h24).trans h1
        rw [if_pos (by omega)]
        exact parent_high (s := 24) h24 (by omega) h1 h2

/-- The highest bit of a number that has one. -/
theorem exists_high_bit {e : Nat} (h0 : e ≠ 0) (h : e < 2 ^ 32) :
    ∃ j < 32, 2 ^ j ≤ e ∧ e < 2 ^ (j + 1) := by
  refine ⟨Nat.log2 e, ?_, Nat.log2_self_le h0, Nat.lt_log2_self⟩
  exact (Nat.log2_lt h0).mpr h

theorem parentOf_lt {e : Nat} (h0 : e ≠ 0) (h : e < 2 ^ 32) :
    parentOf e < e := by
  obtain ⟨j, hj, h1, h2⟩ := exists_high_bit h0 h
  rw [parentOf_eq hj h1 h2]
  have := Nat.two_pow_pos j
  omega

/-- The parent has fewer bits than any bound on the entry. -/
theorem parentOf_lt_two_pow {e n : Nat} (h : e < 2 ^ (n + 1))
    (hn : n < 32) : parentOf e < 2 ^ n := by
  by_cases h0 : e = 0
  · rw [h0]
    exact Nat.two_pow_pos n
  · have h32 : e < 2 ^ 32 := lt_of_lt_of_le h
      (Nat.pow_le_pow_right (by omega) (by omega))
    obtain ⟨j, hj, h1, h2⟩ := exists_high_bit h0 h32
    rw [parentOf_eq hj h1 h2]
    have hjn : j ≤ n := by
      by_contra hlt
      have : 2 ^ (n + 1) ≤ 2 ^ j :=
        Nat.pow_le_pow_right (by omega) (by omega)
      omega
    have : 2 ^ j ≤ 2 ^ n := Nat.pow_le_pow_right (by omega) hjn
    rw [Nat.pow_succ] at h2
    omega

/-- The parent has some of the bits of the entry. -/
theorem parentOf_subset {e : Nat} (h : e < 2 ^ 32) (i : Nat)
    (hi : (parentOf e).testBit i = true) : e.testBit i = true := by
  by_cases h0 : e = 0
  · subst h0
    exact hi
  · obtain ⟨j, hj, h1, h2⟩ := exists_high_bit h0 h
    have hmod : parentOf e = e % 2 ^ j := by
      rw [parentOf_eq hj h1 h2, Nat.mod_eq_sub_mod h1,
        Nat.mod_eq_of_lt]
      rw [Nat.pow_succ] at h2
      omega
    rw [hmod, Nat.testBit_mod_two_pow] at hi
    simp only [Bool.and_eq_true] at hi
    exact hi.2

end WinRadius
