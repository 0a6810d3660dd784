/-
Bit prefixes of byte strings, the first bit the most significant of the
first byte: what a network mask leaves of an address.

A string of bytes is the string of its bits (`eq_of_bitAt`), and masking
works bit by bit, so "equal under the mask" is "equal in the first bits".
-/
import WinRadius.Lib.Bytes

namespace WinRadius.Lib

/-- Bit `i` of a byte string. -/
def bitAt (bs : List UInt8) (i : Nat) : Bool :=
  (bs.getD (i / 8) 0).toNat.testBit (7 - i % 8)

/-- Two strings agree in their first `n` bits. -/
def SamePrefix (n : Nat) (a b : List UInt8) : Prop :=
  ∀ i < n, bitAt a i = bitAt b i

instance (n : Nat) (a b : List UInt8) : Decidable (SamePrefix n a b) :=
  inferInstanceAs (Decidable (∀ i < n, bitAt a i = bitAt b i))

/-- `~0 << (32 - n)` in network order. -/
def maskWord (n : Nat) : List UInt8 :=
  be32 ((0xffffffff : UInt32) <<< UInt32.ofNat (32 - n))

/-- `addr[j] &= mask`, on the words of an address in memory. -/
def andWord (bs : List UInt8) (j : Nat) (mask : List UInt8) : List UInt8 :=
  overlay bs (4 * j)
    (List.zipWith (· &&& ·) (slice bs (4 * j) 4) mask)

section bits

variable {a b mask : List UInt8} {i j n : Nat}

/-- A byte is its eight bits. -/
theorem byte_eq_of_bits {x y : UInt8}
    (h : ∀ k < 8, x.toNat.testBit k = y.toNat.testBit k) : x = y := by
  apply UInt8.toNat_inj.mp
  apply Nat.eq_of_testBit_eq
  intro k
  by_cases hk : k < 8
  · exact h k hk
  · have hx := x.toNat_lt
    have hy := y.toNat_lt
    have hpow : 2 ^ 8 ≤ 2 ^ k := Nat.pow_le_pow_right (by omega) (by omega)
    rw [Nat.testBit_lt_two_pow (by omega), Nat.testBit_lt_two_pow (by omega)]

/-- Strings of one length with the same bits are equal. -/
theorem eq_of_bitAt (hlen : a.length = b.length)
    (h : SamePrefix (8 * a.length) a b) : a = b := by
  apply List.ext_getElem hlen
  intro k hk hk'
  apply byte_eq_of_bits
  intro m hm
  have hbit := h (8 * k + (7 - m)) (by omega)
  unfold bitAt at hbit
  rw [show (8 * k + (7 - m)) / 8 = k by omega,
    show 7 - (8 * k + (7 - m)) % 8 = m by omega,
    List.getD_eq_getElem?_getD, List.getD_eq_getElem?_getD,
    List.getElem?_eq_getElem hk, List.getElem?_eq_getElem hk'] at hbit
  exact hbit

theorem bitAt_zero : bitAt (List.replicate n 0) i = false := by
  unfold bitAt
  rw [List.getD_eq_getElem?_getD, List.getElem?_replicate]
  split
  · exact Nat.zero_testBit _
  · exact Nat.zero_testBit _

/-- Masking a word masks its bits. -/
theorem bitAt_andWord (hmask : mask.length = 4)
    (hroom : 4 * j + 4 ≤ a.length) :
    bitAt (andWord a j mask) i
      = if 32 * j ≤ i ∧ i < 32 * j + 32 then
          bitAt a i && bitAt mask (i - 32 * j)
        else bitAt a i := by
  have hz : (List.zipWith (· &&& ·) (slice a (4 * j) 4) mask).length = 4 := by
    rw [List.length_zipWith, slice_length hroom, hmask]
    rfl
  unfold bitAt andWord
  rw [List.getD_eq_getElem?_getD, getElem?_overlay (by omega), hz]
  by_cases hin : 32 * j ≤ i ∧ i < 32 * j + 32
  · have hk : (i - 32 * j) / 8 < mask.length := by omega
    have ha : i / 8 < a.length := by omega
    rw [if_pos hin, if_pos (by omega), List.getElem?_zipWith, getElem?_slice,
      if_pos (by omega), show 4 * j + (i / 8 - 4 * j) = i / 8 by omega,
      show i / 8 - 4 * j = (i - 32 * j) / 8 by omega,
      List.getD_eq_getElem?_getD, List.getD_eq_getElem?_getD,
      List.getElem?_eq_getElem hk, List.getElem?_eq_getElem ha,
      show (i - 32 * j) % 8 = i % 8 by omega]
    simp only [Option.getD_some, UInt8.toNat_and, Nat.testBit_and]
  · rw [if_neg hin, if_neg (by omega), List.getD_eq_getElem?_getD]

/-- The bits of a mask. -/
theorem bitAt_maskWord (h0 : 0 < n) (hn : n < 32) (hi : i < 32) :
    bitAt (maskWord n) i = decide (i < n) := by
  have hall : ∀ (n : Fin 32) (i : Fin 32), 0 < n.val →
      bitAt (maskWord n.val) i.val = decide (i.val < n.val) := by
    decide
  exact hall ⟨n, hn⟩ ⟨i, hi⟩ h0

end bits

end WinRadius.Lib
