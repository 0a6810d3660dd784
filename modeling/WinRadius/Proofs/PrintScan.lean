/-
What the scanners of `pairparsevalue` make of the numerals that
`vp_prints_value` writes: the number, and nothing left over.
-/
import Mathlib.Data.List.TakeWhile
import WinRadius.Model.ParseValue
import WinRadius.Proofs.RoundTrip

namespace WinRadius

open Lib

-- ======== blanks

theorem isSpace_of_ge {c : UInt8} (h : 48 ≤ c) : isSpace c = false := by
  have h32 : c ≠ 32 := by
    rintro rfl
    exact absurd h (by decide)
  have h13 : ¬ c ≤ 13 := by
    rw [UInt8.le_iff_toNat_le] at h ⊢
    exact Nat.not_le.mpr (Nat.lt_of_lt_of_le (by decide) h)
  simp [isSpace, h32, h13]

/-- A text that starts with a digit has no blanks to skip. -/
theorem dropWhile_isSpace {c : UInt8} {cs : List UInt8}
    (h : 48 ≤ c) : (c :: cs).dropWhile isSpace = c :: cs := by
  rw [List.dropWhile_cons, isSpace_of_ge h]
  rfl

theorem scanSign_of_ge {c : UInt8} {cs : List UInt8} (h : 48 ≤ c) :
    scanSign (c :: cs) = (false, c :: cs) := by
  have h45 : c ≠ 45 := by
    rintro rfl
    exact absurd h (by decide)
  have h43 : c ≠ 43 := by
    rintro rfl
    exact absurd h (by decide)
  simp [scanSign, h45, h43]

/-- A text without terminators is a C string as it is. -/
theorem cString_of_ne {bs : List UInt8} (h : ∀ c ∈ bs, c ≠ 0) :
    cString bs = bs := by
  rw [cString, List.takeWhile_eq_self_iff]
  intro c hc
  simpa using h c hc

-- ======== decimal numbers

/-- The first byte of a numeral and the others. -/
theorem numeral_cons {b : Nat} (hb : 1 < b) (hb16 : b ≤ 16) (n : Nat) :
    ∃ c cs, numeral b n = c :: cs ∧ 48 ≤ c := by
  obtain ⟨c, cs, hcs⟩ := List.exists_cons_of_ne_nil
    (numeral_ne_nil (b := b) (n := n))
  refine ⟨c, cs, hcs, ?_⟩
  apply (ge_of_mem_numeral (n := n) hb hb16 _).1
  rw [hcs]
  exact List.mem_cons_self

theorem scanNumber_numeral (n : Nat) :
    scanNumber 10 (numeral 10 n) = some (false, n, []) := by
  obtain ⟨c, cs, hcs, hge⟩ :=
    numeral_cons (show 1 < 10 by omega) (by omega) n
  have htake := takeWhile_numeral (b := 10) n [] (by omega) (by omega)
    (by simp)
  rw [List.append_nil] at htake
  unfold scanNumber
  rw [hcs, dropWhile_isSpace hge, scanSign_of_ge hge, ← hcs]
  simp only [Nat.reduceEqDiff, if_false]
  rw [htake, if_neg numeral_ne_nil, List.drop_length,
    ofNumeral_numeral (by omega) (by omega)]

theorem scanNumber_minus (n : Nat) :
    scanNumber 10 (45 :: numeral 10 n) = some (true, n, []) := by
  have htake := takeWhile_numeral (b := 10) n [] (by omega) (by omega)
    (by simp)
  rw [List.append_nil] at htake
  have hdrop : (45 :: numeral 10 n).dropWhile isSpace
      = 45 :: numeral 10 n := rfl
  unfold scanNumber
  rw [hdrop]
  simp only [scanSign, List.head?_cons, if_true, List.tail_cons,
    Nat.reduceEqDiff, if_false]
  rw [htake, if_neg numeral_ne_nil, List.drop_length,
    ofNumeral_numeral (by omega) (by omega)]

/-- `strtoul` undoes `%u`. -/
theorem strtoul_numeral {n : Nat} (h : n < 4294967296) :
    strtoul 10 (numeral 10 n) = (UInt32.ofNat n, []) := by
  rw [strtoul, scanNumber_numeral]
  simp only
  rw [if_neg (by omega)]
  rfl

/-- A decimal numeral is not taken for a hexadecimal one. -/
theorem take_numeral_ne_mark (n : Nat) :
    (numeral 10 n).take 2 ≠ [48, 120] := by
  intro h
  have hmem : (120 : UInt8) ∈ numeral 10 n := by
    apply List.mem_of_mem_take (i := 2)
    rw [h]
    simp
  have := isDigitOf_of_mem (by omega) (by omega) hmem
  exact absurd this (by decide)

theorem getint_numeral (v : UInt32) :
    getint (numeral 10 v.toNat) = (v, []) := by
  rw [getint, if_neg (take_numeral_ne_mark _),
    strtoul_numeral v.toNat_lt, UInt32.ofNat_toNat]

/-- `strtol` undoes `%d`. -/
theorem strtol_signedNumeral {n : Int} (hlo : -2147483648 ≤ n)
    (hhi : n ≤ 2147483647) : strtol 10 (signedNumeral n) = n := by
  unfold strtol signedNumeral
  rcases lt_or_ge n 0 with hneg | hpos
  · rw [if_pos hneg, scanNumber_minus]
    simp only [if_true]
    omega
  · rw [if_neg (by omega), scanNumber_numeral]
    simp only [Bool.false_eq_true, if_false]
    omega

/-- The bits of a signed value. -/
theorem ofInt_signed (vp : ValuePair) :
    UInt32.ofInt vp.signed = vp.sinteger := by
  apply UInt32.toNat_inj.mp
  have h := vp.sinteger.toNat_lt
  unfold ValuePair.signed
  split
  · simp [UInt32.ofInt]
    omega
  · simp [UInt32.ofInt]
    omega

-- ======== hexadecimal numbers

theorem hexByte_eq (b : UInt8) :
    ∃ hi lo, hi < 16 ∧ lo < 16 ∧ hi * 16 + lo = b.toNat
      ∧ hexByte b = [digitByte hi, digitByte lo] := by
  have h := b.toNat_lt
  exact ⟨b.toNat / 16, b.toNat % 16, by omega, by omega, by omega, rfl⟩

theorem hextab_digitByte {d : Nat} (h : d < 16) :
    hextab (digitByte d) = some d :=
  digitValue_digitByte h (by omega)

/-- Two hexadecimal digits are not the start of a marked number. -/
theorem digitByte_ne_mark {d : Nat} (h : d < 16) :
    digitByte d ≠ 120 ∧ digitByte d ≠ 88 ∧ digitByte d ≠ 58
      ∧ digitByte d ≠ 0 := by
  revert d
  decide

/-- `sscanf` with `%02x` undoes `%02x`. -/
theorem scanHex2_hexByte (b : UInt8) (cs : List UInt8) :
    scanHex2 (hexByte b ++ cs) = some b.toUInt32 := by
  obtain ⟨hi, lo, hhi, hlo, hsum, hb⟩ := hexByte_eq b
  have hge := digitByte_ge hhi
  have hmark := digitByte_ne_mark hlo
  have htake : [digitByte hi, digitByte lo].takeWhile (isDigitOf 16)
      = [digitByte hi, digitByte lo] := by
    simp [isDigitOf_digitByte hhi, isDigitOf_digitByte hlo]
  unfold scanHex2
  rw [hb, List.cons_append, dropWhile_isSpace hge]
  simp only [List.cons_append, List.nil_append, List.take_succ_cons,
    List.take_zero, scanSign_of_ge hge, htake]
  rw [if_neg]
  · simp only [Bool.false_eq_true, if_false, ofNumeral, List.foldl_cons,
      List.foldl_nil, digitValue_digitByte hhi (Nat.le_refl 16),
      digitValue_digitByte hlo (Nat.le_refl 16), Option.getD_some]
    congr 1
    apply UInt32.toNat_inj.mp
    have := b.toNat_lt
    simp
    omega
  · simp [hmark.1, hmark.2.1]

/-- The digits of bytes are read back two by two. -/
theorem octetsLoop_frBin2hex (bs : List UInt8) :
    ∀ n, bs.length ≤ n → octetsLoop n (frBin2hex bs) = .ok bs := by
  induction bs with
  | nil =>
      intro n _
      cases n with
      | zero => rfl
      | succ n => rfl
  | cons b bs ih =>
      intro n hn
      obtain ⟨hi, lo, -, -, -, hb⟩ := hexByte_eq b
      obtain ⟨n, rfl⟩ := Nat.exists_eq_add_one_of_ne_zero
        (show n ≠ 0 by rintro rfl; simp at hn)
      have hrest := ih n (by simpa using hn)
      have hscan := scanHex2_hexByte b (frBin2hex bs)
      have hcons : frBin2hex (b :: bs)
          = digitByte hi :: digitByte lo :: frBin2hex bs := by
        rw [frBin2hex, List.flatMap_cons, hb]
        rfl
      rw [hb] at hscan
      simp only [List.cons_append, List.nil_append] at hscan
      rw [hcons, octetsLoop, hscan]
      simp only [hrest, ok_bind]
      simp

theorem frBin2hex_length (bs : List UInt8) :
    (frBin2hex bs).length = 2 * bs.length := by
  induction bs with
  | nil => rfl
  | cons b bs ih =>
      rw [frBin2hex, List.flatMap_cons, List.length_append, ← frBin2hex,
        ih]
      simp [hexByte]
      omega

-- ======== groups of 16

theorem groups16_lt (bs : List UInt8) : ∀ g ∈ groups16 bs, g < 65536 := by
  induction bs using groups16.induct with
  | case1 a b bs ih =>
      intro g hg
      rw [groups16, List.mem_cons] at hg
      rcases hg with rfl | hg
      · have := a.toNat_lt
        have := b.toNat_lt
        omega
      · exact ih g hg
  | case2 bs h =>
      intro g hg
      rw [groups16] at hg
      · cases hg
      · exact h

theorem idBytes_group (a b : UInt8) :
    idBytes (a.toNat * 256 + b.toNat) = [a, b] := by
  have ha := a.toNat_lt
  have hb := b.toNat_lt
  simp only [idBytes, List.cons.injEq, and_true]
  refine ⟨?_, ?_⟩ <;>
    · apply UInt8.toNat_inj.mp
      rw [UInt8.toNat_ofNat']
      omega

end WinRadius
