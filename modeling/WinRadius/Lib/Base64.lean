/-
The base64 encoding of bytes.

Three bytes are a number of 24 bits, and its four digits of six bits are
letters. The last group may have one or two bytes; its other letters are
padding, and the bits that no byte takes are zero where it is encoded and
ignored where it is read.
-/
import Mathlib.Tactic

namespace WinRadius.Lib.Base64

-- ======== letters

/-- The digit that a letter stands for. -/
def sextet (c : UInt8) : Option Nat :=
  if 65 ≤ c ∧ c ≤ 90 then some (c.toNat - 65)
  else if 97 ≤ c ∧ c ≤ 122 then some (c.toNat - 97 + 26)
  else if 48 ≤ c ∧ c ≤ 57 then some (c.toNat - 48 + 52)
  else if c = 43 then some 62
  else if c = 47 then some 63
  else none

/-- The letter of a digit. -/
def letter (n : Nat) : UInt8 :=
  if n < 26 then UInt8.ofNat (n + 65)
  else if n < 52 then UInt8.ofNat (n + 71)
  else if n < 62 then UInt8.ofNat (n - 4)
  else if n = 62 then 43
  else 47

/-- `=`. -/
def pad : UInt8 := 61

/-- The digit of a letter, by its number. -/
theorem sextet_ofNat {m : Nat} (h : m < 256) :
    sextet (UInt8.ofNat m)
      = if 65 ≤ m ∧ m ≤ 90 then some (m - 65)
        else if 97 ≤ m ∧ m ≤ 122 then some (m - 97 + 26)
        else if 48 ≤ m ∧ m ≤ 57 then some (m - 48 + 52)
        else if m = 43 then some 62
        else if m = 47 then some 63
        else none := by
  have hm : (UInt8.ofNat m).toNat = m := by
    rw [UInt8.toNat_ofNat']
    omega
  unfold sextet
  simp only [UInt8.le_iff_toNat_le, ← UInt8.toNat_inj, hm, UInt8.reduceToNat]

theorem sextet_letter {n : Nat} (h : n < 64) :
    sextet (letter n) = some n := by
  unfold letter
  split
  · rw [sextet_ofNat (by omega), if_pos (by omega), Nat.add_sub_cancel]
  · split
    · rw [sextet_ofNat (by omega), if_neg (by omega), if_pos (by omega)]
      congr 1
      omega
    · split
      · rw [sextet_ofNat (by omega), if_neg (by omega), if_neg (by omega),
          if_pos (by omega)]
        congr 1
        omega
      · split
        · next h62 =>
            rw [h62]
            rfl
        · rw [show n = 63 by omega]
          rfl
theorem sextet_pad : sextet pad = none := rfl

-- ======== groups

/-- The number of four digits. -/
def digits (x y z u : Nat) : Nat := ((x * 64 + y) * 64 + z) * 64 + u

/-- The bytes of a number of 24 bits. -/
def threeBytes (n : Nat) : List UInt8 :=
  [UInt8.ofNat (n / 65536), UInt8.ofNat (n / 256), UInt8.ofNat n]

/-- The letters of a number of 24 bits. -/
def letters (n : Nat) : List UInt8 :=
  [letter (n / 262144), letter (n / 4096 % 64), letter (n / 64 % 64),
    letter (n % 64)]

/-- The encoding. -/
def encode : List UInt8 → List UInt8
  | [] => []
  | [a] => (letters (a.toNat * 65536)).take 2 ++ [pad, pad]
  | [a, b] => (letters (a.toNat * 65536 + b.toNat * 256)).take 3 ++ [pad]
  | a :: b :: c :: bytes =>
      letters (a.toNat * 65536 + b.toNat * 256 + c.toNat) ++ encode bytes

/-- What a text is the encoding of. -/
def decode : List UInt8 → Option (List UInt8)
  | [] => some []
  | a :: b :: c :: d :: text =>
      match sextet a, sextet b, sextet c, sextet d with
      | some x, some y, some z, some u =>
          (decode text).map (threeBytes (digits x y z u) ++ ·)
      | some x, some y, some z, none =>
          if d = pad ∧ text = [] then
            some ((threeBytes (digits x y z 0)).take 2)
          else none
      | some x, some y, none, none =>
          if c = pad ∧ d = pad ∧ text = [] then
            some ((threeBytes (digits x y 0 0)).take 1)
          else none
      | _, _, _, _ => none
  | _ => none

/-- The digits of a number make it up. -/
theorem digits_split {n : Nat} :
    digits (n / 262144) (n / 4096 % 64) (n / 64 % 64) (n % 64) = n := by
  unfold digits
  omega

/-- The bytes of a number make it up. -/
theorem threeBytes_join (a b c : UInt8) :
    threeBytes (a.toNat * 65536 + b.toNat * 256 + c.toNat) = [a, b, c] := by
  have ha := a.toNat_lt
  have hb := b.toNat_lt
  have hc := c.toNat_lt
  have h1 : (a.toNat * 65536 + b.toNat * 256 + c.toNat) / 65536
      = a.toNat := by omega
  have h2 : UInt8.ofNat ((a.toNat * 65536 + b.toNat * 256 + c.toNat) / 256)
      = b := by
    rw [show (a.toNat * 65536 + b.toNat * 256 + c.toNat) / 256
      = b.toNat + a.toNat * 256 by omega]
    apply UInt8.toNat_inj.mp
    rw [UInt8.toNat_ofNat']
    omega
  have h3 : UInt8.ofNat (a.toNat * 65536 + b.toNat * 256 + c.toNat)
      = c := by
    apply UInt8.toNat_inj.mp
    rw [UInt8.toNat_ofNat']
    omega
  rw [threeBytes, h1, h2, h3, UInt8.ofNat_toNat]

/-- The letters of a number of 24 bits stand for its digits. -/
theorem sextet_letters {n : Nat} (h : n < 16777216) :
    sextet (letter (n / 262144)) = some (n / 262144)
      ∧ sextet (letter (n / 4096 % 64)) = some (n / 4096 % 64)
      ∧ sextet (letter (n / 64 % 64)) = some (n / 64 % 64)
      ∧ sextet (letter (n % 64)) = some (n % 64) :=
  ⟨sextet_letter (by omega), sextet_letter (by omega),
    sextet_letter (by omega), sextet_letter (by omega)⟩

theorem decode_one {a b : UInt8} {x y : Nat} (hx : sextet a = some x)
    (hy : sextet b = some y) :
    decode [a, b, pad, pad] = some ((threeBytes (digits x y 0 0)).take 1) := by
  rw [decode, hx, hy, sextet_pad]
  exact if_pos ⟨rfl, rfl, rfl⟩

theorem decode_two {a b c : UInt8} {x y z : Nat} (hx : sextet a = some x)
    (hy : sextet b = some y) (hz : sextet c = some z) :
    decode [a, b, c, pad] = some ((threeBytes (digits x y z 0)).take 2) := by
  rw [decode, hx, hy, hz, sextet_pad]
  exact if_pos ⟨rfl, rfl⟩

/-- Decoding undoes encoding. -/
theorem decode_encode (bytes : List UInt8) :
    decode (encode bytes) = some bytes := by
  induction bytes using encode.induct with
  | case1 => rfl
  | case2 a =>
      have ha := a.toNat_lt
      obtain ⟨hx, hy, -, -⟩ := sextet_letters
        (show a.toNat * 65536 < 16777216 by omega)
      have hsplit := @digits_split (a.toNat * 65536)
      rw [show a.toNat * 65536 / 64 % 64 = 0 by omega,
        show a.toNat * 65536 % 64 = 0 by omega] at hsplit
      have hjoin := threeBytes_join a 0 0
      simp only [UInt8.toNat_zero, Nat.zero_mul, Nat.add_zero] at hjoin
      show decode [letter _, letter _, pad, pad] = _
      rw [decode_one hx hy, hsplit, hjoin]
      rfl
  | case3 a b =>
      have ha := a.toNat_lt
      have hb := b.toNat_lt
      obtain ⟨hx, hy, hz, -⟩ := sextet_letters
        (show a.toNat * 65536 + b.toNat * 256 < 16777216 by omega)
      have hsplit := @digits_split (a.toNat * 65536 + b.toNat * 256)
      rw [show (a.toNat * 65536 + b.toNat * 256) % 64 = 0 by omega] at hsplit
      have hjoin := threeBytes_join a b 0
      simp only [UInt8.toNat_zero, Nat.add_zero] at hjoin
      show decode [letter _, letter _, letter _, pad] = _
      rw [decode_two hx hy hz, hsplit, hjoin]
      rfl
  | case4 a b c bytes ih =>
      have ha := a.toNat_lt
      have hb := b.toNat_lt
      have hc := c.toNat_lt
      obtain ⟨hx, hy, hz, hu⟩ := sextet_letters
        (show a.toNat * 65536 + b.toNat * 256 + c.toNat < 16777216 by omega)
      simp only [encode, letters, List.cons_append, List.nil_append, decode,
        hx, hy, hz, hu, digits_split, ih, threeBytes_join, Option.map_some]

/-- How a text is read, group by group. -/
inductive Decodes : List UInt8 → List UInt8 → Prop where
  | nil : Decodes [] []
  | three {a b c d : UInt8} {x y z u : Nat} {text bytes : List UInt8} :
      sextet a = some x → sextet b = some y → sextet c = some z →
      sextet d = some u → Decodes text bytes →
      Decodes (a :: b :: c :: d :: text)
        (threeBytes (digits x y z u) ++ bytes)
  | two {a b c : UInt8} {x y z : Nat} :
      sextet a = some x → sextet b = some y → sextet c = some z →
      Decodes [a, b, c, pad] ((threeBytes (digits x y z 0)).take 2)
  | one {a b : UInt8} {x y : Nat} :
      sextet a = some x → sextet b = some y →
      Decodes [a, b, pad, pad] ((threeBytes (digits x y 0 0)).take 1)

theorem decodes_of_decode {text bytes : List UInt8}
    (h : decode text = some bytes) : Decodes text bytes := by
  fun_induction decode text generalizing bytes with
  | case1 =>
      cases h
      exact .nil
  | case2 a b c d text x y z u hu hz hy hx ih =>
      obtain ⟨rest, hrest, rfl⟩ := Option.map_eq_some_iff.mp h
      exact .three hx hy hz hu (ih hrest)
  | case3 a b c d text x y z hd hz hy hx hpad =>
      obtain ⟨rfl, rfl⟩ := hpad
      cases h
      exact .two hx hy hz
  | case4 => cases h
  | case5 a b c d text x y hd hc hy hx hpad =>
      obtain ⟨rfl, rfl, rfl⟩ := hpad
      cases h
      exact .one hx hy
  | case6 => cases h
  | case7 => cases h
  | case8 => cases h

/-- A text that is read has whole groups. -/
theorem Decodes.length_mod {text bytes : List UInt8}
    (h : Decodes text bytes) : text.length % 4 = 0 := by
  induction h with
  | nil => rfl
  | three _ _ _ _ _ ih =>
      simp only [List.length_cons]
      omega
  | two _ _ _ => simp
  | one _ _ => simp

end WinRadius.Lib.Base64
