/-
Which bytes `fr_utf8_char` takes for a character.

A well-formed sequence is what Lean's encoder makes of a `Char`: no
surrogates, nothing above U+10FFFF, and one encoding for each. In terms of
the bytes it is a union of ranges (`wellFormed_iff`). The source has these
ranges, and one more: four bytes from 0xf1 on, where it asks the second
byte to be at most 0xf3 and not the first.
-/
import WinRadius.Model.Utf8

namespace WinRadius

open Lib

-- ======== sequences

/-- The string starts with the encoding, of `n` bytes, of a character that
is not a control character of ASCII. -/
def Utf8Head (str : List UInt8) (n : Nat) : Prop :=
  ∃ c : Char, 0x20 ≤ c.val.toNat ∧ c.val.toNat ≠ 0x7f
    ∧ String.utf8EncodeChar c <+: str ∧ (String.utf8EncodeChar c).length = n

/-- A byte of the string; behind the end it is zero. -/
def byteAt (str : List UInt8) (i : Nat) : Nat := (str.getD i 0).toNat

/-- A byte behind the first of a sequence. -/
def Continues (b : Nat) : Prop := 0x80 ≤ b ∧ b ≤ 0xbf

instance (b : Nat) : Decidable (Continues b) :=
  inferInstanceAs (Decidable (_ ∧ _))

theorem byteAt_lt (str : List UInt8) (i : Nat) : byteAt str i < 256 :=
  UInt8.toNat_lt _

/-- A byte that is not zero at the front of a string. -/
theorem cons_prefix_iff {b : UInt8} {bs str : List UInt8} {i n : Nat}
    (hb : b = UInt8.ofNat n) (hn : 0 < n) (hlt : n < 256) :
    b :: bs <+: str.drop i ↔ byteAt str i = n ∧ bs <+: str.drop (i + 1) := by
  have hne : b ≠ 0 := by
    rw [hb]
    intro h
    have hz := congrArg UInt8.toNat h
    rw [UInt8.toNat_ofNat'] at hz
    simp only [UInt8.toNat_zero] at hz
    omega
  have hto : b.toNat = n := by
    rw [hb, UInt8.toNat_ofNat']
    omega
  cases hstr : str.drop i with
  | nil =>
      have hlen : str.length ≤ i := List.drop_eq_nil_iff.mp hstr
      have hzero : byteAt str i = 0 := by
        rw [byteAt, List.getD_eq_getElem?_getD, List.getElem?_eq_none hlen]
        rfl
      simp only [List.prefix_nil, reduceCtorEq, false_iff, not_and, hzero]
      intro h
      omega
  | cons a as =>
      have hat : str[i]? = some a := by
        rw [← List.head?_drop, hstr]
        rfl
      have hdrop : str.drop (i + 1) = as := by
        rw [← List.tail_drop, hstr]
        rfl
      have ha : byteAt str i = a.toNat := by
        rw [byteAt, List.getD_eq_getElem?_getD, hat]
        rfl
      rw [List.cons_prefix_cons, hdrop, ha, ← hto, UInt8.toNat_inj, eq_comm]

/-- Every number that is a scalar value belongs to a character. -/
theorem exists_char {v : Nat}
    (h : v < 0xd800 ∨ 0xdfff < v ∧ v < 0x110000) :
    ∃ c : Char, c.val.toNat = v := by
  have hv : (UInt32.ofNat v).toNat = v := by
    rw [UInt32.toNat_ofNat']
    omega
  refine ⟨⟨UInt32.ofNat v, ?_⟩, hv⟩
  unfold UInt32.isValidChar
  rw [hv]
  exact h

theorem char_valid (c : Char) :
    c.val.toNat < 0xd800 ∨ 0xdfff < c.val.toNat ∧ c.val.toNat < 0x110000 :=
  c.valid

/-- The encoding at the front of a string, byte by byte. -/
theorem encode_prefix_iff {c : Char} {str : List UInt8}
    (hc : 0 < c.val.toNat) :
    String.utf8EncodeChar c <+: str ↔
      if c.val.toNat ≤ 0x7f then byteAt str 0 = c.val.toNat
      else if c.val.toNat ≤ 0x7ff then
        byteAt str 0 = c.val.toNat / 64 % 0x20 + 0xc0
          ∧ byteAt str 1 = c.val.toNat % 0x40 + 0x80
      else if c.val.toNat ≤ 0xffff then
        byteAt str 0 = c.val.toNat / 4096 % 0x10 + 0xe0
          ∧ byteAt str 1 = c.val.toNat / 64 % 0x40 + 0x80
          ∧ byteAt str 2 = c.val.toNat % 0x40 + 0x80
      else
        byteAt str 0 = c.val.toNat / 262144 % 0x08 + 0xf0
          ∧ byteAt str 1 = c.val.toNat / 4096 % 0x40 + 0x80
          ∧ byteAt str 2 = c.val.toNat / 64 % 0x40 + 0x80
          ∧ byteAt str 3 = c.val.toNat % 0x40 + 0x80 := by
  have hnil : ∀ i, ([] : List UInt8) <+: str.drop i := by simp
  have hfront : ∀ l : List UInt8, l <+: str ↔ l <+: str.drop 0 := by simp
  rw [hfront, String.utf8EncodeChar]
  split
  · rw [cons_prefix_iff rfl hc (by omega)]
    simp
  · split
    · rw [cons_prefix_iff rfl (by omega) (by omega),
        cons_prefix_iff rfl (by omega) (by omega)]
      simp [hnil]
    · split
      · rw [cons_prefix_iff rfl (by omega) (by omega),
          cons_prefix_iff rfl (by omega) (by omega),
          cons_prefix_iff rfl (by omega) (by omega)]
        simp [hnil]
      · rw [cons_prefix_iff rfl (by omega) (by omega),
          cons_prefix_iff rfl (by omega) (by omega),
          cons_prefix_iff rfl (by omega) (by omega),
          cons_prefix_iff rfl (by omega) (by omega)]
        simp [hnil]

theorem encode_length (c : Char) : (String.utf8EncodeChar c).length =
    if c.val.toNat ≤ 0x7f then 1 else if c.val.toNat ≤ 0x7ff then 2
    else if c.val.toNat ≤ 0xffff then 3 else 4 := by
  rw [String.utf8EncodeChar]
  split
  · rfl
  · split
    · rfl
    · split
      · rfl
      · rfl

/-- The bytes of a sequence, by its length. -/
def Utf8Bytes (str : List UInt8) (n : Nat) : Prop :=
  (n = 1 ∧ 0x20 ≤ byteAt str 0 ∧ byteAt str 0 ≤ 0x7e)
  ∨ (n = 2 ∧ 0xc2 ≤ byteAt str 0 ∧ byteAt str 0 ≤ 0xdf
      ∧ Continues (byteAt str 1))
  ∨ (n = 3 ∧ (byteAt str 0 = 0xe0 ∧ 0xa0 ≤ byteAt str 1
      ∨ 0xe1 ≤ byteAt str 0 ∧ byteAt str 0 ≤ 0xef
        ∧ (byteAt str 0 = 0xed → byteAt str 1 ≤ 0x9f))
      ∧ Continues (byteAt str 1) ∧ Continues (byteAt str 2))
  ∨ (n = 4 ∧ (byteAt str 0 = 0xf0 ∧ 0x90 ≤ byteAt str 1
      ∨ 0xf1 ≤ byteAt str 0 ∧ byteAt str 0 ≤ 0xf3
      ∨ byteAt str 0 = 0xf4 ∧ byteAt str 1 ≤ 0x8f)
      ∧ Continues (byteAt str 1) ∧ Continues (byteAt str 2)
      ∧ Continues (byteAt str 3))

instance (str : List UInt8) (n : Nat) : Decidable (Utf8Bytes str n) :=
  inferInstanceAs (Decidable (_ ∨ _))

/-- What a character's bytes say of its number. -/
theorem bytes_of_head {str : List UInt8} {n : Nat}
    (h : Utf8Head str n) : Utf8Bytes str n := by
  obtain ⟨c, h20, h7f, hfront, hlen⟩ := h
  have hvalid := char_valid c
  rw [encode_prefix_iff (by omega)] at hfront
  rw [encode_length] at hlen
  unfold Utf8Bytes Continues
  split at hfront
  · next h1 =>
      rw [if_pos h1] at hlen
      exact Or.inl (by omega)
  · next h1 =>
      rw [if_neg h1] at hlen
      split at hfront
      · next h2 =>
          rw [if_pos h2] at hlen
          refine Or.inr (Or.inl ⟨hlen.symm, ?_, ?_, ?_⟩)
          · omega
          · omega
          · omega
      · next h2 =>
          rw [if_neg h2] at hlen
          split at hfront
          · next h3 =>
              rw [if_pos h3] at hlen
              refine Or.inr (Or.inr (Or.inl ⟨hlen.symm, ?_, ?_, ?_⟩))
              · rcases Nat.eq_zero_or_pos (c.val.toNat / 4096) with h0 | h0
                · exact Or.inl (by omega)
                · exact Or.inr (by omega)
              · omega
              · omega
          · next h3 =>
              rw [if_neg h3] at hlen
              refine Or.inr (Or.inr (Or.inr ⟨hlen.symm, ?_, ?_, ?_, ?_⟩))
              · omega
              · omega
              · omega
              · omega

/-- The number a sequence of bytes stands for. -/
def codePoint (str : List UInt8) (n : Nat) : Nat :=
  if n = 1 then byteAt str 0
  else if n = 2 then (byteAt str 0 - 0xc0) * 64 + (byteAt str 1 - 0x80)
  else if n = 3 then (byteAt str 0 - 0xe0) * 4096
    + (byteAt str 1 - 0x80) * 64 + (byteAt str 2 - 0x80)
  else (byteAt str 0 - 0xf0) * 262144 + (byteAt str 1 - 0x80) * 4096
    + (byteAt str 2 - 0x80) * 64 + (byteAt str 3 - 0x80)

theorem head_of_bytes {str : List UInt8} {n : Nat}
    (h : Utf8Bytes str n) : Utf8Head str n := by
  have hn : n = 1 ∨ n = 2 ∨ n = 3 ∨ n = 4 := by
    rcases h with h | h | h | h
    · exact Or.inl h.1
    · exact Or.inr (Or.inl h.1)
    · exact Or.inr (Or.inr (Or.inl h.1))
    · exact Or.inr (Or.inr (Or.inr h.1))
  obtain ⟨v, hv⟩ : ∃ v, v = codePoint str n := ⟨_, rfl⟩
  unfold Utf8Bytes Continues at h
  unfold codePoint at hv
  rcases hn with rfl | rfl | rfl | rfl
  · simp only [reduceIte] at hv
    obtain ⟨c, hc⟩ := exists_char (v := v) (by omega)
    refine ⟨c, by omega, by omega, ?_, ?_⟩
    · rw [encode_prefix_iff (by omega), hc, if_pos (by omega)]
      exact hv.symm
    · rw [encode_length, hc, if_pos (by omega)]
  · simp only [OfNat.ofNat_ne_one, reduceIte] at hv
    obtain ⟨c, hc⟩ := exists_char (v := v) (by omega)
    refine ⟨c, by omega, by omega, ?_, ?_⟩
    · rw [encode_prefix_iff (by omega), hc, if_neg (by omega),
        if_pos (by omega)]
      omega
    · rw [encode_length, hc, if_neg (by omega), if_pos (by omega)]
  · simp only [OfNat.ofNat_ne_one, Nat.reduceEqDiff, reduceIte] at hv
    obtain ⟨c, hc⟩ := exists_char (v := v) (by omega)
    refine ⟨c, by omega, by omega, ?_, ?_⟩
    · rw [encode_prefix_iff (by omega), hc, if_neg (by omega),
        if_neg (by omega), if_pos (by omega)]
      omega
    · rw [encode_length, hc, if_neg (by omega), if_neg (by omega),
        if_pos (by omega)]
  · simp only [OfNat.ofNat_ne_one, Nat.reduceEqDiff, reduceIte] at hv
    obtain ⟨c, hc⟩ := exists_char (v := v) (by omega)
    refine ⟨c, by omega, by omega, ?_, ?_⟩
    · rw [encode_prefix_iff (by omega), hc, if_neg (by omega),
        if_neg (by omega), if_neg (by omega)]
      omega
    · rw [encode_length, hc, if_neg (by omega), if_neg (by omega),
        if_neg (by omega)]

/-- RFC 3629 in bytes. -/
theorem utf8Head_iff {str : List UInt8} {n : Nat} :
    Utf8Head str n ↔ Utf8Bytes str n :=
  ⟨bytes_of_head, head_of_bytes⟩

-- ======== the reads

/-- The comparisons only go on to a byte behind bytes that are not zero,
`k` of them known. -/
def StepsOn : Nat → List (Nat × UInt8 × UInt8) → Prop
  | _, [] => True
  | k, (i, lo, _) :: rest =>
      i ≤ k ∧ StepsOn (if i = k ∧ 0 < lo then k + 1 else k) rest

instance stepsOnDecidable : ∀ (k : Nat) (rs : List (Nat × UInt8 × UInt8)),
    Decidable (StepsOn k rs)
  | _, [] => inferInstanceAs (Decidable True)
  | k, (i, lo, _) :: rest =>
      have := stepsOnDecidable (if i = k ∧ 0 < lo then k + 1 else k) rest
      inferInstanceAs (Decidable (_ ∧ _))

/-- The comparison holds. -/
def InRange (str : List UInt8) (r : Nat × UInt8 × UInt8) : Prop :=
  r.2.1.toNat ≤ byteAt str r.1 ∧ byteAt str r.1 ≤ r.2.2.toNat

instance (str : List UInt8) (r : Nat × UInt8 × UInt8) :
    Decidable (InRange str r) :=
  inferInstanceAs (Decidable (_ ∧ _))

section reads

variable {text : List UInt8}

/-- Behind bytes that are not zero, the next is still in the buffer. -/
theorem fetch_behind {i : Nat}
    (h : ∀ j < i, byteAt (text ++ [0]) j ≠ 0) :
    fetch (text ++ [0]) i = .ok ((text ++ [0]).getD i 0) := by
  apply fetch_getD
  rw [List.length_append, List.length_singleton]
  by_contra hlong
  apply h text.length (by omega)
  rw [byteAt, List.getD_eq_getElem?_getD,
    List.getElem?_append_right (Nat.le_refl _), Nat.sub_self]
  rfl

/-- No read is outside, and the chain says whether all of it holds. -/
theorem inRanges_eq {ranges : List (Nat × UInt8 × UInt8)} {k : Nat}
    (hk : ∀ j < k, byteAt (text ++ [0]) j ≠ 0) (hr : StepsOn k ranges) :
    inRanges (text ++ [0]) ranges
      = .ok (decide (∀ r ∈ ranges, InRange (text ++ [0]) r)) := by
  induction ranges generalizing k with
  | nil => simp [inRanges]
  | cons r ranges ih =>
      obtain ⟨i, lo, hi⟩ := r
      obtain ⟨hik, hrest⟩ := hr
      have hread := fetch_behind (i := i) fun j hj => hk j (by omega)
      rw [inRanges, hread, ok_bind]
      have hiff : (lo ≤ (text ++ [0]).getD i 0
          ∧ (text ++ [0]).getD i 0 ≤ hi) ↔
          InRange (text ++ [0]) (i, lo, hi) := by
        simp only [InRange, byteAt, UInt8.le_iff_toNat_le]
      by_cases hin : InRange (text ++ [0]) (i, lo, hi)
      · rw [if_pos (hiff.mpr hin)]
        rw [ih ?_ hrest]
        · simp [hin]
        · intro j hj
          split at hj
          · next hnext =>
              by_cases hjk : j = k
              · have hlo := UInt8.lt_iff_toNat_lt.mp hnext.2
                have hle : lo.toNat ≤ byteAt (text ++ [0]) i := hin.1
                rw [hjk, ← hnext.1]
                simp only [UInt8.toNat_zero] at hlo
                omega
              · exact hk j (by omega)
          · exact hk j hj
      · rw [if_neg fun h => hin (hiff.mp h)]
        simp [hin]

/-- The length that the cases give. -/
def searched (str : List UInt8) :
    List (List (Nat × UInt8 × UInt8) × Nat) → Nat
  | [] => 0
  | (ranges, n) :: rest =>
      if ∀ r ∈ ranges, InRange str r then n else searched str rest

theorem utf8Search_eq {cases : List (List (Nat × UInt8 × UInt8) × Nat)}
    (h : ∀ c ∈ cases, StepsOn 0 c.1) :
    utf8Search (text ++ [0]) cases = .ok (searched (text ++ [0]) cases) := by
  induction cases with
  | nil => rfl
  | cons c cases ih =>
      obtain ⟨ranges, n⟩ := c
      rw [utf8Search, inRanges_eq (fun j hj => absurd hj (by omega))
        (h _ List.mem_cons_self), ok_bind, searched]
      by_cases hall : ∀ r ∈ ranges, InRange (text ++ [0]) r
      · rw [if_pos (decide_eq_true hall), if_pos hall]
        rfl
      · rw [if_neg (by rwa [decide_eq_true_eq]), if_neg hall]
        exact ih fun c hc => h c (List.mem_cons_of_mem _ hc)

/-- What `fr_utf8_char` returns. -/
theorem frUtf8CharRead_eq (text : List UInt8) :
    frUtf8CharRead (text ++ [0]) = .ok (
      if byteAt (text ++ [0]) 0 < 0x20 then 0
      else if byteAt (text ++ [0]) 0 ≤ 0x7e then 1
      else if byteAt (text ++ [0]) 0 ≤ 0xc1 then 0
      else searched (text ++ [0]) utf8Cases) := by
  have hread : fetch (text ++ [0]) (0 : Nat) = .ok ((text ++ [0]).getD 0 0) :=
    fetch_behind fun j hj => absurd hj (by omega)
  have hcases : ∀ c ∈ utf8Cases, StepsOn 0 c.1 := by decide
  rw [frUtf8CharRead, Nat.cast_zero.symm, hread, ok_bind, utf8Search_eq hcases]
  have h20 : (text ++ [0]).getD 0 0 < 0x20 ↔ byteAt (text ++ [0]) 0 < 0x20 :=
    UInt8.lt_iff_toNat_lt
  have h7e : (text ++ [0]).getD 0 0 ≤ 0x7e ↔ byteAt (text ++ [0]) 0 ≤ 0x7e :=
    UInt8.le_iff_toNat_le
  have hc1 : (text ++ [0]).getD 0 0 ≤ 0xc1 ↔ byteAt (text ++ [0]) 0 ≤ 0xc1 :=
    UInt8.le_iff_toNat_le
  simp only [h20, h7e, hc1, pure_eq_ok]
  split
  · rfl
  · split
    · rfl
    · split
      · rfl
      · rfl

end reads

-- ======== the case

/-- Three continuations behind a byte that no sequence starts with, or
behind 0xf4 for a number that is too large. -/
def TooLarge (str : List UInt8) : Prop :=
  (0xf5 ≤ byteAt str 0 ∨ byteAt str 0 = 0xf4 ∧ 0x90 ≤ byteAt str 1)
    ∧ Continues (byteAt str 1) ∧ Continues (byteAt str 2)
    ∧ Continues (byteAt str 3)

instance (str : List UInt8) : Decidable (TooLarge str) :=
  inferInstanceAs (Decidable (_ ∧ _))

/-- Every sequence is in one of the ranges of the source. -/
theorem some_range {a b c d n : Nat} (h : 0xc1 < a) (hlt : a < 256)
    (hw : (n = 1 ∧ 0x20 ≤ a ∧ a ≤ 0x7e
        ∨ n = 2 ∧ 0xc2 ≤ a ∧ a ≤ 0xdf ∧ 0x80 ≤ b ∧ b ≤ 0xbf
        ∨ n = 3 ∧ (a = 0xe0 ∧ 0xa0 ≤ b
            ∨ 0xe1 ≤ a ∧ a ≤ 0xef ∧ (a = 0xed → b ≤ 0x9f))
          ∧ (0x80 ≤ b ∧ b ≤ 0xbf) ∧ 0x80 ≤ c ∧ c ≤ 0xbf
        ∨ n = 4 ∧ (a = 0xf0 ∧ 0x90 ≤ b ∨ 0xf1 ≤ a ∧ a ≤ 0xf3
            ∨ a = 0xf4 ∧ b ≤ 0x8f)
          ∧ (0x80 ≤ b ∧ b ≤ 0xbf) ∧ (0x80 ≤ c ∧ c ≤ 0xbf)
          ∧ 0x80 ≤ d ∧ d ≤ 0xbf)
      ∨ n = 4 ∧ (0xf5 ≤ a ∨ a = 0xf4 ∧ 0x90 ≤ b)
        ∧ (0x80 ≤ b ∧ b ≤ 0xbf) ∧ (0x80 ≤ c ∧ c ≤ 0xbf)
        ∧ 0x80 ≤ d ∧ d ≤ 0xbf) :
    (0xc2 ≤ a ∧ a ≤ 0xdf) ∧ 0x80 ≤ b ∧ b ≤ 0xbf
    ∨ (0xe0 ≤ a ∧ a ≤ 0xe0) ∧ (0xa0 ≤ b ∧ b ≤ 0xbf) ∧ 0x80 ≤ c ∧ c ≤ 0xbf
    ∨ (0xe1 ≤ a ∧ a ≤ 0xec) ∧ (0x80 ≤ b ∧ b ≤ 0xbf) ∧ 0x80 ≤ c ∧ c ≤ 0xbf
    ∨ (0xee ≤ a ∧ a ≤ 0xef) ∧ (0x80 ≤ b ∧ b ≤ 0xbf) ∧ 0x80 ≤ c ∧ c ≤ 0xbf
    ∨ (0xed ≤ a ∧ a ≤ 0xed) ∧ (0x80 ≤ b ∧ b ≤ 0x9f) ∧ 0x80 ≤ c ∧ c ≤ 0xbf
    ∨ (0xf0 ≤ a ∧ a ≤ 0xf0) ∧ (0x90 ≤ b ∧ b ≤ 0xbf)
      ∧ (0x80 ≤ c ∧ c ≤ 0xbf) ∧ 0x80 ≤ d ∧ d ≤ 0xbf
    ∨ (0xf1 ≤ a ∧ a ≤ 0xff) ∧ b ≤ 0xf3 ∧ (0x80 ≤ b ∧ b ≤ 0xbf)
      ∧ (0x80 ≤ c ∧ c ≤ 0xbf) ∧ 0x80 ≤ d ∧ d ≤ 0xbf := by
  rcases hw with (hw | hw | hw | hw) | hw
  · omega
  · exact Or.inl (by omega)
  · rcases Nat.lt_or_ge a 0xe1 with h1 | h1
    · exact Or.inr (Or.inl (by omega))
    · rcases Nat.lt_or_ge a 0xed with h2 | h2
      · exact Or.inr (Or.inr (Or.inl (by omega)))
      · rcases Nat.lt_or_ge a 0xee with h3 | h3
        · exact Or.inr (Or.inr (Or.inr (Or.inr (Or.inl (by omega)))))
        · exact Or.inr (Or.inr (Or.inr (Or.inl (by omega))))
  · rcases Nat.lt_or_ge a 0xf1 with h1 | h1
    · exact Or.inr (Or.inr (Or.inr (Or.inr (Or.inr (Or.inl (by omega))))))
    · exact Or.inr (Or.inr (Or.inr (Or.inr (Or.inr (Or.inr (by omega))))))
  · exact Or.inr (Or.inr (Or.inr (Or.inr (Or.inr (Or.inr (by omega))))))

/-- The ranges of the source, one after the other: behind the first three
cases they find the well-formed sequences and those that are too large. -/
theorem searched_iff {str : List UInt8} (h : 0xc1 < byteAt str 0) {n : Nat}
    (hn : 0 < n) :
    searched str utf8Cases = n ↔
      Utf8Bytes str n ∨ n = 4 ∧ TooLarge str := by
  have hlt := byteAt_lt str 0
  unfold TooLarge Utf8Bytes Continues
  simp only [searched, utf8Cases, InRange, List.forall_mem_cons,
    List.not_mem_nil, false_imp_iff, implies_true, and_true,
    UInt8.reduceToNat]
  generalize byteAt str 0 = a at h hlt ⊢
  generalize byteAt str 1 = b
  generalize byteAt str 2 = c
  generalize byteAt str 3 = d
  split
  · omega
  rename_i h1
  split
  · omega
  rename_i h2
  split
  · omega
  rename_i h3
  split
  · omega
  rename_i h4
  split
  · omega
  rename_i h5
  split
  · omega
  rename_i h6
  split
  · omega
  rename_i h7
  split
  · omega
  rename_i h8
  apply iff_of_false hn.ne
  intro hw
  rcases some_range h hlt hw with r | r | r | r | r | r | r
  · exact h1 r
  · exact h2 r
  · exact h3 r
  · exact h4 r
  · exact h5 r
  · exact h6 r
  · exact h7 ⟨r.1, ⟨Nat.zero_le b, r.2.1⟩, r.2.2⟩

/-- Every length that is returned is that of a well-formed sequence, or
the sequence is too large. -/
theorem frUtf8Char_returns {text : List UInt8} {n k : Nat}
    (h : frUtf8CharRead (text ++ [0]) = .ok n) (hk : 0 < k) :
    n = k ↔ Utf8Bytes (text ++ [0]) k ∨ k = 4 ∧ TooLarge (text ++ [0]) := by
  rw [frUtf8CharRead_eq, Except.ok.injEq] at h
  subst h
  split
  · unfold Utf8Bytes TooLarge
    omega
  · split
    · unfold Utf8Bytes TooLarge
      omega
    · split
      · unfold Utf8Bytes TooLarge
        omega
      · exact searched_iff (by omega) hk

/-- `fr_utf8_char` stays inside the string, and returns the lengths of the
well-formed characters and no others, unless the first byte with the three
behind it is too large. -/
theorem frUtf8Char_iff (text : List UInt8) :
    (∃ n, frUtf8CharRead (text ++ [0]) = .ok n
        ∧ ∀ k > 0, n = k ↔ Utf8Head (text ++ [0]) k)
      ↔ ¬ TooLarge (text ++ [0]) := by
  have hread := frUtf8CharRead_eq text
  constructor
  · intro hall hbig
    obtain ⟨n, hn, hiff⟩ := hall
    have h4 : n = 4 := (frUtf8Char_returns hn (by omega)).mpr
      (Or.inr ⟨rfl, hbig⟩)
    have hwell := utf8Head_iff.mp ((hiff 4 (by omega)).mp h4)
    unfold Utf8Bytes at hwell
    unfold TooLarge at hbig
    omega
  · intro hfine
    refine ⟨_, hread, ?_⟩
    intro k hk
    rw [frUtf8Char_returns hread hk, utf8Head_iff]
    constructor
    · intro hor
      exact hor.resolve_right fun hbig => hfine hbig.2
    · exact Or.inl

/-- Four bytes that no character has. -/
theorem frUtf8Char_takes_f5 :
    frUtf8CharRead [0xf5, 0x80, 0x80, 0x80, 0] = .ok 4
      ∧ ¬ Utf8Head [0xf5, 0x80, 0x80, 0x80, 0] 4 := by
  refine ⟨rfl, ?_⟩
  rw [utf8Head_iff]
  decide

end WinRadius
