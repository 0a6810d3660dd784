/-
Numerals in texts: how `%u`, `%x` and `%02x` write a number as bytes, and
the digits a scanner reads off the front of a text.

A numeral is core's `Nat.toDigits` as bytes, without leading zeros and in
lower case. A base is at most 16, and a digit is read in either case.

`takeWhile_numeral` and `ofNumeral_numeral` say together that a scanner
that takes the digits it finds and adds them up gets the number back;
`numeral_of_four` is the shape of a numeral of four hexadecimal digits.
-/
import Mathlib.Tactic

namespace WinRadius.Lib

-- ======== digits

/-- The byte of a digit. -/
def digitByte (d : Nat) : UInt8 := d.digitChar.toNat.toUInt8

/-- What a byte is worth as a digit of base `b`. -/
def digitValue (b : Nat) (c : UInt8) : Option Nat :=
  let v := if 48 ≤ c ∧ c ≤ 57 then c.toNat - 48
    else if 97 ≤ c ∧ c ≤ 102 then c.toNat - 87
    else if 65 ≤ c ∧ c ≤ 70 then c.toNat - 55
    else 16
  if v < b then some v else none

/-- A byte that is a digit of base `b`. -/
def isDigitOf (b : Nat) (c : UInt8) : Bool := (digitValue b c).isSome

theorem digitByte_values : ∀ d < 16,
    digitValue 16 (digitByte d) = some d ∧ 48 ≤ digitByte d := by
  decide

/-- A digit that is small enough is one of the other base. -/
theorem digitValue_mono {b b' v : Nat} {c : UInt8}
    (h : digitValue b c = some v) (hv : v < b') :
    digitValue b' c = some v := by
  simp only [digitValue, Option.ite_none_right_eq_some,
    Option.some.injEq] at h ⊢
  exact ⟨by omega, h.2⟩

theorem digitValue_digitByte {b d : Nat} (hd : d < b) (hb : b ≤ 16) :
    digitValue b (digitByte d) = some d := by
  have h16 := (digitByte_values d (by omega)).1
  exact digitValue_mono h16 hd

theorem digitByte_ge {d : Nat} (hd : d < 16) : 48 ≤ digitByte d :=
  (digitByte_values d hd).2

theorem isDigitOf_digitByte {b d : Nat} (hd : d < b) (hb : b ≤ 16) :
    isDigitOf b (digitByte d) = true := by
  rw [isDigitOf, digitValue_digitByte hd hb]
  rfl

/-- Different digits are different bytes. -/
theorem digitByte_inj {d e : Nat} (hd : d < 16) (he : e < 16)
    (h : digitByte d = digitByte e) : d = e := by
  have hd' := (digitByte_values d hd).1
  rw [h, (digitByte_values e he).1] at hd'
  exact (Option.some.inj hd').symm

-- ======== numerals

/-- `%u` (base 10) and `%x` (base 16). -/
def numeral (b n : Nat) : List UInt8 :=
  (Nat.toDigits b n).map (·.toNat.toUInt8)

/-- The number that digits are worth. -/
def ofNumeral (b : Nat) (ds : List UInt8) : Nat :=
  ds.foldl (fun n c => n * b + (digitValue b c).getD 0) 0

section numeral

variable {b n : Nat}

theorem numeral_eq (hb : 1 < b) (n : Nat) :
    numeral b n =
      if n < b then [digitByte n]
      else numeral b (n / b) ++ [digitByte (n % b)] := by
  unfold numeral digitByte
  rw [Nat.toDigits_eq_if hb]
  split
  · rfl
  · rw [List.map_append]
    rfl

theorem numeral_of_lt (hb : 1 < b) (h : n < b) :
    numeral b n = [digitByte n] := by
  rw [numeral_eq hb, if_pos h]

theorem numeral_of_ge (hb : 1 < b) (h : b ≤ n) :
    numeral b n = numeral b (n / b) ++ [digitByte (n % b)] := by
  rw [numeral_eq hb, if_neg (by omega)]

theorem numeral_ne_nil : numeral b n ≠ [] := by
  simp [numeral]

/-- All of a numeral are digits. -/
theorem isDigitOf_of_mem (hb : 1 < b) (hb16 : b ≤ 16) {c : UInt8}
    (h : c ∈ numeral b n) : isDigitOf b c = true := by
  induction n using Nat.strong_induction_on with
  | _ n ih =>
      rw [numeral_eq hb] at h
      split at h
      · next hlt =>
          rw [List.mem_singleton.mp h]
          exact isDigitOf_digitByte hlt hb16
      · next hge =>
          rcases List.mem_append.mp h with h | h
          · exact ih (n / b) (Nat.div_lt_self (by omega) hb) h
          · rw [List.mem_singleton.mp h]
            exact isDigitOf_digitByte (Nat.mod_lt n (by omega)) hb16

/-- A byte that is a digit is neither blank nor punctuation. -/
theorem ge_of_isDigitOf {c : UInt8} (hb : b ≤ 16)
    (h : isDigitOf b c = true) : 48 ≤ c ∧ c ≠ 58 := by
  obtain ⟨v, hv⟩ := Option.isSome_iff_exists.mp h
  simp only [digitValue, Option.ite_none_right_eq_some] at hv
  refine ⟨?_, ?_⟩
  · by_contra hlow
    simp only [UInt8.le_iff_toNat_le] at hv hlow
    rw [if_neg, if_neg, if_neg] at hv
    · omega
    all_goals
      rintro ⟨hle, -⟩
      exact hlow (le_trans (by decide) hle)
  · rintro rfl
    have h16 := hv.1
    rw [if_neg (by decide), if_neg (by decide), if_neg (by decide)] at h16
    omega

theorem ge_of_mem_numeral (hb : 1 < b) (hb16 : b ≤ 16) {c : UInt8}
    (h : c ∈ numeral b n) : 48 ≤ c ∧ c ≠ 58 :=
  ge_of_isDigitOf hb16 (isDigitOf_of_mem hb hb16 h)

theorem ofNumeral_append (ds : List UInt8) (c : UInt8) :
    ofNumeral b (ds ++ [c])
      = ofNumeral b ds * b + (digitValue b c).getD 0 := by
  simp [ofNumeral, List.foldl_append]

/-- The digits of a numeral add up to the number. -/
theorem ofNumeral_numeral (hb : 1 < b) (hb16 : b ≤ 16) (n : Nat) :
    ofNumeral b (numeral b n) = n := by
  induction n using Nat.strong_induction_on with
  | _ n ih =>
      rcases Nat.lt_or_ge n b with hlt | hge
      · rw [numeral_of_lt hb hlt]
        simp [ofNumeral, digitValue_digitByte hlt hb16]
      · have hmod := Nat.mod_lt n (show 0 < b by omega)
        rw [numeral_of_ge hb hge, ofNumeral_append,
          ih (n / b) (Nat.div_lt_self (by omega) hb),
          digitValue_digitByte hmod hb16, Option.getD_some]
        exact Nat.div_add_mod' n b

/-- A scanner of digits stops where the numeral does. -/
theorem takeWhile_numeral (n : Nat) (rest : List UInt8) (hb : 1 < b)
    (hb16 : b ≤ 16) (hrest : ∀ c ∈ rest.head?, isDigitOf b c = false) :
    (numeral b n ++ rest).takeWhile (isDigitOf b) = numeral b n := by
  rw [List.takeWhile_append_of_pos fun c => isDigitOf_of_mem hb hb16]
  have hnil : rest.takeWhile (isDigitOf b) = [] := by
    cases rest with
    | nil => rfl
    | cons c cs =>
        rw [List.takeWhile_cons, hrest c rfl]
        rfl
  rw [hnil, List.append_nil]

theorem numeral_length_le {k : Nat} (hb : 1 < b) (hk : 0 < k)
    (h : n < b ^ k) : (numeral b n).length ≤ k := by
  rw [numeral, List.length_map]
  exact (Nat.length_toDigits_le_iff hb hk).mpr h

/-- Only zero has a numeral that starts with zero. -/
theorem head_numeral (hb : 1 < b) (hb16 : b ≤ 16) (hn : 0 < n) :
    (numeral b n).head? ≠ some 48 := by
  induction n using Nat.strong_induction_on with
  | _ n ih =>
      rcases Nat.lt_or_ge n b with hlt | hge
      · rw [numeral_of_lt hb hlt]
        intro h
        have h0 := digitByte_inj (show n < 16 by omega)
          (show 0 < 16 by omega) (Option.some.inj h)
        omega
      · have hpos : 0 < n / b := Nat.div_pos hge (by omega)
        rw [numeral_of_ge hb hge, List.head?_append]
        have hne := ih (n / b) (Nat.div_lt_self hn hb) hpos
        obtain ⟨c, cs, hcs⟩ := List.exists_cons_of_ne_nil
          (numeral_ne_nil (b := b) (n := n / b))
        rw [hcs] at hne ⊢
        exact hne

end numeral

/-- A number of four hexadecimal digits. -/
theorem numeral_of_four {n : Nat} (hlo : 4096 ≤ n) (hhi : n < 65536) :
    numeral 16 n = [digitByte (n / 4096), digitByte (n / 256 % 16),
      digitByte (n / 16 % 16), digitByte (n % 16)] := by
  have h1 : n / 16 / 16 = n / 256 := by omega
  have h2 : n / 256 / 16 = n / 4096 := by omega
  rw [numeral_of_ge (by omega) (show 16 ≤ n by omega),
    numeral_of_ge (by omega) (show 16 ≤ n / 16 by omega), h1,
    numeral_of_ge (by omega) (show 16 ≤ n / 256 by omega), h2,
    numeral_of_lt (by omega) (show n / 4096 < 16 by omega)]
  rfl

-- ======== separators

/-- Numerals with a byte between them. -/
def joined (sep : UInt8) (b : Nat) (ns : List Nat) : List UInt8 :=
  [sep].intercalate (ns.map (numeral b))

@[simp] theorem joined_singleton (sep : UInt8) (b n : Nat) :
    joined sep b [n] = numeral b n := by
  simp [joined, List.intercalate]

@[simp] theorem joined_cons (sep : UInt8) (b m n : Nat) (ns : List Nat) :
    joined sep b (m :: n :: ns)
      = numeral b m ++ sep :: joined sep b (n :: ns) := by
  simp [joined, List.intercalate]

/-- A numeral of at most `k` digits without leading zeros. -/
def readNumeral (b k : Nat) (ds : List UInt8) : Option Nat :=
  if ds = [] ∨ k < ds.length ∨ ds.all (isDigitOf b) = false
      ∨ (ds.head? = some 48 ∧ 1 < ds.length) then none
  else some (ofNumeral b ds)

/-- Numerals of at most `k` digits with a byte between them. -/
def readJoined (sep : UInt8) (b k : Nat) (bs : List UInt8) :
    Option (List Nat) :=
  (bs.splitOn sep).mapM (readNumeral b k)

section separators

variable {b k n : Nat}

theorem readNumeral_numeral (hb : 1 < b) (hb16 : b ≤ 16) (hk : 0 < k)
    (h : n < b ^ k) : readNumeral b k (numeral b n) = some n := by
  have hlen := numeral_length_le hb hk h
  rw [readNumeral, if_neg, ofNumeral_numeral hb hb16]
  rintro (hnil | hlong | hall | ⟨hzero, hmore⟩)
  · exact numeral_ne_nil hnil
  · omega
  · rw [List.all_eq_false] at hall
    obtain ⟨c, hc, hnot⟩ := hall
    exact hnot (isDigitOf_of_mem hb hb16 hc)
  · rcases Nat.eq_zero_or_pos n with rfl | hn
    · rw [numeral_of_lt hb (by omega), List.length_singleton] at hmore
      omega
    · exact head_numeral hb hb16 hn hzero

/-- Numerals that are written with a separator are read back. -/
theorem readJoined_joined (sep : UInt8) (ns : List Nat) (hb : 1 < b)
    (hb16 : b ≤ 16) (hk : 0 < k) (hsep : isDigitOf b sep = false) (hne : ns ≠ [])
    (h : ∀ n ∈ ns, n < b ^ k) :
    readJoined sep b k (joined sep b ns) = some ns := by
  have hmem : ∀ ds ∈ ns.map (numeral b), sep ∉ ds := by
    intro ds hds hin
    obtain ⟨n, -, rfl⟩ := List.mem_map.mp hds
    rw [isDigitOf_of_mem hb hb16 hin] at hsep
    cases hsep
  rw [readJoined, joined,
    List.splitOn_intercalate sep hmem (by simpa using hne)]
  clear hmem hne
  induction ns with
  | nil => rfl
  | cons n ns ih =>
      have hrest := ih fun m hm => h m (List.mem_cons_of_mem n hm)
      rw [List.map_cons, List.mapM_cons, hrest,
        readNumeral_numeral hb hb16 hk (h n List.mem_cons_self)]
      rfl

end separators

end WinRadius.Lib
