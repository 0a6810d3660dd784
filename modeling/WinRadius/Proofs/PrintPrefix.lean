/-
The addresses that are their own text.

The parser of an IPv6 prefix keeps bytes 2 to 17 of the text where the
address belongs. An address survives this when those bytes of its text
are its own, and ten addresses are: the second byte is then a decimal
digit, and every byte after it is fixed by the ones before, a colon at a
time.
-/
import WinRadius.Proofs.PrintScan

namespace WinRadius

open Lib

-- ======== joined texts

/-- Numerals and separators are all of a joined text. -/
theorem ge_of_mem_joined {sep : UInt8} {b : Nat} {ns : List Nat}
    {c : UInt8} (hb : 1 < b) (hb16 : b ≤ 16) (h : c ∈ joined sep b ns) :
    c = sep ∨ 48 ≤ c ∧ c ≠ 58 := by
  induction ns with
  | nil => simp [joined, List.intercalate] at h
  | cons m ns ih =>
      cases ns with
      | nil =>
          rw [joined_singleton] at h
          exact Or.inr (ge_of_mem_numeral hb hb16 h)
      | cons n ns =>
          rw [joined_cons, List.mem_append, List.mem_cons] at h
          rcases h with h | h | h
          · exact Or.inr (ge_of_mem_numeral hb hb16 h)
          · exact Or.inl h
          · exact ih h

/-- A joined text has the separators and a digit for each number. -/
theorem joined_length_ge (sep : UInt8) (b : Nat) (ns : List Nat) :
    2 * ns.length ≤ (joined sep b ns).length + 1 := by
  induction ns with
  | nil => simp
  | cons m ns ih =>
      have hm := List.length_pos_iff.mpr (numeral_ne_nil (b := b) (n := m))
      cases ns with
      | nil =>
          rw [joined_singleton, List.length_singleton]
          omega
      | cons n ns =>
          rw [joined_cons, List.length_append, List.length_cons (a := sep),
            List.length_cons (a := m)]
          omega

theorem joined_length_le (sep : UInt8) {b k : Nat} (hb : 1 < b)
    (hk : 0 < k) {ns : List Nat} (h : ∀ n ∈ ns, n < b ^ k) :
    (joined sep b ns).length ≤ (k + 1) * ns.length := by
  induction ns with
  | nil => simp [joined, List.intercalate]
  | cons m ns ih =>
      have hm := numeral_length_le hb hk (h m List.mem_cons_self)
      have hns := ih fun n hn => h n (List.mem_cons_of_mem m hn)
      cases ns with
      | nil =>
          rw [joined_singleton, List.length_singleton]
          omega
      | cons n ns =>
          rw [joined_cons, List.length_append, List.length_cons (a := sep),
            List.length_cons (a := m), Nat.mul_add]
          omega

/-- What is left behind the last whole group of an even number of bytes. -/
theorem groups16_rest {bs : List UInt8} (h : bs.length % 2 = 0)
    (hnot : ∀ a b rest, bs ≠ a :: b :: rest) : bs = [] := by
  cases bs with
  | nil => rfl
  | cons a bs =>
      cases bs with
      | nil => simp at h
      | cons b bs => exact absurd rfl (hnot a b bs)

theorem groups16_length {bs : List UInt8} (h : bs.length % 2 = 0) :
    2 * (groups16 bs).length = bs.length := by
  induction bs using groups16.induct with
  | case1 a b bs ih =>
      have hrest := ih (by simp only [List.length_cons] at h; omega)
      rw [groups16]
      simp only [List.length_cons]
      omega
  | case2 bs hnot =>
      rw [groups16_rest h hnot]
      rfl

-- ======== its own text

/-- What is printed of an IPv6 prefix. -/
def prefixText (addr : List UInt8) (n : Nat) : List UInt8 :=
  joined 58 16 (groups16 addr) ++ 47 :: numeral 10 n

/-- The bytes of a text where an address is kept. -/
def keptAddress (text : List UInt8) : List UInt8 :=
  ((text ++ [0]).drop 2).take 16

/-- The addresses whose text has the address in these bytes: `333d:3a33`
and so on, with a digit `d`. -/
def ownText (d : Nat) : List UInt8 :=
  [51, digitByte d, 58, 51, 97, 51, 51, 58, 54, 49, 51, 51, 58, 51, 51, 51]

theorem ownText_kept : ∀ d < 10,
    ((joined 58 16 (groups16 (ownText d))).drop 2).take 16 = ownText d
      ∧ 18 ≤ (joined 58 16 (groups16 (ownText d))).length := by
  decide

theorem keptAddress_ownText {d : Nat} (hd : d < 10) (n : Nat) :
    keptAddress (prefixText (ownText d) n) = ownText d := by
  obtain ⟨hkept, hlen⟩ := ownText_kept d hd
  unfold keptAddress prefixText
  rw [List.append_assoc, List.drop_append_of_le_length (by omega),
    List.take_append_of_le_length (by rw [List.length_drop]; omega), hkept]

theorem digitByte_half : ∀ m < 16, (digitByte m).toNat % 16 = m →
    m < 10 ∧ (digitByte m).toNat / 16 = 3 := by
  decide

/-- A byte that is the digit of its lower half is a decimal digit. -/
theorem digit_of_half {b : UInt8} (h : b = digitByte (b.toNat % 16)) :
    ∃ d < 10, b = digitByte d ∧ b.toNat / 16 = 3 := by
  have hm := Nat.mod_lt b.toNat (show 0 < 16 by omega)
  have hmod : (digitByte (b.toNat % 16)).toNat % 16 = b.toNat % 16 := by
    rw [← h]
  obtain ⟨hlt, hdiv⟩ := digitByte_half _ hm hmod
  rw [← h] at hdiv
  exact ⟨_, hlt, h, hdiv⟩

/-- The first byte that is kept is one of a printed address. -/
theorem kept_head {addr : List UInt8} {n : Nat} {b : UInt8}
    {bs : List UInt8} (hlen : addr.length = 16)
    (h : keptAddress (prefixText addr n) = b :: bs) : 48 ≤ b := by
  have hgroups : (groups16 addr).length = 8 := by
    have := groups16_length (show addr.length % 2 = 0 by omega)
    omega
  have hjoin := joined_length_ge 58 16 (groups16 addr)
  match hj : joined 58 16 (groups16 addr) with
  | x :: y :: z :: rest =>
      have hz := ge_of_mem_joined (by omega) (by omega)
        (show z ∈ joined 58 16 (groups16 addr) by simp [hj])
      simp only [keptAddress, prefixText, hj, List.cons_append,
        List.drop_succ_cons, List.drop_zero, List.take_succ_cons,
        List.cons.injEq] at h
      rw [← h.1]
      rcases hz with rfl | hz
      · decide
      · exact hz.1
  | [] | [_] | [_, _] =>
      rw [hj] at hjoin
      simp only [List.length_nil, List.length_cons] at hjoin
      omega

/-- The numbers of the groups that start with a colon. -/
theorem colon_group (b : UInt8) :
    4096 ≤ (58 : UInt8).toNat * 256 + b.toNat
      ∧ (58 : UInt8).toNat * 256 + b.toNat < 65536
      ∧ ((58 : UInt8).toNat * 256 + b.toNat) / 4096 = 3
      ∧ ((58 : UInt8).toNat * 256 + b.toNat) / 256 % 16 = 10 := by
  have h58 : (58 : UInt8).toNat = 58 := rfl
  have hb := b.toNat_lt
  rw [h58]
  omega

/-- An address kept from its own text is one of the ten. -/
theorem ownText_of_kept {addr : List UInt8} {n : Nat}
    (hlen : addr.length = 16)
    (h : keptAddress (prefixText addr n) = addr) :
    ∃ d < 10, addr = ownText d := by
  obtain ⟨b0, b1, b2, b3, b4, b5, b6, b7, b8, b9, b10, b11, b12, b13, b14,
      b15, rfl⟩ : ∃ b0 b1 b2 b3 b4 b5 b6 b7 b8 b9 b10 b11 b12 b13 b14 b15,
      addr = [b0, b1, b2, b3, b4, b5, b6, b7, b8, b9, b10, b11, b12, b13,
        b14, b15] := by
    match addr, hlen with
    | [_, _, _, _, _, _, _, _, _, _, _, _, _, _, _, _], _ =>
        exact ⟨_, _, _, _, _, _, _, _, _, _, _, _, _, _, _, _, rfl⟩
  have hhalf : (b0.toNat * 256 + b1.toNat) % 16 = b1.toNat % 16 := by
    omega
  have hupper : (b0.toNat * 256 + b1.toNat) / 16 % 16 = b1.toNat / 16 := by
    have := b1.toNat_lt
    omega
  have hb0 := UInt8.le_iff_toNat_le.mp (kept_head hlen h)
  have h48 : (48 : UInt8).toNat = 48 := rfl
  have hlt0 := b0.toNat_lt
  have hlt1 := b1.toNat_lt
  -- the first group has four digits
  have hg0 := numeral_of_four (n := b0.toNat * 256 + b1.toNat)
    (by omega) (by omega)
  simp only [keptAddress, prefixText, groups16, joined_cons, hg0,
    List.cons_append, List.nil_append, List.drop_succ_cons, List.drop_zero,
    List.take_succ_cons, List.cons.injEq] at h
  obtain ⟨e0, e1, rfl, h⟩ := h
  -- the second starts with the colon, so its first two digits are known
  obtain ⟨hge, hlt, hhi, hlo⟩ := colon_group b3
  rw [numeral_of_four hge hlt, hhi, hlo] at h
  simp only [List.cons_append, List.nil_append, List.take_succ_cons,
    List.cons.injEq] at h
  obtain ⟨h3, h4, h5, h6, h7, h⟩ := h
  obtain rfl : b3 = 51 := h3.symm.trans (by decide)
  obtain rfl : b4 = 97 := h4.symm.trans (by decide)
  obtain rfl : b5 = 51 := h5.symm.trans (by decide)
  obtain rfl : b6 = 51 := h6.symm.trans (by decide)
  obtain rfl : b7 = 58 := h7.symm
  -- and these are all of the third and the fourth
  have hg2 : numeral 16 ((97 : UInt8).toNat * 256 + (51 : UInt8).toNat)
      = [54, 49, 51, 51] := by decide
  have hg3 : numeral 16 ((51 : UInt8).toNat * 256 + (58 : UInt8).toNat)
      = [51, 51, 51, 97] := by decide
  rw [hg2, hg3] at h
  simp only [List.cons_append, List.nil_append, List.take_succ_cons,
    List.take_zero, List.cons.injEq, and_true] at h
  obtain ⟨rfl, rfl, rfl, rfl, rfl, rfl, rfl, rfl⟩ := h
  -- which leaves the digit
  rw [hhalf] at e1
  obtain ⟨d, hd, hb1, hdiv⟩ := digit_of_half e1.symm
  rw [hupper, hdiv] at e0
  refine ⟨d, hd, ?_⟩
  rw [← e0, hb1]
  rfl

end WinRadius
