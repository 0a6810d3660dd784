/-
Attribute-value pairs of the Diameter kind: a byte string cut into
records of a 32-bit code, a flag byte, a 24-bit length of header and
value, a vendor number when the top flag says so, the value, and padding
to a multiple of four that the length does not count.

`Avp` carries the bounds that make its length field honest and its flag
tell the truth about the vendor. `Framed` says which lists of records a
reader can walk: every record is padded, except that the last may end
without its padding when four bytes of value are there.

The second half is what a reader that sees a record at some offset of a
larger buffer gets from each of its reads.
-/
import WinRadius.Lib.Bytes

namespace WinRadius.Lib

-- ======== records

/-- One record, with the padding that follows it. -/
structure Avp where
  code : UInt32
  flags : UInt8
  vendorId : Option UInt32
  value : List UInt8
  pad : List UInt8
  vendor_flag : vendorId.isSome = true ↔ 128 ≤ flags.toNat
  nonempty : 0 < value.length
  fits : (if vendorId.isSome = true then 12 else 8) + value.length
    < 16777216
deriving DecidableEq

namespace Avp

/-- The bytes of the header: where the value starts. -/
def offset (a : Avp) : Nat :=
  if a.vendorId.isSome = true then 12 else 8

/-- What the length field counts. -/
def length (a : Avp) : Nat := a.offset + a.value.length

/-- Flags and length as one word. -/
def lengthField (a : Avp) : UInt32 :=
  UInt32.ofNat (a.flags.toNat * 16777216 + a.length)

/-- The vendor field, if there is one. -/
def vendorField (a : Avp) : List UInt8 := a.vendorId.elim [] be32

/-- The record on the wire. -/
def bytes (a : Avp) : List UInt8 :=
  be32 a.code ++ (be32 a.lengthField
    ++ (a.vendorField ++ (a.value ++ a.pad)))

/-- The padding reaches the next multiple of four. -/
def Padded (a : Avp) : Prop := a.length + a.pad.length = roundUp4 a.length

instance (a : Avp) : Decidable a.Padded :=
  inferInstanceAs (Decidable (_ = _))

theorem offset_eq (a : Avp) : a.offset = 8 + a.vendorField.length := by
  unfold offset vendorField
  cases a.vendorId with
  | none => rfl
  | some v => rfl

theorem offset_le (a : Avp) : 8 ≤ a.offset ∧ a.offset ≤ 12 := by
  unfold offset
  split <;> omega

theorem bytes_length (a : Avp) :
    a.bytes.length = a.length + a.pad.length := by
  have := a.offset_eq
  simp only [bytes, length, List.length_append, be32_length]
  omega

theorem length_lt (a : Avp) : a.length < 16777216 := a.fits

theorem lengthField_toNat (a : Avp) :
    a.lengthField.toNat = a.flags.toNat * 16777216 + a.length := by
  have := a.length_lt
  have := a.flags.toNat_lt
  rw [lengthField, UInt32.toNat_ofNat']
  omega

theorem lengthField_mod (a : Avp) :
    a.lengthField.toNat % 16777216 = a.length := by
  have := a.length_lt
  rw [a.lengthField_toNat]
  omega

/-- The sign bit of the length word is the vendor flag. -/
theorem lengthField_sign (a : Avp) :
    2147483648 ≤ a.lengthField.toNat ↔ a.vendorId.isSome = true := by
  have := a.length_lt
  rw [a.vendor_flag, a.lengthField_toNat]
  omega

end Avp

/-- Records one after another. -/
def avpWire (as : List Avp) : List UInt8 := as.flatMap Avp.bytes

@[simp] theorem avpWire_nil : avpWire [] = [] := rfl

@[simp] theorem avpWire_cons (a : Avp) (as : List Avp) :
    avpWire (a :: as) = a.bytes ++ avpWire as := rfl

/-- Every record costs at least its header. -/
theorem length_le_avpWire (as : List Avp) :
    as.length ≤ (avpWire as).length := by
  induction as with
  | nil => exact Nat.le_refl 0
  | cons a as ih =>
      have hb := a.bytes_length
      have ho := a.offset_le
      have hl : a.length = a.offset + a.value.length := rfl
      rw [avpWire_cons, List.length_append, List.length_cons]
      omega

/-- Where each record of a list starts. -/
def avpOffsets : Nat → List Avp → List Int
  | _, [] => []
  | pos, a :: as => (pos : Int) :: avpOffsets (pos + a.bytes.length) as

/-- A list of records a reader can walk. -/
def Framed : List Avp → Prop
  | [] => True
  | a :: as =>
      (a.Padded ∧ Framed as)
        ∨ (as = [] ∧ a.pad = [] ∧ 4 ≤ a.value.length)

theorem framed_of_padded {as : List Avp} (h : ∀ a ∈ as, a.Padded) :
    Framed as := by
  induction as with
  | nil => trivial
  | cons a as ih =>
      exact Or.inl ⟨h a List.mem_cons_self,
        ih fun b hb => h b (List.mem_cons_of_mem a hb)⟩

-- ======== a record in a buffer

section reads

variable (a : Avp) (front rest : List UInt8)

theorem fetchN_code :
    fetchN (front ++ (a.bytes ++ rest)) front.length 4
      = .ok (be32 a.code) := by
  simp only [Avp.bytes, List.append_assoc]
  exact fetchN_append rfl rfl

theorem fetchN_lengthField :
    fetchN (front ++ (a.bytes ++ rest)) (front.length + 4) 4
      = .ok (be32 a.lengthField) := by
  simp only [Avp.bytes, List.append_assoc]
  rw [← List.append_assoc front]
  exact fetchN_append (by simp) rfl

theorem be32_lengthField_head : (be32 a.lengthField)[0]? = some a.flags := by
  have hn := a.lengthField_toNat
  have hl := a.length_lt
  have hf := a.flags.toNat_lt
  simp only [be32, List.getElem?_cons_zero, Option.some.injEq]
  apply UInt8.toNat_inj.mp
  rw [UInt8.toNat_ofNat', hn]
  omega

theorem fetch_flags :
    fetch (front ++ (a.bytes ++ rest)) (front.length + 4)
      = .ok a.flags := by
  simp only [Avp.bytes, List.append_assoc]
  apply fetch_append rfl
  rw [List.getElem?_append_right (by simp), be32_length,
    List.getElem?_append_left (by simp)]
  exact be32_lengthField_head a

theorem fetchN_vendorField {v : UInt32} (h : a.vendorId = some v) :
    fetchN (front ++ (a.bytes ++ rest)) (front.length + 8) 4
      = .ok (be32 v) := by
  have hv : a.vendorField = be32 v := by
    rw [Avp.vendorField, h]
    rfl
  simp only [Avp.bytes, hv, List.append_assoc]
  rw [← List.append_assoc (be32 a.code), ← List.append_assoc front]
  exact fetchN_append (by simp) rfl

/-- The buffer with the value of the record singled out. -/
theorem value_in_buffer : ∃ before after : List UInt8,
    front ++ (a.bytes ++ rest) = before ++ (a.value ++ after)
      ∧ before.length = front.length + a.offset := by
  refine ⟨front ++ (be32 a.code ++ (be32 a.lengthField
    ++ a.vendorField)), a.pad ++ rest, ?_, ?_⟩
  · simp [Avp.bytes]
  · rw [a.offset_eq]
    simp only [List.length_append, be32_length]
    omega

theorem top_bit (b : UInt8) : b &&& 0x80 ≠ 0 ↔ 128 ≤ b.toNat := by
  have h : ∀ n : Fin 256, UInt8.ofNat n.val &&& 0x80 ≠ 0 ↔ 128 ≤ n.val := by
    decide +kernel
  have hb := h ⟨b.toNat, b.toNat_lt⟩
  rwa [UInt8.ofNat_toNat] at hb

/-- The vendor bit of the flag byte. -/
theorem flags_vendor :
    a.flags &&& 0x80 ≠ 0 ↔ a.vendorId.isSome = true := by
  rw [a.vendor_flag]
  exact top_bit a.flags

end reads

-- ======== writing

/-- A record with zero bytes of padding. -/
theorem exists_padded (code : UInt32) (flags : UInt8)
    (vendorId : Option UInt32) (value : List UInt8)
    (hflag : vendorId.isSome = true ↔ 128 ≤ flags.toNat)
    (hpos : 0 < value.length)
    (hfits : (if vendorId.isSome = true then 12 else 8) + value.length
      < 16777216) :
    ∃ a : Avp, a.code = code ∧ a.vendorId = vendorId ∧ a.value = value
      ∧ a.Padded
      ∧ a.bytes = be32 code ++ (be32 (UInt32.ofNat (flags.toNat * 16777216
            + ((if vendorId.isSome = true then 12 else 8) + value.length)))
          ++ vendorId.elim [] be32) ++ value
        ++ List.replicate (roundUp4 a.length - a.length) 0 := by
  let len := (if vendorId.isSome = true then 12 else 8) + value.length
  let a : Avp :=
    { code := code, flags := flags, vendorId := vendorId, value := value
      pad := List.replicate (roundUp4 len - len) 0
      vendor_flag := hflag, nonempty := hpos, fits := hfits }
  have hlen : a.length = len := rfl
  refine ⟨a, rfl, rfl, rfl, ?_, ?_⟩
  · have hle := le_roundUp4 a.length
    rw [Avp.Padded]
    change _ + (List.replicate (roundUp4 a.length - a.length) _).length = _
    rw [List.length_replicate]
    omega
  · simp only [Avp.bytes, Avp.lengthField, Avp.vendorField, hlen,
      List.append_assoc, a, len]

-- ======== recognition

theorem drop_take_append (l : List UInt8) (i n : Nat) :
    (l.drop i).take n ++ l.drop (i + n) = l.drop i := by
  rw [← List.drop_drop]
  exact List.take_append_drop n (l.drop i)

/-- The vendor field that a length word announces. -/
theorem exists_vendor {rest : List UInt8} {off : Nat} (signed : Bool)
    (hoff : off = if signed = true then 12 else 8)
    (hlen : off ≤ rest.length) :
    ∃ v : Option UInt32, v.isSome = signed
      ∧ v.elim [] be32 = (rest.drop 8).take (off - 8) := by
  cases signed with
  | false =>
      subst hoff
      exact ⟨none, rfl, rfl⟩
  | true =>
      subst hoff
      refine ⟨some (ofBe32 ((rest.drop 8).take 4)), rfl, ?_⟩
      apply be32_ofBe32
      rw [List.length_take, List.length_drop]
      rw [if_pos rfl] at hlen
      omega

/-- A header the rest can honour is that of a record, with `n` bytes of
padding when they are there. -/
theorem exists_avp {rest : List UInt8} {w : UInt32} {n off : Nat}
    (hw : w = ofBe32 ((rest.drop 4).take 4))
    (hoff : off = if 2147483648 ≤ w.toNat then 12 else 8)
    (hhdr : off < w.toNat % 16777216)
    (hlen : w.toNat % 16777216 + n ≤ rest.length) :
    ∃ a : Avp, a.offset = off ∧ a.length = w.toNat % 16777216
      ∧ a.pad.length = n
      ∧ rest = a.bytes ++ rest.drop (w.toNat % 16777216 + n) := by
  have hwl := w.toNat_lt
  have h8 : 8 ≤ off := by
    split at hoff <;> omega
  obtain ⟨v, hv, hvf⟩ : ∃ v : Option UInt32,
      v.isSome = decide (2147483648 ≤ w.toNat)
        ∧ v.elim [] be32 = (rest.drop 8).take (off - 8) :=
    exists_vendor _ (by simpa using hoff) (by omega)
  have hvoff : (if v.isSome = true then 12 else 8) = off := by
    rw [hv, hoff]
    simp
  have hfield : be32 w = (rest.drop 4).take 4 := by
    rw [hw, be32_ofBe32]
    rw [List.length_take, List.length_drop]
    omega
  have hcode : be32 (ofBe32 (rest.take 4)) = rest.take 4 := by
    apply be32_ofBe32
    rw [List.length_take]
    omega
  have hval : ((rest.drop off).take (w.toNat % 16777216 - off)).length
      = w.toNat % 16777216 - off := by
    rw [List.length_take, List.length_drop]
    omega
  let a : Avp :=
    { code := ofBe32 (rest.take 4)
      flags := UInt8.ofNat (w.toNat / 16777216)
      vendorId := v
      value := (rest.drop off).take (w.toNat % 16777216 - off)
      pad := (rest.drop (w.toNat % 16777216)).take n
      vendor_flag := by
        rw [hv, UInt8.toNat_ofNat', decide_eq_true_eq]
        omega
      nonempty := by omega
      fits := by rw [hvoff, hval]; omega }
  have hlength : a.length = w.toNat % 16777216 := by
    change (if v.isSome = true then 12 else 8)
      + ((rest.drop off).take _).length = _
    rw [hvoff, hval]
    omega
  have hword : a.lengthField = w := by
    apply UInt32.toNat_inj.mp
    rw [a.lengthField_toNat, hlength]
    change (UInt8.ofNat (w.toNat / 16777216)).toNat * 16777216 + _ = _
    rw [UInt8.toNat_ofNat']
    omega
  refine ⟨a, hvoff, hlength, ?_, ?_⟩
  · change ((rest.drop _).take n).length = n
    rw [List.length_take, List.length_drop]
    omega
  · rw [Avp.bytes, hword, hfield]
    change rest = (be32 (ofBe32 (rest.take 4)) ++ ((rest.drop 4).take 4
      ++ (v.elim [] be32 ++ ((rest.drop off).take _
        ++ (rest.drop _).take n)))) ++ _
    simp only [hcode, hvf, List.append_assoc]
    rw [drop_take_append,
      show w.toNat % 16777216 = off + (w.toNat % 16777216 - off) by omega,
      Nat.add_sub_cancel_left, drop_take_append,
      show off = 8 + (off - 8) by omega, Nat.add_sub_cancel_left,
      drop_take_append, show (8 : Nat) = 4 + 4 by rfl, drop_take_append,
      List.take_append_drop]

end WinRadius.Lib
