/-
Type-length-value strings: a byte string cut into records of one type
byte, one length byte that counts the whole record, and the value.

`Tlv` carries the bound that makes its length byte honest, so `wire` of
any list of records is a well-formed string and nothing has to be
re-checked downstream. A string has at most one such cut
(`wire_injective`): two parsers that both account for every byte agree on
every boundary, which is what lets a writer's records be identified with
a reader's.
-/
import WinRadius.Lib.Bytes

namespace WinRadius.Lib

/-- One record. Its length byte is `value.length + 2`, which `fits` keeps
in a byte. -/
structure Tlv where
  type : UInt8
  value : List UInt8
  fits : value.length ≤ 253
deriving DecidableEq

namespace Tlv

/-- The record on the wire. -/
def bytes (a : Tlv) : List UInt8 :=
  a.type :: UInt8.ofNat (a.value.length + 2) :: a.value

@[simp] theorem bytes_length (a : Tlv) :
    a.bytes.length = a.value.length + 2 := rfl

/-- The length byte is the record's length. -/
theorem lenByte_toNat (a : Tlv) :
    (UInt8.ofNat (a.value.length + 2)).toNat = a.value.length + 2 := by
  have := a.fits
  rw [UInt8.toNat_ofNat']
  omega

end Tlv

/-- A sequence of records on the wire. -/
def wire (as : List Tlv) : List UInt8 := as.flatMap Tlv.bytes

@[simp] theorem wire_nil : wire [] = [] := rfl

@[simp] theorem wire_cons (a : Tlv) (as : List Tlv) :
    wire (a :: as) = a.bytes ++ wire as := rfl

@[simp] theorem wire_append (as bs : List Tlv) :
    wire (as ++ bs) = wire as ++ wire bs := by
  simp [wire]

theorem wire_singleton (a : Tlv) : wire [a] = a.bytes := by
  simp

/-- Every record costs at least its header. -/
theorem two_mul_length_le_wire (as : List Tlv) :
    2 * as.length ≤ (wire as).length := by
  induction as with
  | nil => simp
  | cons a as ih =>
      simp only [wire_cons, List.length_append, Tlv.bytes_length,
        List.length_cons]
      omega

theorem wire_eq_nil {as : List Tlv} (h : wire as = []) : as = [] := by
  have := two_mul_length_le_wire as
  rw [h] at this
  exact List.length_eq_zero_iff.mp (by simpa using this)

/-- The first record of a string is pinned by its first two bytes. -/
theorem bytes_append_inj {a b : Tlv} {xs ys : List UInt8}
    (h : a.bytes ++ xs = b.bytes ++ ys) : a = b ∧ xs = ys := by
  simp only [Tlv.bytes, List.cons_append, List.cons.injEq] at h
  obtain ⟨ht, hl, hv⟩ := h
  have hlen : a.value.length = b.value.length := by
    have := congrArg UInt8.toNat hl
    rw [a.lenByte_toNat, b.lenByte_toNat] at this
    omega
  obtain ⟨hval, hxs⟩ := List.append_inj hv hlen
  refine ⟨?_, hxs⟩
  cases a
  cases b
  simp_all

/-- A length byte that the rest can honour gives a record. -/
theorem exists_bytes_append (type len : UInt8) (rest : List UInt8)
    (h2 : 2 ≤ len.toNat) (hle : len.toNat ≤ rest.length + 2) :
    ∃ a : Tlv, a.type = type ∧ a.value.length + 2 = len.toNat
      ∧ type :: len :: rest = a.bytes ++ rest.drop (len.toNat - 2) := by
  have h256 := len.toNat_lt
  have hvlen : (rest.take (len.toNat - 2)).length = len.toNat - 2 := by
    rw [List.length_take]
    omega
  have hbyte : UInt8.ofNat ((rest.take (len.toNat - 2)).length + 2)
      = len := by
    rw [hvlen, show len.toNat - 2 + 2 = len.toNat by omega,
      UInt8.ofNat_toNat]
  refine ⟨⟨type, rest.take (len.toNat - 2), by omega⟩, rfl, ?_, ?_⟩
  · simp only [hvlen]
    omega
  · rw [Tlv.bytes, hbyte]
    simp

/-- The second byte of a string of records leads to its second record. -/
theorem wire_cons_inv {type len : UInt8} {rest : List UInt8} {a : Tlv}
    {as : List Tlv} (h : type :: len :: rest = wire (a :: as)) :
    len.toNat = a.value.length + 2
      ∧ len.toNat ≤ rest.length + 2
      ∧ rest.drop (len.toNat - 2) = wire as := by
  simp only [wire_cons, Tlv.bytes, List.cons_append,
    List.cons.injEq] at h
  obtain ⟨-, hl, hrest⟩ := h
  have hlen := congrArg UInt8.toNat hl
  rw [a.lenByte_toNat] at hlen
  refine ⟨hlen, ?_, ?_⟩
  · rw [hrest, List.length_append]
    omega
  · rw [hrest, List.drop_left' (by omega)]

/-- A byte string is cut into records in one way only. -/
theorem wire_injective {as bs : List Tlv} (h : wire as = wire bs) :
    as = bs := by
  induction as generalizing bs with
  | nil => exact (wire_eq_nil h.symm).symm
  | cons a as ih =>
      cases bs with
      | nil => exact wire_eq_nil h
      | cons b bs =>
          rw [wire_cons, wire_cons] at h
          obtain ⟨rfl, hrest⟩ := bytes_append_inj h
          rw [ih hrest]

end WinRadius.Lib
