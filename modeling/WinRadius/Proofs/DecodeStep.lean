/-
The pieces of an iteration of `rad_decode`, each summed up once: the
header of a top-level attribute, and the making of one pair from bytes
known to be in the buffer.

An attribute at the read position is stated as `s.buf.drop s.ptr.toNat =
a.bytes ++ rest`, so that a proof walks a string of attributes by peeling
its records and never computes an index.
-/
import WinRadius.Model.Decode
import WinRadius.Lib.Tlv

namespace WinRadius

open Lib

variable {ctx : DecCtx} {s : DecState} {a : Tlv} {rest : List UInt8}

-- ======== reading

section reading

variable {buf bs front back : List UInt8} {p : Int}

/-- A read inside a known remainder of the buffer. -/
theorem fetch_drop (h0 : 0 ≤ p) (h : buf.drop p.toNat = bs) (k : Nat)
    {b : UInt8} (hb : bs[k]? = some b) :
    fetch buf (p + k) = .ok b := by
  rw [fetch_eq_ok]
  refine ⟨by omega, ?_⟩
  rw [show (p + k).toNat = p.toNat + k by omega, ← List.getElem?_drop, h,
    hb]

variable (buf bs front back) in
/-- A block read of a known part of the remainder. -/
theorem fetchN_drop (h0 : 0 ≤ p) (hp : p ≤ buf.length)
    (h : buf.drop p.toNat = front ++ (bs ++ back)) :
    fetchN buf (p + front.length) bs.length = .ok bs := by
  have hlen := congrArg List.length h
  simp only [List.length_drop, List.length_append] at hlen
  rw [fetchN_eq_ok]
  refine ⟨by omega, by omega, by omega, ?_⟩
  rw [show (p + front.length).toNat = p.toNat + front.length by omega,
    ← List.drop_drop, h]
  simp

end reading

-- ======== one header

/-- The header of a received attribute. -/
theorem attrHeader_tlv (h0 : 0 ≤ s.ptr)
    (hbuf : s.buf.drop s.ptr.toNat = a.bytes ++ rest)
    (hlen : s.packetLength = (a.bytes ++ rest).length)
    (htype : a.type ≠ 0) :
    attrHeader s = .ok (some (a.type.toNat, a.value.length)) := by
  have hfits := a.fits
  rw [List.length_append, Tlv.bytes_length] at hlen
  have ht : fetch s.buf s.ptr = .ok a.type := by
    have := fetch_drop h0 hbuf 0 (b := a.type) (by simp [Tlv.bytes])
    simpa using this
  have hl : fetch s.buf (s.ptr + 1)
      = .ok (UInt8.ofNat (a.value.length + 2)) :=
    fetch_drop h0 hbuf 1 (by simp [Tlv.bytes])
  have h2 : ¬UInt8.ofNat (a.value.length + 2) < 2 := by
    rw [UInt8.lt_iff_toNat_lt, a.lenByte_toNat]
    simp
  unfold attrHeader
  rw [if_neg (by omega), ht, ok_bind, if_neg htype, hl, ok_bind,
    if_neg h2, a.lenByte_toNat, if_neg (by push_cast; omega)]
  simp

-- ======== one pair

/-- A fresh pair with an attribute's bytes copied in. -/
def ValuePair.filled (vp : ValuePair) (bytes : List UInt8) : ValuePair :=
  { ValuePair.setOctets { vp with op := .opEq } bytes with
    length := bytes.length }

/-- What `data2vp` makes of plain bytes. -/
def plainPair (cfg : Config) (attr : Nat) (bytes : List UInt8)
    (vp : ValuePair) : Option ValuePair :=
  typedOrRaw cfg attr bytes (some (vp.filled bytes))

theorem plainPair_typed {cfg : Config} {attr : Nat} {bytes : List UInt8}
    {vp v : ValuePair} (h : typedVp cfg bytes (vp.filled bytes) = some v) :
    plainPair cfg attr bytes vp = some v := by
  rw [plainPair, typedOrRaw, Option.bind_some, h]

/-- `data2vp` for an attribute with neither tag nor encryption. -/
theorem data2vp_plain {attr : Nat} {buf bytes : List UInt8} {data : Int}
    {vp : ValuePair} (hlen : bytes.length ≤ 253)
    (htag : vp.flags.hasTag = false) (henc : vp.flags.encrypt = .none)
    (hbytes : fetchN buf data bytes.length = .ok bytes) :
    data2vp ctx attr bytes.length buf data vp
      = .ok (plainPair ctx.cfg attr bytes vp) := by
  have hclip : clipLength (bytes.length : Int) = bytes.length := by
    unfold clipLength
    rw [if_neg (by omega)]
  have hvtag : vpTag buf data { vp with op := .opEq }
      = .ok ({ vp with op := .opEq }, 0) := by
    simp [vpTag, htag]
  have hdec (v : ValuePair) (hv : v.flags.encrypt = .none) :
      decryptVp ctx buf data v = .ok (some v) := by
    unfold decryptVp
    cases ctx.secret with
    | none => rfl
    | some secret => simp [hv]
  simp only [data2vp, hclip, hvtag, ok_bind, Int.add_zero, Int.sub_zero,
    hbytes]
  rw [hdec _ (by exact henc)]
  rfl

-- ======== one iteration

variable (ctx) in
/-- The iteration at a top-level attribute that is not Vendor-Specific. -/
theorem stepKind_standard (hv : s.vendorcode = 0) (h0 : 0 ≤ s.ptr)
    (hbuf : s.buf.drop s.ptr.toNat = a.bytes ++ rest)
    (hlen : s.packetLength = (a.bytes ++ rest).length)
    (htype : a.type ≠ 0)
    (hvsa : a.type.toNat ≠ pwVendorSpecific ∨ a.value.length ≤ 4) :
    stepKind ctx s = .ok (.pair { s with
        ptr := s.ptr + 2, packetLength := s.packetLength - 2 }
        a.type.toNat a.value.length) := by
  unfold stepKind
  rw [if_pos hv, attrHeader_tlv h0 hbuf hlen htype, ok_bind]
  simp only
  split_ifs with h1 h2
  · rfl
  · rfl
  · exfalso
    rcases hvsa with h | h
    · exact h1 h
    · omega

variable (ctx) in
/-- The iteration at a Vendor-Specific attribute with more than a vendor
id. -/
theorem stepKind_vsa (hv : s.vendorcode = 0) (h0 : 0 ≤ s.ptr)
    (hbuf : s.buf.drop s.ptr.toNat = a.bytes ++ rest)
    (hlen : s.packetLength = (a.bytes ++ rest).length)
    (hvsa : a.type.toNat = pwVendorSpecific) (h4 : 4 < a.value.length) :
    stepKind ctx s
      = vendorSpecific ctx { s with
          ptr := s.ptr + 2, packetLength := s.packetLength - 2
          vendorlen := 0 }
          pwVendorSpecific a.value.length := by
  have htype : a.type ≠ 0 := by
    intro hz
    rw [hz] at hvsa
    exact absurd hvsa (by decide)
  unfold stepKind
  rw [if_pos hv, attrHeader_tlv h0 hbuf hlen htype, ok_bind]
  simp only [hvsa, ne_eq, not_true_eq_false, if_false]
  rw [if_neg (by omega)]

/-- `create_pair` with a defined attribute whose value is plain and not
empty. -/
theorem createPair_plain {attr : Nat} {da : DictAttr} {vp : ValuePair}
    {bytes : List UInt8} (hda : ctx.cfg.dict.attrbyvalue attr = some da)
    (htag : da.flags.hasTag = false) (henc : da.flags.encrypt = .none)
    (hne : bytes ≠ []) (hlen : bytes.length ≤ 253)
    (hbytes : fetchN s.buf s.ptr bytes.length = .ok bytes)
    (hvp : plainPair ctx.cfg attr bytes
      { pairalloc (some da) with op := .opEq } = some vp) :
    createPair ctx s attr bytes.length
      = .ok (createdPair ctx s [vp] bytes.length) := by
  have hpos := List.length_pos_iff.mpr hne
  unfold createPair radAttr2vp paircreate
  rw [if_neg (by omega), hda]
  simp only
  rw [data2vp_plain hlen (by exact htag) (by exact henc) hbytes, ok_bind,
    hvp]
  rfl

end WinRadius
