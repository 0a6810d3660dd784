/-
Vendor attributes there and back, for the nine header layouts a VENDOR
line can ask for.

`rad_vp2attr` writes a sub-attribute's type and length fields in the
vendor's format and `rad_decode` reads them twice: in the sweep that
validates the Vendor-Specific attribute, and again to cut the
sub-attribute out. The two agree on every format but those with a
four-byte type and a length field, which the second switch has no case
for: the decoder returns -1.
-/
import WinRadius.Proofs.RoundTrip

namespace WinRadius

open Lib

-- ======== the VENDOR line

theorem vendorFormat_congr {d d' : Dict} {v : Int}
    (h : d.vendorbyvalue v = d'.vendorbyvalue v) :
    vendorFormat d v = vendorFormat d' v := by
  unfold vendorFormat
  rw [h]

/-- A VENDOR line with a format leaves the vendor with just that format,
and the format is one of nine. -/
theorem processVendor_format {d d' : Dict} {name number format : CString}
    {t l : Nat} {c : Bool}
    (h : processVendor d [name, number, format] = .ok d')
    (hf : parseFormat (format.drop 7) = .ok (t, l, c)) :
    vendorFormat d' (atoi number) = (t, l, c)
      ∧ (t = 1 ∨ t = 2 ∨ t = 4) ∧ (l = 0 ∨ l = 1 ∨ l = 2)
      ∧ atoi number ≤ 65535 := by
  simp only [processVendor, List.length_singleton, Nat.lt_irrefl,
    if_false, List.head?_cons, Option.some_or] at h
  split at h
  · cases h
  · split at h
    · cases h
    · next d1 hadd =>
        split at h
        · cases h
        · simp only [hf] at h
          split at h
          · cases h
          · next dv hdv =>
              have hkey := d1.vendor_key _ _ hdv
              have hpec := dv.pec_le
              have heq : dv.vendorpec = atoi number := by omega
              split at h
              · next ht =>
                  split at h
                  · next hl =>
                      cases h
                      refine ⟨?_, ht, hl, by omega⟩
                      simp [vendorFormat, Dict.setFormat, heq]
                  · cases h
              · cases h

-- ======== header fields

section fields

variable {buf rest : List UInt8} {p : Int} {t l attr n : Nat}
  {tf lf : List UInt8}

/-- The number as the sweep reads it back. -/
theorem sweepNumber_typeField (h0 : 0 ≤ p)
    (hbuf : buf.drop p.toNat = tf ++ rest)
    (htf : typeField t attr = some tf)
    (hfit : t = 1 → attr % 65536 < 256) :
    sweepNumber buf t p = .ok (some (attr % 65536)) := by
  have hor (hi lo : Nat) (hlo : lo < 256) :
      (hi <<< 8) ||| lo = hi * 256 + lo := by
    rw [← Nat.shiftLeft_add_eq_or_of_lt (by omega : lo < 2 ^ 8),
      Nat.shiftLeft_eq]
  unfold typeField at htf
  split at htf
  · cases htf
    have hb := fetch_drop h0 hbuf 0 (b := UInt8.ofNat attr) (by simp)
    rw [Int.ofNat_zero, Int.add_zero] at hb
    have := hfit rfl
    simp only [sweepNumber, hb, ok_bind, UInt8.toNat_ofNat', pure_eq_ok,
      Except.ok.injEq, Option.some.injEq]
    omega
  · cases htf
    have hb := fetch_drop h0 hbuf 0 (b := UInt8.ofNat (attr / 256))
      (by simp)
    have hb1 := fetch_drop h0 hbuf 1 (b := UInt8.ofNat attr) (by simp)
    rw [Int.ofNat_zero, Int.add_zero] at hb
    rw [Int.ofNat_one] at hb1
    simp only [sweepNumber, hb, hb1, ok_bind, UInt8.toNat_ofNat',
      pure_eq_ok, Except.ok.injEq, Option.some.injEq]
    rw [hor _ _ (by omega)]
    omega
  · cases htf
    have hb := fetch_drop h0 hbuf 0 (b := 0) (by simp)
    have hb1 := fetch_drop h0 hbuf 1 (b := 0) (by simp)
    have hb2 := fetch_drop h0 hbuf 2 (b := UInt8.ofNat (attr / 256))
      (by simp)
    have hb3 := fetch_drop h0 hbuf 3 (b := UInt8.ofNat attr) (by simp)
    rw [Int.ofNat_zero, Int.add_zero] at hb
    rw [Int.ofNat_one] at hb1
    simp only [sweepNumber, hb, hb1, show (p + 2 : Int) = p + (2 : Nat)
      from rfl, show (p + 3 : Int) = p + (3 : Nat) from rfl, hb2, hb3,
      ok_bind, ne_eq, not_true_eq_false, if_false, UInt8.toNat_ofNat',
      pure_eq_ok, Except.ok.injEq, Option.some.injEq]
    rw [hor _ _ (by omega)]
    omega
  · cases htf

/-- The length as the sweep reads it back. -/
theorem sweepLength_lenField (h0 : 0 ≤ p)
    (hbuf : buf.drop p.toNat = tf ++ (lf ++ rest))
    (htf : tf.length = t) (hlf : lenField l n = some lf) (hl : l ≠ 0)
    (hlo : t + l ≤ n) (hhi : n ≤ 255) :
    sweepLength buf t l 0 p n = .ok (some n) := by
  have hn : (UInt8.ofNat n).toNat = n := by
    rw [UInt8.toNat_ofNat']
    omega
  unfold lenField at hlf
  split at hlf
  · exact absurd rfl hl
  · cases hlf
    have hb := fetch_drop h0 hbuf t (b := UInt8.ofNat n)
      (by simp [← htf])
    simp only [sweepLength, hb, ok_bind, hn]
    rw [if_neg (by omega), if_neg (by omega)]
    simp
  · cases hlf
    have hb := fetch_drop h0 hbuf t (b := 0) (by simp [← htf])
    have hb1 := fetch_drop h0 hbuf (t + 1) (b := UInt8.ofNat n)
      (by simp [← htf])
    rw [Nat.cast_add, ← Int.add_assoc, Nat.cast_one] at hb1
    simp only [sweepLength, hb, hb1, ok_bind, hn, ne_eq,
      not_true_eq_false, if_false]
    rw [if_neg (by omega), if_neg (by omega)]
    simp
  · cases hlf

end fields

-- ======== encoding

/-- A vendor attribute of the dictionary, neither tagged nor encrypted,
that fits one attribute under the format `t`, `l`. -/
structure VendorPair (cfg : Config) (vendor t l : Nat) (vp : ValuePair) :
    Prop where
  vendor_pos : 1 ≤ vendor
  vendor_le : vendor ≤ 65535
  vendor_eq : vp.attr / 65536 = vendor
  number_pos : 1 ≤ vp.attr % 65536
  number_fits : t = 1 → vp.attr % 65536 < 256
  type : vp.type = .integer ∨ vp.type = .ipaddr ∨ vp.type = .string
    ∨ vp.type = .octets
  defined : ∃ da, cfg.dict.attrbyvalue vp.attr = some da
    ∧ da.type = vp.type ∧ da.flags.hasTag = false
    ∧ da.flags.encrypt = .none
  untagged : vp.flags.hasTag = false
  unencrypted : vp.flags.encrypt = .none
  legal : vp.Legal
  fits : 6 + t + l + vp.length ≤ 255

variable {cfg : Config} {vp : ValuePair} {vendor t l : Nat}

theorem VendorPair.vendorOf_eq (h : VendorPair cfg vendor t l vp) :
    vendorOf vp.attr = vendor := by
  have h1 := h.vendor_eq
  have h2 := h.vendor_le
  rw [vendorOf, Nat.shiftRight_eq_div_pow]
  omega

theorem typeField_isSome (attr : Nat) (ht : t = 1 ∨ t = 2 ∨ t = 4) :
    ∃ tf, typeField t attr = some tf := by
  rcases ht with rfl | rfl | rfl <;> exact ⟨_, rfl⟩

theorem lenField_isSome (n : Nat) (hl : l = 0 ∨ l = 1 ∨ l = 2) :
    ∃ lf, lenField l n = some lf := by
  rcases hl with rfl | rfl | rfl <;> exact ⟨_, rfl⟩

/-- The attribute a vendor pair becomes. -/
theorem radVp2attr_vendor {r : Rand} {packet : RadiusPacket}
    {original : Option RadiusPacket} {secret : List UInt8}
    (h : VendorPair cfg vendor t l vp)
    (hfmt : vendorFormat cfg.dict vendor = (t, l, false))
    (ht : t = 1 ∨ t = 2 ∨ t = 4) (hl : l = 0 ∨ l = 1 ∨ l = 2) :
    ∃ tf lf out, ∃ a : Tlv, typeField t vp.attr = some tf
      ∧ lenField l (t + l + vp.length) = some lf
      ∧ radVp2attr cfg r packet original secret vp = some out
      ∧ out.bytes = a.bytes
      ∧ a.type = UInt8.ofNat pwVendorSpecific
      ∧ a.value = be32 (UInt32.ofNat vendor)
        ++ (tf ++ (lf ++ sourceBytes vp)) := by
  obtain ⟨tf, htf⟩ := typeField_isSome vp.attr ht
  obtain ⟨lf, hlf⟩ := lenField_isSome (t + l + vp.length) hl
  obtain ⟨lf0, hlf0⟩ := lenField_isSome 0 hl
  obtain ⟨src, hsrc, h1, h253⟩ := h.legal.source
  have hfits := h.fits
  have hsl := h.legal.sourceBytes_length
  have htl := (typeField_length htf).1
  have hll := (lenField_length hlf).1
  have hdata : vp2data cfg r packet original secret vp
      (255 - (6 + t + l + innerLen vp false)) = some (sourceBytes vp, r) := by
    simp only [vp2data, hsrc, h.unencrypted, sourceBytes, innerLen,
      Bool.false_eq_true, if_false]
    rw [if_neg (by omega)]
  have hne : sourceBytes vp ≠ [] := by
    intro hnil
    rw [hnil] at hsl
    simp at hsl
    omega
  have hv := h.vendorOf_eq
  have hv0 : ¬vendor = 0 := by
    have := h.vendor_pos
    omega
  refine ⟨tf, lf, ⟨UInt8.ofNat pwVendorSpecific
      :: UInt8.ofNat (6 + t + l + 0 + vp.length)
        :: vsaTail vp t l false tf vp.length ++ sourceBytes vp,
      6 + t + l + 0 + vp.length, r⟩,
    ⟨UInt8.ofNat pwVendorSpecific, be32 (UInt32.ofNat vendor)
      ++ (tf ++ (lf ++ sourceBytes vp)), ?_⟩, htf, hlf, ?_, ?_, rfl, rfl⟩
  · simp only [List.length_append, be32_length, htl, hll, hsl]
    omega
  · simp only [radVp2attr, hv, if_neg hv0, hfmt, htf, hlf0,
      Bool.false_and, Bool.false_eq_true, if_false, finishAttr,
      taggedData, h.untagged, hdata, Option.map_some, hne, false_and,
      hsl]
    rfl
  · simp only [Tlv.bytes, vsaTail, hv, innerLen, innerHeader,
      Bool.false_eq_true, if_false, Nat.add_zero, hlf,
      Option.getD_some, List.append_nil, List.append_assoc,
      List.cons_append, List.length_append, be32_length, htl, hll, hsl]
    congr 3
    omega

-- ======== decoding

theorem signedVendor_be32 (h : vendor ≤ 65535) :
    signedVendor (be32 (UInt32.ofNat vendor)) = vendor := by
  have hn : (UInt32.ofNat vendor).toNat = vendor := by
    rw [UInt32.toNat_ofNat']
    omega
  rw [signedVendor, ofBe32_be32, hn, if_pos (by omega)]

theorem vendorAttr_eq {attr : Nat} (h : vendor ≤ 65535)
    (ha : attr / 65536 = vendor) :
    vendorAttr (vendorBits vendor) (attr % 65536) = attr := by
  have hb : vendorBits vendor = vendor := by
    unfold vendorBits
    omega
  rw [hb, vendorAttr, Nat.shiftLeft_eq, Nat.mod_eq_of_lt (by omega),
    ← Nat.shiftLeft_eq, ← Nat.shiftLeft_add_eq_or_of_lt (by omega),
    Nat.shiftLeft_eq]
  omega

variable {ctx : DecCtx} {s : DecState} {tf lf data : List UInt8}
  {attr : Nat}

/-- The sweep over a Vendor-Specific attribute with one sub-attribute. -/
theorem sweep_single {p : Int} (fuel : Nat) {buf : List UInt8}
    (h0 : 0 ≤ p) (hbuf : buf.drop p.toNat = tf ++ (lf ++ data))
    (htf : typeField t attr = some tf)
    (hlf : lenField l (t + l + data.length) = some lf)
    (hfit : t = 1 → attr % 65536 < 256)
    (hhi : t + l + data.length ≤ 255) :
    sweep buf t l 0 (fuel + 1) p (t + l + data.length : Nat)
      = .ok (if l = 0 then .flat (attr % 65536) else .fits) := by
  rw [sweep, if_neg (by push_cast; omega),
    sweepNumber_typeField h0 hbuf htf hfit, ok_bind]
  by_cases hl : l = 0
  · simp only [if_pos hl, pure_eq_ok]
  · simp only [if_neg hl]
    rw [sweepLength_lenField h0 hbuf (typeField_length htf).1 hlf hl
      (by omega) hhi, ok_bind]
    simp

/-- The Vendor-Specific part of the iteration, for one sub-attribute of a
format without continuation. -/
theorem vsaKind_single
    (hfmt : vendorFormat ctx.cfg.dict vendor = (t, l, false))
    (h1 : 1 ≤ vendor) (h2 : vendor ≤ 65535) (h0 : 0 ≤ s.ptr)
    (hp : s.ptr ≤ s.buf.length)
    (hbuf : s.buf.drop s.ptr.toNat = be32 (UInt32.ofNat vendor)
      ++ (tf ++ (lf ++ data)))
    (htf : typeField t attr = some tf)
    (hlf : lenField l (t + l + data.length) = some lf)
    (hattr : attr / 65536 = vendor)
    (hfit : t = 1 → attr % 65536 < 256)
    (hhi : t + l + data.length ≤ 255) :
    vsaKind ctx s pwVendorSpecific (4 + (t + l + data.length) : Nat)
      = .ok (if l = 0 then
          .pair { s with
            vsaTlen := t, vsaLlen := l, vsaOffset := 0
            ptr := s.ptr + (4 + t)
            packetLength := s.packetLength - (4 + t) }
            attr (4 + (t + l + data.length) - (4 + t))
        else
          .subs { s with
            vsaTlen := t, vsaLlen := l, vsaOffset := 0
            vendorcode := vendor
            vendorlen := (t + l + data.length : Nat)
            packetLength := s.packetLength - 4
            ptr := s.ptr + 4 }) := by
  have hid : fetchN s.buf s.ptr 4 = .ok (be32 (UInt32.ofNat vendor)) := by
    have := fetchN_drop _ (be32 (UInt32.ofNat vendor)) [] _ h0 hp
      hbuf
    simpa using this
  have hsub : s.buf.drop (s.ptr + 4).toNat = tf ++ (lf ++ data) := by
    rw [show (s.ptr + 4).toNat = s.ptr.toNat + 4 by omega,
      ← List.drop_drop, hbuf]
    rfl
  have hbits : vendorBits vendor = vendor := by
    unfold vendorBits
    omega
  have hva := vendorAttr_eq h2 hattr
  have hsweep := sweep_single (4 + (t + l + data.length))
    (by omega) hsub htf hlf hfit hhi
  unfold vsaKind
  rw [hid, ok_bind, signedVendor_be32 h2]
  simp only
  rw [if_neg (by omega), if_neg (by omega), hfmt]
  simp only [Bool.false_eq_true, if_false]
  rw [show ((4 + (t + l + data.length) : Nat) : Int) - 4
    = (t + l + data.length : Nat) by push_cast; omega,
    Int.toNat_natCast, hsweep, ok_bind]
  by_cases hl : l = 0
  · simp only [if_pos hl, hva, pure_eq_ok]
    push_cast
    rfl
  · simp only [if_neg hl, hbits, pure_eq_ok]

/-- The header of a sub-attribute as the second switches read it. -/
theorem subHeader_single (ht : s.vsaTlen = 1 ∨ s.vsaTlen = 2)
    (hl : s.vsaLlen ≠ 0) (ho : s.vsaOffset = 0) (h0 : 0 ≤ s.ptr)
    (hbuf : s.buf.drop s.ptr.toNat = tf ++ (lf ++ data))
    (htf : typeField s.vsaTlen attr = some tf)
    (hlf : lenField s.vsaLlen (s.vsaTlen + s.vsaLlen + data.length)
      = some lf)
    (hfit : s.vsaTlen = 1 → attr % 65536 < 256)
    (hhi : s.vsaTlen + s.vsaLlen + data.length ≤ 255) :
    subHeader s = .ok (some (attr % 65536, data.length)) := by
  have htl := (typeField_length htf).1
  obtain ⟨m, hm⟩ : ∃ m, m = s.vsaTlen + s.vsaLlen + data.length :=
    ⟨_, rfl⟩
  rw [← hm] at hlf hhi
  have hn : (UInt8.ofNat m).toNat = m := by
    rw [UInt8.toNat_ofNat']
    omega
  -- for one and two bytes this is the switch of the sweep
  have hnum : subNumber s = .ok (some (attr % 65536)) := by
    rw [← sweepNumber_typeField h0 hbuf htf hfit]
    unfold subNumber sweepNumber
    rcases ht with ht | ht
    · simp only [ht]
    · simp only [ht]
  have hlen : subLength s = .ok (some (data.length : Int)) := by
    unfold subLength
    unfold lenField at hlf
    split at hlf
    · next h => exact absurd h hl
    · next h =>
        cases hlf
        have hb := fetch_drop h0 hbuf s.vsaTlen (b := UInt8.ofNat m)
          (by simp [← htl])
        rw [h] at hm
        simp only [h, hb, ok_bind, hn, ho, pure_eq_ok, Except.ok.injEq,
          Option.some.injEq]
        push_cast
        omega
    · next h =>
        cases hlf
        have hb := fetch_drop h0 hbuf (s.vsaTlen + 1)
          (b := UInt8.ofNat m) (by simp [← htl])
        rw [Nat.cast_add, ← Int.add_assoc, Nat.cast_one] at hb
        rw [h] at hm
        simp only [h, hb, ok_bind, hn, pure_eq_ok, Except.ok.injEq,
          Option.some.injEq]
        push_cast
        omega
    · cases hlf
  simp only [subHeader, hnum, hlen, ok_bind, pure_eq_ok]

/-- A four-byte type with a length field: the decoder gives up. -/
theorem subHeader_four (ht : s.vsaTlen = 4) :
    subHeader s = .ok none := by
  simp [subHeader, subNumber, ht]

variable (ctx data) in
/-- The sub-attribute part of the iteration, for a plain sub-attribute
that is the last of its Vendor-Specific attribute. -/
theorem subKind_single (ht : s.vsaTlen = 1 ∨ s.vsaTlen = 2)
    (hl : s.vsaLlen ≠ 0) (ho : s.vsaOffset = 0) (h0 : 0 ≤ s.ptr)
    (hbuf : s.buf.drop s.ptr.toNat = tf ++ (lf ++ data))
    (htf : typeField s.vsaTlen attr = some tf)
    (hlf : lenField s.vsaLlen (s.vsaTlen + s.vsaLlen + data.length)
      = some lf)
    (hfit : s.vsaTlen = 1 → attr % 65536 < 256)
    (hhi : s.vsaTlen + s.vsaLlen + data.length ≤ 255)
    (hne : data ≠ []) (hpos : 1 ≤ attr % 65536)
    (hattr : vendorAttr s.vendorcode (attr % 65536) = attr)
    (hvlen : s.vendorlen
      = (s.vsaTlen + s.vsaLlen + data.length : Nat)) :
    subKind ctx s = .ok (.pair { s with
      ptr := s.ptr + (s.vsaTlen + s.vsaLlen : Nat)
      vendorlen := 0, vendorcode := 0
      packetLength := s.packetLength - (s.vsaTlen + s.vsaLlen : Nat) }
      attr data.length) := by
  have hlen : (data.length : Int) ≠ 0 := by
    have := List.length_pos_iff.mpr hne
    omega
  have hwimax : attr ≠ 0x60b50000 := by
    intro h
    rw [h] at hpos
    exact absurd hpos (by decide)
  have hpast : pastSubHeader s data.length = { s with
      ptr := s.ptr + (s.vsaTlen + s.vsaLlen : Nat)
      vendorlen := 0, vendorcode := 0
      packetLength := s.packetLength
        - (s.vsaTlen + s.vsaLlen : Nat) } := by
    have hz : s.vendorlen - (s.vsaTlen + s.vsaLlen + s.vsaOffset
        + data.length) = 0 := by
      rw [hvlen, ho]
      push_cast
      omega
    simp only [pastSubHeader, hz, if_true]
    simp [ho]
  unfold subKind
  rw [subHeader_single ht hl ho h0 hbuf htf hlf hfit hhi, ok_bind]
  simp only [hattr, hpast, if_neg hlen, if_neg hwimax, ho, ne_eq,
    not_true_eq_false, if_false, pure_eq_ok]

/-- The bytes of a vendor attribute, from the vendor id on. -/
structure VendorBytes (vendor t l : Nat) (vp : ValuePair)
    (tf lf value : List UInt8) : Prop where
  typed : typeField t vp.attr = some tf
  counted : lenField l (t + l + (sourceBytes vp).length) = some lf
  value_eq : value = be32 (UInt32.ofNat vendor)
    ++ (tf ++ (lf ++ sourceBytes vp))

theorem VendorBytes.length {value : List UInt8}
    (h : VendorBytes vendor t l vp tf lf value) :
    value.length = 4 + (t + l + (sourceBytes vp).length) := by
  have htl := (typeField_length h.typed).1
  have hll := (lenField_length h.counted).1
  rw [h.value_eq]
  simp only [List.length_append, be32_length, htl, hll]
  omega

/-- `create_pair` on the value of a vendor attribute, the vendor id being
at `q`. -/
theorem createPair_vendor {value : List UInt8} {q : Int}
    (h : VendorPair ctx.cfg vendor t l vp)
    (hb : VendorBytes vendor t l vp tf lf value) (hq : 0 ≤ q)
    (hqle : q ≤ s.buf.length) (hbuf : s.buf.drop q.toNat = value)
    (hptr : s.ptr = q + (4 + t + l : Nat)) :
    ∃ v, v.content = vp.content
      ∧ createPair ctx s vp.attr (sourceBytes vp).length
        = .ok (createdPair ctx s [v] (sourceBytes vp).length) := by
  obtain ⟨da, hda, hdty, htag, henc⟩ := h.defined
  obtain ⟨v, hv, hvc⟩ := typedVp_arrived h.legal
    (h.legal.filled (ctx.cfg.dict.attr_key _ _ hda) hdty htag)
  have hsl := h.legal.sourceBytes_length
  obtain ⟨-, -, hn1, h253⟩ := h.legal.source
  have htl := (typeField_length hb.typed).1
  have hll := (lenField_length hb.counted).1
  refine ⟨v, ?_, createPair_plain hda htag henc ?_ (by omega) ?_
    (plainPair_typed hv)⟩
  · rw [hvc, ValuePair.arrived_eq_content_iff]
    intro hs
    rcases h.type with ht | ht | ht | ht <;> rw [ht] at hs <;> cases hs
  · intro hnil
    rw [hnil] at hsl
    simp at hsl
    omega
  · have := fetchN_drop _ (sourceBytes vp)
      (be32 (UInt32.ofNat vendor) ++ (tf ++ lf)) [] (p := q) hq hqle
      (by rw [hbuf, hb.value_eq]; simp only [List.append_assoc,
        List.append_nil])
    rw [hptr, ← this]
    congr 1
    simp only [List.length_append, be32_length, htl, hll]
    push_cast
    omega

variable (ctx) in
/-- The iteration at a vendor attribute that is the last of the packet.
Behind a four-byte type no length field is understood. -/
theorem decodeStep_vendor {a : Tlv}
    (hfmt : vendorFormat ctx.cfg.dict vendor = (t, l, false))
    (ht : t = 1 ∨ t = 2 ∨ t = 4)
    (h : VendorPair ctx.cfg vendor t l vp)
    (htype : a.type = UInt8.ofNat pwVendorSpecific)
    (hb : VendorBytes vendor t l vp tf lf a.value)
    (hv : s.vendorcode = 0) (h0 : 0 ≤ s.ptr)
    (hbuf : s.buf.drop s.ptr.toNat = a.bytes)
    (hlen : s.packetLength = a.bytes.length)
    (hnum : s.numAttributes = 0) :
    if t = 4 ∧ l ≠ 0 then ∃ s', decodeStep ctx s = .ok (.fail s')
    else ∃ s' v, decodeStep ctx s = .ok (.loop s')
      ∧ s'.packetLength = 0 ∧ s'.vps = s.vps ++ [v]
      ∧ v.content = vp.content := by
  have hvl := hb.length
  have hfits := h.fits
  have hsl := h.legal.sourceBytes_length
  obtain ⟨-, -, hn1, -⟩ := h.legal.source
  have hb2 := Tlv.bytes_length a
  have hdlen := congrArg List.length hbuf
  rw [List.length_drop] at hdlen
  have hbuf2 : s.buf.drop (s.ptr + 2).toNat = a.value := by
    rw [show (s.ptr + 2).toNat = s.ptr.toNat + 2 by omega,
      ← List.drop_drop, hbuf]
    rfl
  have hstep := stepKind_vsa ctx hv h0
    (by rw [hbuf, List.append_nil]) (by rw [List.append_nil, hlen])
    (by rw [htype]; rfl) (by omega)
  have hkind := vsaKind_single
    (s := { s with
      ptr := s.ptr + 2, packetLength := s.packetLength - 2
      vendorlen := 0 }) hfmt h.vendor_pos h.vendor_le
    (by show 0 ≤ s.ptr + 2; omega)
    (by show s.ptr + 2 ≤ (s.buf.length : Int); omega)
    (by
      show s.buf.drop (s.ptr + 2).toNat = _
      rw [hbuf2, hb.value_eq])
    hb.typed hb.counted h.vendor_eq h.number_fits (by omega)
  rw [hvl, vendorSpecific, hkind, ok_bind] at hstep
  -- one pair made of `sourceBytes vp`, and nothing left
  have hdone (s2 : DecState) (hvps : s2.vps = s.vps)
      (hn : s2.numAttributes = 0)
      (hl2 : s2.packetLength = (sourceBytes vp).length) (v : ValuePair) :
      ∃ s3, createdPair ctx s2 [v] (sourceBytes vp).length = .loop s3
        ∧ s3.packetLength = 0 ∧ s3.vps = s.vps ++ [v] := by
    simp only [createdPair, hvps, hn, List.length_singleton]
    rw [if_neg (by omega)]
    exact ⟨_, rfl, by show s2.packetLength - _ = 0; omega, rfl⟩
  by_cases hl0 : l = 0
  · rw [if_neg (by simp [hl0])]
    simp only [if_pos hl0] at hstep
    rw [show (4 + (t + l + (sourceBytes vp).length) : Int) - (4 + t)
      = (sourceBytes vp).length by rw [hl0]; push_cast; omega] at hstep
    obtain ⟨v, hvc, hmake⟩ := createPair_vendor (q := s.ptr + 2)
      (s := { s with
        ptr := s.ptr + 2 + (4 + t)
        packetLength := s.packetLength - 2 - (4 + t)
        vendorlen := 0, vsaTlen := t, vsaLlen := l, vsaOffset := 0 })
      h hb (by omega) (by show s.ptr + 2 ≤ (s.buf.length : Int); omega)
      hbuf2 (by rw [hl0]; push_cast; simp)
    obtain ⟨s3, hloop, hz, hvps⟩ := hdone { s with
        ptr := s.ptr + 2 + (4 + t)
        packetLength := s.packetLength - 2 - (4 + t)
        vendorlen := 0, vsaTlen := t, vsaLlen := l, vsaOffset := 0 }
      rfl hnum (by
        show s.packetLength - 2 - (4 + t) = _
        omega) v
    exact ⟨s3, v, by rw [decodeStep, hstep, pure_eq_ok, ok_bind,
      StepKind.finish, hmake, hloop], hz, hvps, hvc⟩
  · simp only [if_neg hl0] at hstep
    obtain ⟨s2, hs2⟩ : ∃ s2, s2 = { s with
        vsaTlen := t, vsaLlen := l, vsaOffset := 0
        vendorcode := vendor
        vendorlen := (t + l + (sourceBytes vp).length : Nat)
        packetLength := s.packetLength - 2 - 4
        ptr := s.ptr + 2 + 4 } := ⟨_, rfl⟩
    rw [show DecState.mk _ _ _ _ _ _ _ _ _ _ = s2 from hs2.symm] at hstep
    by_cases h4 : t = 4
    · rw [if_pos ⟨h4, hl0⟩]
      refine ⟨s2, ?_⟩
      rw [decodeStep, hstep, subKind, subHeader_four (by rw [hs2, h4])]
      rfl
    · rw [if_neg (by simp [h4])]
      have hsub := subKind_single ctx (sourceBytes vp) (s := s2)
        (by rw [hs2]; show t = 1 ∨ t = 2; omega) (by rw [hs2]; exact hl0)
        (by rw [hs2]) (by rw [hs2]; show 0 ≤ s.ptr + 2 + 4; omega)
        (by
          rw [hs2]
          show s.buf.drop (s.ptr + 2 + 4).toNat = _
          rw [show (s.ptr + 2 + 4).toNat = (s.ptr + 2).toNat + 4
            by omega, ← List.drop_drop, hbuf2, hb.value_eq]
          rfl)
        (by rw [hs2]; exact hb.typed) (by rw [hs2]; exact hb.counted)
        (by rw [hs2]; exact h.number_fits)
        (by rw [hs2]; show t + l + _ ≤ 255; omega)
        (by
          intro hnil
          rw [hnil] at hsl
          simp at hsl
          omega)
        h.number_pos
        (by
          rw [hs2]
          have := vendorAttr_eq h.vendor_le h.vendor_eq
          rwa [show vendorBits vendor = vendor by
            have := h.vendor_le
            unfold vendorBits
            omega] at this)
        (by rw [hs2])
      rw [hsub] at hstep
      obtain ⟨s3, hs3⟩ : ∃ s3, s3 = { s2 with
          ptr := s2.ptr + (s2.vsaTlen + s2.vsaLlen : Nat)
          vendorlen := 0, vendorcode := 0
          packetLength := s2.packetLength
            - (s2.vsaTlen + s2.vsaLlen : Nat) } := ⟨_, rfl⟩
      rw [← hs3] at hstep
      obtain ⟨v, hvc, hmake⟩ := createPair_vendor (q := s.ptr + 2)
        (s := s3) h hb (by omega)
        (by rw [hs3, hs2]; show s.ptr + 2 ≤ (s.buf.length : Int); omega)
        (by rw [hs3, hs2]; exact hbuf2)
        (by
          rw [hs3, hs2]
          show s.ptr + 2 + 4 + ((t + l : Nat) : Int) = _
          push_cast
          omega)
      obtain ⟨s4, hloop, hz, hvps⟩ := hdone s3 (by rw [hs3, hs2])
        (by rw [hs3, hs2]; exact hnum)
        (by
          rw [hs3, hs2]
          show s.packetLength - 2 - 4 - ((t + l : Nat) : Int) = _
          omega) v
      exact ⟨s4, v, by rw [decodeStep, hstep, ok_bind,
        StepKind.finish, hmake, hloop], hz, hvps, hvc⟩

-- ======== the round trip

/-- A packet of one attribute: the loop makes one step and, if that goes
on to the end, is done. -/
theorem radDecode_single {p : RadiusPacket}
    {original : Option RadiusPacket} {secret : Option (List UInt8)}
    {s' : DecState} (hlen : 20 < p.data.length) :
    (decodeStep (decodeCtx cfg p original secret) (decodeInit p)
        = .ok (.fail s') →
      radDecode cfg p original secret
        = .ok (-1, { p with data := s'.buf, vps := s'.vps }))
      ∧ (decodeStep (decodeCtx cfg p original secret) (decodeInit p)
          = .ok (.loop s') → s'.packetLength = 0 →
        radDecode cfg p original secret
          = .ok (0, { p with data := s'.buf, vps := s'.vps })) := by
  have hgo : ¬(decodeInit p).packetLength ≤ 0 := by
    show ¬((p.data.length : Int) - authHdrLen ≤ 0)
    simp only [authHdrLen]
    omega
  obtain ⟨fuel, hfuel⟩ : ∃ fuel, p.data.length = fuel + 1 :=
    ⟨p.data.length - 1, by omega⟩
  constructor
  · intro h
    rw [radDecode, decodeLoop, if_neg hgo, h]
    rfl
  · intro h hz
    rw [radDecode, hfuel, decodeLoop, if_neg hgo, h, ok_bind]
    simp only
    rw [decodeLoop, if_pos (by omega)]
    rfl

/-- A vendor attribute survives the trip over the wire if and only if its
vendor's format is not a four-byte type with a length field. -/
theorem radDecode_radVp2attr_iff (cfg : Config) (r : Rand)
    (packet fresh : RadiusPacket) (original : Option RadiusPacket)
    (secret : List UInt8) (original' : Option RadiusPacket)
    (secret' : Option (List UInt8)) (hdr : List UInt8) (d d' : Dict)
    (name number format : CString) (t l : Nat) (vp : ValuePair)
    (hhdr : hdr.length = authHdrLen)
    (hline : processVendor d [name, number, format] = .ok d')
    (hformat : parseFormat (format.drop 7) = .ok (t, l, false))
    (hdict : cfg.dict.vendorbyvalue (atoi number)
      = d'.vendorbyvalue (atoi number))
    (h : VendorPair cfg (atoi number) t l vp) :
    (∃ out received pair,
      radVp2attr cfg r packet original secret vp = some out
        ∧ radDecode cfg
            { fresh with data := hdr ++ out.bytes, vps := [] }
            original' secret' = .ok (0, received)
        ∧ received.vps = [pair] ∧ pair.content = vp.content)
      ↔ ¬(t = 4 ∧ l ≠ 0) := by
  obtain ⟨hfmt', ht, hl, -⟩ := processVendor_format hline hformat
  have hfmt : vendorFormat cfg.dict (atoi number) = (t, l, false) := by
    rw [vendorFormat_congr hdict, hfmt']
  obtain ⟨tf, lf, out, a, htf, hlf, hout, hbytes, htype, hval⟩ :=
    radVp2attr_vendor (r := r)
      h hfmt ht hl
  rw [← h.legal.sourceBytes_length] at hlf
  obtain ⟨p, hp⟩ : ∃ p : RadiusPacket,
      p = { fresh with data := hdr ++ out.bytes, vps := [] } := ⟨_, rfl⟩
  have hpd : p.data = hdr ++ a.bytes := by
    rw [hp, ← hbytes]
  have hplen : p.data.length = authHdrLen + a.bytes.length := by
    rw [hpd, List.length_append, hhdr]
  have h20 : 20 < p.data.length := by
    rw [hplen, Tlv.bytes_length]
    simp only [authHdrLen]
    omega
  have hstep := decodeStep_vendor (decodeCtx cfg p original' secret')
    (s := decodeInit p) hfmt ht
    h htype ⟨htf, hlf, hval⟩ rfl
    (by show (0 : Int) ≤ (authHdrLen : Nat); omega)
    (by
      show p.data.drop authHdrLen = _
      rw [hpd, List.drop_left' hhdr])
    (by
      show (p.data.length : Int) - authHdrLen = _
      omega) rfl
  have hvps : p.vps = [] := by rw [hp]
  split_ifs at hstep with h4
  · obtain ⟨s', hs'⟩ := hstep
    have hdec := (radDecode_single h20).1 hs'
    refine ⟨?_, fun hno => absurd h4 hno⟩
    rintro ⟨out', received, pair, hout', hdec', -⟩
    rw [hout] at hout'
    cases hout'
    rw [← hp, hdec] at hdec'
    cases hdec'
  · obtain ⟨s', v, hs', hz, hv, hc⟩ := hstep
    have hdec := (radDecode_single h20).2 hs' hz
    have hone : s'.vps = [v] := by
      rw [hv]
      show p.vps ++ [v] = [v]
      rw [hvps]
      rfl
    refine ⟨fun _ => h4, fun _ => ?_⟩
    exact ⟨out, { p with data := s'.buf, vps := s'.vps }, v, hout,
      by rw [← hp]; exact hdec, hone, hc⟩

/-- The dictionary of one vendor, 9, with a format, and its integer
attribute 300. -/
def vendorConfig (t l : Nat) (ht : t = 1 ∨ t = 2 ∨ t = 4)
    (hl : l = 0 ∨ l = 1 ∨ l = 2) : Config :=
  { bareConfig with
    dict := .ofEntries [⟨9 * 65536 + 300, .integer, 9, {}⟩]
      [⟨9, t, l, false, by decide, ht, hl⟩] }

/-- That attribute, holding 17. -/
def vendorInteger : ValuePair :=
  { attr := 9 * 65536 + 300, vendor := 9, type := .integer, length := 4
    lvalue := 17 }

/-- The VENDOR line that asks for it. -/
def vendorLine (t l : Char) : List CString :=
  [['A'], ['9'], formatWord ++ [t, ',', l]]

theorem vendorInteger_pair {t l : Nat} (ht : t = 2 ∨ t = 4)
    (hl : l = 0 ∨ l = 1 ∨ l = 2) :
    VendorPair (vendorConfig t l (Or.inr ht) hl) 9 t l vendorInteger :=
  ⟨by decide, by decide, by decide, by decide, by omega, Or.inl rfl,
    ⟨_, rfl, rfl, rfl, rfl⟩, rfl, rfl, rfl, by
      show 6 + t + l + 4 ≤ 255
      omega⟩

/-- The format 2,1 of vendor 9. -/
theorem vendorInteger_survives :
    ∃ out received pair,
      radVp2attr (vendorConfig 2 1 (by decide) (by decide))
          ⟨fun _ => 0, 0, 0⟩ {} none [] vendorInteger = some out
        ∧ radDecode (vendorConfig 2 1 (by decide) (by decide))
            { data := List.replicate 20 0 ++ out.bytes, vps := [] } none
            none = .ok (0, received)
        ∧ received.vps = [pair]
        ∧ pair.content = vendorInteger.content :=
  (radDecode_radVp2attr_iff (vendorConfig 2 1 (by decide) (by decide))
    ⟨fun _ => 0, 0, 0⟩ {} {} none [] none none (List.replicate 20 0) .empty
    _ ['A'] ['9'] (formatWord ++ ['2', ',', '1']) 2 1 vendorInteger rfl rfl
    rfl rfl (vendorInteger_pair (Or.inl rfl) (by decide))).mpr (by decide)

/-- The format 4,1 is accepted, and an attribute sent in it makes
`rad_decode` return -1. -/
theorem vendorInteger_refused :
    (∃ d', processVendor .empty (vendorLine '4' '1') = .ok d'
      ∧ (vendorConfig 4 1 (by decide) (by decide)).dict.vendorbyvalue 9
        = d'.vendorbyvalue 9)
      ∧ VendorPair (vendorConfig 4 1 (by decide) (by decide)) 9 4 1
        vendorInteger
      ∧ ∃ out received,
        radVp2attr (vendorConfig 4 1 (by decide) (by decide))
            ⟨fun _ => 0, 0, 0⟩ {} none [] vendorInteger = some out
          ∧ radDecode (vendorConfig 4 1 (by decide) (by decide))
              { data := List.replicate 20 0 ++ out.bytes, vps := [] }
              none none = .ok (-1, received) :=
  ⟨⟨_, rfl, rfl⟩, vendorInteger_pair (Or.inr rfl) (by decide), _, _, rfl,
    rfl⟩

end WinRadius
