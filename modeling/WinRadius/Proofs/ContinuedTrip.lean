/-
A continued attribute there and back: what `rad_coalesce` and `rad_decode`
make of what `rad_vp2continuation` writes.

# The fragments

Both sides meet at `fragmentTlvs`: a value cut into portions, each in a
Vendor-Specific attribute of its own, with the continuation bit on all but
the last. The writer makes such a string of attributes, and the reader
joins every one, whatever follows it: `rad_coalesce` stops at the first
fragment without the bit.

# The number zero

`rad_coalesce` marks a fragment it has joined by clearing the number of its
sub-attribute, and the loop passes over the number zero of this vendor. So
the fragments behind the first give no pairs, and neither would an
attribute whose number is zero to begin with.
-/
import WinRadius.Proofs.Continuation
import WinRadius.Proofs.Provenance
import WinRadius.Proofs.VendorRoundTrip

namespace WinRadius

open Lib

-- ======== the fragments

/-- The vendor of the continued attributes. -/
def wimaxVendor : Nat := 0x60b5

/-- The part of a value that goes into one fragment. -/
structure Portion where
  bytes : List UInt8
  nonempty : bytes ≠ []
  fits : bytes.length ≤ 246

/-- A fragment: the vendor, the number, the inner length, which counts
everything from the number on, and the continuation byte. -/
def Portion.tlv (p : Portion) (number flag : UInt8) : Tlv where
  type := UInt8.ofNat pwVendorSpecific
  value := 0 :: 0 :: 0x60 :: 0xb5 :: number
    :: UInt8.ofNat (p.bytes.length + 3) :: flag :: p.bytes
  fits := by
    have := p.fits
    simp only [List.length_cons]
    omega

/-- The fragments of a value. -/
def fragmentTlvs (number : UInt8) : List Portion → List Tlv
  | [] => []
  | [p] => [p.tlv number 0]
  | p :: q :: ps => p.tlv number 0x80 :: fragmentTlvs number (q :: ps)

/-- What the portions hold. -/
def portionBytes (ps : List Portion) : List UInt8 := ps.flatMap (·.bytes)

section fragments

variable {number flag : UInt8} {p : Portion} {ps : List Portion}

theorem Portion.length_pos (p : Portion) : 0 < p.bytes.length :=
  List.length_pos_iff.mpr p.nonempty

theorem Portion.value_length :
    (p.tlv number flag).value.length = p.bytes.length + 7 := rfl

variable (number flag p) in
/-- A fragment byte by byte. -/
theorem Portion.tlv_bytes :
    (p.tlv number flag).bytes = 26 :: UInt8.ofNat (p.bytes.length + 9) :: 0
      :: 0 :: 0x60 :: 0xb5 :: number :: UInt8.ofNat (p.bytes.length + 3)
      :: flag :: p.bytes := rfl

/-- The outer length fits its byte. -/
theorem Portion.outerLen_toNat (p : Portion) :
    (UInt8.ofNat (p.bytes.length + 9)).toNat = p.bytes.length + 9 := by
  have := p.fits
  rw [UInt8.toNat_ofNat']
  omega

/-- The inner length fits its byte. -/
theorem Portion.innerLen_toNat (p : Portion) :
    (UInt8.ofNat (p.bytes.length + 3)).toNat = p.bytes.length + 3 := by
  have := p.fits
  rw [UInt8.toNat_ofNat']
  omega

theorem fragmentTlvs_cons (h : ps ≠ []) :
    fragmentTlvs number (p :: ps)
      = p.tlv number 0x80 :: fragmentTlvs number ps := by
  cases ps with
  | nil => exact absurd rfl h
  | cons q ps => rfl

theorem fragmentTlvs_length :
    (fragmentTlvs number ps).length = ps.length := by
  induction ps with
  | nil => rfl
  | cons p ps ih =>
      by_cases hnil : ps = []
      · subst hnil
        rfl
      · rw [fragmentTlvs_cons hnil, List.length_cons, List.length_cons, ih]

theorem portionBytes_cons :
    portionBytes (p :: ps) = p.bytes ++ portionBytes ps := rfl

/-- A value of more than one portion's size is cut. -/
theorem two_le_portions (h : 246 < (portionBytes ps).length) :
    2 ≤ ps.length := by
  cases ps with
  | nil => simp [portionBytes] at h
  | cons p ps =>
      cases ps with
      | nil =>
          have := p.fits
          simp [portionBytes] at h
          omega
      | cons q ps => simp

end fragments

-- ======== writing

/-- The header `rad_vp2attr` leaves for `rad_vp2continuation`. -/
def continuedHdr (number : UInt8) : List UInt8 :=
  [UInt8.ofNat pwVendorSpecific, 6, 0, 0, 0x60, 0xb5, number, 0]

section writing

variable {number : UInt8}

theorem contHeader_portion (p : Portion) (flag : UInt8) :
    contHeader (continuedHdr number) p.bytes.length ++ flag :: p.bytes
      = (p.tlv number flag).bytes := by
  have hout : 8 + p.bytes.length + 1 = p.bytes.length + 7 + 2 := by omega
  have hin : 8 - 6 + 1 + p.bytes.length = p.bytes.length + 3 := by omega
  show UInt8.ofNat pwVendorSpecific
      :: UInt8.ofNat (8 + p.bytes.length + 1) :: 0 :: 0 :: 0x60 :: 0xb5
      :: number :: UInt8.ofNat (8 - 6 + 1 + p.bytes.length) :: flag
      :: p.bytes = _
  rw [hout, hin]
  rfl

theorem contPieces_nil (hdr : List UInt8) (left : Nat) :
    contPieces hdr left [] = [] := by
  cases left with
  | zero => rfl
  | succ left => rw [contPieces, if_pos rfl]

variable (number) in
/-- The loop writes the fragments of its data. -/
theorem contPieces_portions {left : Nat} {data : List UInt8}
    (hne : data ≠ []) (hleft : data.length ≤ left) :
    ∃ ps, ps ≠ [] ∧ portionBytes ps = data
      ∧ contPieces (continuedHdr number) left data
        = wire (fragmentTlvs number ps) := by
  induction left generalizing data with
  | zero => exact absurd (List.length_eq_zero_iff.mp (by omega)) hne
  | succ left ih =>
      simp only [contPieces, if_neg hne]
      have hroom : 254 - (continuedHdr number).length = 246 := rfl
      rw [hroom]
      by_cases hlong : 246 < data.length
      · simp only [if_pos hlong]
        have htake : (data.take 246).length = 246 := by
          rw [List.length_take]
          omega
        have hdrop : data.drop 246 ≠ [] := by
          rw [ne_eq, ← List.length_eq_zero_iff, List.length_drop]
          omega
        obtain ⟨ps, hps, hbytes, hwire⟩ := ih hdrop
          (by rw [List.length_drop]; omega)
        obtain ⟨p, hp⟩ : ∃ p : Portion, p.bytes = data.take 246 :=
          ⟨⟨data.take 246, by
            rw [ne_eq, ← List.length_eq_zero_iff, htake]
            omega, by omega⟩, rfl⟩
        refine ⟨p :: ps, List.cons_ne_nil _ _, ?_, ?_⟩
        · rw [portionBytes_cons, hp, hbytes, List.take_append_drop]
        · rw [hwire, fragmentTlvs_cons hps, wire_cons,
            ← contHeader_portion, hp, htake]
      · simp only [if_neg hlong]
        refine ⟨[⟨data, hne, by omega⟩], List.cons_ne_nil _ _, ?_, ?_⟩
        · simp [portionBytes]
        · rw [List.take_length, List.drop_length, contPieces_nil,
            List.append_nil, fragmentTlvs, wire_singleton,
            ← contHeader_portion]

/-- The bytes of a value that `rad_vp2continuation` can send. -/
def continuedValue (vp : ValuePair) : Option (List UInt8) :=
  match vp.type with
  | .tlv => vp.tlv.filter fun bs => bs.length = vp.length
  | .octets | .string => some (vp.octets vp.length)
  | _ => none

variable {cfg : Config} {vp : ValuePair} {value : List UInt8}

theorem continuedValue_length (h : continuedValue vp = some value) :
    value.length = vp.length := by
  unfold continuedValue at h
  split at h
  · exact by simpa using (Option.filter_eq_some_iff.mp h).2
  · cases h
    exact padTake_length _ _
  · cases h
    exact padTake_length _ _
  · cases h

theorem radVp2continuation_value (henc : vp.flags.encrypt = .none)
    (h : continuedValue vp = some value) (hdr : List UInt8) :
    radVp2continuation vp hdr = contPieces hdr value.length value := by
  have hlen := continuedValue_length h
  unfold radVp2continuation
  rw [if_neg (not_not.mpr henc)]
  unfold continuedValue at h
  split at h
  · next ht =>
      obtain ⟨htlv, -⟩ := Option.filter_eq_some_iff.mp h
      simp only [ht, htlv, Option.getD_some, ← hlen, padTake_self]
  · next ht =>
      cases h
      simp only [ht, ValuePair.octets, padTake_length]
  · next ht =>
      cases h
      simp only [ht, ValuePair.octets, padTake_length]
  · cases h

/-- An attribute longer than one fragment is left to
`rad_vp2continuation`. -/
theorem radVp2attr_continued (r : Rand) (packet : RadiusPacket)
    (original : Option RadiusPacket) (secret : List UInt8)
    (hfmt : vendorFormat cfg.dict wimaxVendor = (1, 1, true))
    (hvendor : vendorOf vp.attr = wimaxVendor) (hlong : 246 < vp.length) :
    ∃ out, radVp2attr cfg r packet original secret vp = some out
      ∧ out.bytes = radVp2continuation vp
        (continuedHdr (UInt8.ofNat vp.attr)) := by
  have hne : ¬wimaxVendor = 0 := by decide
  refine ⟨⟨radVp2continuation vp (continuedHdr (UInt8.ofNat vp.attr)),
    max 8 (radVp2continuation vp
      (continuedHdr (UInt8.ofNat vp.attr))).length, r⟩, ?_, rfl⟩
  unfold radVp2attr
  rw [hvendor]
  simp only [if_neg hne, hfmt, typeField, lenField, Bool.true_and]
  rw [if_pos (decide_eq_true (by exact hlong))]
  rfl

/-- What is written of a continued attribute: its fragments. -/
theorem radVp2attr_portions (r : Rand) (packet : RadiusPacket)
    (original : Option RadiusPacket) (secret : List UInt8)
    (hfmt : vendorFormat cfg.dict wimaxVendor = (1, 1, true))
    (hvendor : vendorOf vp.attr = wimaxVendor)
    (henc : vp.flags.encrypt = .none)
    (hvalue : continuedValue vp = some value) (hlong : 246 < value.length) :
    ∃ out ps, radVp2attr cfg r packet original secret vp = some out
      ∧ out.bytes = wire (fragmentTlvs (UInt8.ofNat vp.attr) ps)
      ∧ portionBytes ps = value ∧ 2 ≤ ps.length := by
  have hlen := continuedValue_length hvalue
  obtain ⟨out, hout, hbytes⟩ := radVp2attr_continued r packet original
    secret hfmt hvendor (hlen ▸ hlong)
  have hne : value ≠ [] := by
    rintro rfl
    simp at hlong
  obtain ⟨ps, -, hps, hwire⟩ := contPieces_portions
    (UInt8.ofNat vp.attr) hne (Nat.le_refl _)
  refine ⟨out, ps, hout, ?_, hps, two_le_portions (hps ▸ hlong)⟩
  rw [hbytes, radVp2continuation_value henc hvalue, hwire]

end writing

-- ======== joining

section joining

variable {number flag : UInt8} {p : Portion} {ps : List Portion}
  {front rest more : List UInt8}

variable (number flag p more) in
/-- The tests of `rad_coalesce` take a fragment, all of its data. -/
theorem fragmentAt_portion :
    fragmentAt (vendorAttr wimaxVendor number.toNat)
        ((p.tlv number flag).bytes ++ more) 0
      = .ok (.take (p.bytes.length + 3) (decide (flag &&& 0x80 ≠ 0))) := by
  have hout := p.outerLen_toNat
  have hin := p.innerLen_toNat
  have h9 : ¬(UInt8.ofNat (p.bytes.length + 9)).toNat < 9 := by
    rw [hout]
    omega
  have h3 : ¬UInt8.ofNat (p.bytes.length + 3) < 3 := by
    rw [UInt8.lt_iff_toNat_lt, hin]
    simp
  obtain ⟨buf, hbuf⟩ : ∃ buf, buf = (p.tlv number flag).bytes ++ more :=
    ⟨_, rfl⟩
  rw [← hbuf]
  rw [Portion.tlv_bytes] at hbuf
  have hread := @fetch_drop buf _ 0 (le_refl 0) hbuf
  have h0 : fetch buf 0 = .ok 26 := hread 0 rfl
  have h1 : fetch buf (0 + 1)
      = .ok (UInt8.ofNat (p.bytes.length + 9)) := hread 1 rfl
  have h2 : fetch buf (0 + 2) = .ok 0 := hread 2 rfl
  have h3' : fetch buf (0 + 3) = .ok 0 := hread 3 rfl
  have h4 : fetchN buf (0 + 2) 4 = .ok [0, 0, 0x60, 0xb5] :=
    fetchN_drop buf [0, 0, 0x60, 0xb5]
      [26, UInt8.ofNat (p.bytes.length + 9)] _ (le_refl 0) (by omega) hbuf
  have h6 : fetch buf (0 + 6) = .ok number := hread 6 rfl
  have h7 : fetch buf (0 + 7)
      = .ok (UInt8.ofNat (p.bytes.length + 3)) := hread 7 rfl
  have h8 : fetch buf (0 + 8) = .ok flag := hread 8 rfl
  have hv : (ofBe32 [0, 0, 0x60, 0xb5]).toNat = wimaxVendor := by decide
  have h26 : ¬(26 : UInt8).toNat ≠ pwVendorSpecific := by decide
  have hz : ¬(0 : UInt8) ≠ 0 := by decide
  have hnum : ¬((ofBe32 [0, 0, 0x60, 0xb5]).toNat <<< 16) % 4294967296
      ||| number.toNat ≠ vendorAttr wimaxVendor number.toNat := by
    rw [hv, vendorAttr]
    exact fun h => h rfl
  unfold fragmentAt
  rw [h0, ok_bind, if_neg h26, h1, ok_bind, if_neg h9, h2, ok_bind,
    if_neg hz, h3', ok_bind, if_neg hz, h4, ok_bind, h6, ok_bind,
    if_neg hnum, h7, ok_bind, if_neg h3, h8, ok_bind, hin]
  rfl

variable (number p) in
/-- A fragment that stands at `front` in the buffer. -/
theorem fragmentAt_front {buf : List UInt8}
    (hbuf : buf = front ++ ((p.tlv number flag).bytes ++ more)) :
    fragmentAt (vendorAttr wimaxVendor number.toNat) buf front.length
      = .ok (.take (p.bytes.length + 3) (decide (flag &&& 0x80 ≠ 0))) := by
  have hle : (front.length : Int) ≤ buf.length := by
    rw [hbuf, List.length_append]
    omega
  rw [fragmentAt_shift (by omega) hle, Int.toNat_natCast, hbuf,
    List.drop_left, fragmentAt_portion]

variable (number flag p more) in
/-- What the walks copy of a fragment. -/
theorem portion_piece :
    (((p.tlv number flag).bytes ++ more).drop 9).take
      (p.bytes.length + 3 - 3) = p.bytes := by
  rw [Portion.tlv_bytes, Nat.add_sub_cancel]
  exact List.take_left

variable (number flag p more) in
theorem portion_inside :
    6 + (p.bytes.length + 3)
      ≤ ((p.tlv number flag).bytes ++ more).length := by
  rw [List.length_append, Tlv.bytes_length, Portion.value_length]
  omega

variable (number) in
/-- The walk that adds up takes the fragments, and nothing behind them. -/
theorem joins_portions (rest : List UInt8) (hps : ps ≠ []) :
    Joins (vendorAttr wimaxVendor number.toNat)
      (wire (fragmentTlvs number ps) ++ rest) (portionBytes ps) := by
  induction ps with
  | nil => exact absurd rfl hps
  | cons p ps ih =>
      by_cases hnil : ps = []
      · subst hnil
        have hjoin := Joins.last (fragmentAt_portion number 0 p rest)
          (portion_inside number 0 p rest)
        rw [portion_piece] at hjoin
        rw [fragmentTlvs, wire_singleton, portionBytes_cons]
        simpa [portionBytes] using hjoin
      · rw [fragmentTlvs_cons hnil, wire_cons, List.append_assoc,
          portionBytes_cons]
        have hout := p.outerLen_toNat
        have hle := portion_inside number 0x80 p
          (wire (fragmentTlvs number ps) ++ rest)
        have hdrop : ((p.tlv number 0x80).bytes
            ++ (wire (fragmentTlvs number ps) ++ rest)).drop
              (UInt8.ofNat (p.bytes.length + 9)).toNat
            = wire (fragmentTlvs number ps) ++ rest := by
          rw [hout]
          exact List.drop_left
        have hbyte : ((p.tlv number 0x80).bytes
            ++ (wire (fragmentTlvs number ps) ++ rest))[1]?
            = some (UInt8.ofNat (p.bytes.length + 9)) := rfl
        have hjoin := Joins.more (fragmentAt_portion number 0x80 p
          (wire (fragmentTlvs number ps) ++ rest)) hle hbyte
          (by rw [hout]; omega) (by rw [hdrop]; exact ih hnil)
        rwa [portion_piece] at hjoin

/-- The number of a fragment is cleared, and nothing else. -/
theorem overlay_number {buf : List UInt8}
    (hbuf : buf = front ++ ((p.tlv number flag).bytes ++ more)) :
    overlay buf ((front.length : Int) + 6).toNat [0]
      = front ++ ((p.tlv 0 flag).bytes ++ more) := by
  have h := overlay_append_mid
    (x := front ++ [26, UInt8.ofNat (p.bytes.length + 9), 0, 0, 0x60, 0xb5])
    (y := UInt8.ofNat (p.bytes.length + 3) :: flag :: (p.bytes ++ more))
    [number] [0] rfl
  have hpos : ((front.length : Int) + 6).toNat = (front
      ++ [26, UInt8.ofNat (p.bytes.length + 9), 0, 0, 0x60, 0xb5]).length := by
    simp only [List.length_append, List.length_cons, List.length_nil]
    omega
  rw [hbuf, hpos, Portion.tlv_bytes, Portion.tlv_bytes]
  simpa only [List.append_assoc, List.cons_append, List.nil_append] using h

/-- The walk that copies collects the portions and clears the number of
every fragment. -/
theorem coalesceCopy_portions {fuel : Nat} {buf : List UInt8}
    (hps : ps ≠ []) (hfuel : ps.length ≤ fuel)
    (hbuf : buf = front ++ (wire (fragmentTlvs number ps) ++ rest)) :
    coalesceCopy (vendorAttr wimaxVendor number.toNat) buf.length fuel buf
        front.length
      = .ok (portionBytes ps,
        front ++ (wire (fragmentTlvs 0 ps) ++ rest)) := by
  induction ps generalizing fuel buf front with
  | nil => exact absurd rfl hps
  | cons p ps ih =>
      obtain ⟨fuel, rfl⟩ := Nat.exists_eq_succ_of_ne_zero (n := fuel)
        (by simp only [List.length_cons] at hfuel; omega)
      -- one fragment, with its flag and what is behind it
      have hcopy {flag : UInt8} {more : List UInt8}
          (hb : buf = front ++ ((p.tlv number flag).bytes ++ more)) :
          ¬(front.length : Int) = buf.length
            ∧ fetchN buf (front.length + 9) ((p.bytes.length + 3 : Nat) - 3)
              = .ok p.bytes := by
        have hin := portion_inside number flag p more
        have hlen := congrArg List.length hb
        rw [List.length_append] at hlen
        refine ⟨by omega, ?_⟩
        have hrest : buf.drop (front.length : Int).toNat
            = (p.tlv number flag).bytes ++ more := by
          rw [Int.toNat_natCast, hb, List.drop_left]
        have hpiece := (fetchN_piece (by omega) (by omega) hrest
          (by omega)).mpr hin
        rwa [portion_piece] at hpiece
      by_cases hnil : ps = []
      · subst hnil
        rw [fragmentTlvs, wire_singleton] at hbuf ⊢
        obtain ⟨hne, hpiece⟩ := hcopy hbuf
        have hflag : decide ((0 : UInt8) &&& 0x80 ≠ 0) = false := by decide
        have hfrag := fragmentAt_front number p hbuf
        rw [hflag] at hfrag
        rw [coalesceCopy, if_neg hne, hfrag, ok_bind]
        simp only [hpiece, ok_bind, pure_eq_ok, overlay_number hbuf]
        simp [portionBytes]
      · rw [fragmentTlvs_cons hnil, wire_cons, List.append_assoc] at hbuf
        rw [fragmentTlvs_cons hnil, wire_cons, List.append_assoc]
        obtain ⟨hne, hpiece⟩ := hcopy hbuf
        have hflag : decide ((0x80 : UInt8) &&& 0x80 ≠ 0) = true := by
          decide
        have hfrag := fragmentAt_front number p hbuf
        rw [hflag] at hfrag
        have hzero := overlay_number hbuf
        have hlen : (front ++ (p.tlv 0 0x80).bytes).length
            = front.length + (UInt8.ofNat (p.bytes.length + 9)).toNat := by
          rw [p.outerLen_toNat, List.length_append]
          rfl
        have hbl : (front ++ ((p.tlv 0 0x80).bytes
            ++ (wire (fragmentTlvs number ps) ++ rest))).length
            = buf.length := by
          rw [hbuf]
          simp only [List.length_append, Tlv.bytes_length,
            Portion.value_length]
        have hread : fetch (front ++ ((p.tlv 0 0x80).bytes
            ++ (wire (fragmentTlvs number ps) ++ rest))) (front.length + 1)
            = .ok (UInt8.ofNat (p.bytes.length + 9)) :=
          fetch_drop (by omega) (by
            rw [Int.toNat_natCast, List.drop_left]) 1 rfl
        have hleft : ps.length ≤ fuel := by
          simp only [List.length_cons] at hfuel
          omega
        have hrec := ih hnil hleft (List.append_assoc front
          (p.tlv 0 0x80).bytes
          (wire (fragmentTlvs number ps) ++ rest)).symm
        rw [hlen, hbl] at hrec
        push_cast at hrec
        rw [coalesceCopy, if_neg hne, hfrag, ok_bind]
        simp only [hpiece, ok_bind, hzero, hread, hrec, pure_eq_ok,
          portionBytes_cons, List.append_assoc]

/-- `rad_coalesce`, called for the first fragment. -/
theorem radCoalesce_portions (cfg : Config) {buf : List UInt8} {n : Int}
    (hps : ps ≠ [])
    (hbuf : buf = front ++ ((p.tlv number 0x80).bytes
      ++ (wire (fragmentTlvs number ps) ++ rest)))
    (hn : (front.length : Int) + 9 + n = buf.length) :
    radCoalesce cfg (vendorAttr wimaxVendor number.toNat) p.bytes.length buf
        (front.length + 9) n
      = .ok (p.bytes ++ portionBytes ps,
        front ++ ((p.tlv number 0x80).bytes
          ++ (wire (fragmentTlvs 0 ps) ++ rest))) := by
  have hb : buf = (front ++ (p.tlv number 0x80).bytes)
      ++ (wire (fragmentTlvs number ps) ++ rest) := by
    rw [hbuf, List.append_assoc]
  have hpos : (front.length : Int) + 9 + p.bytes.length
      = ((front ++ (p.tlv number 0x80).bytes).length : Nat) := by
    rw [List.length_append, Tlv.bytes_length, Portion.value_length]
    push_cast
    omega
  have hlen := congrArg List.length hb
  rw [List.length_append] at hlen
  have hle : ((front ++ (p.tlv number 0x80).bytes).length : Int)
      ≤ buf.length := by omega
  have hadd := (joins_portions number rest hps).coalesceLength (buf.length + 1) (by omega) hle
    (by rw [Int.toNat_natCast, hb, List.drop_left]) (by omega)
  have hcount : ps.length ≤ buf.length + 1 := by
    have hmany := two_mul_length_le_wire (fragmentTlvs number ps)
    rw [fragmentTlvs_length] at hmany
    simp only [List.length_append] at hlen
    omega
  have hcopy := coalesceCopy_portions hps hcount hb
  have hfirst : fetchN buf (front.length + 9) p.bytes.length
      = .ok p.bytes := by
    refine fetchN_drop buf p.bytes (26 :: UInt8.ofNat (p.bytes.length + 9)
      :: 0 :: 0 :: 0x60 :: 0xb5 :: number
      :: UInt8.ofNat (p.bytes.length + 3) :: [0x80])
      (wire (fragmentTlvs number ps) ++ rest) (by omega) (by omega) ?_
    rw [Int.toNat_natCast, hbuf, List.drop_left, Portion.tlv_bytes]
    simp only [List.cons_append, List.nil_append]
  unfold radCoalesce
  simp only [hn, hpos, hadd, hfirst, hcopy, ok_bind, pure_eq_ok]
  rw [List.take_left' (by rw [List.length_append]), List.append_assoc]

end joining

-- ======== one iteration

/-- The loop of `rad_decode` stands before the last bytes of the packet,
at the start of an attribute. -/
structure LoopAt (s : DecState) (front bytes : List UInt8) : Prop where
  buf : s.buf = front ++ bytes
  ptr : s.ptr = front.length
  left : s.packetLength = bytes.length
  code : s.vendorcode = 0

/-- The loop at the data of a fragment. -/
def DecState.atPortion (s : DecState) : DecState :=
  { s with
    ptr := s.ptr + 9
    packetLength := s.packetLength - 9
    vendorcode := 0
    vendorlen := 0
    vsaTlen := 1
    vsaLlen := 1
    vsaOffset := 1 }

section iteration

variable {ctx : DecCtx} {s : DecState} {number flag : UInt8} {p : Portion}
  {front more : List UInt8}

/-- The sweep finds the one sub-attribute of a fragment. -/
theorem sweep_portion {buf : List UInt8} {q : Int} (fuel : Nat)
    (h0 : 0 ≤ q) (hflag : flag &&& 0x7f = 0)
    (hbuf : buf.drop q.toNat = number :: UInt8.ofNat (p.bytes.length + 3)
      :: flag :: (p.bytes ++ more)) :
    sweep buf 1 1 1 (fuel + 1) q (p.bytes.length + 3 : Nat)
      = .ok .fits := by
  have hin := p.innerLen_toNat
  have hnum : fetch buf q = .ok number := by
    have := fetch_drop h0 hbuf 0 (b := number) rfl
    simpa using this
  have hlen : fetch buf (q + (1 : Nat))
      = .ok (UInt8.ofNat (p.bytes.length + 3)) := fetch_drop h0 hbuf 1 rfl
  have hcont : fetch buf (q + (1 : Nat) + (1 : Nat)) = .ok flag := by
    have := fetch_drop h0 hbuf 2 (b := flag) rfl
    rw [← this]
    congr 1
    omega
  have hsweep : sweepLength buf 1 1 1 q (p.bytes.length + 3 : Nat)
      = .ok (some (p.bytes.length + 3)) := by
    simp only [sweepLength, hlen, ok_bind, hin, hcont]
    rw [if_neg (by omega), if_neg (by omega), if_pos (by decide),
      if_neg (not_not.mpr hflag)]
    rfl
  rw [sweep, if_neg (by push_cast; omega)]
  simp only [sweepNumber, hnum, ok_bind, pure_eq_ok]
  rw [if_neg (by decide), hsweep, ok_bind]
  simp

/-- The header of a fragment leads to its sub-attribute. -/
theorem stepKind_subs
    (hfmt : vendorFormat ctx.cfg.dict wimaxVendor = (1, 1, true))
    (hflag : flag &&& 0x7f = 0)
    (h : LoopAt s front ((p.tlv number flag).bytes ++ more)) :
    stepKind ctx s = subKind ctx { s with
      ptr := s.ptr + 6
      packetLength := s.packetLength - 6
      vendorcode := wimaxVendor
      vendorlen := (p.bytes.length + 3 : Nat)
      vsaTlen := 1
      vsaLlen := 1
      vsaOffset := 1 } := by
  have h0 : 0 ≤ s.ptr := by
    rw [h.ptr]
    omega
  have hbuf : s.buf.drop s.ptr.toNat
      = (p.tlv number flag).bytes ++ more := by
    rw [h.ptr, Int.toNat_natCast, h.buf, List.drop_left]
  have hsub : s.buf.drop (s.ptr + 2 + 4).toNat = number
      :: UInt8.ofNat (p.bytes.length + 3) :: flag :: (p.bytes ++ more) := by
    rw [show (s.ptr + 2 + 4).toNat = s.ptr.toNat + 6 by omega,
      ← List.drop_drop, hbuf, Portion.tlv_bytes]
    rfl
  have hlen := congrArg List.length hbuf
  rw [List.length_drop, Portion.tlv_bytes] at hlen
  simp only [List.length_append, List.length_cons] at hlen
  have hid : fetchN s.buf (s.ptr + 2) 4 = .ok [0, 0, 0x60, 0xb5] :=
    fetchN_drop s.buf [0, 0, 0x60, 0xb5]
      [26, UInt8.ofNat (p.bytes.length + 9)] _ h0 (by omega) hbuf
  have hvendor : signedVendor [0, 0, 0x60, 0xb5] = wimaxVendor := by
    decide
  have hbits : vendorBits wimaxVendor = wimaxVendor := by decide
  have hsweep := sweep_portion
    ((((p.tlv number flag).value.length : Nat) : Int).toNat) (by omega)
    hflag hsub
  have hvalue : (((p.tlv number flag).value.length : Nat) : Int) - 4
      = (p.bytes.length + 3 : Nat) := by
    rw [Portion.value_length]
    push_cast
    omega
  rw [stepKind_vsa ctx h.code h0 hbuf h.left rfl
    (by rw [Portion.value_length]; omega)]
  unfold vendorSpecific vsaKind
  rw [hid, ok_bind, hvendor]
  simp only
  rw [if_neg (by decide), if_neg (by decide), hfmt]
  simp only [if_true, hvalue, hsweep, ok_bind, pure_eq_ok, hbits]
  have h6 : s.ptr + 2 + 4 = s.ptr + 6 := by omega
  have h6' : s.packetLength - 2 - 4 = s.packetLength - 6 := by omega
  rw [h6, h6']

theorem vendorAttr_wimax {n : Nat} (h : n < 65536) :
    vendorAttr wimaxVendor n = 0x60b50000 + n := by
  have hshift : (wimaxVendor <<< 16) % 4294967296 = wimaxVendor <<< 16 := by
    decide
  have hval : wimaxVendor <<< 16 = 0x60b50000 := by decide
  rw [vendorAttr, hshift, ← Nat.shiftLeft_add_eq_or_of_lt (by omega), hval]

/-- The switches behind the sweep at a fragment. -/
theorem subHeader_portion (h0 : 0 ≤ s.ptr) (ht : s.vsaTlen = 1)
    (hl : s.vsaLlen = 1) (ho : s.vsaOffset = 1)
    (hbuf : s.buf.drop s.ptr.toNat = number
      :: UInt8.ofNat (p.bytes.length + 3) :: flag :: (p.bytes ++ more)) :
    subHeader s = .ok (some (number.toNat, p.bytes.length)) := by
  have hnum : fetch s.buf s.ptr = .ok number := by
    have := fetch_drop h0 hbuf 0 (b := number) rfl
    simpa using this
  have hlen : fetch s.buf (s.ptr + (1 : Nat))
      = .ok (UInt8.ofNat (p.bytes.length + 3)) := fetch_drop h0 hbuf 1 rfl
  have hlen' : (((p.bytes.length + 3 : Nat) : Int)
      - ((1 : Nat) + (1 : Nat) + (1 : Nat))) = p.bytes.length := by
    push_cast
    omega
  simp only [subHeader, subNumber, subLength, ht, hl, ho, hnum, hlen,
    ok_bind, pure_eq_ok, p.innerLen_toNat, hlen']

/-- The state past the header of a fragment. -/
theorem pastSubHeader_portion :
    pastSubHeader { s with
        ptr := s.ptr + 6
        packetLength := s.packetLength - 6
        vendorcode := wimaxVendor
        vendorlen := (p.bytes.length + 3 : Nat)
        vsaTlen := 1
        vsaLlen := 1
        vsaOffset := 1 } p.bytes.length = s.atPortion := by
  have hz : ((p.bytes.length + 3 : Nat) : Int)
      - ((1 : Nat) + (1 : Nat) + (1 : Nat) + p.bytes.length) = 0 := by
    push_cast
    omega
  have h9 : s.ptr + 6 + ((1 : Nat) + (1 : Nat) + (1 : Nat)) = s.ptr + 9 := by
    omega
  have h9' : s.packetLength - 6 - ((1 : Nat) + (1 : Nat) + (1 : Nat))
      = s.packetLength - 9 := by omega
  simp only [pastSubHeader, DecState.atPortion, hz, h9, h9', if_true]

/-- What `subKind` finds at a fragment: the sub-attribute, from its number
on, and the rest of the packet. -/
theorem portion_behind
    (h : LoopAt s front ((p.tlv number flag).bytes ++ more)) :
    0 ≤ s.ptr + 6 ∧ s.buf.drop (s.ptr + 6).toNat = number
      :: UInt8.ofNat (p.bytes.length + 3) :: flag
      :: (p.bytes ++ more) := by
  have hptr := h.ptr
  refine ⟨by omega, ?_⟩
  rw [show (s.ptr + 6).toNat = front.length + 6 by omega,
    ← List.drop_drop, h.buf, List.drop_left, Portion.tlv_bytes]
  rfl

/-- The iteration at the first fragment of an attribute. -/
theorem stepKind_portion
    (hfmt : vendorFormat ctx.cfg.dict wimaxVendor = (1, 1, true))
    (hnum : number ≠ 0)
    (h : LoopAt s front ((p.tlv number 0x80).bytes ++ more)) :
    stepKind ctx s = .ok (.cont ⟨s.atPortion,
      vendorAttr wimaxVendor number.toNat, p.bytes.length, true,
      ctx.cfg.dict.attrbyvalue (vendorAttr wimaxVendor number.toNat)⟩) := by
  obtain ⟨h0, hbuf⟩ := portion_behind h
  have hpos := p.length_pos
  have hlt := number.toNat_lt
  have hwimax : ¬vendorAttr wimaxVendor number.toNat = 0x60b50000 := by
    rw [vendorAttr_wimax (by omega)]
    intro hz
    exact hnum (UInt8.toNat_inj.mp (by
      rw [UInt8.toNat_zero]
      omega))
  have hcont : fetch s.atPortion.buf (s.ptr + 6 + 2) = .ok 0x80 :=
    fetch_drop h0 hbuf 2 rfl
  have hflag : decide ((0x80 : UInt8) &&& 0x80 ≠ 0) = true := by decide
  rw [stepKind_subs hfmt (by decide) h]
  unfold subKind
  rw [subHeader_portion h0 rfl rfl rfl hbuf, ok_bind]
  simp only [pastSubHeader_portion]
  rw [if_neg (by omega), if_neg hwimax, if_pos (by exact one_ne_zero),
    hcont, ok_bind, hflag]
  rfl

/-- The iteration at a fragment whose number is zero. -/
theorem stepKind_cleared
    (hfmt : vendorFormat ctx.cfg.dict wimaxVendor = (1, 1, true))
    (hflag : flag &&& 0x7f = 0)
    (h : LoopAt s front ((p.tlv 0 flag).bytes ++ more)) :
    stepKind ctx s = .ok (.skip s.atPortion p.bytes.length) := by
  obtain ⟨h0, hbuf⟩ := portion_behind h
  have hpos := p.length_pos
  have hwimax : vendorAttr wimaxVendor (0 : UInt8).toNat = 0x60b50000 := by
    decide
  rw [stepKind_subs hfmt hflag h]
  unfold subKind
  rw [subHeader_portion h0 rfl rfl rfl hbuf, ok_bind]
  simp only [pastSubHeader_portion]
  rw [if_neg (by omega), if_pos hwimax]
  rfl

/-- Behind a fragment; what follows may have been written to. -/
theorem LoopAt.past {s' : DecState} {front' more' : List UInt8}
    (h : LoopAt s front ((p.tlv number flag).bytes ++ more))
    (hbuf : s'.buf = front' ++ more') (hmore : more'.length = more.length)
    (hfront : front'.length = front.length + (p.bytes.length + 9))
    (hptr : s'.ptr = s.atPortion.ptr + p.bytes.length)
    (hleft : s'.packetLength = s.atPortion.packetLength - p.bytes.length)
    (hcode : s'.vendorcode = 0) : LoopAt s' front' more' := by
  have hp := h.ptr
  have hl := h.left
  rw [List.length_append, Tlv.bytes_length, Portion.value_length] at hl
  simp only [DecState.atPortion] at hptr hleft
  exact ⟨hbuf, by omega, by omega, hcode⟩

theorem LoopAt.goes (h : LoopAt s front ((p.tlv number flag).bytes ++ more)) :
    0 < s.packetLength := by
  have hl := h.left
  rw [List.length_append, Tlv.bytes_length] at hl
  omega

theorem exists_flag (number : UInt8) (p : Portion) (ps : List Portion) :
    ∃ flag : UInt8, flag &&& 0x7f = 0
      ∧ fragmentTlvs number (p :: ps)
        = p.tlv number flag :: fragmentTlvs number ps := by
  cases ps with
  | nil => exact ⟨0, rfl, rfl⟩
  | cons q ps => exact ⟨0x80, rfl, rfl⟩

/-- The loop passes over the fragments of the number zero. -/
theorem passes_cleared
    (hfmt : vendorFormat ctx.cfg.dict wimaxVendor = (1, 1, true))
    (ps : List Portion) {rest : List UInt8}
    (h : LoopAt s front (wire (fragmentTlvs 0 ps) ++ rest)) :
    ∃ s' front', Reaches (DecGoes ctx) s s' ∧ LoopAt s' front' rest
      ∧ s'.vps = s.vps := by
  induction ps generalizing s front with
  | nil => exact ⟨s, front, .refl, h, rfl⟩
  | cons p ps ih =>
      obtain ⟨flag, hflag, hcons⟩ := exists_flag 0 p ps
      rw [hcons, wire_cons, List.append_assoc] at h
      have hkind := stepKind_cleared hfmt hflag h
      obtain ⟨s1, hs1⟩ : ∃ s1, s1 = { s.atPortion with
          ptr := s.atPortion.ptr + p.bytes.length
          packetLength := s.atPortion.packetLength - p.bytes.length } :=
        ⟨_, rfl⟩
      have hgo : DecGoes ctx s s1 := by
        refine ⟨h.goes, ?_⟩
        rw [decodeStep, hkind, hs1]
        rfl
      have hnext : LoopAt s1 (front ++ (p.tlv 0 flag).bytes)
          (wire (fragmentTlvs 0 ps) ++ rest) := by
        refine h.past ?_ rfl ?_ (by rw [hs1]) (by rw [hs1]) (by rw [hs1]; rfl)
        · rw [hs1, List.append_assoc]
          exact h.buf
        · rw [List.length_append]
          rfl
      have hsame : s1.vps = s.vps := by
        rw [hs1]
        rfl
      obtain ⟨s', front', hrun, hat, hvps⟩ := ih hnext
      exact ⟨s', front', hrun.head hgo, hat, hvps.trans hsame⟩

end iteration

-- ======== the pairs

/-- What loading a dictionary makes sure of for the attributes of this
vendor. -/
structure WimaxDict (cfg : Config) : Prop where
  format : vendorFormat cfg.dict wimaxVendor = (1, 1, true)
  /-- `dict_addattr` refuses a TLV with a tag or encryption -/
  tlvs : ∀ n da, vendorOf n = wimaxVendor →
    cfg.dict.attrbyvalue n = some da → da.type = .tlv →
    da.flags.hasTag = false ∧ da.flags.encrypt = .none
  /-- and a sub-TLV; no other number is above 255 -/
  subTlvs : ∀ n da, vendorOf n = wimaxVendor → 256 ≤ n % 65536 →
    cfg.dict.attrbyvalue n = some da →
    da.flags.hasTag = false ∧ da.flags.encrypt = .none
  /-- the names of unknown attributes fit -/
  named : ∀ n, vendorOf n = wimaxVendor ∨ n < 256 →
    cfg.vpPrintName n = true

/-- The attribute is a TLV in the dictionary. -/
def TlvAttr (cfg : Config) (attr : Nat) : Prop :=
  (cfg.dict.attrbyvalue attr).map (·.type) = some .tlv

/-- The pair made of a sub-TLV: a fresh one under the sub-TLV's full
number, with the value read by its type. -/
def PairOfSub (cfg : Config) (attr : Nat) (a : Tlv) (v : ValuePair) :
    Prop :=
  ∃ vp, paircreate cfg (attr ||| a.type.toNat <<< 8) .octets = some vp
    ∧ plainPair cfg a.type.toNat a.value vp = some v

/-- The one pair made of a value that is not taken apart. -/
structure PairOfWhole (attr : Nat) (value : List UInt8) (v : ValuePair) :
    Prop where
  attr : v.attr = attr
  type : v.type = .tlv
  length : v.length = value.length
  bytes : v.tlv = some value

/-- The pairs of a continued attribute: one for each sub-TLV of a
well-formed TLV, in some order, and one for anything else. -/
structure PairsOf (cfg : Config) (attr : Nat) (value : List UInt8)
    (pairs : List ValuePair) : Prop where
  subs : ∀ subs, TlvAttr cfg attr → value = wire subs →
    ∃ made, List.Forall₂ (PairOfSub cfg attr) subs made
      ∧ pairs.Perm made
  whole : ¬(TlvAttr cfg attr ∧ ∃ subs, value = wire subs) →
    ∃ v, pairs = [v] ∧ PairOfWhole attr value v

section pairs

variable {cfg : Config} {attr : Nat} {ctx : DecCtx}

/-- A pair that the dictionary gives neither a tag nor encryption. -/
theorem fresh_plain {vp : ValuePair}
    (hknown : ∀ da, cfg.dict.attrbyvalue attr = some da →
      da.flags.hasTag = false ∧ da.flags.encrypt = .none)
    (h : paircreate cfg attr .octets = some vp) :
    vp.flags.hasTag = false ∧ vp.flags.encrypt = .none := by
  obtain ⟨htag, henc⟩ := paircreate_flags h
  rw [htag, henc]
  unfold startFlags
  cases hda : cfg.dict.attrbyvalue attr with
  | some da => exact hknown da hda
  | none => exact ⟨rfl, rfl⟩

/-- Plain bytes always give a pair, where the raw name fits. -/
theorem plainPair_isSome {n : Nat} (bytes : List UInt8) (vp : ValuePair)
    (hname : cfg.vpPrintName n = true) :
    ∃ v, plainPair cfg n bytes vp = some v := by
  unfold plainPair typedOrRaw
  rw [Option.bind_some]
  cases typedVp cfg bytes (vp.filled bytes) with
  | some v => exact ⟨v, rfl⟩
  | none =>
      simp only [rawPair, paircreateRaw, pairalloc, Bool.not_true,
        Bool.false_eq_true, if_false, hname, if_true, Option.map_some]
      exact ⟨_, rfl⟩

/-- The full number of a sub-TLV is the vendor's, and that of the
attribute itself or one above 255. -/
theorem subNumber_cases (n : UInt8) (hv : vendorOf attr = wimaxVendor) :
    vendorOf (attr ||| n.toNat <<< 8) = wimaxVendor
      ∧ (attr ||| n.toNat <<< 8 = attr
        ∨ 256 ≤ (attr ||| n.toNat <<< 8) % 65536) := by
  have hn := n.toNat_lt
  have hshift : n.toNat <<< 8 = n.toNat * 256 := Nat.shiftLeft_eq _ _
  refine ⟨by rw [vendorOf_or (by omega), hv], ?_⟩
  by_cases hz : n.toNat = 0
  · left
    rw [hz, Nat.zero_shiftLeft, Nat.or_zero]
  · right
    have hmod : (attr ||| n.toNat <<< 8) % 2 ^ 16
        = attr % 2 ^ 16 ||| (n.toNat <<< 8) % 2 ^ 16 :=
      Nat.or_mod_two_pow
    have hle : n.toNat <<< 8 ≤ attr % 2 ^ 16 ||| n.toNat <<< 8 :=
      Nat.right_le_or
    rw [Nat.mod_eq_of_lt (by omega : n.toNat <<< 8 < 2 ^ 16)] at hmod
    omega

/-- Each sub-TLV gives its pair. -/
theorem pairOfSub_exists (h : WimaxDict cfg)
    (hv : vendorOf attr = wimaxVendor) (htlv : TlvAttr cfg attr) (a : Tlv) :
    ∃ vp v, paircreate cfg (attr ||| a.type.toNat <<< 8) .octets = some vp
      ∧ vp.flags.hasTag = false ∧ vp.flags.encrypt = .none
      ∧ plainPair cfg a.type.toNat a.value vp = some v := by
  obtain ⟨hvendor, hcases⟩ := subNumber_cases a.type hv
  have hlt := a.type.toNat_lt
  obtain ⟨vp, hvp⟩ := paircreate_isSome .octets
    (h.named _ (Or.inl hvendor))
  have hplain : ∀ da,
      cfg.dict.attrbyvalue (attr ||| a.type.toNat <<< 8) = some da →
      da.flags.hasTag = false ∧ da.flags.encrypt = .none := by
    intro da hda
    rcases hcases with hown | hsub
    · rw [hown] at hda
      refine h.tlvs attr da hv hda ?_
      unfold TlvAttr at htlv
      rw [hda] at htlv
      simpa using htlv
    · exact h.subTlvs _ da hvendor hsub hda
  obtain ⟨htag, henc⟩ := fresh_plain hplain hvp
  obtain ⟨v, hpair⟩ := plainPair_isSome a.value vp
    (h.named a.type.toNat (Or.inr (by omega)))
  exact ⟨vp, v, hvp, htag, henc, hpair⟩

/-- The second walk over a TLV makes one pair of each sub-TLV. -/
theorem subTlvs_pairs {buf after : List UInt8} {q : Int} {fuel : Nat}
    (subs : List Tlv) (h : WimaxDict ctx.cfg)
    (hv : vendorOf attr = wimaxVendor) (htlv : TlvAttr ctx.cfg attr)
    (h0 : 0 ≤ q) (hq : q ≤ buf.length)
    (hbuf : buf.drop q.toNat = wire subs ++ after)
    (hfuel : (wire subs).length < fuel) :
    ∃ made, subTlvs ctx attr buf fuel q (wire subs).length
        = .ok (some made)
      ∧ List.Forall₂ (PairOfSub ctx.cfg attr) subs made := by
  induction subs generalizing q fuel with
  | nil =>
      obtain ⟨fuel, rfl⟩ := Nat.exists_eq_succ_of_ne_zero (n := fuel)
        (by omega)
      exact ⟨[], rfl, .nil⟩
  | cons a subs ih =>
      obtain ⟨fuel, rfl⟩ := Nat.exists_eq_succ_of_ne_zero (n := fuel)
        (by omega)
      obtain ⟨vp, v, hvp, htag, henc, hpair⟩ := pairOfSub_exists h hv
        htlv a
      rw [wire_cons, List.append_assoc] at hbuf
      have hlen := congrArg List.length hbuf
      simp only [List.length_drop, List.length_append,
        Tlv.bytes_length] at hlen
      rw [wire_cons, List.length_append, Tlv.bytes_length] at hfuel
      have htype : fetch buf q = .ok a.type := by
        have := fetch_drop h0 hbuf 0 (b := a.type) rfl
        simpa using this
      have hbyte : fetch buf (q + 1)
          = .ok (UInt8.ofNat (a.value.length + 2)) :=
        fetch_drop h0 hbuf 1 rfl
      have hvalue : fetchN buf (q + 2) a.value.length = .ok a.value :=
        fetchN_drop buf a.value [a.type, UInt8.ofNat (a.value.length + 2)]
          (wire subs ++ after) h0 hq hbuf
      have hdata : data2vp ctx a.type.toNat a.value.length buf (q + 2) vp
          = .ok (plainPair ctx.cfg a.type.toNat a.value vp) :=
        data2vp_plain a.fits htag henc hvalue
      have hnext : buf.drop (q + (a.value.length + 2 : Nat)).toNat
          = wire subs ++ after := by
        rw [show (q + (a.value.length + 2 : Nat)).toNat
          = q.toNat + a.bytes.length by
            rw [Tlv.bytes_length]
            omega, ← List.drop_drop, hbuf, List.drop_left]
      have hshort : (wire subs).length < fuel := by omega
      obtain ⟨made, hmade, hall⟩ := ih (by omega) (by omega) hnext hshort
      have hleft : (wire (a :: subs)).length - (a.value.length + 2)
          = (wire subs).length := by
        rw [wire_cons, List.length_append, Tlv.bytes_length]
        omega
      have hne : ¬(wire (a :: subs)).length = 0 := by
        rw [wire_cons, List.length_append, Tlv.bytes_length]
        omega
      have hval : ((a.value.length + 2 : Nat) : Int) - 2
          = a.value.length := by
        push_cast
        omega
      refine ⟨v :: made, ?_, .cons ⟨vp, hvp, hpair⟩ hall⟩
      rw [subTlvs, if_neg hne]
      simp only [htype, hbyte, ok_bind, hvp, a.lenByte_toNat, hval, hdata,
        hpair, hleft, hmade, pure_eq_ok]

theorem wholeTlv_pair (value : List UInt8)
    (hname : cfg.vpPrintName attr = true) :
    ∃ v, wholeTlv cfg attr value = [v] ∧ PairOfWhole attr value v := by
  obtain ⟨vp, hvp⟩ := paircreate_isSome .octets hname
  have hnum : vp.attr = attr := paircreate_attr hvp
  unfold wholeTlv
  rw [hvp]
  exact ⟨_, rfl, hnum, rfl, rfl, rfl⟩

/-- The part of `rad_continuation2vp` behind the coalescing. -/
theorem tlvPairs_value (value : List UInt8) (h : WimaxDict ctx.cfg)
    (hv : vendorOf attr = wimaxVendor) :
    ∃ pairs, tlvPairs ctx attr value 0 value.length
        (ctx.cfg.dict.attrbyvalue attr) = .ok pairs
      ∧ PairsOf ctx.cfg attr value pairs := by
  obtain ⟨v, hwhole, hpair⟩ := wholeTlv_pair value (h.named attr (Or.inl hv))
  have hbuf : value.drop (0 : Int).toNat = value ++ [] := by
    rw [List.append_nil]
    rfl
  unfold tlvPairs
  rw [fetchN_all, ok_bind]
  by_cases htlv : (ctx.cfg.dict.attrbyvalue attr).map (·.type) = some .tlv
  · obtain ⟨b, hb, hiff⟩ := tlvWellFormed_eq (value.length + 1) (le_refl 0)
      hbuf (by omega)
    rw [if_neg (not_not.mpr htlv), hb, ok_bind]
    cases b with
    | false =>
        have hno : ¬∃ subs, value = wire subs := by
          rw [← hiff]
          exact Bool.false_ne_true
        refine ⟨[v], by rw [hwhole]; rfl, ?_, fun _ => ⟨v, rfl, hpair⟩⟩
        exact fun subs _ hsubs => absurd ⟨subs, hsubs⟩ hno
    | true =>
        obtain ⟨subs, hsubs⟩ := hiff.mp rfl
        rw [hsubs] at hbuf
        have hshort : (wire subs).length < value.length + 1 := by
          rw [← hsubs]
          omega
        obtain ⟨made, hmade, hall⟩ := subTlvs_pairs subs h hv htlv
          (le_refl 0) (by omega) hbuf hshort
        rw [← hsubs] at hmade
        refine ⟨radSortvp made, ?_, ?_, ?_⟩
        · simp only [Bool.not_true, Bool.false_eq_true, if_false, hmade,
            ok_bind, pure_eq_ok]
        · intro subs' _ hsubs'
          rw [wire_injective (hsubs'.symm.trans hsubs)]
          exact ⟨made, hall, radSortvp_perm made⟩
        · exact fun hno => absurd ⟨htlv, subs, hsubs⟩ hno
  · rw [if_pos htlv, hwhole]
    exact ⟨[v], rfl, fun _ ht _ => absurd ht htlv,
      fun _ => ⟨v, rfl, hpair⟩⟩

end pairs

-- ======== there and back

/-- What the loop makes of the fragments of `value`, standing before them:
it comes to one call at the first of them, which joins the value and makes
its pairs; then, if the limit on the number of pairs allows these, it
passes over the other fragments and stands before `rest`. -/
structure JoinsFragments (ctx : DecCtx) (attr : Nat)
    (value rest : List UInt8) (s : DecState) (call : ContCall)
    (buf : List UInt8) (pairs : List ValuePair) : Prop where
  kind : stepKind ctx s = .ok (.cont call)
  joined : radCoalesce ctx.cfg attr call.attrlen call.s.buf call.s.ptr
    call.s.packetLength = .ok (value, buf)
  run : call.run ctx = .ok (pairs, buf)
  made : PairsOf ctx.cfg attr value pairs
  onward : (0 < ctx.cfg.maxAttributes →
      s.numAttributes + pairs.length ≤ ctx.cfg.maxAttributes) →
    ∃ s1 s' front', DecGoes ctx s s1 ∧ s1.vps = s.vps ++ pairs
      ∧ Reaches (DecGoes ctx) s1 s' ∧ LoopAt s' front' rest
      ∧ s'.vps = s1.vps

section trip

variable {ctx : DecCtx} {s : DecState} {number : UInt8}
  {front rest : List UInt8} {ps : List Portion}

theorem fragments_length (number number' : UInt8) (ps : List Portion) :
    (wire (fragmentTlvs number ps)).length
      = (wire (fragmentTlvs number' ps)).length := by
  induction ps with
  | nil => rfl
  | cons p ps ih =>
      by_cases hnil : ps = []
      · subst hnil
        rfl
      · rw [fragmentTlvs_cons hnil, fragmentTlvs_cons hnil, wire_cons,
          wire_cons, List.length_append, List.length_append, ih]
        rfl

/-- The reader's side: every string of fragments is joined. -/
theorem joins_fragments (hdict : WimaxDict ctx.cfg) (hnum : number ≠ 0)
    (h2 : 2 ≤ ps.length)
    (h : LoopAt s front (wire (fragmentTlvs number ps) ++ rest)) :
    ∃ call buf pairs, JoinsFragments ctx
      (vendorAttr wimaxVendor number.toNat) (portionBytes ps) rest s call
      buf pairs := by
  have hlt := number.toNat_lt
  cases ps with
  | nil => simp at h2
  | cons p ps =>
      have hps : ps ≠ [] := by
        rintro rfl
        simp at h2
      rw [fragmentTlvs_cons hps, wire_cons, List.append_assoc] at h
      have hkind := stepKind_portion hdict.format hnum h
      have hptr : s.atPortion.ptr = front.length + 9 := by
        rw [← h.ptr]
        rfl
      have hjoin := radCoalesce_portions ctx.cfg
        (n := s.atPortion.packetLength) hps h.buf (by
          have hl := h.left
          have hb := congrArg List.length h.buf
          rw [List.length_append] at hb
          show (front.length : Int) + 9 + (s.packetLength - 9) = _
          omega)
      rw [← hptr, ← portionBytes_cons] at hjoin
      have hvendor : vendorOf (vendorAttr wimaxVendor number.toNat)
          = wimaxVendor := vendorOf_vendorAttr (by decide) (by omega)
      obtain ⟨pairs, hpairs, hmade⟩ := tlvPairs_value
        (portionBytes (p :: ps)) hdict hvendor
      have hrun : ContCall.run ctx ⟨s.atPortion,
            vendorAttr wimaxVendor number.toNat, p.bytes.length, true,
            ctx.cfg.dict.attrbyvalue (vendorAttr wimaxVendor number.toNat)⟩
          = .ok (pairs, front ++ ((p.tlv number 0x80).bytes
            ++ (wire (fragmentTlvs 0 ps) ++ rest))) := by
        unfold ContCall.run radContinuation2vp
        rw [if_pos rfl, show s.atPortion.buf = s.buf from rfl, hjoin,
          ok_bind]
        simp only [hpairs, ok_bind, pure_eq_ok]
      refine ⟨_, _, pairs, hkind, hjoin, hrun, hmade, ?_⟩
      intro hlimit
      obtain ⟨s1, hs1⟩ : ∃ s1, s1 = { s.atPortion with
          buf := front ++ ((p.tlv number 0x80).bytes
            ++ (wire (fragmentTlvs 0 ps) ++ rest))
          vps := s.vps ++ pairs
          numAttributes := s.numAttributes + pairs.length
          ptr := s.atPortion.ptr + p.bytes.length
          packetLength := s.atPortion.packetLength - p.bytes.length } :=
        ⟨_, rfl⟩
      have hgo : DecGoes ctx s s1 := by
        refine ⟨h.goes, ?_⟩
        rw [decodeStep, hkind, ok_bind, StepKind.finish, hrun, ok_bind, hs1]
        simp only [createdPair]
        rw [if_neg (by
          rintro ⟨hpos, hmore⟩
          exact absurd (hlimit hpos) (not_le.mpr hmore))]
        rfl
      have hat : LoopAt s1 (front ++ (p.tlv number 0x80).bytes)
          (wire (fragmentTlvs 0 ps) ++ rest) := by
        refine h.past (by rw [hs1, List.append_assoc]) ?_ ?_ (by rw [hs1])
          (by rw [hs1]) (by rw [hs1]; rfl)
        · rw [List.length_append, List.length_append,
            fragments_length 0 number]
        · rw [List.length_append]
          rfl
      obtain ⟨s', front', hreach, hend, hvps⟩ := passes_cleared
        hdict.format ps hat
      exact ⟨s1, s', front', hgo, by rw [hs1], hreach, hend, hvps⟩

end trip

/-- An unencrypted WiMAX attribute that does not fit one fragment, a TLV,
octets or a string with another number than 0, is written as well-formed
fragments, and wherever these stand in a packet the decoder joins them to
the value again and makes pairs at the first of them only. The number that
is sent is the low byte of the attribute's. -/
theorem continuedTrip (cfg : Config) (r : Rand) (packet : RadiusPacket)
    (original : Option RadiusPacket) (secret : List UInt8) (vp : ValuePair)
    (value : List UInt8) (ctx : DecCtx)
    (hfmt : vendorFormat cfg.dict wimaxVendor = (1, 1, true))
    (hvendor : vendorOf vp.attr = wimaxVendor)
    (hnumber : vp.attr % 256 ≠ 0) (henc : vp.flags.encrypt = .none)
    (hvalue : continuedValue vp = some value) (hlong : 246 < vp.length)
    (hdict : WimaxDict ctx.cfg) :
    ∃ out ps, radVp2attr cfg r packet original secret vp = some out
      ∧ out.bytes = wire (fragmentTlvs (UInt8.ofNat vp.attr) ps)
      ∧ portionBytes ps = value ∧ 2 ≤ ps.length
      ∧ ∀ s front rest, LoopAt s front (out.bytes ++ rest) →
        ∃ call buf pairs, JoinsFragments ctx
          (vendorAttr wimaxVendor (vp.attr % 256)) value rest s call buf
          pairs := by
  rw [← continuedValue_length hvalue] at hlong
  obtain ⟨out, ps, hout, hbytes, hps, h2⟩ := radVp2attr_portions r packet
    original secret hfmt hvendor henc hvalue hlong
  refine ⟨out, ps, hout, hbytes, hps, h2, ?_⟩
  intro s front rest hat
  have hbyte : (UInt8.ofNat vp.attr).toNat = vp.attr % 256 := by
    rw [UInt8.toNat_ofNat']
  have hne : UInt8.ofNat vp.attr ≠ 0 := by
    intro hz
    rw [hz] at hbyte
    exact hnumber hbyte.symm
  rw [hbytes] at hat
  have hjoins := joins_fragments hdict hne h2 hat
  rwa [hbyte, hps] at hjoins

theorem wimaxVendor_le : 0x60b5 ≤ 65535 := by
  decide

/-- A dictionary with the vendor and its TLV number 1, and a limit on the
number of attributes. -/
def wimaxConfig (limit : Nat) : Config :=
  { bareConfig with
    dict := .ofEntries [⟨0x60b50001, .tlv, 0x60b5, { hasTlv := true }⟩]
      [.ofPec 0x60b5 true wimaxVendor_le]
    maxAttributes := limit }

theorem wimaxConfig_dict (limit : Nat) : WimaxDict (wimaxConfig limit) := by
  have hplain : ∀ n da,
      (wimaxConfig limit).dict.attrbyvalue n = some da →
      da.flags.hasTag = false ∧ da.flags.encrypt = .none := by
    intro n da h
    have hmem := List.mem_of_find?_eq_some h
    rw [List.mem_singleton] at hmem
    rw [hmem]
    exact ⟨rfl, rfl⟩
  exact ⟨rfl, fun n da _ h _ => hplain n da h,
    fun n da _ _ h => hplain n da h, fun _ _ => rfl⟩

/-- A TLV of two sub-TLVs, 260 bytes in all. -/
def longTlv : ValuePair :=
  { attr := 0x60b50001, vendor := 0x60b5, type := .tlv, length := 260
    tlv := some (1 :: 130 :: List.replicate 128 7
      ++ 2 :: 130 :: List.replicate 128 8) }

theorem continuedTrip_tlv :
    ∃ out ps, radVp2attr (wimaxConfig 0) ⟨fun _ => 0, 0, 0⟩ {} none []
        longTlv = some out
      ∧ out.bytes = wire (fragmentTlvs 1 ps)
      ∧ portionBytes ps = longTlv.tlv.getD [] ∧ 2 ≤ ps.length
      ∧ ∀ s front rest, LoopAt s front (out.bytes ++ rest) →
        ∃ call buf pairs, JoinsFragments
          ⟨wimaxConfig 0, .zero, none, none⟩ (vendorAttr wimaxVendor 1)
          (longTlv.tlv.getD []) rest s call buf pairs :=
  continuedTrip (wimaxConfig 0) ⟨fun _ => 0, 0, 0⟩ {} none [] longTlv
    (longTlv.tlv.getD []) ⟨wimaxConfig 0, .zero, none, none⟩ rfl
    rfl (by decide) rfl (by decide +kernel) (by decide)
    (wimaxConfig_dict 0)

/-- The packet of one attribute. -/
def sentAlone (cfg : Config) (vp : ValuePair) : RadiusPacket :=
  { data := List.replicate 20 0 ++ ((radVp2attr cfg ⟨fun _ => 0, 0, 0⟩ {}
      none [] vp).map (·.bytes)).getD [] }

/-- The pairs that come back, with the return code. -/
def pairsBack (cfg : Config) (vp : ValuePair) :
    Mem (Int × List ValuePair) := do
  let (rc, packet) ← radDecode cfg (sentAlone cfg vp) none none
  pure (rc, packet.vps)

/-- The same bytes as a filter, which `rad_vp2continuation` does not send. -/
def longFilter : ValuePair :=
  { attr := 0x60b50002, vendor := 0x60b5, type := .abinary, length := 250
    data := List.replicate 250 7 }

/-- And under the number 0. -/
def longZero : ValuePair :=
  { longFilter with attr := 0x60b50000, type := .octets }

/-- Three long attributes of the vendor of which no pair comes back: one
of another type, one whose number is 0, and one with more sub-TLVs than
the limit allows attributes. -/
theorem continued_lost :
    pairsBack (wimaxConfig 0) longFilter = .ok (0, [])
      ∧ pairsBack (wimaxConfig 0) longZero = .ok (0, [])
      ∧ pairsBack (wimaxConfig 1) longTlv = .ok (-1, []) := by
  decide +kernel

end WinRadius
