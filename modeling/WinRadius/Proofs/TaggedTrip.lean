/-
Tagged attributes there and back.

# On the wire

The tag of a string stands in front of it, and the tag of an integer in
place of its first byte, where a value below 2^24 has a zero. The decoder
takes the first byte for the tag if it is in the range of one; the tag 0
of an integer is not, and is left as `pairalloc` sets it.

# What the loops keep out

`rad_encode` does not send a number above 255, and puts zeros into a
Message-Authenticator; `rad_decode` ends at the number 0, and refuses more
attributes than its limit. A tagged attribute with the number of
Vendor-Specific is not taken for one: its tag makes the number of the
vendor too large.
-/
import WinRadius.Proofs.RoundTrip

namespace WinRadius

open Lib

-- ======== content

/-- Number, type, length, tag and value. -/
structure TaggedContent where
  attr : Nat
  type : PwType
  length : Nat
  tag : UInt8
  value : PairValue
deriving DecidableEq

namespace ValuePair

def taggedContent (vp : ValuePair) : TaggedContent :=
  ⟨vp.attr, vp.type, vp.length, vp.flags.tag, vp.value⟩

/-- A string with its tag, or an integer that leaves room for one. -/
def TagLegal (vp : ValuePair) : Prop :=
  (vp.type = .string ∧ vp.length ≤ 252 ∧ tagValid vp.flags.tag = true)
    ∨ (vp.type = .integer ∧ vp.length = 4 ∧ vp.lvalue.toNat < 16777216
      ∧ vp.flags.tag < 32)

/-- The bytes of the value with its tag. -/
def taggedBytes (vp : ValuePair) : List UInt8 :=
  vp.flags.tag ::
    if vp.type = .string then vp.octets vp.length
    else (be32 vp.lvalue).tail

end ValuePair

/-- A tagged attribute of the dictionary, not encrypted. No line of a
dictionary sets the tag of an entry. -/
structure TaggedPair (cfg : Config) (vp : ValuePair) : Prop where
  pos : 1 ≤ vp.attr
  le : vp.attr ≤ 255
  ne_ma : vp.attr ≠ pwMessageAuthenticator
  defined : ∃ da, cfg.dict.attrbyvalue vp.attr = some da
    ∧ da.type = vp.type ∧ da.flags.hasTag = true ∧ da.flags.tag = 0
    ∧ da.flags.encrypt = .none
  tagged : vp.flags.hasTag = true
  unencrypted : vp.flags.encrypt = .none
  notTlv : vp.flags.isTlv = false
  notEncoded : vp.flags.encoded = false
  legal : vp.TagLegal

section tagged

variable {cfg : Config} {vp : ValuePair}

theorem TaggedPair.vendorOf_eq (h : TaggedPair cfg vp) :
    vendorOf vp.attr = 0 :=
  vendorOf_small (Nat.lt_of_le_of_lt h.le (by omega))

theorem ValuePair.TagLegal.bytes_length (h : vp.TagLegal) :
    vp.taggedBytes.length ≤ 253 := by
  unfold ValuePair.taggedBytes
  rcases h with ⟨htype, hlen, -⟩ | ⟨htype, -, -⟩
  · rw [if_pos htype, List.length_cons, ValuePair.octets, padTake_length]
    omega
  · rw [htype]
    simp [be32]

/-- The attribute a tagged pair becomes. -/
def taggedTlv (vp : ValuePair) : Tlv :=
  ⟨UInt8.ofNat vp.attr, vp.taggedBytes.take 253,
    by rw [List.length_take]; omega⟩

theorem ValuePair.TagLegal.tlv_value (h : vp.TagLegal) :
    (taggedTlv vp).value = vp.taggedBytes :=
  List.take_of_length_le h.bytes_length

-- ======== encoding

/-- The value is sent with its tag. -/
theorem TaggedPair.taggedData_eq (h : TaggedPair cfg vp) (r : Rand)
    (packet : RadiusPacket) (original : Option RadiusPacket)
    (secret : List UInt8) :
    taggedData cfg r packet original secret vp 253
      = some (vp.taggedBytes, r) := by
  unfold taggedData ValuePair.taggedBytes
  rcases h.legal with ⟨htype, hlen, hvalid⟩ | ⟨htype, hlen, -⟩
  · have hdata : vp2data cfg r packet original secret vp (253 - 1)
        = some (vp.octets vp.length, r) := by
      simp only [vp2data, vpSource, htype, h.unencrypted]
      rw [if_neg (by omega)]
      rfl
    simp [htype, h.tagged, hvalid, hdata]
  · have hdata : vp2data cfg r packet original secret vp 253
        = some (be32 vp.lvalue, r) := by
      simp only [vp2data, vpSource, htype, h.unencrypted]
      rw [if_neg (by omega)]
      rfl
    simp [htype, h.tagged, hdata, be32]

/-- A tagged pair is sent as one record. -/
theorem TaggedPair.sent (h : TaggedPair cfg vp) :
    SentAsRecord cfg vp (taggedTlv vp) where
  wire := by
    have := h.le
    simp only [nonWire, h.vendorOf_eq, true_and,
      decide_eq_false_iff_not]
    omega
  ne_ma := h.ne_ma
  notTlv := h.notTlv
  notEncoded := h.notEncoded
  sent r packet original secret := by
    have hdata := h.taggedData_eq r packet original secret
    have hlen := h.legal.bytes_length
    simp only [radVp2attr, h.vendorOf_eq, if_true, finishAttr, hdata]
    rw [if_neg (by simp [ValuePair.taggedBytes])]
    simp only [Tlv.bytes, h.legal.tlv_value, List.length_cons]
    rw [Nat.add_comm 2]
    rfl

end tagged

-- ======== decoding

/-- The pair with the tag that is found, and the bytes it is filled
with. -/
def takeTag (vp : ValuePair) (first : UInt8) (more : List UInt8) :
    ValuePair × List UInt8 :=
  if tagValid first then
    ({ vp with flags := { vp.flags with tag := first } },
      if vp.type = .string ∨ vp.type = .octets then more
      else first :: more)
  else (vp, first :: more)

section decoding

variable {ctx : DecCtx} {first : UInt8} {more : List UInt8}

/-- `data2vp` of an attribute that may have a tag. -/
theorem data2vp_takeTag {attr : Nat} {buf : List UInt8} {data : Int}
    {vp : ValuePair} (hlen : (first :: more).length ≤ 253)
    (htag : vp.flags.hasTag = true) (henc : vp.flags.encrypt = .none)
    (hfirst : fetch buf data = .ok first)
    (hmore : fetchN buf (data + 1) more.length = .ok more)
    (hbytes : fetchN buf data (first :: more).length = .ok (first :: more))
    {w : ValuePair} {bytes : List UInt8}
    (htaken : takeTag { vp with op := .opEq } first more = (w, bytes)) :
    data2vp ctx attr (first :: more).length buf data vp
      = .ok (typedOrRaw ctx.cfg attr (first :: more)
          (some { w.setOctets bytes with length := bytes.length })) := by
  have hclip : clipLength ((first :: more).length : Int)
      = (first :: more).length := by
    unfold clipLength
    rw [if_neg (by omega)]
  have hdecrypt (v : ValuePair) (hv : v.flags.encrypt = .none) :
      decryptVp ctx buf data v = .ok (some v) := by
    unfold decryptVp
    cases ctx.secret with
    | none => rfl
    | some secret => simp [hv]
  unfold takeTag at htaken
  by_cases hvalid : tagValid first = true
  · rw [if_pos hvalid] at htaken
    dsimp only at htaken
    by_cases htype : vp.type = .string ∨ vp.type = .octets
    · rw [if_pos htype] at htaken
      cases htaken
      have hvtag : vpTag buf data { vp with op := .opEq }
          = .ok ({ vp with
            op := .opEq, flags := { vp.flags with tag := first } }, 1) := by
        simp only [vpTag, htag, if_true, hfirst, ok_bind, hvalid,
          Bool.true_or, htype, pure_eq_ok]
      have hless : ((first :: more).length : Int) - 1 = more.length := by
        rw [List.length_cons]
        omega
      simp only [data2vp, hclip, hvtag, ok_bind, hless, hmore, hbytes]
      rw [hdecrypt _ (by exact henc)]
      rfl
    · rw [if_neg htype] at htaken
      cases htaken
      have hvtag : vpTag buf data { vp with op := .opEq }
          = .ok ({ vp with
            op := .opEq, flags := { vp.flags with tag := first } }, 0) := by
        simp only [vpTag, htag, if_true, hfirst, ok_bind, hvalid,
          Bool.true_or, htype, if_false, pure_eq_ok]
      simp only [data2vp, hclip, hvtag, ok_bind, Int.add_zero, Int.sub_zero,
        hbytes]
      rw [hdecrypt _ (by exact henc)]
      rfl
  · rw [if_neg hvalid] at htaken
    cases htaken
    have hvtag : vpTag buf data { vp with op := .opEq }
        = .ok ({ vp with op := .opEq }, 0) := by
      simp [vpTag, htag, hfirst, hvalid, henc]
    simp only [data2vp, hclip, hvtag, ok_bind, Int.add_zero, Int.sub_zero,
      hbytes]
    rw [hdecrypt _ (by exact henc)]
    rfl

theorem be32_small {n : UInt32} (h : n.toNat < 16777216) :
    be32 n = 0 :: (be32 n).tail := by
  have hfirst : UInt8.ofNat (n.toNat / 16777216) = 0 := by
    rw [Nat.div_eq_of_lt h]
    rfl
  rw [be32, hfirst]
  rfl

/-- A tagged integer reads as it was sent. -/
theorem typedVp_tagInteger {cfg : Config} {w : ValuePair} {n : UInt32}
    (htype : w.type = .integer) (htag : w.flags.hasTag = true)
    (hlen : w.length = 4) (hn : n.toNat < 16777216)
    (hoct : w.octets 4 = first :: (be32 n).tail) (bytes : List UInt8) :
    ∃ v, typedVp cfg bytes w = some v ∧ v.attr = w.attr
      ∧ v.type = w.type ∧ v.length = 4 ∧ v.flags = w.flags
      ∧ v.lvalue = n := by
  have hword : ofBe32 (w.octets 4) &&& 0x00ffffff = n := by
    rw [hoct, ofBe32_masked (by simp [be32]), List.tail_cons,
      ← be32_small hn, ofBe32_be32]
  simp only [typedVp, htype, hlen, htag, ne_eq, not_true_eq_false, if_false,
    if_true, hword]
  cases cfg.dict.valbyattr w.attr n with
  | none => exact ⟨_, rfl, rfl, rfl, rfl, rfl, rfl⟩
  | some name => exact ⟨_, rfl, rfl, rfl, rfl, rfl, rfl⟩

variable {vp : ValuePair}

/-- A pair that was filled, as far as the typed switch looks at it. -/
structure FilledTagged (w : ValuePair) (da : DictAttr) (tag : UInt8)
    (bytes : List UInt8) : Prop where
  attr : w.attr = da.attr
  type : w.type = da.type
  length : w.length = bytes.length
  hasTag : w.flags.hasTag = da.flags.hasTag
  tag : w.flags.tag = tag
  octets : w.octets bytes.length = bytes

/-- The tag of the entry, unless one is found. -/
def foundTag (da : DictAttr) (first : UInt8) : UInt8 :=
  if tagValid first then first else da.flags.tag

theorem takeTag_filled (da : DictAttr) (first : UInt8)
    (more : List UInt8) :
    ∃ w bytes, takeTag (entryPair da) first more = (w, bytes)
      ∧ bytes = (if tagValid first = true
          ∧ (da.type = .string ∨ da.type = .octets) then more
        else first :: more)
      ∧ FilledTagged { w.setOctets bytes with length := bytes.length } da
          (foundTag da first) bytes := by
  have hfill (bytes : List UInt8) :
      padTake bytes.length (bytes ++ List.drop bytes.length []) = bytes := by
    rw [List.drop_nil, padTake_append]
  unfold takeTag foundTag
  by_cases hvalid : tagValid first = true
  · rw [if_pos hvalid, if_pos hvalid]
    by_cases htype : da.type = .string ∨ da.type = .octets
    · have htype' : (entryPair da).type = .string
          ∨ (entryPair da).type = .octets := htype
      rw [if_pos htype', if_pos ⟨hvalid, htype⟩]
      exact ⟨_, _, rfl, rfl, rfl, rfl, rfl, rfl, rfl, hfill _⟩
    · have htype' : ¬((entryPair da).type = .string
          ∨ (entryPair da).type = .octets) := htype
      rw [if_neg htype', if_neg fun h => htype h.2]
      exact ⟨_, _, rfl, rfl, rfl, rfl, rfl, rfl, rfl, hfill _⟩
  · rw [if_neg hvalid, if_neg hvalid, if_neg fun h => hvalid h.1]
    exact ⟨_, _, rfl, rfl, rfl, rfl, rfl, rfl, rfl, hfill _⟩

/-- What becomes of the bytes of a tagged pair. -/
theorem TaggedPair.reads (h : TaggedPair ctx.cfg vp) {da : DictAttr}
    (hattr : da.attr = vp.attr) (htype : da.type = vp.type)
    (htag : da.flags.hasTag = true) (hzero : da.flags.tag = 0) :
    ∃ w bytes v, takeTag (entryPair da) vp.flags.tag vp.taggedBytes.tail
        = (w, bytes)
      ∧ typedOrRaw ctx.cfg vp.attr vp.taggedBytes
          (some { w.setOctets bytes with length := bytes.length }) = some v
      ∧ v.taggedContent = vp.taggedContent := by
  obtain ⟨w, bytes, htaken, hbytes, hfill⟩ :=
    takeTag_filled da vp.flags.tag vp.taggedBytes.tail
  obtain ⟨u, hu⟩ : ∃ u, u = { w.setOctets bytes with
    length := bytes.length } := ⟨_, rfl⟩
  rw [← hu] at hfill
  have htag' := hfill.tag
  refine ⟨w, bytes, ?_⟩
  rw [← hu]
  unfold foundTag at htag'
  unfold typedOrRaw
  rw [Option.bind_some]
  rcases h.legal with ⟨hstring, hlen, hvalid⟩ | ⟨hinteger, hlen, hn, ht⟩
  · have htail : vp.taggedBytes.tail = vp.octets vp.length := by
      simp [ValuePair.taggedBytes, hstring]
    rw [if_pos ⟨hvalid, .inl (htype.trans hstring)⟩, htail] at hbytes
    rw [if_pos hvalid] at htag'
    have hl : bytes.length = vp.length := by
      rw [hbytes, ValuePair.octets, padTake_length]
    have hut := hfill.type.trans (htype.trans hstring)
    have hul := hfill.length.trans hl
    refine ⟨u, htaken, by simp only [typedVp, hut], ?_⟩
    have hoct := hfill.octets
    rw [hl, hbytes] at hoct
    simp only [ValuePair.taggedContent, ValuePair.value, hut, hstring, htag',
      hfill.attr, hattr, hul, hoct]
  · have hne : ¬(tagValid vp.flags.tag = true
        ∧ (da.type = .string ∨ da.type = .octets)) := by
      rw [htype, hinteger]
      simp
    have htail : vp.taggedBytes.tail = (be32 vp.lvalue).tail := by
      simp [ValuePair.taggedBytes, hinteger]
    rw [if_neg hne, htail] at hbytes
    have hl : bytes.length = 4 := by
      rw [hbytes]
      rfl
    have hoct := hfill.octets
    rw [hl, hbytes] at hoct
    have htagged : u.flags.tag = vp.flags.tag := by
      rw [htag']
      split
      · rfl
      · next hinvalid =>
          rw [hzero]
          simp only [tagValid, decide_eq_true_eq] at hinvalid
          grind
    obtain ⟨v, hv, hva, hvt, hvl, hvf, hvw⟩ := @typedVp_tagInteger
      vp.flags.tag ctx.cfg u vp.lvalue (hfill.type.trans
        (htype.trans hinteger)) (hfill.hasTag.trans htag)
      (hfill.length.trans hl) hn hoct vp.taggedBytes
    refine ⟨v, htaken, by rw [hv], ?_⟩
    have hvt' : v.type = .integer :=
      hvt.trans (hfill.type.trans (htype.trans hinteger))
    simp only [ValuePair.taggedContent, ValuePair.value, hvt', hinteger, hvl,
      hlen, hvw, hvf, htagged, hva, hfill.attr, hattr]

variable (ctx) in
/-- The iteration at a Vendor-Specific attribute with a vendor that is too
large: it is taken as it stands. -/
theorem stepKind_unknownVendor {s : DecState} {a : Tlv}
    {rest : List UInt8} (hv : s.vendorcode = 0) (hvl : s.vendorlen = 0)
    (h0 : 0 ≤ s.ptr) (hp : s.ptr ≤ s.buf.length)
    (hbuf : s.buf.drop s.ptr.toNat = a.bytes ++ rest)
    (hlen : s.packetLength = (a.bytes ++ rest).length)
    (hvsa : a.type.toNat = pwVendorSpecific) (h4 : 4 < a.value.length)
    (hbig : 65535 < signedVendor (a.value.take 4)) :
    stepKind ctx s = .ok (.pair { s with
        ptr := s.ptr + 2, packetLength := s.packetLength - 2 }
        a.type.toNat a.value.length) := by
  have hfour : (a.value.take 4).length = 4 := by
    rw [List.length_take]
    omega
  have hread : fetchN s.buf (s.ptr + 2) 4 = .ok (a.value.take 4) := by
    have := fetchN_drop s.buf (a.value.take 4)
      [a.type, UInt8.ofNat (a.value.length + 2)] (a.value.drop 4 ++ rest)
      h0 hp (by
        rw [hbuf, Tlv.bytes, ← List.append_assoc (a.value.take 4),
          List.take_append_drop]
        rfl)
    rw [hfour] at this
    exact this
  rw [stepKind_vsa ctx hv h0 hbuf hlen hvsa h4, vendorSpecific, vsaKind,
    hread, ok_bind]
  dsimp only
  rw [if_neg (by omega), if_pos hbig, hvsa, ← hvl]
  rfl

/-- A tag makes a vendor that is too large. -/
theorem signedVendor_tag (htag : tagValid first = true)
    (bs : List UInt8) : 65535 < signedVendor (first :: bs) := by
  simp only [tagValid, decide_eq_true_eq, UInt8.lt_iff_toNat_lt] at htag
  obtain ⟨hlo, hhi⟩ := htag
  change 0 < first.toNat at hlo
  change first.toNat < 32 at hhi
  have h1 := ((first :: bs).getD 1 0).toNat_lt
  have h2 := ((first :: bs).getD 2 0).toNat_lt
  have h3 := ((first :: bs).getD 3 0).toNat_lt
  have hn : (ofBe32 (first :: bs)).toNat = first.toNat * 16777216
      + ((first :: bs).getD 1 0).toNat * 65536
      + ((first :: bs).getD 2 0).toNat * 256
      + ((first :: bs).getD 3 0).toNat := by
    rw [ofBe32, UInt32.toNat_ofNat', List.getD_cons_zero]
    omega
  unfold signedVendor
  rw [if_pos (by omega)]
  omega

/-- The decoder's loop makes one pair of a tagged attribute. -/
theorem TaggedPair.made (h : TaggedPair ctx.cfg vp) :
    ∃ v, v.taggedContent = vp.taggedContent
      ∧ MadeOfRecord ctx (taggedTlv vp) v := by
  obtain ⟨da, hda, htype, htag, hzero, henc⟩ := h.defined
  have hattr := ctx.cfg.dict.attr_key _ _ hda
  obtain ⟨w, bytes, v, htaken, hv, hcontent⟩ :=
    h.reads hattr htype htag hzero
  have hnum : (taggedTlv vp).type.toNat = vp.attr := by
    have := h.le
    show (UInt8.ofNat vp.attr).toNat = _
    rw [UInt8.toNat_ofNat']
    omega
  have hne0 : (taggedTlv vp).type ≠ 0 := by
    intro hz
    have := h.pos
    rw [hz] at hnum
    change 0 = _ at hnum
    omega
  have hval := h.legal.tlv_value
  have hcons : vp.taggedBytes = vp.flags.tag :: vp.taggedBytes.tail := rfl
  have h253 := h.legal.bytes_length
  refine ⟨v, hcontent, ?_⟩
  intro s rest hvc hvl h0 hp hbuf hlen hmax
  -- the bytes behind the header
  have hbuf' : s.buf.drop s.ptr.toNat
      = [(taggedTlv vp).type, UInt8.ofNat ((taggedTlv vp).value.length + 2)]
        ++ (vp.taggedBytes ++ rest) := by
    rw [hbuf, Tlv.bytes, hval]
    rfl
  have hbytes : fetchN s.buf (s.ptr + 2) vp.taggedBytes.length
      = .ok vp.taggedBytes := fetchN_drop _ _ _ rest h0 hp hbuf'
  have hfirst : fetch s.buf (s.ptr + 2) = .ok vp.flags.tag :=
    fetch_drop h0 hbuf' 2 rfl
  have hmore : fetchN s.buf (s.ptr + 2 + 1) vp.taggedBytes.tail.length
      = .ok vp.taggedBytes.tail := by
    have := fetchN_drop s.buf vp.taggedBytes.tail
      [(taggedTlv vp).type, UInt8.ofNat ((taggedTlv vp).value.length + 2),
        vp.flags.tag] rest h0 hp (by
        rw [hbuf', hcons]
        rfl)
    rw [Int.add_assoc]
    exact this
  have hstep : stepKind ctx s = .ok (.pair { s with
      ptr := s.ptr + 2, packetLength := s.packetLength - 2 }
      (taggedTlv vp).type.toNat (taggedTlv vp).value.length) := by
    by_cases hvsa : (taggedTlv vp).type.toNat ≠ pwVendorSpecific
        ∨ (taggedTlv vp).value.length ≤ 4
    · exact stepKind_standard ctx hvc h0 hbuf hlen hne0 hvsa
    · obtain ⟨hvsa, hlong⟩ := not_or.mp hvsa
      rw [not_not] at hvsa
      refine stepKind_unknownVendor ctx hvc hvl h0 hp hbuf hlen hvsa
        (by omega) ?_
      rcases h.legal with ⟨-, -, hvalid⟩ | ⟨hinteger, -, -, -⟩
      · rw [hval, hcons]
        exact signedVendor_tag hvalid _
      · rw [hval] at hlong
        simp [ValuePair.taggedBytes, hinteger, be32] at hlong
  have hdata := @data2vp_takeTag ctx _ _ vp.attr s.buf (s.ptr + 2)
    (entryPair da) (by rw [← hcons]; exact h253) htag henc hfirst hmore
    (by rw [← hcons]; exact hbytes) w bytes htaken
  rw [← hcons] at hdata
  have hmake : createPair ctx { s with
      ptr := s.ptr + 2, packetLength := s.packetLength - 2 }
      vp.attr vp.taggedBytes.length
      = .ok (createdPair ctx { s with
        ptr := s.ptr + 2, packetLength := s.packetLength - 2 } [v]
        vp.taggedBytes.length) := by
    unfold createPair radAttr2vp paircreate
    rw [if_neg (by rw [hcons, List.length_cons]; omega), hda]
    dsimp only
    rw [show data2vp ctx vp.attr vp.taggedBytes.length s.buf (s.ptr + 2)
      { pairalloc (some da) with op := .opEq } = _ from hdata, ok_bind, hv]
    rfl
  rw [hnum] at hstep
  rw [← hval] at hmake
  exact decodeStep_past hstep hmake hmax

end decoding

-- ======== trip

/-- What `rad_decode` makes of the packet that `rad_encode` writes: what it
returns, and the pairs. -/
def taggedTrip (cfg : Config) (r : Rand) (packet fresh : RadiusPacket)
    (original : Option RadiusPacket) (secret : List UInt8)
    (original' : Option RadiusPacket) (secret' : Option (List UInt8)) :
    Mem (Option (Int × List TaggedContent)) := do
  match ← radEncode cfg r packet original secret with
  | none => return none
  | some out =>
      let (rc, received) ← radDecode cfg
        { fresh with data := out.packet.data, vps := [] } original' secret'
      return some (rc, received.vps.map ValuePair.taggedContent)

/-- The bytes a list takes. -/
def taggedSize (vps : List ValuePair) : Nat :=
  (vps.map fun vp => vp.taggedBytes.length + 2).sum

section trip

variable {cfg : Config} {vps : List ValuePair}

theorem wire_taggedTlv_length (h : ∀ vp ∈ vps, TaggedPair cfg vp) :
    (wire (vps.map taggedTlv)).length = taggedSize vps := by
  refine wire_map_length fun vp hvp => ?_
  rw [Tlv.bytes_length, (h vp hvp).legal.tlv_value]

/-- Tagged attributes survive the trip over the wire, in their order. -/
theorem taggedTrip_eq (cfg : Config) (r : Rand)
    (packet fresh : RadiusPacket) (original : Option RadiusPacket)
    (secret : List UInt8) (original' : Option RadiusPacket)
    (secret' : Option (List UInt8))
    (h : ∀ vp ∈ packet.vps, TaggedPair cfg vp)
    (hreq : needsOriginal packet.code = true → original.isSome = true)
    (hfit : authHdrLen + taggedSize packet.vps ≤ maxPacketLen)
    (hmax : 0 < cfg.maxAttributes →
      packet.vps.length ≤ cfg.maxAttributes) :
    taggedTrip cfg r packet fresh original secret original' secret'
      = .ok (some (0, packet.vps.map ValuePair.taggedContent)) := by
  have hsent : List.Forall₂ (SentAsRecord cfg) packet.vps
      (packet.vps.map taggedTlv) := by
    rw [List.forall₂_map_right_iff, List.forall₂_same]
    exact fun vp hvp => (h vp hvp).sent
  obtain ⟨out, hdr, hout, hhdr, hdata⟩ := radEncode_records (r := r)
    hsent hreq (by rw [wire_taggedTlv_length h]; exact hfit)
  obtain ⟨p, hp⟩ : ∃ p : RadiusPacket,
      p = { fresh with data := out.packet.data, vps := [] } := ⟨_, rfl⟩
  have hpd : p.data = hdr ++ wire (packet.vps.map taggedTlv) := by
    rw [hp]
    exact hdata
  obtain ⟨made, hall, hmade⟩ := exists_made fun vp hvp =>
    @TaggedPair.made (decodeCtx cfg p original' secret') vp (h vp hvp)
  obtain ⟨received, hdec, hvps⟩ := radDecode_records (by rw [hp]) hall
    hhdr hpd (by simpa using hmax)
  rw [taggedTrip, hout, ok_bind]
  dsimp only
  rw [← hp, hdec, ok_bind]
  dsimp only
  rw [hvps, hmade]
  rfl

end trip

/-- A dictionary with a tagged string of the number, at most one attribute
in a packet. -/
def taggedConfig (attr : Nat) : Config :=
  { bareConfig with
    maxAttributes := 1
    dict := .ofEntries [⟨attr, .string, 0, { hasTag := true }⟩] [] }

def taggedLetter (attr : Nat) : ValuePair :=
  { attr := attr, type := .string, length := 1, data := [65]
    flags := { hasTag := true, tag := 1 } }

def taggedRequest (vps : List ValuePair) : RadiusPacket :=
  { code := pwAuthenticationRequest, vps := vps }

/-- The trip of a request. -/
def requestTrip (cfg : Config) (vps : List ValuePair) :
    Mem (Option (Int × List TaggedContent)) :=
  taggedTrip cfg ⟨fun _ => 0, 0, 0⟩ (taggedRequest vps) {} none [] none none

theorem taggedLetter_pair : TaggedPair (taggedConfig 64) (taggedLetter 64) :=
  ⟨by decide, by decide, by decide, ⟨_, rfl, rfl, rfl, rfl, rfl⟩, rfl, rfl,
    rfl, rfl, .inl ⟨rfl, by decide, rfl⟩⟩

theorem taggedTrip_letter :
    requestTrip (taggedConfig 64) [taggedLetter 64]
      = .ok (some (0, [(taggedLetter 64).taggedContent])) :=
  taggedTrip_eq _ _ (taggedRequest [taggedLetter 64]) _ _ _ _ _
    (fun vp hvp => List.mem_singleton.mp hvp ▸ taggedLetter_pair)
    (fun h => by cases h) (by decide) (fun _ => Nat.le_refl 1)

/-- What the loops keep out: the numbers 0 and 300, the
Message-Authenticator, and two attributes where one is the limit. -/
theorem taggedTrip_leaves_out :
    requestTrip (taggedConfig 0) [taggedLetter 0]
        ≠ .ok (some (0, [(taggedLetter 0).taggedContent]))
      ∧ requestTrip (taggedConfig 300) [taggedLetter 300]
        ≠ .ok (some (0, [(taggedLetter 300).taggedContent]))
      ∧ requestTrip (taggedConfig 80) [taggedLetter 80]
        ≠ .ok (some (0, [(taggedLetter 80).taggedContent]))
      ∧ requestTrip (taggedConfig 64) [taggedLetter 64, taggedLetter 64]
        ≠ .ok (some (0, [(taggedLetter 64).taggedContent,
          (taggedLetter 64).taggedContent])) := by
  decide

end WinRadius
