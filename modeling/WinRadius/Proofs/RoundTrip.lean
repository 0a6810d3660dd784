/-
Standard attributes there and back: `rad_decode` of what `rad_encode`
writes.

# Content

A pair's content is its number, type, length and value, the value being
read where the type keeps it: the bytes of the union, the separate word
`lvalue`, or the signed integer in the union. `arrived` is the content
the decoder ends up with. It is the sender's for every type but one: the
encoder converts a signed integer to network order and then sends the
unconverted bytes, so on a little-endian host it arrives with its bytes
reversed.
-/
import WinRadius.Proofs.WireTrip

namespace WinRadius

open Lib

variable {cfg : Config} {packet : RadiusPacket}
  {original : Option RadiusPacket} {secret : List UInt8}
  {vp : ValuePair}

-- ======== content

/-- A value as the program sees it. -/
inductive PairValue where
  | bytes (bs : List UInt8)
  | word (n : UInt32)
deriving DecidableEq

namespace ValuePair

def value (vp : ValuePair) : PairValue :=
  match vp.type with
  | .byte | .short | .integer | .date | .ipaddr => .word vp.lvalue
  | .signed => .word vp.sinteger
  | _ => .bytes (vp.octets vp.length)

/-- Number, type, length and value. -/
def content (vp : ValuePair) : Nat × PwType × Nat × PairValue :=
  (vp.attr, vp.type, vp.length, vp.value)

/-- The value in its type's range, with its type's length. -/
def Legal (vp : ValuePair) : Prop :=
  match vp.type with
  | .string | .octets => 1 ≤ vp.length ∧ vp.length ≤ 253
  | .byte => vp.length = 1 ∧ vp.lvalue.toNat < 256
  | .short => vp.length = 2 ∧ vp.lvalue.toNat < 65536
  | .integer | .date | .ipaddr | .signed => vp.length = 4
  | .ifid => vp.length = 8
  | .ipv6addr => vp.length = 16
  | .ipv6Prefix => 2 ≤ vp.length ∧ vp.length ≤ 18
      ∧ ((vp.octets 2).getD 1 0).toNat ≤ 128
  | _ => False

/-- The content after a trip over the wire. -/
def arrived (vp : ValuePair) : Nat × PwType × Nat × PairValue :=
  (vp.attr, vp.type, vp.length,
    if vp.type = .signed then .word (byteSwap32 vp.sinteger)
    else vp.value)

theorem arrived_eq_content_iff :
    vp.arrived = vp.content
      ↔ (vp.type = .signed → byteSwap32 vp.sinteger = vp.sinteger) := by
  unfold arrived content
  by_cases hs : vp.type = .signed
  · simp [hs, value]
  · simp [hs]

end ValuePair

/-- A standard attribute of the dictionary, neither tagged nor encrypted,
with a legal value. -/
structure PlainPair (cfg : Config) (vp : ValuePair) : Prop where
  pos : 1 ≤ vp.attr
  le : vp.attr ≤ 255
  ne_vsa : vp.attr ≠ pwVendorSpecific
  ne_ma : vp.attr ≠ pwMessageAuthenticator
  defined : ∃ da, cfg.dict.attrbyvalue vp.attr = some da
    ∧ da.type = vp.type ∧ da.flags.hasTag = false
    ∧ da.flags.encrypt = .none
  untagged : vp.flags.hasTag = false
  unencrypted : vp.flags.encrypt = .none
  notTlv : vp.flags.isTlv = false
  notEncoded : vp.flags.encoded = false
  legal : vp.Legal

-- ======== encoding

/-- The bytes `vp2data` sends for a value that needs no hiding. -/
def sourceBytes (vp : ValuePair) : List UInt8 :=
  match vpSource vp with
  | some (src, len) => padTake len src
  | none => []

/-- The attribute a plain pair becomes. -/
def plainTlv (vp : ValuePair) : Tlv :=
  ⟨UInt8.ofNat vp.attr, (sourceBytes vp).take 253,
    by rw [List.length_take]; omega⟩

theorem ValuePair.Legal.source (h : vp.Legal) :
    ∃ src, vpSource vp = some (src, vp.length) ∧ 1 ≤ vp.length
      ∧ vp.length ≤ 253 := by
  unfold Legal at h
  unfold vpSource
  cases htype : vp.type <;> simp only [htype] at h ⊢ <;>
    first
    | exact ⟨_, rfl, by omega⟩
    | exact ⟨_, by rw [h], by omega⟩
    | exact ⟨_, by rw [h.1], by omega⟩

theorem ValuePair.Legal.sourceBytes_length (h : vp.Legal) :
    (sourceBytes vp).length = vp.length := by
  obtain ⟨src, hsrc, -⟩ := h.source
  rw [sourceBytes, hsrc]
  exact padTake_length _ _

theorem ValuePair.Legal.plainTlv_value (h : vp.Legal) :
    (plainTlv vp).value = sourceBytes vp := by
  obtain ⟨-, -, -, h253⟩ := h.source
  exact List.take_of_length_le (by rw [h.sourceBytes_length]; exact h253)

theorem PlainPair.vendorOf_eq (h : PlainPair cfg vp) :
    vendorOf vp.attr = 0 :=
  vendorOf_small (Nat.lt_of_le_of_lt h.le (by omega))

/-- One plain pair on the wire. -/
theorem radVp2attr_plain {r : Rand} (h : PlainPair cfg vp) :
    radVp2attr cfg r packet original secret vp
      = some ⟨(plainTlv vp).bytes, vp.length + 2, r⟩ := by
  obtain ⟨src, hsrc, h1, h253⟩ := h.legal.source
  have hdata : vp2data cfg r packet original secret vp (255 - 2)
      = some (sourceBytes vp, r) := by
    simp only [vp2data, hsrc, h.unencrypted, sourceBytes]
    rw [if_neg (by omega)]
  have hlen := h.legal.sourceBytes_length
  have hne : sourceBytes vp ≠ [] := by
    intro hnil
    rw [hnil] at hlen
    simp at hlen
    omega
  simp only [radVp2attr, h.vendorOf_eq, if_true, finishAttr, taggedData,
    h.untagged, Bool.false_and, Bool.false_eq_true, if_false, hdata,
    Option.map_some]
  rw [if_neg (by simp [hne])]
  simp only [Tlv.bytes, h.legal.plainTlv_value, hlen]
  rw [show 2 + vp.length = vp.length + 2 by omega]
  rfl

/-- A plain pair is sent as one record. -/
theorem PlainPair.sent (h : PlainPair cfg vp) :
    SentAsRecord cfg vp (plainTlv vp) where
  wire := by
    have := h.le
    simp only [nonWire, h.vendorOf_eq, true_and, decide_eq_false_iff_not]
    omega
  ne_ma := h.ne_ma
  notTlv := h.notTlv
  notEncoded := h.notEncoded
  sent r packet original secret := by
    rw [radVp2attr_plain h, Tlv.bytes_length, h.legal.plainTlv_value,
      h.legal.sourceBytes_length]

/-- The bytes a list takes. -/
def plainSize (vps : List ValuePair) : Nat :=
  (vps.map fun vp => vp.length + 2).sum

theorem wire_plainTlv_length {vps : List ValuePair}
    (h : ∀ vp ∈ vps, PlainPair cfg vp) :
    (wire (vps.map plainTlv)).length = plainSize vps := by
  refine wire_map_length fun vp hvp => ?_
  have hl := (h vp hvp).legal
  rw [Tlv.bytes_length, hl.plainTlv_value, hl.sourceBytes_length]

-- ======== decoding

/-- The pair `paircreate` makes of a dictionary entry. -/
def entryPair (da : DictAttr) : ValuePair :=
  { pairalloc (some da) with op := .opEq }

theorem filled_octets (da : DictAttr) (bytes : List UInt8) :
    ((entryPair da).filled bytes).octets bytes.length = bytes := by
  show padTake _ (bytes ++ List.drop bytes.length []) = bytes
  rw [List.drop_nil, padTake_append]

/-- A pair filled with the bytes of a legal value, as far as the typed
switch looks at it. -/
structure FilledWith (vp w : ValuePair) : Prop where
  attr : w.attr = vp.attr
  type : w.type = vp.type
  length : w.length = vp.length
  untagged : w.flags.hasTag = false
  octets : w.octets vp.length = sourceBytes vp

theorem ValuePair.Legal.filled (hl : vp.Legal) {da : DictAttr}
    (hattr : da.attr = vp.attr) (htype : da.type = vp.type)
    (htag : da.flags.hasTag = false) :
    FilledWith vp ((entryPair da).filled (sourceBytes vp)) where
  attr := hattr
  type := htype
  length := hl.sourceBytes_length
  untagged := htag
  octets := by
    rw [← hl.sourceBytes_length]
    exact filled_octets da _

variable {w : ValuePair}

/-- The types whose value is the bytes themselves. -/
theorem arrived_bytes (h : FilledWith vp w)
    (hval : ∀ v : ValuePair, v.type = vp.type →
      v.value = .bytes (v.octets v.length))
    (hsrc : sourceBytes vp = vp.octets vp.length)
    (hns : vp.type ≠ .signed) : w.content = vp.arrived := by
  rw [ValuePair.content, ValuePair.arrived, if_neg hns, hval vp rfl,
    hval w h.type, h.attr, h.type, h.length, h.octets, hsrc]

/-- The types whose value is the separate word. -/
theorem arrived_word {v : ValuePair} (hattr : v.attr = vp.attr)
    (htype : v.type = vp.type) (hlen : v.length = vp.length)
    (hty : vp.type ∈ [PwType.byte, .short, .integer, .date, .ipaddr])
    (hword : v.lvalue = vp.lvalue) : v.content = vp.arrived := by
  simp only [List.mem_cons, List.not_mem_nil, or_false] at hty
  rw [ValuePair.content, ValuePair.arrived, hattr, htype, hlen]
  rcases hty with h | h | h | h | h <;>
    simp [ValuePair.value, htype, h, hword]

/-- The signed integer, read in network order off the sender's host
bytes. -/
theorem arrived_signed {v : ValuePair} {more : List UInt8}
    (hs : vp.type = .signed) (hattr : v.attr = vp.attr)
    (htype : v.type = vp.type) (hlen : v.length = vp.length)
    (hdata : v.data = le32 (ofBe32 (vp.octets 4)) ++ more) :
    v.content = vp.arrived := by
  have hswap : byteSwap32 vp.sinteger = ofBe32 (vp.octets 4) := by
    rw [byteSwap32, ValuePair.sinteger,
      le32_ofLe32 (by simp [ValuePair.octets])]
  have hval : v.value = .word (ofBe32 (vp.octets 4)) := by
    simp only [ValuePair.value, htype, hs, ValuePair.sinteger,
      ValuePair.octets, hdata]
    rw [padTake_of_le (by simp), List.take_left' (by simp), ofLe32_le32]
  rw [ValuePair.content, hval, ValuePair.arrived, if_pos hs, hswap,
    hattr, htype, hlen]

/-- A single octet is widened into the word. -/
theorem typedVp_byte (hvt : vp.type = .byte) (hl : vp.Legal)
    (h : FilledWith vp w) :
    ∃ v, typedVp cfg (sourceBytes vp) w = some v
      ∧ v.content = vp.arrived := by
  simp only [ValuePair.Legal, hvt] at hl
  have hoct := h.octets
  have hsrc : sourceBytes vp = [UInt8.ofNat vp.lvalue.toNat] := by
    simp [sourceBytes, vpSource, hvt, padTake]
  rw [hl.1, hsrc] at hoct
  refine ⟨{ w with
      lvalue := UInt32.ofNat ((w.octets 1).getD 0 0).toNat }, ?_,
    arrived_word h.attr h.type h.length (by simp [hvt]) ?_⟩
  · simp [typedVp, h.type, hvt, h.length, hl.1]
  · -- `Legal` is what makes the widened octet the sender's word
    apply UInt32.toNat_inj.mp
    simp only [hoct, List.getD_cons_zero, UInt32.toNat_ofNat',
      UInt8.toNat_ofNat']
    omega

/-- Two octets are put together in network order. -/
theorem typedVp_short (hvt : vp.type = .short) (hl : vp.Legal)
    (h : FilledWith vp w) :
    ∃ v, typedVp cfg (sourceBytes vp) w = some v
      ∧ v.content = vp.arrived := by
  simp only [ValuePair.Legal, hvt] at hl
  have hoct := h.octets
  have hsrc : sourceBytes vp = [UInt8.ofNat (vp.lvalue.toNat / 256),
      UInt8.ofNat vp.lvalue.toNat] := by
    simp [sourceBytes, vpSource, hvt, padTake]
  rw [hl.1, hsrc] at hoct
  refine ⟨{ w with
      lvalue := UInt32.ofNat (((w.octets 2).getD 0 0).toNat * 256
        + ((w.octets 2).getD 1 0).toNat) }, ?_,
    arrived_word h.attr h.type h.length (by simp [hvt]) ?_⟩
  · simp [typedVp, h.type, hvt, h.length, hl.1]
  · apply UInt32.toNat_inj.mp
    simp only [hoct, List.getD_cons_zero, List.getD_cons_succ,
      UInt32.toNat_ofNat', UInt8.toNat_ofNat']
    omega

/-- An IPv6 prefix passes the decoder's test of its bit count, and the
octets past the prefix are the sender's too. -/
theorem typedVp_ipv6Prefix (hvt : vp.type = .ipv6Prefix) (hl : vp.Legal)
    (h : FilledWith vp w) :
    ∃ v, typedVp cfg (sourceBytes vp) w = some v
      ∧ v.content = vp.arrived := by
  simp only [ValuePair.Legal, hvt] at hl
  have hoct := h.octets
  have hsrc : sourceBytes vp = vp.octets vp.length := by
    simp [sourceBytes, vpSource, hvt, ValuePair.octets]
  have hpad : padTake vp.length (padTake 18 (w.octets vp.length)
      ++ List.drop 18 w.data) = vp.octets vp.length := by
    have hx : (vp.octets vp.length).length = vp.length := by
      simp [ValuePair.octets]
    rw [hoct, hsrc, padTake_of_le (by simp; omega),
      List.take_append_of_le_length (by simp; omega),
      ← padTake_take (by omega)]
    nth_rewrite 1 [← hx]
    exact padTake_self _
  have htwo (v : ValuePair) :
      v.octets 2 = (v.octets vp.length).take 2 :=
    padTake_take (by omega)
  have hbit : ¬128 < ((w.octets 2).getD 1 0).toNat := by
    rw [htwo w, hoct, hsrc, ← htwo vp]
    omega
  refine ⟨{ w with
      data := padTake 18 (w.octets w.length) ++ w.data.drop 18 }, ?_,
    arrived_bytes ⟨h.attr, h.type, h.length, h.untagged, ?_⟩ ?_ hsrc ?_⟩
  · simp only [typedVp, h.type, hvt, h.length]
    rw [if_neg (by omega), if_neg hbit]
  · rw [h.length, hsrc]
    exact hpad
  · intro v hv
    simp [ValuePair.value, hv, hvt]
  · simp [hvt]

/-- The switch over the type, on a legal value. -/
theorem typedVp_arrived (hl : vp.Legal) (h : FilledWith vp w) :
    ∃ v, typedVp cfg (sourceBytes vp) w = some v
      ∧ v.content = vp.arrived := by
  have hoct := h.octets
  have hlen := h.length
  have hty := h.type
  cases hvt : vp.type with
  | byte => exact typedVp_byte hvt hl h
  | short => exact typedVp_short hvt hl h
  | ipv6Prefix => exact typedVp_ipv6Prefix hvt hl h
  | string | octets | ifid | ipv6addr =>
      simp only [ValuePair.Legal, hvt] at hl
      rw [hvt] at hty
      refine ⟨w, by simp [typedVp, hty, hlen, hl],
        arrived_bytes h ?_ ?_ ?_⟩
      · intro v hv
        simp [ValuePair.value, hv, hvt]
      · simp [sourceBytes, vpSource, hvt, ValuePair.octets]
      · simp [hvt]
  | integer =>
      simp only [ValuePair.Legal, hvt] at hl
      rw [hvt] at hty
      have hsrc : sourceBytes vp = be32 vp.lvalue := by
        simp [sourceBytes, vpSource, hvt, padTake, be32]
      rw [hl, hsrc] at hoct
      simp only [typedVp, hty, hlen, hl, ne_eq, not_true_eq_false,
        if_false, h.untagged, Bool.false_eq_true, hoct, ofBe32_be32]
      -- a named value changes the text, which no content reads
      cases cfg.dict.valbyattr w.attr vp.lvalue <;>
        exact ⟨_, rfl, arrived_word h.attr hvt.symm hl.symm
          (by simp [hvt]) rfl⟩
  | date =>
      simp only [ValuePair.Legal, hvt] at hl
      rw [hvt] at hty
      have hsrc : sourceBytes vp = be32 vp.lvalue := by
        simp [sourceBytes, vpSource, hvt, padTake, be32]
      rw [hl, hsrc] at hoct
      refine ⟨{ w with lvalue := ofBe32 (w.octets 4) },
        by simp [typedVp, hty, hlen, hl],
        arrived_word h.attr h.type h.length (by simp [hvt]) ?_⟩
      simp only [hoct, ofBe32_be32]
  | ipaddr =>
      simp only [ValuePair.Legal, hvt] at hl
      rw [hvt] at hty
      have hsrc : sourceBytes vp = le32 vp.lvalue := by
        simp [sourceBytes, vpSource, hvt, padTake, le32, be32]
      rw [hl, hsrc] at hoct
      refine ⟨{ w with lvalue := ofLe32 (w.octets 4) },
        by simp [typedVp, hty, hlen, hl],
        arrived_word h.attr h.type h.length (by simp [hvt]) ?_⟩
      simp only [hoct, ofLe32_le32]
  | signed =>
      simp only [ValuePair.Legal, hvt] at hl
      rw [hvt] at hty
      have hsrc : sourceBytes vp = vp.octets 4 := by
        simp [sourceBytes, vpSource, hvt, ValuePair.octets]
      rw [hl, hsrc] at hoct
      refine ⟨{ w.setOctets (le32 (ofBe32 (w.octets 4))) with
          lvalue := ofBe32 (w.octets 4) }, ?_, ?_⟩
      · simp [typedVp, hty, hlen, hl]
      · rw [hoct]
        exact arrived_signed hvt h.attr h.type h.length rfl
  | abinary | ethernet | comboIp | tlv =>
      simp only [ValuePair.Legal, hvt] at hl

variable {ctx : DecCtx} {s : DecState}

/-- The decoder's loop makes one pair of a plain attribute. -/
theorem PlainPair.made (h : PlainPair ctx.cfg vp) :
    ∃ v, v.content = vp.arrived ∧ MadeOfRecord ctx (plainTlv vp) v := by
  obtain ⟨da, hda, htype, htag, henc⟩ := h.defined
  have hattr := ctx.cfg.dict.attr_key _ _ hda
  obtain ⟨v, hv', hc⟩ := typedVp_arrived h.legal
    (h.legal.filled hattr htype htag)
  have hnum : (plainTlv vp).type.toNat = vp.attr := by
    have := h.le
    show (UInt8.ofNat vp.attr).toNat = _
    rw [UInt8.toNat_ofNat']
    omega
  have hne0 : (plainTlv vp).type ≠ 0 := by
    intro hz
    have := h.pos
    rw [hz] at hnum
    change 0 = _ at hnum
    omega
  have hval := h.legal.plainTlv_value
  have hsl := h.legal.sourceBytes_length
  obtain ⟨-, -, h1, h253⟩ := h.legal.source
  refine ⟨v, hc, ?_⟩
  intro s rest hv _ h0 hp hbuf hlen hmax
  have hread : fetchN s.buf (s.ptr + 2) (sourceBytes vp).length
      = .ok (sourceBytes vp) := by
    have := fetchN_drop _ ((plainTlv vp).value)
      [(plainTlv vp).type, UInt8.ofNat ((plainTlv vp).value.length + 2)]
        rest h0 hp
      (by rw [hbuf, Tlv.bytes]; simp)
    rw [hval] at this
    exact this
  have hstep := stepKind_standard ctx hv h0 hbuf hlen hne0
    (Or.inl (by rw [hnum]; exact h.ne_vsa))
  have hmake := createPair_plain
    (s := { s with
      ptr := s.ptr + 2, packetLength := s.packetLength - 2 })
    hda htag henc (by
      intro hnil
      rw [hnil] at hsl
      simp at hsl
      omega) (by omega) hread (plainPair_typed hv')
  rw [hnum] at hstep
  rw [← hval] at hmake
  exact decodeStep_past hstep hmake hmax

/-- A list of standard attributes survives the trip over the wire if and
only if every signed integer in it reads the same in both byte orders. -/
theorem radDecode_radEncode_iff (cfg : Config) (r : Rand)
    (packet fresh : RadiusPacket) (original : Option RadiusPacket)
    (secret : List UInt8) (original' : Option RadiusPacket)
    (secret' : Option (List UInt8))
    (h : ∀ vp ∈ packet.vps, PlainPair cfg vp)
    (hreq : needsOriginal packet.code = true → original.isSome = true)
    (hfit : authHdrLen + plainSize packet.vps ≤ maxPacketLen)
    (hmax : 0 < cfg.maxAttributes →
      packet.vps.length ≤ cfg.maxAttributes) :
    (∃ out received,
      radEncode cfg r packet original secret = .ok (some out)
        ∧ radDecode cfg { fresh with data := out.packet.data, vps := [] }
            original' secret' = .ok (0, received)
        ∧ received.vps.map ValuePair.content
          = packet.vps.map ValuePair.content)
      ↔ ∀ vp ∈ packet.vps, vp.type = .signed →
        byteSwap32 vp.sinteger = vp.sinteger := by
  have hsent : List.Forall₂ (SentAsRecord cfg) packet.vps
      (packet.vps.map plainTlv) := by
    rw [List.forall₂_map_right_iff, List.forall₂_same]
    exact fun vp hvp => (h vp hvp).sent
  obtain ⟨out, hdr, hout, hhdr, hdata⟩ := radEncode_records (r := r)
    hsent hreq (by rw [wire_plainTlv_length h]; exact hfit)
  obtain ⟨p, hp⟩ : ∃ p : RadiusPacket,
      p = { fresh with data := out.packet.data, vps := [] } := ⟨_, rfl⟩
  have hpd : p.data = hdr ++ wire (packet.vps.map plainTlv) := by
    rw [hp]
    exact hdata
  obtain ⟨made, hall, hmade⟩ := exists_made fun vp hvp =>
    @PlainPair.made vp (decodeCtx cfg p original' secret') (h vp hvp)
  obtain ⟨received₀, hdec, hvps'⟩ := radDecode_records (by rw [hp]) hall
    hhdr hpd (by simpa using hmax)
  have hkey : made.map ValuePair.content
      = packet.vps.map ValuePair.content
      ↔ ∀ vp ∈ packet.vps, vp.type = .signed →
        byteSwap32 vp.sinteger = vp.sinteger := by
    rw [hmade, List.map_inj_left]
    exact forall₂_congr fun vp _ => ValuePair.arrived_eq_content_iff
  constructor
  · rintro ⟨out', received, hout', hdec', hsame⟩
    rw [hout] at hout'
    cases hout'
    rw [← hp, hdec] at hdec'
    cases hdec'
    rw [← hkey, ← hvps']
    exact hsame
  · intro hsame
    refine ⟨out, _, hout, by rw [← hp]; exact hdec, ?_⟩
    rw [hvps']
    exact hkey.mpr hsame

/-- A dictionary with a string, an integer and a signed attribute. -/
def threeConfig : Config :=
  { bareConfig with
    dict := .ofEntries [⟨1, .string, 0, {}⟩, ⟨5, .integer, 0, {}⟩,
      ⟨200, .signed, 0, {}⟩] [] }

/-- A request with one attribute of each, the signed one holding `n`. -/
def threeRequest (n : UInt32) : RadiusPacket :=
  { code := pwAuthenticationRequest
    vps := [letters 1 3,
      { attr := 5, type := .integer, length := 4, lvalue := 17 },
      { attr := 200, type := .signed, length := 4, data := le32 n }] }

theorem threeRequest_plain (n : UInt32) :
    ∀ vp ∈ (threeRequest n).vps, PlainPair threeConfig vp := by
  intro vp hvp
  simp only [threeRequest, List.mem_cons, List.not_mem_nil,
    or_false] at hvp
  rcases hvp with rfl | rfl | rfl
  · exact ⟨by decide, by decide, by decide, by decide,
      ⟨_, rfl, rfl, rfl, rfl⟩, rfl, rfl, rfl, rfl, by decide, by decide⟩
  · exact ⟨by decide, by decide, by decide, by decide,
      ⟨_, rfl, rfl, rfl, rfl⟩, rfl, rfl, rfl, rfl, rfl⟩
  · exact ⟨by show 1 ≤ 200; omega, by show 200 ≤ 255; omega,
      by show 200 ≠ 26; omega, by show 200 ≠ 80; omega,
      ⟨_, rfl, rfl, rfl, rfl⟩, rfl, rfl, rfl, rfl, rfl⟩

theorem threeRequest_survives :
    ∃ out received,
      radEncode threeConfig ⟨fun _ => 0, 0, 0⟩ (threeRequest 0xabababab)
          none [] = .ok (some out)
        ∧ radDecode threeConfig { data := out.packet.data, vps := [] }
            none none = .ok (0, received)
        ∧ received.vps.map ValuePair.content
          = (threeRequest 0xabababab).vps.map ValuePair.content :=
  (radDecode_radEncode_iff threeConfig ⟨fun _ => 0, 0, 0⟩
    (threeRequest 0xabababab) {} none [] none none (threeRequest_plain _)
    (by decide) (by decide) (by decide)).mpr (by decide)

/-- The signed integer 1 arrives as 16777216. -/
theorem threeRequest_altered :
    (∀ vp ∈ (threeRequest 1).vps, PlainPair threeConfig vp)
      ∧ ∃ out received,
        radEncode threeConfig ⟨fun _ => 0, 0, 0⟩ (threeRequest 1) none []
            = .ok (some out)
          ∧ radDecode threeConfig { data := out.packet.data, vps := [] }
              none none = .ok (0, received)
          ∧ received.vps.map ValuePair.content
            ≠ (threeRequest 1).vps.map ValuePair.content :=
  ⟨threeRequest_plain 1, _, _, rfl, rfl, by decide⟩

end WinRadius
