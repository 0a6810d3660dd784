/-
The trip of a packet whose attributes are one record each.

`SentAsRecord` says that the encoder makes a record of a pair, whatever else is
in the packet, and `MadeOfRecord` that the decoder's loop makes a pair of a
record, wherever it stands. A packet of pairs that are sent as records
arrives as the pairs that these become, in their order.
-/
import WinRadius.Proofs.DecodeStep
import WinRadius.Proofs.EncodeSound

namespace WinRadius

open Lib

-- ======== encoding

/-- The bytes that a record for each pair takes. -/
theorem wire_map_length {tlv : ValuePair → Tlv} {size : ValuePair → Nat}
    {vps : List ValuePair}
    (h : ∀ vp ∈ vps, (tlv vp).bytes.length = size vp) :
    (wire (vps.map tlv)).length = (vps.map size).sum := by
  induction vps with
  | nil => rfl
  | cons vp vps ih =>
      have hrest := ih fun v hv => h v (List.mem_cons_of_mem _ hv)
      simp only [List.map_cons, wire_cons, List.length_append, hrest,
        h vp List.mem_cons_self, List.sum_cons]

/-- The pair becomes the record `a`. -/
structure SentAsRecord (cfg : Config) (vp : ValuePair) (a : Tlv) : Prop where
  wire : nonWire vp = false
  ne_ma : vp.attr ≠ pwMessageAuthenticator
  notTlv : vp.flags.isTlv = false
  notEncoded : vp.flags.encoded = false
  sent : ∀ r packet original secret,
    radVp2attr cfg r packet original secret vp
      = some ⟨a.bytes, a.bytes.length, r⟩

section encoding

variable {cfg : Config} {packet : RadiusPacket}
  {original : Option RadiusPacket} {secret : List UInt8}
  {vps : List ValuePair} {as : List Tlv}

variable (packet original secret) in
/-- One round of the encoder's loop. -/
theorem encodeRound_record {vp : ValuePair} {a : Tlv} (st : EncState)
    (rest : List ValuePair) (h : SentAsRecord cfg vp a)
    (hfit : st.totalLength + a.bytes.length ≤ maxPacketLen) :
    ∃ st', encodeRound cfg packet original secret st vp rest
        = .ok (.go st' rest)
      ∧ st'.body = st.body ++ a.bytes
      ∧ st'.totalLength = st.totalLength + a.bytes.length := by
  have hz : zeroMa vp = vp := if_neg h.ne_ma
  have hmax : maxPacketLen = 4096 := rfl
  refine ⟨EncState.advance { st with vps := st.vps ++ [] ++ [vp] }
    a.bytes a.bytes.length, ?_, rfl, ?_⟩
  · simp only [encodeRound, h.wire, Bool.false_eq_true, if_false,
      markMa_of_ne h.ne_ma, hz, h.notEncoded, h.notTlv, encodeOne,
      encodeAttr, h.sent]
    rw [if_neg (by omega)]
    rfl
  · simp only [EncState.advance]
    omega

variable (packet original secret) in
/-- The encoder's loop over a list of pairs that fit. -/
theorem encodeLoop_records {fuel : Nat} (st : EncState)
    (h : List.Forall₂ (SentAsRecord cfg) vps as) (hfuel : vps.length ≤ fuel)
    (hfit : st.totalLength + (wire as).length ≤ maxPacketLen) :
    ∃ stf, encodeLoop cfg packet original secret fuel st vps
        = .ok (some stf)
      ∧ stf.body = st.body ++ wire as
      ∧ stf.totalLength = st.totalLength + (wire as).length := by
  induction h generalizing fuel st with
  | nil =>
      refine ⟨st, ?_, by simp, rfl⟩
      cases fuel with
      | zero => rfl
      | succ fuel => rfl
  | @cons vp a vps as hfirst h ih =>
      cases fuel with
      | zero => simp at hfuel
      | succ fuel =>
          simp only [wire_cons, List.length_append] at hfit
          obtain ⟨st', hround, hbody, htotal⟩ := encodeRound_record packet
            original secret st vps hfirst (by omega)
          obtain ⟨stf, hloop, hfbody, hftotal⟩ := @ih fuel st'
            (by simpa using hfuel) (by omega)
          refine ⟨stf, ?_, ?_, ?_⟩
          · simp only [encodeLoop, hround, ok_bind]
            exact hloop
          · rw [hfbody, hbody, wire_cons, List.append_assoc]
          · rw [hftotal, htotal, wire_cons, List.length_append]
            omega

/-- The packet of a list of pairs that fit. -/
theorem radEncode_records {r : Rand}
    (h : List.Forall₂ (SentAsRecord cfg) packet.vps as)
    (hreq : needsOriginal packet.code = true → original.isSome = true)
    (hfit : authHdrLen + (wire as).length ≤ maxPacketLen) :
    ∃ out hdr, radEncode cfg r packet original secret = .ok (some out)
      ∧ hdr.length = authHdrLen
      ∧ out.packet.data = hdr ++ wire as := by
  have hvps : (encodePacket packet).vps = packet.vps := by
    unfold encodePacket
    split_ifs
    · rfl
    · rfl
  have hgo : ¬(needsOriginal packet.code && original.isNone) = true := by
    cases hn : needsOriginal packet.code with
    | false => simp
    | true =>
        have := hreq hn
        cases original with
        | none => cases this
        | some o => simp
  obtain ⟨stf, hloop, hbody, htotal⟩ := encodeLoop_records
    (encodePacket packet) original secret { rand := r } h (Nat.le_refl _)
    hfit
  refine ⟨encodeOut (encodePacket packet) stf,
    encodeHeader (encodePacket packet) stf.totalLength, ?_,
    encodeHeader_length _ _, ?_⟩
  · unfold radEncode
    rw [if_neg hgo]
    simp only [hvps, hloop, ok_bind, pure_eq_ok]
  · have htot : stf.totalLength = authHdrLen + stf.body.length := by
      rw [htotal, hbody]
      rfl
    show encodeData (encodePacket packet) stf = _
    rw [encodeData_eq _ htot, hbody]
    rfl

end encoding

-- ======== decoding

/-- The state behind a record that became one pair. -/
def DecState.past (s : DecState) (a : Tlv) (v : ValuePair) : DecState :=
  { s with
    ptr := s.ptr + a.bytes.length
    packetLength := s.packetLength - a.bytes.length
    vps := s.vps ++ [v]
    numAttributes := s.numAttributes + 1 }

/-- The decoder's loop makes the pair `v` of the record. -/
def MadeOfRecord (ctx : DecCtx) (a : Tlv) (v : ValuePair) : Prop :=
  ∀ (s : DecState) (rest : List UInt8), s.vendorcode = 0 →
    s.vendorlen = 0 → 0 ≤ s.ptr → s.ptr ≤ s.buf.length →
    s.buf.drop s.ptr.toNat = a.bytes ++ rest →
    s.packetLength = (a.bytes ++ rest).length →
    (0 < ctx.cfg.maxAttributes →
      s.numAttributes + 1 ≤ ctx.cfg.maxAttributes) →
    decodeStep ctx s = .ok (.loop (s.past a v))

section decoding

variable {ctx : DecCtx} {s : DecState} {as : List Tlv}
  {vs : List ValuePair}

/-- A step that makes one pair of the record's bytes leaves the record
behind. -/
theorem decodeStep_past {a : Tlv} {v : ValuePair} {attr : Nat}
    (hstep : stepKind ctx s = .ok (.pair { s with
      ptr := s.ptr + 2, packetLength := s.packetLength - 2 }
      attr a.value.length))
    (hmake : createPair ctx { s with
        ptr := s.ptr + 2, packetLength := s.packetLength - 2 }
        attr a.value.length
      = .ok (createdPair ctx { s with
        ptr := s.ptr + 2, packetLength := s.packetLength - 2 } [v]
        a.value.length))
    (hmax : 0 < ctx.cfg.maxAttributes →
      s.numAttributes + 1 ≤ ctx.cfg.maxAttributes) :
    decodeStep ctx s = .ok (.loop (s.past a v)) := by
  rw [decodeStep, hstep, ok_bind, StepKind.finish, hmake]
  simp only [createdPair, List.length_singleton]
  rw [if_neg (by omega)]
  simp only [decSkip, DecState.past, Tlv.bytes_length,
    Except.ok.injEq, DecNext.loop.injEq, DecState.mk.injEq, true_and,
    and_true]
  push_cast
  omega

/-- The pairs that a list of them arrives as. -/
theorem exists_made {γ : Type} {tlv : ValuePair → Tlv}
    {before after : ValuePair → γ} {vps : List ValuePair}
    (h : ∀ vp ∈ vps, ∃ v, after v = before vp
      ∧ MadeOfRecord ctx (tlv vp) v) :
    ∃ made, List.Forall₂ (MadeOfRecord ctx) (vps.map tlv) made
      ∧ made.map after = vps.map before := by
  induction vps with
  | nil => exact ⟨[], .nil, rfl⟩
  | cons vp vps ih =>
      obtain ⟨v, hc, hv⟩ := h vp List.mem_cons_self
      obtain ⟨made, hmade, hcs⟩ := ih fun u hu =>
        h u (List.mem_cons_of_mem _ hu)
      refine ⟨v :: made, .cons hv hmade, ?_⟩
      rw [List.map_cons, List.map_cons, hc, hcs]

/-- The decoder's loop over records. -/
theorem decodeLoop_records {fuel : Nat}
    (h : List.Forall₂ (MadeOfRecord ctx) as vs) (hv : s.vendorcode = 0)
    (hvl : s.vendorlen = 0) (h0 : 0 ≤ s.ptr) (hp : s.ptr ≤ s.buf.length)
    (hbuf : s.buf.drop s.ptr.toNat = wire as)
    (hlen : s.packetLength = (wire as).length) (hfuel : as.length < fuel)
    (hmax : 0 < ctx.cfg.maxAttributes →
      s.numAttributes + as.length ≤ ctx.cfg.maxAttributes) :
    ∃ s', decodeLoop ctx fuel s = .ok (0, s') ∧ s'.vps = s.vps ++ vs := by
  induction h generalizing fuel s with
  | nil =>
      cases fuel with
      | zero => omega
      | succ fuel =>
          refine ⟨s, ?_, by simp⟩
          rw [decodeLoop, if_pos (by simp at hlen; omega)]
          rfl
  | @cons a v as vs hfirst h ih =>
      cases fuel with
      | zero => omega
      | succ fuel =>
          rw [wire_cons] at hbuf hlen
          simp only [List.length_cons] at hfuel hmax
          have hdrop := congrArg List.length hbuf
          simp only [List.length_drop, List.length_append] at hdrop
          have hb := Tlv.bytes_length a
          have hstep := hfirst s (wire as) hv hvl h0 hp hbuf hlen (by omega)
          rw [List.length_append] at hlen
          obtain ⟨s', hloop, hvps⟩ := @ih (s.past a v) fuel hv hvl
            (by show 0 ≤ s.ptr + _; omega)
            (by show s.ptr + _ ≤ (s.buf.length : Int); omega)
            (by
              show s.buf.drop (s.ptr + _).toNat = _
              rw [show (s.ptr + (a.bytes.length : Int)).toNat
                = s.ptr.toNat + a.bytes.length by omega,
                ← List.drop_drop, hbuf, List.drop_left])
            (by show s.packetLength - _ = _; omega) (by omega)
            (by
              show 0 < _ → s.numAttributes + 1 + as.length ≤ _
              omega)
          refine ⟨s', ?_, ?_⟩
          · rw [decodeLoop, if_neg (by omega), hstep, ok_bind]
            exact hloop
          · rw [hvps]
            show s.vps ++ [v] ++ vs = _
            rw [List.append_assoc]
            rfl

/-- `rad_decode` of a packet of records. -/
theorem radDecode_records {cfg : Config} {packet : RadiusPacket}
    {original : Option RadiusPacket} {secret : Option (List UInt8)}
    {hdr : List UInt8} (hnone : packet.vps = [])
    (h : List.Forall₂ (MadeOfRecord (decodeCtx cfg packet original secret))
      as vs)
    (hhdr : hdr.length = authHdrLen) (hdata : packet.data = hdr ++ wire as)
    (hmax : 0 < cfg.maxAttributes → as.length ≤ cfg.maxAttributes) :
    ∃ received, radDecode cfg packet original secret = .ok (0, received)
      ∧ received.vps = vs := by
  have hlen : packet.data.length = authHdrLen + (wire as).length := by
    rw [hdata, List.length_append, hhdr]
  have htwo := two_mul_length_le_wire as
  obtain ⟨s', hloop, hvps⟩ := @decodeLoop_records _ (decodeInit packet) _ _
    (packet.data.length + 1) h rfl rfl
    (by show (0 : Int) ≤ authHdrLen; omega)
    (by show (authHdrLen : Int) ≤ (packet.data.length : Int); omega)
    (by
      show packet.data.drop authHdrLen = _
      rw [hdata, List.drop_left' hhdr])
    (by
      show (packet.data.length : Int) - authHdrLen = _
      omega)
    (by omega)
    (by
      intro hm
      show 0 + _ ≤ _
      rw [Nat.zero_add]
      exact hmax hm)
  refine ⟨{ packet with data := s'.buf, vps := s'.vps }, ?_, ?_⟩
  · rw [radDecode, hloop, ok_bind]
    rfl
  · show s'.vps = vs
    rw [hvps]
    show packet.vps ++ vs = vs
    rw [hnone, List.nil_append]

end decoding

end WinRadius
