/-
The loop of `rad_encode` as a run, and what it leaves in the packet.

# The invariant

`EncSound` is what the rest of the library relies on after encoding: the
body is a string of whole attributes, the running total is its length and
within the maximum, nothing was written behind `data[]`, and the offset
kept for `rad_sign` is that of a Message-Authenticator of 18 bytes.

# Where it is lost

The loop records the offset and writes the attribute before it knows
whether either is good. `RoundOk` is the exact condition on a round: from
a sound state a round ends in a sound state if and only if it holds
(`round_sound_iff`). A Message-Authenticator must really be sent, with 18
bytes, while it fits; a continued attribute must end inside the buffer;
the Raw-Attribute of a debug build must hold whole attributes.
-/
import WinRadius.Proofs.EncodeBody
import WinRadius.Lib.Run

namespace WinRadius

open Lib

variable {cfg : Config} {packet : RadiusPacket}
  {original : Option RadiusPacket} {secret : List UInt8}
  {st st' : EncState} {reply : ValuePair} {rest : List ValuePair}

-- ======== one round

@[simp] theorem zeroMa_flags (vp : ValuePair) :
    (zeroMa vp).flags = vp.flags := by
  unfold zeroMa
  split_ifs <;> rfl

@[simp] theorem zeroMa_attr (vp : ValuePair) :
    (zeroMa vp).attr = vp.attr := by
  unfold zeroMa
  split_ifs <;> rfl

/-- The bytes of the pair are sent as they are: a Raw-Attribute in a debug
build. -/
def rawSent (cfg : Config) (reply : ValuePair) : Bool :=
  nonWire reply && !cfg.ndebug && decide (reply.attr = pwRawAttribute)

/-- The pair a round hands to `rad_vp2attr`, if it comes to that. -/
def sentPair (cfg : Config) (reply : ValuePair)
    (rest : List ValuePair) : Option ValuePair :=
  if nonWire reply || reply.flags.encoded then none
  else if reply.flags.isTlv then
    match radVp2tlv cfg (zeroMa reply :: rest) with
    | (some tlv, _) => some tlv
    | (none, vps) => (vps.drop 1).head?
  else some (zeroMa reply)

/-- How a round comes by the pair `vp` it sends and the list `left` it
goes on with. -/
inductive SentAs (cfg : Config) (reply : ValuePair)
    (rest : List ValuePair) : ValuePair → List ValuePair → Prop where
  /-- the pair itself -/
  | self : reply.flags.isTlv = false →
      SentAs cfg reply rest (zeroMa reply) rest
  /-- the packed group that starts with it -/
  | packed {tlv : ValuePair} {vps : List ValuePair} :
      reply.flags.isTlv = true →
      radVp2tlv cfg (zeroMa reply :: rest) = (some tlv, vps) →
      SentAs cfg reply rest tlv (vps.drop 1)
  /-- the pair behind a group that could not be packed -/
  | slipped {next : ValuePair} {vps left : List ValuePair} :
      reply.flags.isTlv = true →
      radVp2tlv cfg (zeroMa reply :: rest) = (none, vps) →
      vps.drop 1 = next :: left → SentAs cfg reply rest next left

theorem SentAs.sentPair {vp : ValuePair} {left : List ValuePair}
    (hw : nonWire reply = false) (henc : reply.flags.encoded = false)
    (h : SentAs cfg reply rest vp left) :
    sentPair cfg reply rest = some vp := by
  cases h with
  | self htlv => simp [WinRadius.sentPair, hw, henc, htlv]
  | packed htlv hp => simp [WinRadius.sentPair, hw, henc, htlv, hp]
  | slipped htlv hp hd =>
      simp [WinRadius.sentPair, hw, henc, htlv, hp, hd]

/-- Everything a round can do. -/
theorem encodeRound_cases {res : EncRound}
    (h : encodeRound cfg packet original secret st reply rest
      = .ok res) :
    (nonWire reply = true ∧ rawSent cfg reply = false
      ∧ res = .go { st with vps := st.vps ++ [reply] } rest)
    ∨ (rawSent cfg reply = true
      ∧ res = .go (EncState.advance
          { st with vps := st.vps ++ [reply] }
          (reply.octets reply.length) reply.length) rest)
    ∨ (nonWire reply = false ∧ reply.flags.encoded = true
      ∧ res = .go { markMa st reply with
          vps := (markMa st reply).vps ++ [zeroMa reply] } rest)
    ∨ (nonWire reply = false ∧ reply.flags.encoded = false
      ∧ ∃ vp seen left, SentAs cfg reply rest vp left
        ∧ res = encodeOne cfg packet original secret (markMa st reply)
            seen vp left) := by
  unfold encodeRound at h
  cases hnw : nonWire reply with
  | true =>
      simp only [hnw, if_true] at h
      split at h
      · next hraw =>
          right; left
          cases h
          refine ⟨by simp [rawSent, hnw] at hraw ⊢; exact hraw, ?_⟩
          simp [ValuePair.octets]
      · next hraw =>
          left
          cases h
          refine ⟨rfl, ?_, rfl⟩
          simpa [rawSent, hnw] using hraw
  | false =>
      simp only [hnw, Bool.false_eq_true, if_false, zeroMa_flags] at h
      right; right
      cases henc : reply.flags.encoded with
      | true =>
          simp only [henc, if_true, pure_eq_ok, Except.ok.injEq] at h
          exact Or.inl ⟨rfl, rfl, h.symm⟩
      | false =>
          simp only [henc, Bool.false_eq_true, if_false] at h
          refine Or.inr ⟨rfl, rfl, ?_⟩
          split at h
          · next htlv =>
              split at h
              · next tlv vps hp =>
                  cases h
                  exact ⟨tlv, _, _, .packed htlv hp, rfl⟩
              · next vps hp =>
                  split at h
                  · cases h
                  · next vp left hd =>
                      cases h
                      exact ⟨vp, _, left, .slipped htlv hp hd, rfl⟩
          · next htlv =>
              cases h
              exact ⟨zeroMa reply, [], rest,
                .self (by simpa using htlv), rfl⟩

/-- A round can leave the loop's state as `st'`, going on or stopping. -/
def RoundLeaves (cfg : Config) (packet : RadiusPacket)
    (original : Option RadiusPacket) (secret : List UInt8)
    (st : EncState) (reply : ValuePair) (rest : List ValuePair)
    (st' : EncState) : Prop :=
  ∃ rest', encodeRound cfg packet original secret st reply rest
      = .ok (.go st' rest')
    ∨ encodeRound cfg packet original secret st reply rest
      = .ok (.stop st' rest')

-- ======== the invariant

/-- The offset is unset, or that of an 18-byte Message-Authenticator of
the body. -/
def MaPlaced (offset : Nat) (body : List UInt8) : Prop :=
  offset = 0 ∨ ∃ front ma back, body = wire (front ++ ma :: back)
    ∧ offset = authHdrLen + (wire front).length
    ∧ ma.type.toNat = pwMessageAuthenticator
    ∧ ma.value.length = authVectorLen

/-- What every state of the loop should satisfy. -/
structure EncSound (st : EncState) : Prop where
  tiles : ∃ as, st.body = wire as
  total : st.totalLength = authHdrLen + st.body.length
  small : st.totalLength ≤ maxPacketLen
  inside : st.extent ≤ encodeBufLen
  ma : MaPlaced st.offset st.body

/-- The condition on a round, in terms of the state before it and of the
pair it sends. -/
structure RoundOk (cfg : Config) (packet : RadiusPacket)
    (original : Option RadiusPacket) (secret : List UInt8)
    (st : EncState) (reply : ValuePair) (rest : List ValuePair) :
    Prop where
  raw : rawSent cfg reply = true →
    (∃ as, reply.octets reply.length = wire as)
      ∧ st.totalLength + reply.length ≤ maxPacketLen
  fits : ∀ vp out, sentPair cfg reply rest = some vp →
    radVp2attr cfg st.rand packet original secret vp = some out →
      st.totalLength + out.extent ≤ encodeBufLen
  ma : reply.attr = pwMessageAuthenticator →
    reply.flags.encoded = false
      ∧ ∀ vp out, sentPair cfg reply rest = some vp →
        radVp2attr cfg st.rand packet original secret vp = some out →
          out.bytes.take 2 = [80, 18]
            ∧ st.totalLength + 18 ≤ maxPacketLen

/-- A Message-Authenticator has a wire number. -/
theorem nonWire_ma (h : reply.attr = pwMessageAuthenticator) :
    nonWire reply = false := by
  simp only [nonWire, h]
  decide

/-- Attributes added behind a placed Message-Authenticator do not move
it. -/
theorem MaPlaced.append {offset : Nat} {body : List UInt8}
    (h : MaPlaced offset body) (as : List Tlv) :
    MaPlaced offset (body ++ wire as) := by
  rcases h with h0 | ⟨front, ma, back, hb, ho, ht, hl⟩
  · exact Or.inl h0
  · refine Or.inr ⟨front, ma, back ++ as, ?_, ho, ht, hl⟩
    rw [hb, ← wire_append, List.append_assoc, List.cons_append]

/-- An offset at the end of the body so far is good exactly when a
Message-Authenticator is put there. -/
theorem maPlaced_end_iff (as bs : List Tlv) :
    MaPlaced (authHdrLen + (wire as).length) (wire as ++ wire bs)
      ↔ (wire bs).take 2 = [80, 18] := by
  constructor
  · rintro (h0 | ⟨front, ma, back, hb, ho, ht, hl⟩)
    · exact absurd h0 (by simp [authHdrLen])
    · rw [wire_append, wire_cons] at hb
      obtain ⟨-, htail⟩ := List.append_inj hb (by omega)
      have ht' : ma.type = 80 := UInt8.toNat_inj.mp ht
      have hl' : ma.value.length = 16 := hl
      rw [htail, Tlv.bytes, ht', hl']
      rfl
  · intro h
    cases bs with
    | nil => simp at h
    | cons b bs =>
        simp only [wire_cons, Tlv.bytes, List.cons_append,
          List.take_succ_cons, List.take_zero, List.cons.injEq,
          and_true] at h
        have hlen := b.lenByte_toNat
        rw [h.2] at hlen
        refine Or.inr ⟨as, b, bs, by rw [wire_append], rfl, ?_, ?_⟩
        · rw [h.1]
          rfl
        · show b.value.length = 16
          change 18 = _ at hlen
          omega

/-- A string of attributes goes on being one exactly with a string of
attributes. -/
theorem wire_append_tiles_iff {as : List Tlv} {bs : List UInt8} :
    (∃ cs, wire as ++ bs = wire cs) ↔ ∃ cs, bs = wire cs := by
  constructor
  · rintro ⟨cs, h⟩
    induction as generalizing cs with
    | nil => exact ⟨cs, h⟩
    | cons a as ih =>
        cases cs with
        | nil => simp [Tlv.bytes] at h
        | cons c cs =>
            rw [wire_cons, wire_cons, List.append_assoc] at h
            obtain ⟨-, hrest⟩ := bytes_append_inj h
            exact ih cs hrest
  · rintro ⟨cs, rfl⟩
    exact ⟨as ++ cs, by rw [wire_append]⟩

-- ======== one round, again

theorem markMa_of_ne (h : reply.attr ≠ pwMessageAuthenticator) :
    markMa st reply = st := if_neg h

theorem markMa_of_eq (h : reply.attr = pwMessageAuthenticator) :
    markMa st reply = { st with offset := st.totalLength } := if_pos h

@[simp] theorem markMa_body : (markMa st reply).body = st.body := by
  unfold markMa
  split_ifs <;> rfl

@[simp] theorem markMa_total :
    (markMa st reply).totalLength = st.totalLength := by
  unfold markMa
  split_ifs <;> rfl

@[simp] theorem markMa_extent :
    (markMa st reply).extent = st.extent := by
  unfold markMa
  split_ifs <;> rfl

@[simp] theorem markMa_rand : (markMa st reply).rand = st.rand := by
  unfold markMa
  split_ifs <;> rfl

/-- Only a Vendor-Specific attribute is continued, so the one numbered 80
is a single attribute. -/
theorem AttrTiles.ma_length {vp : ValuePair} {out : AttrOut}
    {as : List Tlv} (h : AttrTiles vp out as)
    (hma : out.bytes.take 2 = [80, 18]) : out.bytes.length = 18 := by
  have hb := h.bytes
  rw [hb] at hma ⊢
  match as, h, hma with
  | a :: as, h, hma =>
      simp only [wire_cons, Tlv.bytes, List.cons_append,
        List.take_succ_cons, List.take_zero, List.cons.injEq,
        and_true] at hma
      have hwt : wireType vp = 80 := by
        rw [← h.types a (by simp), hma.1]
      have hv : vendorOf vp.attr = 0 := by
        by_contra hv
        rw [wireType, if_neg hv] at hwt
        exact absurd hwt (by decide)
      have h1 := h.single hv
      have hnil : as = [] := by
        simpa using h1
      have hlen := a.lenByte_toNat
      rw [hma.2] at hlen
      change 18 = _ at hlen
      rw [hnil, wire_singleton, Tlv.bytes_length]
      omega

/-- The round that sends `vp`, from a sound state: the good cases. -/
theorem encodeOne_sound {seen rest' rest'' : List ValuePair}
    {vp : ValuePair} (hs : EncSound st)
    (hok : RoundOk cfg packet original secret st reply rest)
    (hvp : sentPair cfg reply rest = some vp)
    (h : encodeOne cfg packet original secret (markMa st reply) seen vp
        rest' = .go st' rest''
      ∨ encodeOne cfg packet original secret (markMa st reply) seen vp
        rest' = .stop st' rest'') : EncSound st' := by
  obtain ⟨as, has⟩ := hs.tiles
  have htot := hs.total
  have hsmall := hs.small
  simp only [encodeOne, encodeAttr, markMa_rand, markMa_total] at h
  cases hout : radVp2attr cfg st.rand packet original secret vp with
  | none => simp [hout] at h
  | some out =>
      obtain ⟨bs, hbs, -⟩ := radVp2attr_tiles hout
      have hfit := hok.fits vp out hvp hout
      simp only [hout] at h
      by_cases hlong : maxPacketLen < st.totalLength + out.bytes.length
      · simp only [if_pos hlong, reduceCtorEq, EncRound.stop.injEq,
          false_or] at h
        obtain ⟨rfl, -⟩ := h
        have hne : reply.attr ≠ pwMessageAuthenticator := by
          intro hma
          obtain ⟨htake, hroom⟩ := (hok.ma hma).2 vp out hvp hout
          have := hbs.ma_length htake
          omega
        rw [markMa_of_ne hne]
        refine ⟨⟨as, by simp [EncState.advance, has]⟩, ?_, ?_, ?_, ?_⟩
        · simp only [EncState.advance, List.append_nil,
            List.length_nil, Nat.add_zero]
          rw [Nat.mod_eq_of_lt (by
            have : maxPacketLen = 4096 := rfl
            omega)]
          exact htot
        · simp only [EncState.advance, List.length_nil, Nat.add_zero]
          exact le_trans (Nat.mod_le _ _) hsmall
        · simp only [EncState.advance]
          exact max_le hs.inside (by omega)
        · simpa [EncState.advance] using hs.ma
      · simp only [if_neg hlong, reduceCtorEq, EncRound.go.injEq,
          or_false] at h
        obtain ⟨rfl, -⟩ := h
        have hmod : (st.totalLength + out.bytes.length) % 65536
            = st.totalLength + out.bytes.length :=
          Nat.mod_eq_of_lt (by
            have : maxPacketLen = 4096 := rfl
            omega)
        refine ⟨⟨as ++ bs, ?_⟩, ?_, ?_, ?_, ?_⟩
        · simp [EncState.advance, has, hbs.bytes]
        · simp only [EncState.advance, hmod, markMa_body,
            List.length_append]
          omega
        · simp only [EncState.advance, hmod]
          omega
        · simp only [EncState.advance, markMa_extent, markMa_body]
          exact max_le hs.inside (by omega)
        · simp only [EncState.advance, markMa_body, hbs.bytes]
          by_cases hma : reply.attr = pwMessageAuthenticator
          · rw [markMa_of_eq hma]
            show MaPlaced st.totalLength _
            rw [htot, has]
            obtain ⟨htake, -⟩ := (hok.ma hma).2 vp out hvp hout
            rw [hbs.bytes] at htake
            exact (maPlaced_end_iff _ _).mpr htake
          · rw [markMa_of_ne hma]
            exact hs.ma.append bs

-- ======== the exact condition

theorem encodeRound_raw (h : rawSent cfg reply = true) :
    encodeRound cfg packet original secret st reply rest
      = .ok (.go (EncState.advance { st with vps := st.vps ++ [reply] }
          (reply.octets reply.length) reply.length) rest) := by
  simp only [rawSent, Bool.and_eq_true] at h
  simp only [encodeRound, h.1.1, h.1.2, h.2, Bool.and_self, if_true,
    ValuePair.octets, padTake_length, pure_eq_ok]

theorem encodeRound_encoded (hw : nonWire reply = false)
    (h : reply.flags.encoded = true) :
    encodeRound cfg packet original secret st reply rest
      = .ok (.go { markMa st reply with
          vps := (markMa st reply).vps ++ [zeroMa reply] } rest) := by
  simp [encodeRound, hw, h]

/-- The round that sends a pair. -/
theorem encodeRound_sent {vp : ValuePair}
    (h : sentPair cfg reply rest = some vp) :
    ∃ seen rest', encodeRound cfg packet original secret st reply rest
      = .ok (encodeOne cfg packet original secret (markMa st reply)
          seen vp rest') := by
  unfold sentPair at h
  split at h
  · cases h
  · next hno =>
      simp only [Bool.or_eq_true, not_or, Bool.not_eq_true] at hno
      simp only [encodeRound, hno.1, zeroMa_flags, hno.2,
        Bool.false_eq_true, if_false]
      split at h
      · next htlv =>
          simp only [htlv, if_true]
          rcases hp : radVp2tlv cfg (zeroMa reply :: rest)
            with ⟨_ | tlv, vps⟩
          · simp only [hp] at h ⊢
            obtain ⟨rest', hd⟩ := List.head?_eq_some_iff.mp h
            exact ⟨_, rest', by simp only [hd]; rfl⟩
          · simp only [hp] at h ⊢
            cases h
            exact ⟨_, _, rfl⟩
      · next htlv =>
          cases h
          exact ⟨[], rest, by simp [htlv]⟩

variable (reply) in
/-- What the round that sends `vp` says about it when it ends soundly. -/
theorem sound_encodeOne (seen rest' : List ValuePair) {vp : ValuePair}
    {out : AttrOut} (hs : EncSound st)
    (hout : radVp2attr cfg st.rand packet original secret vp = some out)
    (h : ∀ st' rest'',
      encodeOne cfg packet original secret (markMa st reply) seen vp
        rest' = .go st' rest''
      ∨ encodeOne cfg packet original secret (markMa st reply) seen vp
        rest' = .stop st' rest'' → EncSound st') :
    st.totalLength + out.extent ≤ encodeBufLen
      ∧ (reply.attr = pwMessageAuthenticator →
        out.bytes.take 2 = [80, 18]
          ∧ st.totalLength + 18 ≤ maxPacketLen) := by
  obtain ⟨as, has⟩ := hs.tiles
  obtain ⟨bs, hbs, -⟩ := radVp2attr_tiles hout
  have htot := hs.total
  simp only [encodeOne, encodeAttr, markMa_rand, markMa_total,
    hout] at h
  by_cases hlong : maxPacketLen < st.totalLength + out.bytes.length
  · simp only [if_pos hlong] at h
    have hs' := h _ _ (Or.inr rfl)
    constructor
    · have := le_trans (Nat.le_max_right _ _) hs'.inside
      simp only [markMa_body] at this
      omega
    · intro hma
      have hpl := hs'.ma
      rw [markMa_of_eq hma] at hpl
      change MaPlaced st.totalLength (st.body ++ wire []) at hpl
      rw [htot, has] at hpl
      exact absurd ((maPlaced_end_iff _ _).mp hpl) (by simp)
  · simp only [if_neg hlong] at h
    have hs' := h _ _ (Or.inl rfl)
    constructor
    · have := le_trans (Nat.le_max_right _ _) hs'.inside
      simp only [markMa_body] at this
      omega
    · intro hma
      have hpl := hs'.ma
      rw [markMa_of_eq hma] at hpl
      change MaPlaced st.totalLength (st.body ++ out.bytes) at hpl
      rw [htot, has, hbs.bytes] at hpl
      have htake := (maPlaced_end_iff _ _).mp hpl
      rw [← hbs.bytes] at htake
      have := hbs.ma_length htake
      exact ⟨htake, by omega⟩

/-- The raw bytes of a debug build, from a sound state. -/
theorem advance_raw_sound_iff (hs : EncSound st) :
    EncSound (EncState.advance { st with vps := st.vps ++ [reply] }
        (reply.octets reply.length) reply.length)
      ↔ (∃ as, reply.octets reply.length = wire as)
        ∧ st.totalLength + reply.length ≤ maxPacketLen := by
  obtain ⟨as, has⟩ := hs.tiles
  have htot := hs.total
  have hmax : maxPacketLen = 4096 := rfl
  have hlen : (reply.octets reply.length).length = reply.length :=
    padTake_length _ _
  constructor
  · intro h
    obtain ⟨cs, hcs⟩ := h.tiles
    simp only [EncState.advance, has] at hcs
    refine ⟨wire_append_tiles_iff.mp ⟨cs, hcs⟩, ?_⟩
    have h1 := h.total
    have h2 := h.small
    simp only [EncState.advance, List.length_append, hlen] at h1 h2
    omega
  · rintro ⟨⟨bs, hbs⟩, hsmall⟩
    have hmod : (st.totalLength + reply.length) % 65536
        = st.totalLength + reply.length := Nat.mod_eq_of_lt (by omega)
    refine ⟨⟨as ++ bs, by simp [EncState.advance, has, hbs]⟩, ?_, ?_,
      ?_, ?_⟩
    · simp only [EncState.advance, List.length_append, hlen, hmod]
      omega
    · simp only [EncState.advance, hlen, hmod]
      exact hsmall
    · simp only [EncState.advance]
      refine max_le hs.inside ?_
      show authHdrLen + st.body.length + reply.length ≤ 4096 + 256
      omega
    · simp only [EncState.advance, hbs]
      exact hs.ma.append bs

/-- From a sound state a round ends soundly exactly when `RoundOk`
holds. -/
theorem round_sound_iff (hs : EncSound st) :
    (∀ st', RoundLeaves cfg packet original secret st reply rest st' →
        EncSound st')
      ↔ RoundOk cfg packet original secret st reply rest := by
  constructor
  · intro h
    refine ⟨fun hraw => ?_, fun vp out hvp hout => ?_, fun hma => ?_⟩
    · exact (advance_raw_sound_iff hs).mp
        (h _ ⟨rest, Or.inl (encodeRound_raw hraw)⟩)
    · obtain ⟨seen, rest', hr⟩ := encodeRound_sent
        hvp
      refine (sound_encodeOne reply seen rest' hs hout ?_).1
      intro st' rest'' hone
      refine h st' ⟨rest'', ?_⟩
      rw [hr]
      simpa using hone
    · have hw := nonWire_ma hma
      have henc : reply.flags.encoded = false := by
        by_contra henc
        have hs' := h _ ⟨rest, Or.inl (encodeRound_encoded hw
          (by simpa using henc))⟩
        obtain ⟨as, has⟩ := hs.tiles
        have hpl := hs'.ma
        rw [markMa_of_eq hma] at hpl
        change MaPlaced st.totalLength st.body at hpl
        rw [hs.total, has] at hpl
        have hend := maPlaced_end_iff as []
        rw [wire_nil, List.append_nil] at hend
        exact absurd (hend.mp hpl) (by simp)
      refine ⟨henc, fun vp out hvp hout => ?_⟩
      obtain ⟨seen, rest', hr⟩ := encodeRound_sent
        hvp
      refine (sound_encodeOne _ seen rest' hs hout ?_).2 hma
      intro st' rest'' hone
      refine h st' ⟨rest'', ?_⟩
      rw [hr]
      simpa using hone
  · intro hok st' hleaves
    obtain ⟨rest', hgo | hstop⟩ := hleaves
    · rcases encodeRound_cases hgo with ⟨-, -, hres⟩ | ⟨hraw, hres⟩
        | ⟨hw, henc, hres⟩ | ⟨hw, henc, vp, seen, left, hvp, hres⟩
      · cases hres
        exact ⟨hs.tiles, hs.total, hs.small, hs.inside, hs.ma⟩
      · cases hres
        exact (advance_raw_sound_iff hs).mpr (hok.raw hraw)
      · cases hres
        have hne : reply.attr ≠ pwMessageAuthenticator := by
          intro hma
          rw [(hok.ma hma).1] at henc
          cases henc
        rw [markMa_of_ne hne]
        exact ⟨hs.tiles, hs.total, hs.small, hs.inside, hs.ma⟩
      · exact encodeOne_sound hs hok (hvp.sentPair hw henc)
          (Or.inl hres.symm)
    · rcases encodeRound_cases hstop with ⟨-, -, hres⟩ | ⟨-, hres⟩
        | ⟨-, -, hres⟩ | ⟨hw, henc, vp, seen, left, hvp, hres⟩
      · cases hres
      · cases hres
      · cases hres
      · exact encodeOne_sound hs hok (hvp.sentPair hw henc)
          (Or.inr hres.symm)

end WinRadius
