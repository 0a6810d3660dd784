/-
The packet `rad_encode` stores: length, tiling and the offset kept for
`rad_sign`, over whole runs of the loop.

`EncRun` are the states the loop reaches from a packet's list of pairs.
The invariant survives exactly the rounds that meet `RoundOk`, so a run
of such rounds ends in a well-formed packet. The counterexample is the
round that is left out: a Message-Authenticator that no longer fits is
discarded, and its offset stays behind.
-/
import WinRadius.Proofs.EncodeLoop
import WinRadius.Model.Sign

namespace WinRadius

open Lib

variable {cfg : Config} {packet : RadiusPacket}
  {original : Option RadiusPacket} {secret : List UInt8}

-- ======== the run

/-- One round that goes on. -/
def EncGoes (cfg : Config) (packet : RadiusPacket)
    (original : Option RadiusPacket) (secret : List UInt8)
    (c c' : EncState × List ValuePair) : Prop :=
  ∃ reply rest, c.2 = reply :: rest
    ∧ encodeRound cfg packet original secret c.1 reply rest
      = .ok (.go c'.1 c'.2)

/-- The configurations the loop of `rad_encode` comes by: its state and
the pairs still to be sent. -/
def EncRun (cfg : Config) (r : Rand) (packet : RadiusPacket)
    (original : Option RadiusPacket) (secret : List UInt8) :
    EncState × List ValuePair → Prop :=
  Reaches (EncGoes cfg (encodePacket packet) original secret)
    ({ rand := r }, packet.vps)

/-- Every round the loop makes meets its condition. -/
def RoundsOk (cfg : Config) (r : Rand) (packet : RadiusPacket)
    (original : Option RadiusPacket) (secret : List UInt8) : Prop :=
  ∀ st reply rest, EncRun cfg r packet original secret (st, reply :: rest)
    → RoundOk cfg (encodePacket packet) original secret st reply rest

/-- Every state the loop gets to is sound. -/
def RunSound (cfg : Config) (r : Rand) (packet : RadiusPacket)
    (original : Option RadiusPacket) (secret : List UInt8) : Prop :=
  ∀ st reply rest st',
    EncRun cfg r packet original secret (st, reply :: rest) →
      RoundLeaves cfg (encodePacket packet) original secret st reply rest
        st' → EncSound st'

theorem encSound_start (r : Rand) : EncSound { rand := r } where
  tiles := ⟨[], rfl⟩
  total := rfl
  small := by show (20 : Nat) ≤ 4096; omega
  inside := by show (20 : Nat) ≤ 4096 + 256; omega
  ma := Or.inl rfl

/-- Under the condition the invariant holds all along. -/
theorem EncRun.sound {r : Rand} {c : EncState × List ValuePair}
    (hok : RoundsOk cfg r packet original secret)
    (h : EncRun cfg r packet original secret c) : EncSound c.1 := by
  induction h with
  | refl => exact encSound_start r
  | @step c c' hc hgo ih =>
      obtain ⟨reply, rest, hl, hround⟩ := hgo
      obtain ⟨st, l⟩ := c
      cases hl
      exact (round_sound_iff ih).mpr (hok st reply rest hc) c'.1
        ⟨c'.2, Or.inl hround⟩

/-- Conversely, if the invariant holds all along it held before each
round as well. -/
theorem EncRun.sound_of_runSound {r : Rand}
    {c : EncState × List ValuePair}
    (hs : RunSound cfg r packet original secret)
    (h : EncRun cfg r packet original secret c) : EncSound c.1 := by
  cases h with
  | refl => exact encSound_start r
  | @step b _ hb hgo =>
      obtain ⟨reply, rest, hl, hround⟩ := hgo
      obtain ⟨st, l⟩ := b
      cases hl
      exact hs st reply rest c.1 hb ⟨c.2, Or.inl hround⟩

/-- The states of a run are all sound exactly when its rounds meet their
condition. -/
theorem runSound_iff_roundsOk (r : Rand) :
    RunSound cfg r packet original secret
      ↔ RoundsOk cfg r packet original secret := by
  constructor
  · intro hs st reply rest hrun
    exact (round_sound_iff (hrun.sound_of_runSound hs)).mp
      fun st' hl => hs st reply rest st' hrun hl
  · intro hok st reply rest st' hrun hl
    exact (round_sound_iff (hrun.sound hok)).mpr
      (hok st reply rest hrun) st' hl

/-- The state the loop hands to the end of `rad_encode` is one a round
left, or the first; what becomes of the list does not matter. -/
theorem encodeLoop_sound {r : Rand} {fuel : Nat} {st stf : EncState}
    {l : List ValuePair} (hs : RunSound cfg r packet original secret)
    (hrun : EncRun cfg r packet original secret (st, l))
    (h : encodeLoop cfg (encodePacket packet) original secret fuel st l
      = .ok (some stf)) : EncSound stf := by
  induction fuel generalizing st l with
  | zero =>
      cases h
      exact hrun.sound_of_runSound hs
  | succ fuel ih =>
      cases l with
      | nil =>
          cases h
          exact hrun.sound_of_runSound hs
      | cons reply rest =>
          simp only [encodeLoop] at h
          obtain ⟨res, hres, h⟩ := bind_eq_ok.mp h
          cases res with
          | fail => cases h
          | stop st' rest' =>
              cases h
              have := hs st reply rest st' hrun ⟨rest', Or.inr hres⟩
              exact ⟨this.tiles, this.total, this.small, this.inside,
                this.ma⟩
          | go st' rest' =>
              exact ih (hrun.step ⟨reply, rest, rfl, hres⟩) h

-- ======== the stored packet

/-- What the rest of the library expects of an encoded packet. -/
structure EncodeSound (out : EncodeOut) : Prop where
  small : out.packet.data.length ≤ maxPacketLen
  field : lengthField out.packet.data = out.packet.data.length
  tiles : ∃ as, out.packet.data.drop authHdrLen = wire as
  inside : out.extent ≤ encodeBufLen
  ma : out.packet.offset = 0 ∨ ∃ front ma back,
    out.packet.data.drop authHdrLen = wire (front ++ ma :: back)
      ∧ out.packet.offset = (authHdrLen + (wire front).length : Nat)
      ∧ ma.type.toNat = pwMessageAuthenticator
      ∧ ma.value.length = authVectorLen
  /-- the place `rad_sign` writes to -/
  signed : out.packet.offset ≠ 0 →
    out.packet.offset + 2 + authVectorLen ≤ out.packet.data.length

/-- The first twenty bytes `rad_encode` stores. -/
def encodeHeader (packet : RadiusPacket) (total : Nat) : List UInt8 :=
  [UInt8.ofNat packet.code, UInt8.ofNat (packet.id % 256).toNat]
    ++ be16 total ++ packet.vector.bytes

@[simp] theorem encodeHeader_length (p : RadiusPacket) (n : Nat) :
    (encodeHeader p n).length = 20 := by
  simp [encodeHeader, AuthVector.len]

variable (packet) in
/-- With an honest total nothing is cut off. -/
theorem encodeData_eq {st : EncState}
    (h : st.totalLength = authHdrLen + st.body.length) :
    encodeData packet st
      = encodeHeader packet st.totalLength ++ st.body := by
  have h20 : authHdrLen = 20 := rfl
  rw [encodeData, ← encodeHeader, List.take_of_length_le]
  rw [List.length_append, encodeHeader_length]
  omega

theorem lengthField_encodeHeader {n : Nat} (hn : n < 65536)
    (body : List UInt8) :
    lengthField (encodeHeader packet n ++ body) = n := by
  simp only [lengthField, encodeHeader, be16, List.cons_append,
    List.nil_append, List.getD_cons_succ, List.getD_cons_zero,
    UInt8.toNat_ofNat']
  omega

/-- From the loop's state to the packet. -/
theorem EncSound.encodeSound {st : EncState} (hs : EncSound st) :
    EncodeSound (encodeOut packet st) := by
  have hmax : maxPacketLen = 4096 := rfl
  have h20 : authHdrLen = 20 := rfl
  have h16 : authVectorLen = 16 := rfl
  have htot := hs.total
  have hsmall := hs.small
  have hdata := encodeData_eq packet htot
  have hlen : (encodeData packet st).length = st.totalLength := by
    rw [hdata, List.length_append, encodeHeader_length]
    omega
  have hdrop : (encodeData packet st).drop authHdrLen = st.body := by
    rw [hdata, List.drop_left' (by simp [authHdrLen])]
  refine ⟨?_, ?_, ?_, hs.inside, ?_, ?_⟩
  · show (encodeData _ _).length ≤ _
    omega
  · show lengthField (encodeData _ _) = (encodeData _ _).length
    rw [hlen, hdata, lengthField_encodeHeader (by omega)]
  · show ∃ as, (encodeData _ _).drop _ = _
    rw [hdrop]
    exact hs.tiles
  · rcases hs.ma with h0 | ⟨front, ma, back, hb, ho, hma⟩
    · exact Or.inl (by simp [encodeOut, h0])
    · refine Or.inr ⟨front, ma, back, ?_, ?_, hma⟩
      · rw [← hb]
        exact hdrop
      · simp only [encodeOut, ho]
  · intro hne
    rcases hs.ma with h0 | ⟨front, ma, back, hb, ho, -, hl⟩
    · exact absurd (by simp [encodeOut, h0]) hne
    · show (st.offset : Int) + 2 + authVectorLen
        ≤ (encodeData _ _).length
      have hbl := congrArg List.length hb
      simp only [wire_append, wire_cons, List.length_append,
        Tlv.bytes_length, hl] at hbl
      rw [hlen]
      omega

/-- Every state of the loop is sound if and only if every round meets
`RoundOk`; and then so is the packet `rad_encode` returns 0 with. -/
theorem radEncode_sound_iff (cfg : Config) (r : Rand)
    (packet : RadiusPacket) (original : Option RadiusPacket)
    (secret : List UInt8) :
    (RunSound cfg r packet original secret
        ↔ RoundsOk cfg r packet original secret)
      ∧ (RoundsOk cfg r packet original secret →
        ∀ out, radEncode cfg r packet original secret = .ok (some out) →
          EncodeSound out) := by
  refine ⟨runSound_iff_roundsOk r, fun hok out h => ?_⟩
  have hs := (runSound_iff_roundsOk r).mpr hok
  unfold radEncode at h
  split at h
  · cases h
  · have hvps : (encodePacket packet).vps = packet.vps := by
      unfold encodePacket
      split_ifs <;> rfl
    obtain ⟨res, hres, h⟩ := bind_eq_ok.mp h
    cases res with
    | none => cases h
    | some st =>
        cases h
        rw [hvps] at hres
        exact (encodeLoop_sound hs .refl hres).encodeSound

/-- A string attribute of `n` letters. -/
def letters (attr n : Nat) : ValuePair :=
  { attr := attr, type := .string, length := n,
    data := List.replicate n 97 }

/-- A Message-Authenticator as the dictionary defines it. -/
def messageAuthenticator : ValuePair :=
  { attr := pwMessageAuthenticator, type := .octets }

/-- A request of 4087 bytes with a Message-Authenticator behind them. -/
def crowdedRequest : RadiusPacket :=
  { code := pwAuthenticationRequest
    vps := List.replicate 15 (letters 18 253)
      ++ [letters 18 240, messageAuthenticator] }

/-- The offset and the length a packet is encoded with. -/
def encodedAt (res : Mem (Option EncodeOut)) : Option (Int × Nat) :=
  match res with
  | .ok (some out) => some (out.packet.offset, out.packet.data.length)
  | _ => none

/-- The Message-Authenticator of the crowded request is discarded, and
`rad_encode` returns 0 with its offset at the end of the packet. -/
theorem crowdedRequest_not_sound :
    ∃ out, radEncode bareConfig ⟨fun _ => 0, 0, 0⟩ crowdedRequest none []
        = .ok (some out) ∧ ¬EncodeSound out := by
  have hrun : encodedAt (radEncode bareConfig ⟨fun _ => 0, 0, 0⟩
      crowdedRequest none []) = some (4087, 4087) := by
    decide +kernel
  generalize radEncode bareConfig ⟨fun _ => 0, 0, 0⟩ crowdedRequest none
    [] = res at hrun ⊢
  match res, hrun with
  | .ok (some out), hrun =>
      simp only [encodedAt, Option.some.injEq, Prod.mk.injEq] at hrun
      refine ⟨out, rfl, fun hs => ?_⟩
      have := hs.signed (by omega)
      have h16 : authVectorLen = 16 := rfl
      omega

end WinRadius
