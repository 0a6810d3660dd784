/-
Sign and verify agree: what `rad_encode` and `rad_sign` produce,
`rad_verify` accepts at the other end.

# The argument

Sender and receiver both hash the packet with its authenticator replaced
by some vector `u` and its Message-Authenticator blank. The replacement
differs from code to code, and the two functions undo it at different
points, but all their writes go to two disjoint places: the vector at 4
and the Message-Authenticator's value at `q`, past the header. Over the
overlay algebra every intermediate packet is `setVector` and one overlay
of the encoded bytes, and the two hashed strings are the same.
-/
import WinRadius.Proofs.MaBody
import WinRadius.Proofs.Received

namespace WinRadius

open Lib

variable {cfg : Config} {packet : RadiusPacket}
  {original : Option RadiusPacket} {secret data : List UInt8}
  {u v w : AuthVector} {q : Nat} {bs : List UInt8}

-- ======== vectors

theorem AuthVector.ext {u v : AuthVector} (h : u.bytes = v.bytes) :
    u = v := by
  cases u
  cases v
  cases h
  rfl

theorem setVector_length (h : 20 ≤ data.length) :
    (setVector data v).length = data.length :=
  overlay_length (by rw [v.len]; omega)

theorem setVector_setVector (h : 20 ≤ data.length) :
    setVector (setVector data u) v = setVector data v :=
  overlay_overlay (by rw [u.len]; omega) (by rw [u.len, v.len])

theorem setVector_self (h : 20 ≤ data.length)
    (hv : getVector data = v.bytes) : setVector data v = data := by
  rw [setVector, ← hv]
  exact overlay_slice (by omega)

theorem getVector_setVector (h : 20 ≤ data.length) :
    getVector (setVector data v) = v.bytes := by
  have := slice_overlay data (p := 4) (a := v.bytes)
    (by rw [v.len]; omega)
  rwa [v.len] at this

/-- A write past the header does not touch the vector. -/
theorem setVector_overlay (hq : 20 ≤ q)
    (hlen : q + bs.length ≤ data.length) :
    setVector (overlay data q bs) v = overlay (setVector data v) q bs :=
  (overlay_comm (by rw [v.len]; omega) hlen).symm

theorem getVector_overlay (hq : 20 ≤ q)
    (hlen : q + bs.length ≤ data.length) :
    getVector (overlay data q bs) = getVector data :=
  slice_overlay_of_disjoint hlen (Or.inl (by omega))

/-- Bytes before a write are as they were. -/
theorem getD_overlay {p i : Nat} (hi : i < p)
    (hlen : p + bs.length ≤ data.length) :
    (overlay data p bs).getD i 0 = data.getD i 0 := by
  rw [List.getD_eq_getElem?_getD, List.getD_eq_getElem?_getD,
    getElem?_overlay hlen, if_neg (by omega)]

theorem headerVector_eq (h : 20 ≤ data.length)
    (hv : getVector data = v.bytes) : headerVector data = v := by
  apply AuthVector.ext
  show padTake 16 (data.drop 4) = v.bytes
  rw [padTake_of_le (by rw [List.length_drop]; omega), ← hv]
  rfl

theorem radDigestCmp_self (a : List UInt8) : radDigestCmp a a = 0 := by
  induction a with
  | nil => rfl
  | cons b a ih => simp [radDigestCmp, ih]

-- ======== the replaced vector

/-- The vector that stands in while a Message-Authenticator is computed,
`v` being the one in the packet. -/
def maVector (v : AuthVector) (original : Option RadiusPacket) :
    MaVector → Option AuthVector
  | .keep => some v
  | .zero => some .zero
  | .original => original.map (·.vector)

theorem substVector_eq (h : 20 ≤ data.length)
    (hv : getVector data = v.bytes) (kind : MaVector) :
    substVector data original kind
      = (maVector v original kind).map (setVector data) := by
  cases kind with
  | keep =>
      simp only [substVector, maVector, Option.map_some]
      rw [setVector_self h hv]
  | zero => rfl
  | original => cases original <;> rfl

/-- Both functions make the same choice. -/
theorem verifyMaVector_eq (code : Nat) (o : Option RadiusPacket) :
    verifyMaVector code o = signMaVector code o := rfl

-- ======== signing

variable (cfg secret) in
/-- `rad_sign` with a Message-Authenticator at `q - 2`. -/
theorem signMa_placed (h20 : 20 ≤ q)
    (hlen : q + 16 ≤ packet.data.length)
    (hoff : packet.offset = (q : Int) - 2)
    (hvec : getVector packet.data = packet.vector.bytes)
    (hu : maVector packet.vector original
      (signMaVector packet.code original) = some u) :
    signMa cfg packet original secret
      = .ok (some (overlay packet.data q
          (cfg.hmacMd5 (setVector packet.data u) secret).bytes)) := by
  have hdata : 20 ≤ packet.data.length := by omega
  have h16 : authVectorLen = 16 := rfl
  have hq : packet.offset.toNat + 2 = q := by omega
  have hml := (cfg.hmacMd5 (setVector packet.data u) secret).len
  rw [signMa, if_neg (by omega), substVector_eq hdata hvec, hu]
  simp only [Option.map_some, hq, setVector_length hdata]
  rw [if_neg (by omega), setVector_overlay h20
      (by rw [setVector_length hdata]; omega),
    setVector_setVector hdata, setVector_self hdata hvec]
  rfl

theorem signMa_absent (hoff : packet.offset = 0) :
    signMa cfg packet original secret = .ok (some packet.data) := by
  rw [signMa, if_pos (by omega)]
  rfl

/-- The vector a packet of some code ends up with. -/
def signatureVector (cfg : Config) (code : Nat) (vector : AuthVector)
    (secret data : List UInt8) : AuthVector :=
  if code = pwAuthenticationRequest ∨ code = pwStatusServer then vector
  else cfg.md5 (data ++ secret)

/-- `rad_sign` behind the Message-Authenticator. -/
theorem radSign_data {signed : RadiusPacket}
    (hsign : radSign cfg packet original secret = .ok (some signed))
    (hma : signMa cfg packet original secret = .ok (some data))
    (hlen : 20 ≤ data.length)
    (hvec : getVector data = packet.vector.bytes) :
    signed.data
      = setVector data (signatureVector cfg packet.code packet.vector
          secret data) := by
  unfold radSign at hsign
  rw [hma] at hsign
  simp only [ok_bind] at hsign
  rw [signatureVector]
  by_cases hcode : packet.code = pwAuthenticationRequest
      ∨ packet.code = pwStatusServer
  · rw [if_pos hcode, setVector_self hlen hvec]
    simp only [if_pos hcode] at hsign
    split_ifs at hsign
    · cases hsign
    · cases hsign
    · cases hsign
      rfl
  · rw [if_neg hcode]
    simp only [if_neg hcode] at hsign
    split_ifs at hsign
    · cases hsign
    · cases hsign
    · cases hsign
      rfl

-- ======== verifying

/-- The check of a Message-Authenticator that was computed over the same
bytes: it passes and leaves the packet as it was. -/
theorem verifyMa_ok {mac : AuthVector} {signed : List UInt8} (pos : Nat)
    (hpos : q = pos + 2) (h20 : 20 ≤ q) (hlen : q + 16 ≤ data.length)
    (hblank : slice data q 16 = List.replicate 16 0)
    (hsigned : signed = overlay (setVector data packet.vector) q
      mac.bytes)
    (hu : maVector packet.vector original
      (verifyMaVector packet.code original) = some u)
    (hmac : mac = cfg.hmacMd5 (setVector data u) secret) :
    verifyMa cfg packet original secret signed pos
      = .ok (signed, none) := by
  have hdata : 20 ≤ data.length := by omega
  have hml := mac.len
  have hsl : (setVector data packet.vector).length = data.length :=
    setVector_length hdata
  have hfits : q + mac.bytes.length
      ≤ (setVector data packet.vector).length := by omega
  have hsignedlen : signed.length = data.length := by
    rw [hsigned, overlay_length hfits, hsl]
  have hread : fetchN signed (pos + 2) authVectorLen
      = .ok mac.bytes := by
    rw [fetchN_eq_ok]
    have h16 : authVectorLen = 16 := rfl
    refine ⟨by omega, by omega, by omega, ?_⟩
    have hto : ((pos : Int) + 2).toNat = q := by omega
    have := slice_overlay _ hfits
    rw [← hsigned, hml] at this
    rw [hto, h16]
    exact this.symm
  -- with its value blanked the packet is the encoded one again
  have hzero : overlay signed (pos + 2) (List.replicate authVectorLen 0)
      = setVector data packet.vector := by
    have hz : (List.replicate 16 (0 : UInt8)).length = 16 := by simp
    rw [← hpos, hsigned]
    show overlay _ q (List.replicate 16 0) = _
    rw [overlay_overlay hfits (by rw [hml, hz])]
    have hs : slice (setVector data packet.vector) q 16
        = List.replicate 16 0 := by
      rw [setVector, slice_overlay_of_disjoint
        (by rw [AuthVector.len]; omega)
        (Or.inr (by rw [AuthVector.len]; omega)), hblank]
    rw [← hs]
    exact overlay_slice (by omega)
  unfold verifyMa
  rw [hread, ok_bind]
  simp only [hzero]
  rw [substVector_eq (by omega) (getVector_setVector hdata), hu]
  simp only [Option.map_some, setVector_setVector hdata, ← hmac,
    radDigestCmp_self]
  rw [if_neg (by simp), ← hpos,
    setVector_overlay h20 (by rw [setVector_length hdata]; omega),
    setVector_setVector hdata, ← hsigned]
  rfl

/-- The walk over a packet whose every Message-Authenticator checks out.
The induction is on the attributes left. -/
theorem verifyWalk_ok (fuel : Nat) {pos : Nat} {as : List Tlv}
    (hdata : data.drop pos = wire as) (hpos : pos ≤ data.length)
    (hfuel : as.length < fuel)
    (hma : ∀ front ma back, as = front ++ ma :: back →
      ma.type.toNat = pwMessageAuthenticator →
      verifyMa cfg packet original secret data
        (pos + (wire front).length) = .ok (data, none)) :
    verifyWalk cfg packet original secret fuel data pos
      = .ok (data, none) := by
  induction fuel generalizing pos as with
  | zero => omega
  | succ fuel ih =>
      cases as with
      | nil =>
          have hle : data.length ≤ pos :=
            List.drop_eq_nil_iff.mp (by rw [hdata]; rfl)
          rw [verifyWalk, if_pos hle]
          rfl
      | cons a as =>
          rw [wire_cons] at hdata
          have hlen := congrArg List.length hdata
          rw [List.length_drop, List.length_append,
            Tlv.bytes_length] at hlen
          have hget (i : Nat) : data[pos + i]?
              = (a.bytes ++ wire as)[i]? := by
            rw [← hdata, List.getElem?_drop]
          have htype : fetch data pos = .ok a.type := by
            rw [fetch_eq_ok]
            refine ⟨by omega, ?_⟩
            have := hget 0
            simpa [Tlv.bytes] using this
          have hlenb : fetch data (pos + 1)
              = .ok (UInt8.ofNat (a.value.length + 2)) := by
            rw [fetch_eq_ok]
            refine ⟨by omega, ?_⟩
            rw [show ((pos : Int) + 1).toNat = pos + 1 by omega, hget 1]
            simp [Tlv.bytes]
          have hnext : data.drop (pos + (a.value.length + 2))
              = wire as := by
            rw [← List.drop_drop, hdata,
              List.drop_left' (Tlv.bytes_length a)]
          have hrec := ih hnext (by omega)
            (by simpa using hfuel) fun front ma back has ht => by
              have := hma (a :: front) ma back (by rw [has]; rfl) ht
              rw [wire_cons, List.length_append, Tlv.bytes_length,
                ← Nat.add_assoc] at this
              exact this
          rw [verifyWalk, if_neg (by omega), hlenb, ok_bind, htype,
            ok_bind, a.lenByte_toNat]
          split
          · next ht =>
              have := hma [] a as rfl ht
              rw [wire_nil, List.length_nil, Nat.add_zero] at this
              rw [this, ok_bind]
              exact hrec
          · exact hrec

-- ======== the codes

/-- The replies, whose authenticator depends on the request's. -/
def isReply (code : Nat) : Prop :=
  code = pwAuthenticationAck ∨ code = pwAuthenticationReject
    ∨ code = pwAccessChallenge ∨ code = pwAccountingResponse
    ∨ code = pwDisconnectAck ∨ code = pwDisconnectNak
    ∨ code = pwCoaAck ∨ code = pwCoaNak

instance (code : Nat) : Decidable (isReply code) :=
  inferInstanceAs (Decidable (_ ∨ _))

/-- The codes that are signed: the two requests with a random
authenticator, those signed over a zero one, and the replies. -/
def SignedCode (code : Nat) : Prop :=
  (code = pwAuthenticationRequest ∨ code = pwStatusServer)
    ∨ zeroVector code = true ∨ isReply code

/-- The packet's vector is the one its code is signed over. -/
def SignedOver (code : Nat) (original : Option RadiusPacket)
    (v : AuthVector) : Prop :=
  (zeroVector code = true → v = .zero)
    ∧ (isReply code → ∃ o, original = some o ∧ v = o.vector)

/-- A reply's request is at hand whenever its vector is asked for. -/
theorem maVector_isSome {code : Nat} (v : AuthVector)
    (h : isReply code → ∃ o, original = some o ∧ v = o.vector) :
    ∃ u, maVector v original (signMaVector code original) = some u := by
  cases hkind : signMaVector code original with
  | keep => exact ⟨v, rfl⟩
  | zero => exact ⟨.zero, rfl⟩
  | original =>
      have hrep : isReply code := by
        unfold signMaVector at hkind
        unfold isReply
        split_ifs at hkind with h1 h2 h3
        · exact Or.inr (Or.inr (Or.inr (Or.inl h1)))
        · rcases h3 with h | h | h
          · exact Or.inl h
          · exact Or.inr (Or.inl h)
          · exact Or.inr (Or.inr (Or.inl h))
      obtain ⟨o, ho, -⟩ := h hrep
      exact ⟨o.vector, by rw [ho]; rfl⟩

/-- Where the vector is kept while the Message-Authenticator is computed,
it is kept for good. -/
theorem maVector_signature {code : Nat} (hcode : SignedCode code)
    (hu : maVector v original (signMaVector code original) = some u) :
    maVector (signatureVector cfg code v secret data) original
      (verifyMaVector code original) = some u := by
  rw [verifyMaVector_eq]
  cases hkind : signMaVector code original with
  | zero => rwa [hkind] at hu
  | original => rwa [hkind] at hu
  | keep =>
      rw [hkind] at hu
      have hkept : code = pwAuthenticationRequest
          ∨ code = pwStatusServer := by
        rcases hcode with h | h | h
        · exact h
        · simp only [zeroVector, decide_eq_true_eq] at h
          rcases h with rfl | rfl | rfl <;> simp [signMaVector,
            pwAccountingResponse, pwAccountingRequest,
            pwDisconnectRequest, pwCoaRequest] at hkind
        · rcases h with rfl | rfl | rfl | rfl | rfl | rfl | rfl | rfl
            <;> simp [signMaVector, pwAuthenticationAck,
              pwAuthenticationReject, pwAccessChallenge,
              pwAccountingResponse, pwAccountingRequest,
              pwDisconnectRequest, pwDisconnectAck, pwDisconnectNak,
              pwCoaRequest, pwCoaAck, pwCoaNak] at hkind
          cases original with
          | none => simp at hkind
          | some o =>
              simp only at hkind
              split_ifs at hkind
      rw [signatureVector, if_pos hkept]
      exact hu

/-- The digest at the end of `rad_verify`. -/
theorem verifyDigest_ok (hcode : SignedCode packet.code)
    (hlen : 20 ≤ data.length) (hvec : getVector data = v.bytes)
    (hover : SignedOver packet.code original v)
    (hw : packet.vector
      = signatureVector cfg packet.code v secret data) :
    (verifyDigest cfg packet original secret
      (setVector data packet.vector)).2 = none := by
  have hself := setVector_self hlen hvec
  unfold verifyDigest
  rcases hcode with h | h | h
  · have hne : ¬(packet.code = 0 ∨ frMaxPacketCode ≤ packet.code) := by
      rcases h with h | h <;> rw [h] <;> decide
    simp only [if_neg hne, if_pos h]
  · have hz := hover.1 h
    simp only [zeroVector, decide_eq_true_eq] at h
    have hne : ¬(packet.code = 0 ∨ frMaxPacketCode ≤ packet.code) := by
      rcases h with h | h | h <;> rw [h] <;> decide
    have hauth : ¬(packet.code = pwAuthenticationRequest
        ∨ packet.code = pwStatusServer) := by
      rcases h with h | h | h <;> rw [h] <;> decide
    have hreq : packet.code = pwCoaRequest
        ∨ packet.code = pwDisconnectRequest
        ∨ packet.code = pwAccountingRequest := by
      rcases h with h | h | h
      · exact Or.inr (Or.inr h)
      · exact Or.inr (Or.inl h)
      · exact Or.inl h
    rw [signatureVector, if_neg hauth] at hw
    simp only [if_neg hne, if_neg hauth, if_pos hreq, calcAcctdigest,
      setVector_setVector hlen, ← hz, hself, ← hw, radDigestCmp_self]
    simp
  · obtain ⟨o, ho, hv⟩ := hover.2 h
    have hne : ¬(packet.code = 0 ∨ frMaxPacketCode ≤ packet.code) := by
      rcases h with h | h | h | h | h | h | h | h <;> rw [h] <;> decide
    have hauth : ¬(packet.code = pwAuthenticationRequest
        ∨ packet.code = pwStatusServer) := by
      rcases h with h | h | h | h | h | h | h | h <;> rw [h] <;> decide
    have hreq : ¬(packet.code = pwCoaRequest
        ∨ packet.code = pwDisconnectRequest
        ∨ packet.code = pwAccountingRequest) := by
      rcases h with h | h | h | h | h | h | h | h <;> rw [h] <;> decide
    rw [signatureVector, if_neg hauth] at hw
    simp only [if_neg hne, if_neg hauth, if_neg hreq,
      if_pos (show packet.code = pwAuthenticationAck ∨ _ from h),
      calcReplydigest, ho, setVector_setVector hlen, ← hv, hself, ← hw,
      radDigestCmp_self]
    simp

-- ======== the agreement

/-- A packet as it arrives verifies when its Message-Authenticators do
and its digest does. -/
theorem radVerify_ok (as : List Tlv) (hlen : 20 ≤ packet.data.length)
    (hbody : packet.data.drop 20 = wire as)
    (hma : ∀ front ma back, as = front ++ ma :: back →
      ma.type.toNat = pwMessageAuthenticator →
      verifyMa cfg packet original secret packet.data
        (20 + (wire front).length) = .ok (packet.data, none))
    (hdig : (verifyDigest cfg packet original secret packet.data).2
      = none) :
    ∃ p', radVerify cfg packet original secret = .ok (p', none) := by
  have hne : packet.data ≠ [] := by
    intro h
    rw [h] at hlen
    simp at hlen
  have hcount := two_mul_length_le_wire as
  have hwlen := congrArg List.length hbody
  rw [List.length_drop] at hwlen
  have hwalk := verifyWalk_ok (packet.data.length + 1) hbody hlen
    (by omega) hma
  unfold radVerify
  rw [if_neg hne]
  change verifyWalk cfg packet original secret (packet.data.length + 1)
    packet.data authHdrLen = _ at hwalk
  rw [hwalk, ok_bind]
  simp only [hdig]
  exact ⟨_, rfl⟩

/-- The one attribute numbered 80 is found in one place only. -/
theorem no80_split {front back front' back' : List Tlv} {a b : Tlv}
    (hf : No80 front) (hk : No80 back) (hb : b.type = 80)
    (h : front ++ a :: back = front' ++ b :: back') : front' = front := by
  induction front generalizing front' with
  | nil =>
      cases front' with
      | nil => rfl
      | cons c front' =>
          rw [List.nil_append, List.cons_append, List.cons.injEq] at h
          exact absurd hb (hk b (by rw [h.2]; simp))
  | cons c front ih =>
      cases front' with
      | nil =>
          rw [List.nil_append, List.cons_append, List.cons.injEq] at h
          exact absurd hb (hf b (by rw [← h.1]; simp))
      | cons c' front' =>
          rw [List.cons_append, List.cons_append, List.cons.injEq] at h
          rw [h.1, ih (fun x hx => hf x (by simp [hx])) h.2]

/-- The signed bytes and the vector they carry, verified at the other
end. `p` is the packet as `rad_encode` left it, `q` as `rad_packet_ok`
did. -/
theorem signed_verifies {p q signed : RadiusPacket} {as : List Tlv}
    {hdr : List UInt8} {offset : Nat} (hcode : SignedCode p.code)
    (hover : SignedOver p.code original p.vector)
    (hhdr : hdr.length = 20) (hvec : slice hdr 4 16 = p.vector.bytes)
    (hdata : p.data = hdr ++ wire as) (hoff : p.offset = offset)
    (hat : MaAt as offset)
    (hsign : radSign cfg p original secret = .ok (some signed))
    (hqd : q.data = signed.data) (hqc : q.code = p.code)
    (hqv : q.vector = headerVector signed.data) :
    ∃ q', radVerify cfg q original secret = .ok (q', none) := by
  have hlen : 20 ≤ p.data.length := by
    rw [hdata, List.length_append]
    omega
  have hget : getVector p.data = p.vector.bytes := by
    rw [← hvec, getVector, hdata, slice, slice,
      List.drop_append_of_le_length (by omega),
      List.take_append_of_le_length (by rw [List.length_drop]; omega)]
  have hset (w : AuthVector) :
      setVector p.data w = setVector hdr w ++ wire as := by
    rw [hdata]
    exact overlay_append_left (by rw [w.len]; omega)
  have hsetlen (w : AuthVector) : (setVector hdr w).length = 20 := by
    rw [setVector_length (by omega), hhdr]
  cases hat with
  | absent hno =>
      have hsd := radSign_data hsign (signMa_absent hoff) hlen hget
      generalize hw : signatureVector cfg p.code p.vector secret p.data
        = w at hsd
      have hqw : q.vector = w := by
        rw [hqv, hsd]
        exact headerVector_eq (by rw [setVector_length hlen]; exact hlen)
          (getVector_setVector hlen)
      have hq : q.data = setVector p.data q.vector := by
        rw [hqd, hsd, hqw]
      refine radVerify_ok as ?_ ?_ ?_ ?_
      · rw [hq, setVector_length hlen]
        exact hlen
      · rw [hq, hset, List.drop_left' (hsetlen _)]
      · intro front ma back has ht
        have : ma.type = 80 := UInt8.toNat_inj.mp ht
        exact absurd this (hno ma (by rw [has]; simp))
      · rw [hq]
        exact verifyDigest_ok (hqc ▸ hcode) hlen hget (hqc ▸ hover)
          (by rw [hqw, hqc, hw])
  | @placed front back hf hk =>
      obtain ⟨u, hu⟩ := maVector_isSome p.vector
        hover.2
      obtain ⟨pos, hpos⟩ : ∃ pos, pos = 20 + (wire front).length :=
        ⟨_, rfl⟩
      have hwire : wire (front ++ blankMa :: back)
          = wire front ++ ([80, 18] ++ (List.replicate 16 0
            ++ wire back)) := by
        rw [wire_append, wire_cons]
        rfl
      have hsplit (h' : List UInt8) : h' ++ wire (front ++ blankMa :: back)
          = (h' ++ wire front ++ [80, 18])
            ++ (List.replicate 16 0 ++ wire back) := by
        rw [hwire]
        simp only [List.append_assoc]
      have hplen : pos + 2 + 16 ≤ p.data.length := by
        rw [hdata, hsplit, hpos]
        simp only [List.length_append, hhdr, List.length_cons,
          List.length_nil, List.length_replicate]
        omega
      generalize hmac : cfg.hmacMd5 (setVector p.data u) secret = mac
      have hml := mac.len
      have hma := signMa_placed cfg secret
        (q := pos + 2) (by omega) hplen
        (by rw [hoff, hpos]; simp [authHdrLen]) hget hu
      rw [hmac] at hma
      have hd1 : 20 ≤ (overlay p.data (pos + 2) mac.bytes).length := by
        rw [overlay_length (by omega)]
        exact hlen
      have hv1 : getVector (overlay p.data (pos + 2) mac.bytes)
          = p.vector.bytes := by
        rw [getVector_overlay (by omega) (by omega), hget]
      have hsd := radSign_data hsign hma hd1 hv1
      generalize hw : signatureVector cfg p.code p.vector secret
        (overlay p.data (pos + 2) mac.bytes) = w at hsd
      have hqw : q.vector = w := by
        rw [hqv, hsd]
        exact headerVector_eq (by rw [setVector_length hd1]; exact hd1)
          (getVector_setVector hd1)
      have hq : q.data = overlay (setVector p.data q.vector) (pos + 2)
          mac.bytes := by
        rw [hqd, hsd, hqw, setVector_overlay (by omega) (by omega)]
      have hqbytes : q.data = setVector hdr q.vector
          ++ wire (front ++ ⟨80, mac.bytes, by omega⟩ :: back) := by
        have hx : pos + 2 = (setVector hdr q.vector ++ wire front
            ++ [80, 18]).length := by
          simp only [List.length_append, hsetlen, List.length_cons,
            List.length_nil, hpos]
        rw [hq, hset, hsplit, hx, overlay_append_mid _ _
          (by rw [List.length_replicate, hml]), wire_append, wire_cons]
        simp only [Tlv.bytes, hml, List.append_assoc, List.cons_append,
          List.nil_append]
        rfl
      refine radVerify_ok (front ++ ⟨80, mac.bytes, by omega⟩ :: back) ?_ ?_
        ?_ ?_
      · rw [hqbytes, List.length_append, hsetlen]
        omega
      · rw [hqbytes, List.drop_left' (hsetlen _)]
      · intro front' ma back' has ht
        have hfront : front' = front :=
          no80_split hf hk (UInt8.toNat_inj.mp ht) has
        rw [hfront, ← hpos]
        refine verifyMa_ok (q := pos + 2)
          (u := u) pos rfl (by omega) hplen ?_ hq ?_ hmac.symm
        · have hx : pos + 2 = (hdr ++ wire front ++ [80, 18]).length := by
            simp only [List.length_append, hhdr, List.length_cons,
              List.length_nil, hpos]
          rw [slice, hdata, hsplit, hx, List.drop_left,
            List.take_left' (by simp)]
        · rw [hqw, hqc, ← hw]
          exact maVector_signature hcode hu
      · have hq' : q.data
            = setVector (overlay p.data (pos + 2) mac.bytes)
              q.vector := by
          rw [hq, setVector_overlay (by omega) (by omega)]
        rw [hq']
        exact verifyDigest_ok (hqc ▸ hcode) hd1 hv1 (hqc ▸ hover)
          (by rw [hqw, hqc, hw])

/-- Signing keeps the length and the four bytes before the vector. -/
theorem radSign_header {p signed : RadiusPacket}
    (hlen : 20 ≤ p.data.length) (hoff : p.offset = 0 ∨ 20 ≤ p.offset)
    (hsign : radSign cfg p original secret = .ok (some signed)) :
    signed.data.length = p.data.length
      ∧ ∀ i < 4, signed.data.getD i 0 = p.data.getD i 0 := by
  have hset (d : List UInt8) (w : AuthVector)
      (hd : d.length = p.data.length
        ∧ ∀ i < 4, d.getD i 0 = p.data.getD i 0) :
      (setVector d w).length = p.data.length
        ∧ ∀ i < 4, (setVector d w).getD i 0 = p.data.getD i 0 := by
    refine ⟨by rw [setVector_length (by omega), hd.1], fun i hi => ?_⟩
    rw [← hd.2 i hi]
    exact getD_overlay hi (by rw [w.len]; omega)
  have hself : p.data.length = p.data.length
      ∧ ∀ i < 4, p.data.getD i 0 = p.data.getD i 0 :=
    ⟨rfl, fun _ _ => rfl⟩
  unfold radSign at hsign
  split at hsign
  · cases hsign
  · split at hsign
    · cases hsign
    · obtain ⟨res, hma, hsign⟩ := bind_eq_ok.mp hsign
      cases res with
      | none => cases hsign
      | some d =>
          have hd : d.length = p.data.length
              ∧ ∀ i < 4, d.getD i 0 = p.data.getD i 0 := by
            unfold signMa at hma
            split at hma
            · cases hma
              exact hself
            · split at hma
              · cases hma
              · next d0 hd0 =>
                  have h0 : d0.length = p.data.length
                      ∧ ∀ i < 4, d0.getD i 0 = p.data.getD i 0 := by
                    generalize signMaVector p.code original = kind at hd0
                    cases kind with
                    | keep =>
                        cases hd0
                        exact hself
                    | zero =>
                        cases hd0
                        exact hset _ _ hself
                    | original =>
                        obtain ⟨o, -, rfl⟩ :=
                          Option.map_eq_some_iff.mp hd0
                        exact hset _ _ hself
                  have h16 : authVectorLen = 16 := rfl
                  simp only at hma
                  split at hma
                  · cases hma
                  · next hroom =>
                      cases hma
                      refine hset _ _ ⟨?_, fun i hi => ?_⟩
                      · rw [overlay_length (by rw [AuthVector.len]; omega),
                          h0.1]
                      · rw [getD_overlay (by omega)
                          (by rw [AuthVector.len]; omega), h0.2 i hi]
          simp only at hsign
          split at hsign
          · cases hsign
            exact hd
          · cases hsign
            exact hset _ _ hd

theorem encodePacket_code : (encodePacket packet).code = packet.code := by
  unfold encodePacket
  split_ifs <;> rfl

theorem SignedCode.lt {code : Nat} (h : SignedCode code) : code < 256 := by
  rcases h with h | h | h
  · rcases h with rfl | rfl <;> decide
  · simp only [zeroVector, decide_eq_true_eq] at h
    rcases h with rfl | rfl | rfl <;> decide
  · rcases h with rfl | rfl | rfl | rfl | rfl | rfl | rfl | rfl
      <;> decide

/-- What `rad_encode` and `rad_sign` make of a list that can be relied on
is verified when it arrives. -/
theorem radSign_radVerify (cfg : Config) (r : Rand)
    (packet : RadiusPacket) (original : Option RadiusPacket)
    (secret : List UInt8) (fresh : RadiusPacket) (flags : Bool)
    {out : EncodeOut} {signed received : RadiusPacket}
    (hcode : SignedCode packet.code)
    (hsend : Sendable cfg packet.vps)
    (honce : packet.vps.countP isMa ≤ 1)
    (hreply : isReply packet.code →
      ∃ o, original = some o ∧ packet.vector = o.vector)
    (hencode : radEncode cfg r packet original secret = .ok (some out))
    (hfit : out.overflow = false)
    (hsign : radSign cfg out.packet original secret = .ok (some signed))
    (hok : radPacketOk cfg { fresh with data := signed.data } flags
      = (received, none)) :
    ∃ received', radVerify cfg received original secret
      = .ok (received', none) := by
  obtain ⟨as, offset, vps, hat, hsmall, hout⟩ :=
    radEncode_maAt hsend honce hencode hfit
  have hmax : maxPacketLen = 4096 := rfl
  have h20 : authHdrLen = 20 := rfl
  obtain ⟨hdr, hhdr⟩ : ∃ hdr, hdr = encodeHeader (encodePacket packet)
      (authHdrLen + (wire as).length) := ⟨_, rfl⟩
  rw [← hhdr] at hout
  have hhl : hdr.length = 20 := by rw [hhdr, encodeHeader_length]
  have hdata : out.packet.data = hdr ++ wire as := by rw [hout]
  have hoff : out.packet.offset = offset := by rw [hout]
  have hocode : out.packet.code = packet.code := by
    rw [hout]
    exact encodePacket_code
  have hovec : out.packet.vector = (encodePacket packet).vector := by
    rw [hout]
  have hlen : out.packet.data.length = 20 + (wire as).length := by
    rw [hdata, List.length_append, hhl]
  have hover : SignedOver out.packet.code original
      out.packet.vector := by
    rw [hocode, hovec]
    unfold encodePacket
    refine ⟨fun hz => by rw [if_pos hz], fun hrep => ?_⟩
    have hz : ¬zeroVector packet.code = true := by
      rcases hrep with h | h | h | h | h | h | h | h <;> rw [h] <;> decide
    rw [if_neg hz]
    exact hreply hrep
  have hoff' : out.packet.offset = 0 ∨ 20 ≤ out.packet.offset := by
    rw [hoff]
    cases hat with
    | absent => exact Or.inl rfl
    | placed => right; push_cast; omega
  obtain ⟨hslen, hsget⟩ := radSign_header (by omega) hoff' hsign
  have hfield : lengthField signed.data = signed.data.length := by
    have hf : lengthField out.packet.data
        = authHdrLen + (wire as).length := by
      rw [hdata, hhdr]
      exact lengthField_encodeHeader (by omega) _
    rw [hslen, hlen, ← h20, ← hf, lengthField, lengthField,
      hsget 2 (by omega), hsget 3 (by omega)]
  obtain ⟨hrd, hrc, hrv⟩ := radPacketOk_fields hok hfield
  refine signed_verifies (hocode ▸ hcode) hover hhl ?_ hdata hoff hat
    hsign hrd ?_ hrv
  · rw [hovec, hhdr]
    show ((encodePacket packet).vector.bytes).take 16 = _
    rw [List.take_of_length_le (by rw [AuthVector.len])]
  · have hc := hcode.lt
    rw [hrc, hocode]
    show (signed.data.getD 0 0).toNat = _
    rw [hsget 0 (by omega), hdata, hhdr]
    show (UInt8.ofNat (encodePacket packet).code).toNat = _
    rw [encodePacket_code, UInt8.toNat_ofNat', Nat.mod_eq_of_lt hc]

/-- Sixteen times one byte. -/
def AuthVector.fill (b : UInt8) : AuthVector :=
  ⟨List.replicate 16 b, by simp⟩

/-- Digests that tell keys and texts apart by their sizes and first
bytes. -/
def sizedConfig : Config :=
  { dict := .empty
    md5 := fun text => .fill (UInt8.ofNat text.length)
    hmacMd5 := fun text key =>
      .fill (UInt8.ofNat (text.length + key.length) + text.getD 4 0) }

/-- An Access-Accept with a Message-Authenticator, in answer to a request
whose vector is all sevens. -/
def accept : RadiusPacket :=
  { code := pwAuthenticationAck, id := 5, vector := .fill 7
    vps := [letters 18 3, messageAuthenticator, letters 18 1] }

theorem accept_verifies :
    ∃ out signed received received',
      radEncode sizedConfig ⟨fun _ => 0, 0, 0⟩ accept
          (some { vector := .fill 7 }) [1, 2] = .ok (some out)
        ∧ radSign sizedConfig out.packet (some { vector := .fill 7 })
          [1, 2] = .ok (some signed)
        ∧ radPacketOk sizedConfig { data := signed.data } true
          = (received, none)
        ∧ radVerify sizedConfig received (some { vector := .fill 7 })
          [1, 2] = .ok (received', none) := by
  have hsend : Sendable sizedConfig accept.vps := by
    refine ⟨?_, ?_⟩
    · intro vp hvp
      simp only [accept, List.mem_cons, List.not_mem_nil, or_false] at hvp
      rcases hvp with rfl | rfl | rfl
      · exact ⟨by decide, Or.inl rfl, by decide⟩
      · exact ⟨by decide, Or.inl rfl, by decide⟩
      · exact ⟨by decide, Or.inl rfl, by decide⟩
    · exact List.isChain_cons_cons.mpr ⟨by simp [NoSlip, letters],
        List.isChain_cons_cons.mpr
          ⟨by simp [NoSlip, messageAuthenticator], .singleton _⟩⟩
  obtain ⟨received', h⟩ := radSign_radVerify sizedConfig
    ⟨fun _ => 0, 0, 0⟩ accept (some { vector := .fill 7 }) [1, 2] {} true
    (Or.inr (Or.inr (Or.inl rfl))) hsend (by decide)
    (fun _ => ⟨_, rfl, rfl⟩) rfl rfl rfl rfl
  exact ⟨_, _, _, received', rfl, rfl, rfl, h⟩

/-- A request of a debug build that carries a Message-Authenticator of
its own making in a Raw-Attribute. -/
def rawRequest : RadiusPacket :=
  { code := pwAuthenticationRequest
    vps := [{ attr := pwRawAttribute, type := .octets, length := 18
              data := [80, 18] }] }

/-- The list has no Message-Authenticator, everything up to
`rad_packet_ok` goes through, and `rad_verify` refuses the packet. -/
theorem rawRequest_refused :
    SignedCode rawRequest.code ∧ rawRequest.vps.countP isMa ≤ 1
      ∧ ¬isReply rawRequest.code
      ∧ ∃ out signed received,
        radEncode { sizedConfig with ndebug := false }
            ⟨fun _ => 0, 0, 0⟩ rawRequest none [1, 2] = .ok (some out)
          ∧ out.overflow = false
          ∧ radSign { sizedConfig with ndebug := false } out.packet none
            [1, 2] = .ok (some signed)
          ∧ radPacketOk { sizedConfig with ndebug := false }
            { data := signed.data } false = (received, none)
          ∧ (radVerify { sizedConfig with ndebug := false } received none
            [1, 2]).map Prod.snd
            = .ok (some .badMessageAuthenticator) :=
  ⟨Or.inl (Or.inl rfl), by decide, by decide, _, _, _,
    rfl, rfl, rfl, rfl, by decide⟩

end WinRadius
