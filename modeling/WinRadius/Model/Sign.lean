/-
Signing an encoded packet, checking a received one for well-formedness,
and verifying its signature: `rad_sign`, `rad_packet_ok` and `rad_verify`
of radius.cpp.

Sender and receiver each patch the authenticator (bytes 4..20) and the
Message-Authenticator in place before they hash, by code-dependent rules
kept in two separate switches (`signMaVector`, `verifyMaVector`), and put
bytes back afterwards. The model follows the patches one by one on the
packet's bytes.
-/
import WinRadius.Model.Encode

namespace WinRadius

open Lib

/-- `memcpy(hdr->vector, v, AUTH_VECTOR_LEN)`. -/
def setVector (data : List UInt8) (v : AuthVector) : List UInt8 :=
  overlay data 4 v.bytes

/-- `hdr->vector`. -/
def getVector (data : List UInt8) : List UInt8 := slice data 4 16

-- ======== rad_sign

/-- What stands in for the authenticator while a Message-Authenticator is
computed. -/
inductive MaVector where
  /-- the packet's own vector, left alone -/
  | keep
  /-- sixteen zero bytes -/
  | zero
  /-- the vector of the request being answered -/
  | original
deriving DecidableEq

/-- The first switch of `rad_sign`. An Accounting-Response that answers a
Status-Server is treated as an Access-Accept. -/
def signMaVector (code : Nat) (original : Option RadiusPacket) : MaVector :=
  if code = pwAccountingResponse then
    match original with
    | some o => if o.code = pwStatusServer then .original else .zero
    | none => .zero
  else if code = pwAccountingRequest ∨ code = pwDisconnectRequest
      ∨ code = pwDisconnectAck ∨ code = pwDisconnectNak
      ∨ code = pwCoaRequest ∨ code = pwCoaAck ∨ code = pwCoaNak then .zero
  else if code = pwAuthenticationAck ∨ code = pwAuthenticationReject
      ∨ code = pwAccessChallenge then .original
  else .keep

/-- The packet's bytes with the authenticator replaced as asked; `none`
when the request is needed and missing. -/
def substVector (data : List UInt8) (original : Option RadiusPacket) :
    MaVector → Option (List UInt8)
  | .keep => some data
  | .zero => some (setVector data .zero)
  | .original => original.map fun o => setVector data o.vector

/-- The first half of `rad_sign`: computes the Message-Authenticator into
its place at `packet->offset`, then restores the vector. -/
def signMa (cfg : Config) (packet : RadiusPacket)
    (original : Option RadiusPacket) (secret : List UInt8) :
    Mem (Option (List UInt8)) :=
  if packet.offset ≤ 0 then pure (some packet.data)
  else
    match substVector packet.data original
        (signMaVector packet.code original) with
    | none => pure none
    | some data =>
        let pos := packet.offset.toNat + 2
        if data.length < pos + authVectorLen then throw .overwrite
        else
          let data := overlay data pos (cfg.hmacMd5 data secret).bytes
          pure (some (setVector data packet.vector))

/-- `rad_sign`; `none` is the return of -1. -/
def radSign (cfg : Config) (packet : RadiusPacket)
    (original : Option RadiusPacket) (secret : List UInt8) :
    Mem (Option RadiusPacket) := do
  if packet.id < 0 then pure none
  else if packet.data.length < authHdrLen ∨ packet.offset < 0 then
    pure none
  else
    match ← signMa cfg packet original secret with
    | none => pure none
    | some data =>
        if packet.code = pwAuthenticationRequest
            ∨ packet.code = pwStatusServer then
          pure (some { packet with data := data })
        else
          let digest := cfg.md5 (data ++ secret)
          pure (some { packet with
            data := setVector data digest
            vector := digest })

-- ======== rad_packet_ok

/-- The reasons `rad_packet_ok` rejects a packet. -/
inductive PacketError where
  | receivedShort (n : Nat)
  | receivedLong (n : Nat)
  | unknownCode (code : Nat)
  | lengthShort (n : Nat)
  | lengthLong (n : Nat)
  | truncated (received length : Nat)
  | headerOverflows
  | attributeZero
  | attributeShort (type : Nat)
  | attributeOverflows (type : Nat)
  | badMaLength (n : Nat)
  | tooMany (n max : Nat)
  | noMessageAuthenticator
deriving DecidableEq

/-- The text left in `fr_strerror` for a packet from `host`. -/
def PacketError.text (host : String) : PacketError → String
  | .receivedShort n =>
      malformed ++ "too short (received " ++ toString n ++ " < minimum 20)"
  | .receivedLong n =>
      malformed ++ "too long (received " ++ toString n
        ++ " > maximum 4096)"
  | .unknownCode code =>
      "WARNING: Bad RADIUS packet from host " ++ host
        ++ ": unknown packet code" ++ toString code ++ " "
  | .lengthShort n =>
      malformed ++ "too short (length " ++ toString n ++ " < minimum 20)"
  | .lengthLong n =>
      malformed ++ "too long (length " ++ toString n ++ " > maximum 4096)"
  | .truncated received length =>
      malformed ++ "received " ++ toString received
        ++ " octets, packet length says " ++ toString length
  | .headerOverflows =>
      malformed ++ "attribute header overflows the packet"
  | .attributeZero => malformed ++ "Invalid attribute 0"
  | .attributeShort type =>
      malformed ++ "attribute " ++ toString type ++ " too short"
  | .attributeOverflows type =>
      malformed ++ "attribute " ++ toString type
        ++ " data overflows the packet"
  | .badMaLength n =>
      malformed ++ "Message-Authenticator has invalid length "
        ++ toString n
  | .tooMany n max =>
      "WARNING: Possible DoS attack from host " ++ host
        ++ ": Too many attributes in request (received " ++ toString n
        ++ ", max " ++ toString max ++ " are allowed)."
  | .noMessageAuthenticator =>
      "WARNING: Insecure packet from host " ++ host ++ ":  Packet does "
        ++ "not contain required Message-Authenticator attribute"
where
  malformed : String :=
    "WARNING: Malformed RADIUS packet from host " ++ host ++ ": "

/-- What the walk over the attributes accumulates. -/
structure OkWalk where
  requireMa : Bool
  seenMa : Bool := false
  numAttributes : Nat := 0
deriving DecidableEq

/-- The switch over the attribute number in the walk. -/
def okAttr (w : OkWalk) (type len : Nat) : Except PacketError OkWalk :=
  if type = pwEapMessage then .ok { w with requireMa := true }
  else if type = pwMessageAuthenticator then
    if len ≠ 2 + authVectorLen then .error (.badMaLength (len - 2))
    else .ok { w with seenMa := true }
  else .ok w

/-- The walk over the `count` bytes after the header, `rest`. Every
attribute is at least two bytes, so their number is fuel enough; the walk
can only end with `count` at zero. -/
def okWalk : Nat → OkWalk → List UInt8 → Except PacketError OkWalk
  | _, w, [] => .ok w
  | _, _, [_] => .error .headerOverflows
  | 0, w, _ => .ok w
  | fuel + 1, w, type :: len :: rest =>
      if type = 0 then .error .attributeZero
      else if len < 2 then .error (.attributeShort type.toNat)
      else if rest.length + 2 < len.toNat then
        .error (.attributeOverflows type.toNat)
      else do
        let w' ← okAttr w type.toNat len.toNat
        okWalk fuel { w' with numAttributes := w'.numAttributes + 1 }
          (rest.drop (len.toNat - 2))

/-- `(data[2] << 8) | data[3]`. -/
def lengthField (data : List UInt8) : Nat :=
  (data.getD 2 0).toNat * 256 + (data.getD 3 0).toNat

/-- The length and code checks made before the walk; the packet cut to
its length field. -/
def okHeader (packet : RadiusPacket) : Except PacketError RadiusPacket :=
  let n := packet.data.length
  let totallen := lengthField packet.data
  let code := (packet.data.getD 0 0).toNat
  if n < authHdrLen then .error (.receivedShort n)
  else if maxPacketLen < n then .error (.receivedLong n)
  else if code = 0 ∨ frMaxPacketCode ≤ code then
    .error (.unknownCode code)
  else if totallen < authHdrLen then .error (.lengthShort totallen)
  else if maxPacketLen < totallen then .error (.lengthLong totallen)
  else if n < totallen then .error (.truncated n totallen)
  else .ok { packet with data := packet.data.take totallen }

/-- The checks made on what the walk saw. -/
def okCounts (cfg : Config) (w : OkWalk) : Except PacketError Unit :=
  if 0 < cfg.maxAttributes ∧ cfg.maxAttributes < w.numAttributes then
    .error (.tooMany w.numAttributes cfg.maxAttributes)
  else if w.requireMa && !w.seenMa then .error .noMessageAuthenticator
  else .ok ()

/-- `packet->vector` read from the header of a packet of at least 20
bytes. -/
def headerVector (data : List UInt8) : AuthVector :=
  ⟨padTake 16 (data.drop 4), padTake_length _ _⟩

/-- `rad_packet_ok`: the packet as it is left, and the error if it is
rejected. -/
def radPacketOk (cfg : Config) (packet : RadiusPacket) (flags : Bool) :
    RadiusPacket × Option PacketError :=
  match okHeader packet with
  | .error e => (packet, some e)
  | .ok cut =>
      let code := (cut.data.getD 0 0).toNat
      let start : OkWalk :=
        { requireMa := decide (code = pwStatusServer) || flags }
      match okWalk cut.data.length start (cut.data.drop authHdrLen) with
      | .error e => (cut, some e)
      | .ok w =>
          match okCounts cfg w with
          | .error e => (cut, some e)
          | .ok () =>
              ({ cut with
                code := code
                id := (cut.data.getD 1 0).toNat
                vector := headerVector cut.data }, none)

-- ======== rad_verify

/-- `rad_digest_cmp`: 0 when the digests agree, comparing all bytes. -/
def radDigestCmp : List UInt8 → List UInt8 → UInt8
  | a :: as, b :: bs => (a ^^^ b) ||| radDigestCmp as bs
  | _, _ => 0

/-- The reasons `rad_verify` returns -1. -/
inductive VerifyError where
  | noData
  | noOriginal
  | badMessageAuthenticator
  | unknownCode (code : Nat)
  | badRequestSignature (code : Nat)
  | badReplySignature (code : Nat)
deriving DecidableEq

/-- The switch of `rad_verify` over the packet code, inside its walk over
the attributes. -/
def verifyMaVector (code : Nat) (original : Option RadiusPacket) :
    MaVector :=
  if code = pwAccountingResponse then
    match original with
    | some o => if o.code = pwStatusServer then .original else .zero
    | none => .zero
  else if code = pwAccountingRequest ∨ code = pwDisconnectRequest
      ∨ code = pwDisconnectAck ∨ code = pwDisconnectNak
      ∨ code = pwCoaRequest ∨ code = pwCoaAck ∨ code = pwCoaNak then .zero
  else if code = pwAuthenticationAck ∨ code = pwAuthenticationReject
      ∨ code = pwAccessChallenge then .original
  else .keep

/-- The check of one Message-Authenticator at `pos`: its value is set
aside and zeroed, the vector substituted, the HMAC compared, and both put
back. -/
def verifyMa (cfg : Config) (packet : RadiusPacket)
    (original : Option RadiusPacket) (secret : List UInt8)
    (data : List UInt8) (pos : Nat) :
    Mem (List UInt8 × Option VerifyError) := do
  let msgAuthVector ← fetchN data (pos + 2) authVectorLen
  let zeroed := overlay data (pos + 2) (List.replicate authVectorLen 0)
  match substVector zeroed original
      (verifyMaVector packet.code original) with
  | none => pure (zeroed, some .noOriginal)
  | some patched =>
      if radDigestCmp (cfg.hmacMd5 patched secret).bytes msgAuthVector
          ≠ 0 then
        pure (patched, some .badMessageAuthenticator)
      else
        pure (setVector (overlay patched (pos + 2) msgAuthVector)
          packet.vector, none)

/-- The walk of `rad_verify`. It trusts the lengths `rad_packet_ok`
checked; a zero length byte would loop for ever. -/
def verifyWalk (cfg : Config) (packet : RadiusPacket)
    (original : Option RadiusPacket) (secret : List UInt8) :
    Nat → List UInt8 → Nat → Mem (List UInt8 × Option VerifyError)
  | 0, _, _ => throw .hang
  | fuel + 1, data, pos =>
      if data.length ≤ pos then pure (data, none)
      else do
        let attrlen ← fetch data (pos + 1)
        let type ← fetch data pos
        if type.toNat = pwMessageAuthenticator then
          match ← verifyMa cfg packet original secret data pos with
          | (data', some e) => pure (data', some e)
          | (data', none) =>
              verifyWalk cfg packet original secret fuel data'
                (pos + attrlen.toNat)
        else
          verifyWalk cfg packet original secret fuel data
            (pos + attrlen.toNat)

/-- `calc_acctdigest`: the packet with a zero vector, and 0 or 2. -/
def calcAcctdigest (cfg : Config) (data secret : List UInt8)
    (vector : AuthVector) : List UInt8 × Nat :=
  let data := setVector data .zero
  let digest := cfg.md5 (data ++ secret)
  (data, if radDigestCmp digest.bytes vector.bytes ≠ 0 then 2 else 0)

/-- `calc_replydigest`: the packet with its own vector back in place, and
0, 2 or 3. -/
def calcReplydigest (cfg : Config) (data secret : List UInt8)
    (vector : AuthVector) (original : Option RadiusPacket) :
    List UInt8 × Nat :=
  match original with
  | none => (data, 3)
  | some o =>
      let digest := cfg.md5 (setVector data o.vector ++ secret)
      (setVector (setVector data o.vector) vector,
        if radDigestCmp vector.bytes digest.bytes ≠ 0 then 2 else 0)

/-- The digest check at the end of `rad_verify`. -/
def verifyDigest (cfg : Config) (packet : RadiusPacket)
    (original : Option RadiusPacket) (secret : List UInt8)
    (data : List UInt8) : List UInt8 × Option VerifyError :=
  let code := packet.code
  if code = 0 ∨ frMaxPacketCode ≤ code then
    (data, some (.unknownCode code))
  else if code = pwAuthenticationRequest ∨ code = pwStatusServer then
    (data, none)
  else if code = pwCoaRequest ∨ code = pwDisconnectRequest
      ∨ code = pwAccountingRequest then
    let (data', rc) := calcAcctdigest cfg data secret packet.vector
    (data', if 1 < rc then some (.badRequestSignature code) else none)
  else if code = pwAuthenticationAck ∨ code = pwAuthenticationReject
      ∨ code = pwAccessChallenge ∨ code = pwAccountingResponse
      ∨ code = pwDisconnectAck ∨ code = pwDisconnectNak
      ∨ code = pwCoaAck ∨ code = pwCoaNak then
    let (data', rc) :=
      calcReplydigest cfg data secret packet.vector original
    (data', if 1 < rc then some (.badReplySignature code) else none)
  else (data, some (.unknownCode code))

/-- `rad_verify`: the packet as it is left, and the error when it returns
-1. -/
def radVerify (cfg : Config) (packet : RadiusPacket)
    (original : Option RadiusPacket) (secret : List UInt8) :
    Mem (RadiusPacket × Option VerifyError) := do
  if packet.data = [] then pure (packet, some .noData)
  else
    match ← verifyWalk cfg packet original secret
        (packet.data.length + 1) packet.data authHdrLen with
    | (data, some e) => pure ({ packet with data := data }, some e)
    | (data, none) =>
        let (data', e) := verifyDigest cfg packet original secret data
        pure ({ packet with data := data' }, e)

end WinRadius
