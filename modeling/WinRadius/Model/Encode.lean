/-
The encoder of radius.cpp: one value to bytes (`vp2data`), the packing of
sub-TLVs (`rad_vp2tlv`), one attribute with its standard, vendor or
continued header (`rad_vp2attr`, `rad_vp2continuation`), and the loop
over a packet's pairs (`rad_encode`).

# Buffers

The C code writes through `ptr` into `data[]`, a stack buffer one
attribute longer than the largest packet, and only afterwards decides
whether to keep what it wrote. The model separates the two: an attribute
is the bytes kept (`AttrOut.bytes`, whose number is the C return value)
and how far from `start` the function wrote (`AttrOut.extent`). The
encoder's state keeps the furthest write into `data[]` (`EncState.extent`),
so "no write beyond the buffer" is a bound on that number.

# The list of pairs

`rad_vp2tlv` marks the pairs it packs as `encoded` and `rad_encode` links
the packed pair into the list behind the first of them, so both hand back
the list as they leave it.
-/
import WinRadius.Model.Crypt

namespace WinRadius

open Lib

-- ======== vp2data

/-- The source `vp2data` sets up: what lies at `data`, and `len`. `none`
is the `NULL` return for a TLV without data or a type with no wire
form.

`PW_TYPE_SIGNED` converts the value into `array` but leaves `data` at
`vp_octets`, as the C code does. -/
def vpSource (vp : ValuePair) : Option (List UInt8 × Nat) :=
  match vp.type with
  | .string | .octets | .ifid | .ipv6addr | .ipv6Prefix | .abinary =>
      some (vp.data, vp.length)
  | .byte => some ([UInt8.ofNat vp.lvalue.toNat], 1)
  | .short =>
      some ([UInt8.ofNat (vp.lvalue.toNat / 256),
        UInt8.ofNat vp.lvalue.toNat], 2)
  | .integer => some (be32 vp.lvalue, 4)
  | .ipaddr => some (le32 vp.lvalue, 4)
  | .date => some (be32 vp.lvalue, 4)
  | .signed => some (vp.data, 4)
  | .tlv => vp.tlv.map fun bs => (bs, vp.length)
  | .ethernet | .comboIp => none

/-- The vector that keys a tunnel password: the request's own for the
packets that carry no random authenticator, the original's otherwise. -/
def tunnelVector (packet : RadiusPacket) (original : Option RadiusPacket) :
    Option AuthVector :=
  if packet.code = pwAccountingRequest ∨ packet.code = pwDisconnectRequest
      ∨ packet.code = pwCoaRequest then some packet.vector
  else original.map (·.vector)

/-- `vp2data`: the bytes written at `ptr`, `none` for `NULL`. -/
def vp2data (cfg : Config) (r : Rand) (packet : RadiusPacket)
    (original : Option RadiusPacket) (secret : List UInt8)
    (vp : ValuePair) (room : Nat) : Option (List UInt8 × Rand) :=
  match vpSource vp with
  | none => none
  | some (src, len) =>
      let data := padTake (if room < len then room else len) src
      match vp.flags.encrypt with
      | .userPassword =>
          some (makePasswd cfg data secret packet.vector, r)
      | .tunnelPassword =>
          if room < 18 then some ([], r)
          else match tunnelVector packet original with
            | none => none
            | some vector =>
                some (makeTunnelPasswd cfg r data room secret vector)
      | .ascendSecret =>
          some (makeSecret cfg packet.vector secret src, r)
      | .none | .unknown => some (data, r)

-- ======== rad_vp2tlv

/-- The pair belongs to the group `rad_vp2tlv` is packing: an unencoded,
unencrypted sub-TLV of the same parent, with a larger number than the one
before. -/
def tlvMember (parent maxattr : Nat) (vp : ValuePair) : Bool :=
  vp.flags.isTlv && !vp.flags.encoded
    && decide (vp.flags.encrypt = .none)
    && decide (vp.attr &&& 0xffff00ff = parent)
    && decide (maxattr < vp.attr &&& 0xff00)

/-- The first pass: the total length of the group. -/
def tlvLength (parent : Nat) : Nat → List ValuePair → Nat
  | _, [] => 0
  | maxattr, vp :: rest =>
      if tlvMember parent maxattr vp then
        vp.length + 2 + tlvLength parent (vp.attr &&& 0xff00) rest
      else 0

/-- What the second pass ends with: all packed, a value that has no wire
form, or a sub-TLV that does not fit its length byte. -/
inductive PackEnd where
  | full | noData | tooLong
deriving DecidableEq

/-- The second pass: packs the group, marking what it packs. Answers the
bytes written from `ptr` on, the list as it stands, and how it ended. -/
def tlvPack (cfg : Config) (parent total : Nat) :
    Nat → Nat → List ValuePair →
      List UInt8 × List ValuePair × PackEnd
  | _, _, [] => ([], [], .full)
  | maxattr, written, vp :: rest =>
      if tlvMember parent maxattr vp then
        -- `vp2data(NULL, NULL, NULL, ..)`: no member is encrypted
        match vp2data cfg ⟨fun _ => 0, 0, 0⟩ {} none [] vp
            (total - written) with
        | none =>
            ([], { vp with length := cfg.strayLength } :: rest, .noData)
        | some (data, _) =>
            if 255 < data.length + 2 then ([], vp :: rest, .tooLong)
            else
              let (out, rest', e) := tlvPack cfg parent total
                (vp.attr &&& 0xff00) (written + data.length + 2) rest
              (UInt8.ofNat ((vp.attr &&& 0xff00) >>> 8)
                  :: UInt8.ofNat (data.length + 2) :: data ++ out,
                { vp with flags := { vp.flags with encoded := true } }
                  :: rest', e)
      else ([], vp :: rest, .full)

/-- `rad_vp2tlv`: the packed pair (`none` for `NULL`) and the list as it
leaves it. The packed pair's block was sized by the first pass; what the
second did not fill is what `malloc` left there. -/
def radVp2tlv (cfg : Config) (vps : List ValuePair) :
    Option ValuePair × List ValuePair :=
  match vps with
  | [] => (none, [])
  | first :: _ =>
      let parent := first.attr &&& 0xffff00ff
      match paircreate cfg parent .tlv with
      | none => (none, vps)
      | some tlv =>
          let total := tlvLength parent (first.attr &&& 0xff) vps
          if total = 0 then (none, vps)
          else
            let (out, vps', e) :=
              tlvPack cfg parent total (first.attr &&& 0xff) 0 vps
            let block := (out ++ (List.range (total - out.length)).map
              fun i => cfg.heap (out.length + i)).take total
            match e with
            | .tooLong => (none, vps')
            | .full | .noData =>
                (some { tlv with length := total, tlv := some block },
                  vps')

-- ======== rad_vp2attr

/-- What `rad_vp2attr` leaves at `start`: the bytes of the attribute
(their number is the return value, 0 for an attribute silently
discarded) and the number of bytes written from `start` on. -/
structure AttrOut where
  bytes : List UInt8
  extent : Nat
  rand : Rand

/-- The vendor type field. -/
def typeField (tlen attr : Nat) : Option (List UInt8) :=
  match tlen with
  | 1 => some [UInt8.ofNat attr]
  | 2 => some [UInt8.ofNat (attr / 256), UInt8.ofNat attr]
  | 4 => some [0, 0, UInt8.ofNat (attr / 256), UInt8.ofNat attr]
  | _ => none

/-- The vendor length field holding `n`. -/
def lenField (llen n : Nat) : Option (List UInt8) :=
  match llen with
  | 0 => some []
  | 1 => some [UInt8.ofNat n]
  | 2 => some [0, UInt8.ofNat n]
  | _ => none

/-- The header of one continuation fragment: the saved header with its
outer and inner length bytes set for a piece of `piece` bytes. -/
def contHeader (hdr : List UInt8) (piece : Nat) : List UInt8 :=
  (hdr.set 1 (UInt8.ofNat (hdr.length + piece + 1))).set
    (hdr.length - 1) (UInt8.ofNat (hdr.length - 6 + 1 + piece))

/-- The loop of `rad_vp2continuation`: one fragment per round while data
is left. Every round takes at least a byte, so `left` rounds suffice. -/
def contPieces (hdr : List UInt8) : Nat → List UInt8 → List UInt8
  | 0, _ => []
  | left + 1, data =>
      if data = [] then []
      else
        let room := 254 - hdr.length
        let piece := if room < data.length then room else data.length
        let flag : UInt8 := if room < data.length then 0x80 else 0x00
        contHeader hdr piece ++ flag :: data.take piece
          ++ contPieces hdr left (data.drop piece)

/-- `rad_vp2continuation`, `hdr` being the `hsize` bytes at `start`. -/
def radVp2continuation (vp : ValuePair) (hdr : List UInt8) : List UInt8 :=
  if vp.flags.encrypt ≠ .none then []
  else match vp.type with
    | .tlv =>
        contPieces hdr vp.length (padTake vp.length (vp.tlv.getD []))
    | .octets | .string =>
        contPieces hdr vp.length (vp.octets vp.length)
    | _ => []

/-- The value with its tag: before a tagged string, over the first byte
of a tagged integer. -/
def taggedData (cfg : Config) (r : Rand) (packet : RadiusPacket)
    (original : Option RadiusPacket) (secret : List UInt8)
    (vp : ValuePair) (room : Nat) : Option (List UInt8 × Rand) :=
  let out :=
    if vp.flags.hasTag && decide (vp.type = .string)
        && (tagValid vp.flags.tag
          || decide (vp.flags.encrypt = .tunnelPassword)) then
      (vp2data cfg r packet original secret vp (room - 1)).map
        fun (data, r') => (vp.flags.tag :: data, r')
    else vp2data cfg r packet original secret vp room
  out.map fun (data, r') =>
    if vp.flags.hasTag && decide (vp.type = .integer) then
      (match data with
        | [] => []
        | _ :: more => vp.flags.tag :: more, r')
    else (data, r')

/-- The end of `rad_vp2attr`, for an attribute of `hsize` header bytes:
`header n` is the header once `n` bytes of value are known. A value of no
bytes is not sent, unless it is the Chargeable-User-Identity's. -/
def finishAttr (cfg : Config) (r : Rand) (packet : RadiusPacket)
    (original : Option RadiusPacket) (secret : List UInt8)
    (vp : ValuePair) (hsize : Nat) (header : Nat → List UInt8) :
    Option AttrOut :=
  match taggedData cfg r packet original secret vp (255 - hsize) with
  | none => none
  | some (data, r') =>
      if data = [] ∧ vp.attr ≠ pwChargeableUserIdentity then
        some ⟨[], hsize, r'⟩
      else some ⟨header data.length ++ data, hsize + data.length, r'⟩

/-- The wire format of a vendor's sub-attributes: the bytes of the type
and length fields and whether a continuation byte follows. -/
def vendorFormat (dict : Dict) (vendorcode : Int) : Nat × Nat × Bool :=
  match dict.vendorbyvalue vendorcode with
  | none => (1, 1, false)
  | some dv => (dv.type, dv.length, dv.flags)

/-- The number of bytes between the vendor length and the value. -/
def innerLen (vp : ValuePair) (offset : Bool) : Nat :=
  if offset then (if vp.flags.isTlv then 3 else 1) else 0

/-- The bytes themselves: the continuation byte, and the header of the
one sub-TLV. -/
def innerHeader (vp : ValuePair) (offset : Bool) (n : Nat) : List UInt8 :=
  if offset then
    0 :: (if vp.flags.isTlv then
      [UInt8.ofNat ((vp.attr &&& 0xff00) >>> 8), UInt8.ofNat (2 + n)]
      else [])
  else []

/-- What a Vendor-Specific attribute holds between its length byte and an
`n`-byte value. -/
def vsaTail (vp : ValuePair) (tlen llen : Nat) (offset : Bool)
    (tf : List UInt8) (n : Nat) : List UInt8 :=
  be32 (UInt32.ofNat (vendorOf vp.attr)) ++ tf
    ++ (lenField llen (tlen + llen + innerLen vp offset + n)).getD []
    ++ innerHeader vp offset n

/-- `rad_vp2attr`, `none` for -1. -/
def radVp2attr (cfg : Config) (r : Rand) (packet : RadiusPacket)
    (original : Option RadiusPacket) (secret : List UInt8)
    (vp : ValuePair) : Option AttrOut :=
  let vendorcode := vendorOf vp.attr
  if vendorcode = 0 then
    finishAttr cfg r packet original secret vp 2
      fun n => [UInt8.ofNat vp.attr, UInt8.ofNat (2 + n)]
  else
    let (tlen, llen, offset) := vendorFormat cfg.dict vendorcode
    match typeField tlen vp.attr, lenField llen 0 with
    | none, _ => some ⟨[], 6, r⟩
    | some _, none => some ⟨[], 6 + tlen, r⟩
    | some tf, some lf =>
        let vsa := UInt8.ofNat pwVendorSpecific
        let hdr := vsa :: 6 :: be32 (UInt32.ofNat vendorcode) ++ tf ++ lf
        if offset && decide (254 - hdr.length < vp.length) then
          let out := radVp2continuation vp hdr
          some ⟨out, max hdr.length out.length, r⟩
        else
          let hsize := 6 + tlen + llen + innerLen vp offset
          finishAttr cfg r packet original secret vp hsize fun n =>
            vsa :: UInt8.ofNat (hsize + n)
              :: vsaTail vp tlen llen offset tf n

-- ======== rad_encode

/-- The size of the stack buffer `data[]`. -/
def encodeBufLen : Nat := maxPacketLen + 256

/-- The encoder's locals while it loops over the pairs. -/
structure EncState where
  /-- the bytes from `hdr->data` to `ptr` -/
  body : List UInt8 := []
  /-- `total_length`, a `uint16_t` -/
  totalLength : Nat := authHdrLen
  /-- `packet->offset` -/
  offset : Nat := 0
  /-- the end of the furthest write into `data[]` -/
  extent : Nat := authHdrLen
  /-- the "too long for packet" warning was given -/
  overflow : Bool := false
  rand : Rand
  /-- the part of `packet->vps` already passed -/
  vps : List ValuePair := []

/-- `next:` advances `ptr` and `total_length` past what was written. -/
def EncState.advance (st : EncState) (bytes : List UInt8)
    (extent : Nat) : EncState :=
  { st with
    body := st.body ++ bytes
    totalLength := (st.totalLength + bytes.length) % 65536
    extent := max st.extent (authHdrLen + st.body.length + extent) }

/-- A pair that is not sent: a server-side attribute number. -/
def nonWire (vp : ValuePair) : Bool :=
  decide (vendorOf vp.attr = 0 ∧ 0xff < vp.attr % 65536)

/-- The position of the Message-Authenticator is remembered. -/
def markMa (st : EncState) (vp : ValuePair) : EncState :=
  if vp.attr = pwMessageAuthenticator then
    { st with offset := st.totalLength }
  else st

/-- The Message-Authenticator is given its length and a zero value. The
TLV pointer shares the bytes of that value. -/
def zeroMa (vp : ValuePair) : ValuePair :=
  if vp.attr = pwMessageAuthenticator then
    { vp.setOctets (List.replicate authVectorLen 0) with
      length := authVectorLen, tlv := none }
  else vp

/-- `rad_vp2attr` of one pair and the check against the maximum length,
made after the bytes are in `data[]`. -/
inductive EncNext where
  | fail
  | stop (st : EncState)
  | go (st : EncState)

def encodeAttr (cfg : Config) (packet : RadiusPacket)
    (original : Option RadiusPacket) (secret : List UInt8)
    (st : EncState) (vp : ValuePair) : EncNext :=
  match radVp2attr cfg st.rand packet original secret vp with
  | none => .fail
  | some out =>
      let st' := { st with rand := out.rand }
      if maxPacketLen < st.totalLength + out.bytes.length then
        .stop { st'.advance [] out.extent with overflow := true }
      else .go (st'.advance out.bytes out.extent)

/-- One round of the loop: the pair(s) taken off the front of the list,
and the rest of it. -/
inductive EncRound where
  | fail
  | stop (st : EncState) (rest : List ValuePair)
  | go (st : EncState) (rest : List ValuePair)

/-- The round's bookkeeping around `encodeAttr`: `seen` are the pairs the
list pointer moves past. -/
def encodeOne (cfg : Config) (packet : RadiusPacket)
    (original : Option RadiusPacket) (secret : List UInt8)
    (st : EncState) (seen : List ValuePair) (vp : ValuePair)
    (rest : List ValuePair) : EncRound :=
  match encodeAttr cfg packet original secret
      { st with vps := st.vps ++ seen ++ [vp] } vp with
  | .fail => .fail
  | .stop st' => .stop st' rest
  | .go st' => .go st' rest

/-- The body of the loop over `packet->vps`. A sub-TLV is replaced by the
packed pair; `reply = reply->next` is taken whether or not the packing
gave one. -/
def encodeRound (cfg : Config) (packet : RadiusPacket)
    (original : Option RadiusPacket) (secret : List UInt8)
    (st : EncState) (reply : ValuePair) (rest : List ValuePair) :
    Mem EncRound :=
  if nonWire reply then
    let st' := { st with vps := st.vps ++ [reply] }
    if !cfg.ndebug && decide (reply.attr = pwRawAttribute) then
      let raw := reply.octets reply.length
      pure (.go (st'.advance raw raw.length) rest)
    else pure (.go st' rest)
  else
    let st' := markMa st reply
    let reply' := zeroMa reply
    if reply'.flags.encoded then
      pure (.go { st' with vps := st'.vps ++ [reply'] } rest)
    else if reply'.flags.isTlv then
      match radVp2tlv cfg (reply' :: rest) with
      | (some tlv, vps) =>
          pure (encodeOne cfg packet original secret st' (vps.take 1) tlv
            (vps.drop 1))
      | (none, vps) =>
          match vps.drop 1 with
          | [] => throw .nullDeref
          | next :: rest' =>
              pure (encodeOne cfg packet original secret st' (vps.take 1)
                next rest')
    else pure (encodeOne cfg packet original secret st' [] reply' rest)

/-- The loop; each round shortens the list, so its length is fuel
enough. `none` is the return of -1. -/
def encodeLoop (cfg : Config) (packet : RadiusPacket)
    (original : Option RadiusPacket) (secret : List UInt8) :
    Nat → EncState → List ValuePair → Mem (Option EncState)
  | 0, st, _ => pure (some st)
  | _ + 1, st, [] => pure (some st)
  | fuel + 1, st, reply :: rest => do
      match ← encodeRound cfg packet original secret st reply rest with
      | .fail => pure none
      | .stop st' rest' => pure (some { st' with vps := st'.vps ++ rest' })
      | .go st' rest' =>
          encodeLoop cfg packet original secret fuel st' rest'

/-- The codes that cannot be built without the request. -/
def needsOriginal (code : Nat) : Bool :=
  decide (code = pwAuthenticationAck ∨ code = pwAuthenticationReject
    ∨ code = pwAccessChallenge)

/-- The requests whose vector starts off as all zero. -/
def zeroVector (code : Nat) : Bool :=
  decide (code = pwAccountingRequest ∨ code = pwDisconnectRequest
    ∨ code = pwCoaRequest)

/-- What `rad_encode` leaves behind when it returns 0: the packet, the
generator, the furthest write into `data[]`, and whether attributes were
discarded. -/
structure EncodeOut where
  packet : RadiusPacket
  rand : Rand
  extent : Nat
  overflow : Bool

/-- The bytes copied to `packet->data`. -/
def encodeData (packet : RadiusPacket) (st : EncState) : List UInt8 :=
  ([UInt8.ofNat packet.code, UInt8.ofNat (packet.id % 256).toNat]
    ++ be16 st.totalLength ++ packet.vector.bytes ++ st.body).take
      st.totalLength

/-- The packet as the loop sees it: the three requests start from a zero
vector. -/
def encodePacket (packet : RadiusPacket) : RadiusPacket :=
  if zeroVector packet.code then { packet with vector := .zero }
  else packet

/-- The end of `rad_encode`. -/
def encodeOut (packet : RadiusPacket) (st : EncState) : EncodeOut :=
  { packet := { packet with
      data := encodeData packet st
      offset := st.offset
      vps := st.vps }
    rand := st.rand
    extent := st.extent
    overflow := st.overflow }

/-- `rad_encode`; `none` is the return of -1. -/
def radEncode (cfg : Config) (r : Rand) (packet : RadiusPacket)
    (original : Option RadiusPacket) (secret : List UInt8) :
    Mem (Option EncodeOut) := do
  if needsOriginal packet.code && original.isNone then pure none
  else
    let packet := encodePacket packet
    match ← encodeLoop cfg packet original secret packet.vps.length
        { rand := r } packet.vps with
    | none => pure none
    | some st => pure (some (encodeOut packet st))

end WinRadius
