/-
EAP-SIM (eapsimlib.cpp) and the EAP packet functions it goes through
(eapcommon.cpp): attributes are packed into an EAP packet under a MAC,
the packet is cut into EAP-Message attributes, unpacked again, and the
MAC is checked.

# The two walks

`unmap_eapsim_basictypes` and `eapsim_checkmac` both walk over the
attributes of a packet, each with a pointer of its own into a buffer of
its own. Each keeps the list of offsets it found an attribute at, and the
checker the ranges of the copied packet it read or cleared, as pairs of
offset and length. The code has no such lists and no branch looks at
them.

# What is left out

`fr_hmac_sha1` is a parameter, any function from text and key to 20
bytes. `getpid()`, the packet id where no attribute gives one, is a
number. `malloc` succeeds, and what it leaves in a block is
`Config.heap`.
-/
import WinRadius.Model.Dict

namespace WinRadius

open Lib

-- ======== constants

/-- `ATTRIBUTE_EAP_SIM_BASE`. -/
def attributeEapSimBase : Nat := 6 * 256
def attributeEapSimSubtype : Nat := 1200
def attributeEapSimKey : Nat := 1210
def attributeEapId : Nat := 1020
def attributeEapCode : Nat := 1021
/-- `PW_EAP_SIM_MAC`: the number of AT_MAC. -/
def pwEapSimMac : Nat := 11
/-- `PW_EAP_SIM`, the EAP type. -/
def pwEapSim : Nat := 18
def eapsimStart : Nat := 10
def pwEapRequest : Nat := 1
def pwEapResponse : Nat := 2
def pwEapSuccess : Nat := 3
def eapHeaderLen : Nat := 4

/-- A SHA-1 digest. -/
structure Sha1Digest where
  bytes : List UInt8
  len : bytes.length = 20
deriving DecidableEq

-- ======== the packet

/-- `EAP_PACKET`: code, id, the type with its data, and the wire format
once there is one. -/
structure EapPacket where
  code : Nat := 0
  id : Nat := 0
  type : Nat := 0
  data : List UInt8 := []
  packet : Option (List UInt8) := none
deriving DecidableEq

/-- `eap_wireformat`. The length is a `uint16_t`; without request or
response code the type's room in the block is not written. -/
def eapWireformat (cfg : Config) (reply : EapPacket) : Mem EapPacket :=
  match reply.packet with
  | some _ => .ok reply
  | none =>
      let typed := eapHeaderLen
        + if reply.code < 3 then 1 + reply.data.length else 0
      let totalLength := typed % 65536
      let header := [UInt8.ofNat reply.code, UInt8.ofNat reply.id]
        ++ be16 totalLength
      if reply.code = pwEapRequest ∨ reply.code = pwEapResponse then
        let wire := header ++ UInt8.ofNat reply.type :: reply.data
        if totalLength < typed then throw .overwrite
        else .ok { reply with packet := some wire }
      else
        let wire := header ++ (List.range (totalLength - 4)).map cfg.heap
        .ok { reply with packet := some wire }

/-- `packet->length`, as `eap_packet2vp` and `eapsim_checkmac` read
it. -/
def eapLength (packet : List UInt8) : Mem Nat := do
  let high ← fetch packet 2
  let low ← fetch packet 3
  .ok (high.toNat * 256 + low.toNat)

/-- The loop of `eap_packet2vp`. -/
def eapPacket2vpLoop (cfg : Config) (packet : List UInt8) :
    Nat → Nat → Nat → List ValuePair → Mem (Option (List ValuePair))
  | 0, _, _, _ => throw .hang
  | fuel + 1, ptr, total, head =>
      match paircreate cfg pwEapMessage .octets with
      | none => .ok none
      | some vp => do
          let size := min total 253
          let bytes ← fetchN packet ptr size
          let head := head ++ [{ vp.setOctets bytes with length := size }]
          if total - size = 0 then .ok (some head)
          else
            eapPacket2vpLoop cfg packet fuel (ptr + size) (total - size) head

/-- `eap_packet2vp`: the packet in pieces of 253 bytes. -/
def eapPacket2vp (cfg : Config) (packet : List UInt8) :
    Mem (Option (List ValuePair)) := do
  let total ← eapLength packet
  eapPacket2vpLoop cfg packet (total + 1) 0 total []

/-- `eap_vp2packet`: the EAP-Message attributes one after another, when
their length is that of the header. -/
def eapVp2packet (vps : List ValuePair) : Option (List UInt8) :=
  match pairfind vps pwEapMessage with
  | none => none
  | some first =>
      let messages := vps.filter fun vp => vp.attr == pwEapMessage
      let len := (first.octets 4).getD 2 0 |>.toNat
      let len := len * 256 + ((first.octets 4).getD 3 0).toNat
      let totalLen := (messages.map ValuePair.length).sum
      if first.length < 4 then none
      else if len < 4 then none
      else if totalLen ≠ len then none
      else some (messages.flatMap fun vp => vp.octets vp.length)

-- ======== map_eapsim_basictypes

/-- The attributes that go into the packet. -/
def eapSimAttribute (vp : ValuePair) : Bool :=
  decide (attributeEapSimBase ≤ vp.attr
    ∧ vp.attr < attributeEapSimBase + 256)

/-- AT_MAC. -/
def isMac (vp : ValuePair) : Bool :=
  vp.attr == attributeEapSimBase + pwEapSimMac

/-- The room an attribute takes: AT_MAC has 18 bytes whatever its value,
and type and length come in front. -/
def eapSimRounded (vp : ValuePair) : Nat :=
  roundUp4 ((if isMac vp then 18 else vp.length) + 2)

/-- The message while it is filled: the bytes so far, the offset of the
MAC's sixteen bytes, and what is appended to the text of the MAC. -/
structure EapSimMessage where
  bytes : List UInt8
  macspace : Option Nat := none
  append : List UInt8 := []
deriving DecidableEq

/-- One attribute of the second walk. -/
def eapSimFill (m : EapSimMessage) (vp : ValuePair) : Mem EapSimMessage :=
  let type := UInt8.ofNat (vp.attr - attributeEapSimBase)
  let rounded := eapSimRounded vp
  let header := [type, UInt8.ofNat (rounded / 4)]
  if isMac vp then
    .ok { bytes := m.bytes ++ (header ++ List.replicate 18 0)
          macspace := some (m.bytes.length + 4)
          append := vp.octets vp.length }
  else if maxStringLen < vp.length then throw .overread
  else
    .ok { m with bytes := m.bytes
      ++ (header ++ padTake (rounded - 2) (vp.octets vp.length)) }

/-- The number in an attribute, with the code's default. -/
def eapNumber (vps : List ValuePair) (attr default : Nat) : Nat :=
  match pairfind vps attr with
  | none => default
  | some vp => vp.lvalue.toNat

/-- The text of the MAC: the EAP header over the message, and the
appended value, in a block of a `uint16_t` length. -/
def eapSimMacText (code id : Nat) (message append : List UInt8) :
    Mem (List UInt8) :=
  let totalLength := (eapHeaderLen + 1 + message.length) % 65536
  let hmaclen := (totalLength + append.length) % 65536
  let text := [UInt8.ofNat code, UInt8.ofNat id] ++ be16 totalLength
    ++ UInt8.ofNat pwEapSim :: message ++ append
  if maxStringLen < append.length then throw .overread
  else if hmaclen < text.length then throw .overwrite
  else .ok text

/-- `map_eapsim_basictypes(r, ep)`: the answer and the packet. -/
def mapEapsimBasictypes (hmacSha1 : List UInt8 → List UInt8 → Sha1Digest)
    (pid : Nat) (vps : List ValuePair) (ep : EapPacket) :
    Mem (Bool × EapPacket) :=
  let subtype := UInt8.ofNat (eapNumber vps attributeEapSimSubtype eapsimStart)
  let id := eapNumber vps attributeEapId (pid % 256)
  let eapcode := eapNumber vps attributeEapCode pwEapRequest
  let attributes := vps.filter eapSimAttribute
  let encodedSize := (attributes.map eapSimRounded).sum
  let ep := { ep with
    code := if ep.code ≠ pwEapSuccess then eapcode % 256 else ep.code
    id := id % 256
    type := pwEapSim }
  if encodedSize = 0 then .ok (false, { ep with data := [subtype, 0, 0] })
  else do
    let m ← attributes.foldlM eapSimFill ⟨[subtype, 0, 0], none, []⟩
    match m.macspace with
    | none => .ok (true, { ep with data := m.bytes })
    | some macspace =>
        match pairfind vps attributeEapSimKey with
        -- an AT_MAC and no key: the message is freed
        | none => .ok (false, { ep with data := [] })
        | some key => do
            let text ← eapSimMacText (eapcode % 256) (id % 256) m.bytes
              m.append
            let digest := hmacSha1 text (key.octets key.length)
            let message := overlay m.bytes macspace (digest.bytes.take 16)
            .ok (true, { ep with data := message })

-- ======== unmap_eapsim_basictypes

/-- What `unmap_eapsim_basictypes` leaves. -/
structure Unmapped where
  ret : Bool
  vps : List ValuePair
  boundaries : List Nat
deriving DecidableEq

/-- The loop over the attributes. -/
def unmapLoop (cfg : Config) (attr : List UInt8) :
    Nat → Nat → Nat → List ValuePair → List Nat → Mem Unmapped
  | 0, _, _, _, _ => throw .hang
  | fuel + 1, pos, attrlen, vps, seen =>
      if attrlen = 0 then .ok ⟨true, vps, seen⟩
      else if attrlen < 2 then .ok ⟨false, vps, seen⟩
      else do
        let eapsimAttribute ← fetch attr pos
        let words ← fetch attr (pos + 1)
        if attrlen < words.toNat * 4 then .ok ⟨false, vps, seen⟩
        else
          let eapsimLen := min (words.toNat * 4) maxStringLen
          if eapsimLen < 2 then .ok ⟨false, vps, seen⟩
          else
            match paircreate cfg
                (eapsimAttribute.toNat + attributeEapSimBase) .octets with
            | none => throw .nullDeref
            | some newvp => do
                let bytes ← fetchN attr (pos + 2) (eapsimLen - 2 : Nat)
                let newvp := { newvp.setOctets bytes with
                  length := eapsimLen - 2 }
                unmapLoop cfg attr fuel (pos + eapsimLen)
                  (attrlen - eapsimLen) (vps ++ [newvp]) (seen ++ [pos])

/-- `unmap_eapsim_basictypes(r, attr, attrlen)`. -/
def unmapEapsimBasictypes (cfg : Config) (vps : List ValuePair)
    (attr : List UInt8) : Mem Unmapped :=
  if attr.length < 5 then .ok ⟨false, vps, []⟩
  else
    match paircreate cfg attributeEapSimSubtype .integer with
    | none => .ok ⟨false, vps, []⟩
    | some newvp => do
        let subtype ← fetch attr 0
        let newvp := { newvp with lvalue := subtype.toUInt32, length := 1 }
        unmapLoop cfg attr (attr.length + 1) 3 (attr.length - 3)
          (vps ++ [newvp]) []

-- ======== eapsim_checkmac

/-- The walk of `eapsim_checkmac`: whether it got to the end, and the
buffer with the MAC cleared. -/
structure MacWalk where
  complete : Bool
  buffer : List UInt8
  boundaries : List Nat
  touched : List (Nat × Nat)
deriving DecidableEq

/-- The loop over the attributes of the copy. -/
def checkmacLoop (elen : Nat) :
    Nat → List UInt8 → Nat → List Nat → List (Nat × Nat) → Mem MacWalk
  | 0, _, _, _, _ => throw .hang
  | fuel + 1, buffer, pos, seen, touched =>
      if elen ≤ pos then .ok ⟨true, buffer, seen, touched⟩
      else do
        let type ← fetch buffer pos
        let words ← fetch buffer (pos + 1)
        let seen := seen ++ [pos]
        let touched := touched ++ [(pos, 2)]
        if type.toNat = pwEapSimMac then
          if words.toNat < 5 then .ok ⟨false, buffer, seen, touched⟩
          else
            let n := (words.toNat - 1) * 4
            if buffer.length < pos + 4 + n then throw .overwrite
            else
              checkmacLoop elen fuel
                (overlay buffer (pos + 4) (List.replicate n 0))
                (pos + words.toNat * 4) seen (touched ++ [(pos + 4, n)])
        else
          checkmacLoop elen fuel buffer (pos + words.toNat * 4) seen touched

/-- What `eapsim_checkmac` leaves: its answer, and what it went through
when it came to walk. -/
structure MacCheck where
  ret : Bool
  boundaries : List Nat := []
  touched : List (Nat × Nat) := []
deriving DecidableEq

/-- `eapsim_checkmac(rvps, key, extra, extralen, calcmac)`. -/
def eapsimCheckmac (hmacSha1 : List UInt8 → List UInt8 → Sha1Digest)
    (rvps : List ValuePair) (key extra : List UInt8) : Mem MacCheck :=
  match pairfind rvps (attributeEapSimBase + pwEapSimMac) with
  | none => .ok { ret := false }
  | some mac =>
      if mac.length ≠ 18 then .ok { ret := false }
      else
        match eapVp2packet rvps with
        | none => .ok { ret := false }
        | some e => do
            let elen ← eapLength e
            let copy ← fetchN e 0 elen
            let walk ← checkmacLoop elen (elen + 1) (copy ++ extra) 8 [] []
            if walk.complete then
              let calcmac := hmacSha1 walk.buffer key
              .ok { ret := (mac.octets 18).drop 2 == calcmac.bytes.take 16
                    boundaries := walk.boundaries
                    touched := walk.touched }
            else
              .ok { ret := false
                    boundaries := walk.boundaries
                    touched := walk.touched }

end WinRadius
