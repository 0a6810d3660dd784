/-
EAP-AKA (eapakalib.cpp): the attributes of EAP-SIM under another EAP type.

The second walk of `map_eapaka_basictypes` and the loop of
`unmap_eapaka_basictypes` are those of EAP-SIM, `eapSimFill` and
`unmapLoop`. What differs: the default subtype, the text of the MAC, to
which nothing is appended, and the least length of a body, which is less
for an authentication reject.
-/
import WinRadius.Model.Eapsim

namespace WinRadius

open Lib

/-- `PW_EAP_AKA`, the EAP type. -/
def pwEapAka : Nat := 23
def eapakaChallenge : Nat := 1
def eapakaAuthenticationReject : Nat := 2

/-- The text of the MAC, in a block of a `uint16_t` length. -/
def eapAkaMacText (code id : Nat) (message : List UInt8) :
    Mem (List UInt8) :=
  let totalLength := (eapHeaderLen + 1 + message.length) % 65536
  let text := [UInt8.ofNat code, UInt8.ofNat id] ++ be16 totalLength
    ++ UInt8.ofNat pwEapAka :: message
  if totalLength < text.length then throw .overwrite
  else .ok text

/-- `map_eapaka_basictypes(r, ep)`: the answer and the packet. -/
def mapEapakaBasictypes (hmacSha1 : List UInt8 → List UInt8 → Sha1Digest)
    (pid : Nat) (vps : List ValuePair) (ep : EapPacket) :
    Mem (Bool × EapPacket) :=
  let subtype :=
    UInt8.ofNat (eapNumber vps attributeEapSimSubtype eapakaChallenge)
  let id := eapNumber vps attributeEapId (pid % 256)
  let eapcode := eapNumber vps attributeEapCode pwEapRequest
  let attributes := vps.filter eapSimAttribute
  let encodedSize := (attributes.map eapSimRounded).sum
  let ep := { ep with
    code := if ep.code ≠ pwEapSuccess then eapcode % 256 else ep.code
    id := id % 256
    type := pwEapAka }
  if encodedSize = 0 then .ok (false, { ep with data := [subtype, 0, 0] })
  else do
    let m ← attributes.foldlM eapSimFill ⟨[subtype, 0, 0], none, []⟩
    match m.macspace with
    | none => .ok (true, { ep with data := m.bytes })
    | some macspace =>
        match pairfind vps attributeEapSimKey with
        -- an AT_MAC and no key: the message is freed
        | none => .ok (false, { ep with data := [] })
        | some key => do
            let text ← eapAkaMacText (eapcode % 256) (id % 256) m.bytes
            let digest := hmacSha1 text (key.octets key.length)
            let message := overlay m.bytes macspace (digest.bytes.take 16)
            .ok (true, { ep with data := message })

/-- `unmap_eapaka_basictypes(r, attr, attrlen)`. -/
def unmapEapakaBasictypes (cfg : Config) (vps : List ValuePair)
    (attr : List UInt8) : Mem Unmapped :=
  if attr.length < 3 then .ok ⟨false, vps, []⟩
  else do
    let subtype ← fetch attr 0
    if subtype.toNat ≠ eapakaAuthenticationReject ∧ attr.length < 5 then
      .ok ⟨false, vps, []⟩
    else
      match paircreate cfg attributeEapSimSubtype .integer with
      | none => throw .nullDeref
      | some newvp =>
          let newvp := { newvp with lvalue := subtype.toUInt32, length := 1 }
          unmapLoop cfg attr (attr.length + 1) 3 (attr.length - 3)
            (vps ++ [newvp]) []

end WinRadius
