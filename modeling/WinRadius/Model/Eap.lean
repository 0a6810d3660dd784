/-
EAP packets as the EAP module sees them first (eap.cpp, eapcommon.cpp):
they are put together from the EAP-Message attributes, checked, and taken
apart.

`eapVp2packet` says at once what `eap_vp2packet` computes with two loops
over the attributes; the loops are here.
-/
import WinRadius.Model.Eapsim

namespace WinRadius

open Lib

-- ======== constants

def pwEapIdentity : Nat := 1
def pwEapNotification : Nat := 2
def pwEapNak : Nat := 3
def pwEapMaxTypes : Nat := 49

-- ======== eap_vp2packet

/-- The loop that adds up the lengths: `none` as soon as the sum is over
the length in the header. -/
def eapTotalLoop (len : Nat) : List ValuePair → Nat → Option Nat
  | [], totalLen => some totalLen
  | vp :: rest, totalLen =>
      if vp.attr = pwEapMessage then
        if len < totalLen + vp.length then none
        else eapTotalLoop len rest (totalLen + vp.length)
      else eapTotalLoop len rest totalLen

/-- The loop that copies the values behind each other. -/
def eapCopyLoop : List ValuePair → List UInt8 → List UInt8
  | [], packet => packet
  | vp :: rest, packet =>
      if vp.attr = pwEapMessage then
        eapCopyLoop rest (packet ++ vp.octets vp.length)
      else eapCopyLoop rest packet

/-- The length in the header, in the first EAP-Message. -/
def eapHeaderLength (first : ValuePair) : Nat :=
  ((first.octets 4).getD 2 0).toNat * 256
    + ((first.octets 4).getD 3 0).toNat

/-- `eap_vp2packet` with its loops. -/
def eapVp2packetLoops (vps : List ValuePair) : Option (List UInt8) :=
  match pairfind vps pwEapMessage with
  | none => none
  | some first =>
      if first.length < 4 then none
      else
        let len := eapHeaderLength first
        if len < 4 then none
        else
          match eapTotalLoop len vps 0 with
          | none => none
          | some totalLen =>
              if totalLen < len then none
              else some (eapCopyLoop vps [])

-- ======== eap_validation

/-- `eap_validation`. -/
def eapValidation (packet : List UInt8) : Mem Bool := do
  let len ← eapLength packet
  let code ← fetch packet 0
  if len ≤ eapHeaderLen then return false
  if code.toNat ≠ pwEapResponse ∧ code.toNat ≠ pwEapRequest then
    return false
  let type ← fetch packet 4
  return decide (type.toNat ≠ 0 ∧ type.toNat ≤ pwEapMaxTypes
    ∧ type.toNat ≠ pwEapNotification)

/-- `eap_identity`: what comes behind the type of an identity response. -/
def eapIdentity (packet : List UInt8) : Mem (Option (List UInt8)) := do
  let code ← fetch packet 0
  let type ← fetch packet 4
  if code.toNat ≠ pwEapResponse ∨ type.toNat ≠ pwEapIdentity then
    return none
  let len ← eapLength packet
  if len ≤ 5 then return none
  let first ← fetch packet 5
  if first = 0 then return none
  let identity ← fetchN packet 5 (len - 5 : Nat)
  return some identity

-- ======== eap_buildds

/-- The response of an `EAP_DS`; the data are empty where the code has
`NULL`. -/
structure EapResponse where
  code : Nat
  id : Nat
  length : Nat
  type : Nat
  data : List UInt8
deriving DecidableEq

/-- `eap_buildds`. -/
def eapBuildds (packet : List UInt8) : Mem EapResponse := do
  let code ← fetch packet 0
  let id ← fetch packet 1
  let type ← fetch packet 4
  let len ← eapLength packet
  let data ← fetchN packet 5 (len - 5 : Nat)
  return { code := code.toNat, id := id.toNat, length := len
           type := type.toNat, data := data }

end WinRadius
