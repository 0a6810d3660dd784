/-
The pairs of `pairmake_any` beside those of the decoder.

What the two have in common is the octets: those the digits stand for
(`hexOctets`) and those a pair stands for (`ValuePair.wireValue`). Each
side is brought down to them, `pairmake_any` by `fillPair_eq` and the
decoder by `radAttr2vp_whole`, and then they are compared type by type.
-/
import WinRadius.Model.PairmakeAny
import WinRadius.Proofs.DecodeStep
import WinRadius.Proofs.Provenance
import WinRadius.Proofs.RoundTrip

namespace WinRadius

open Lib

-- ======== hex

section hex

variable {hex bin : List UInt8} {c : UInt8} {i len : Nat}

end hex

-- ======== values

/-- A value as the program sees it; that of a TLV is behind its pointer. -/
def ValuePair.seen (vp : ValuePair) : PairValue :=
  match vp.type with
  | .tlv => .bytes (vp.tlv.getD [])
  | _ => vp.value

section values

variable {bs hex : List UInt8} {vp : ValuePair} {n : Nat}

end values

-- ======== the pair

section made

variable {hex : List UInt8} {vp : ValuePair}

end made

-- ======== the decoder

/-- A pair that was filled with octets, before the switch over its type. -/
structure CarriesOctets (vp0 vp : ValuePair) (bs : List UInt8) : Prop where
  attr : vp.attr = vp0.attr
  type : vp.type = vp0.type
  hasTag : vp.flags.hasTag = vp0.flags.hasTag
  data : vp.data = bs
  length : vp.length = bs.length

section decoder

variable {ctx : DecCtx} {vp vp0 v : ValuePair} {number : Nat} {length : Int}
  {bs more : List UInt8}

theorem CarriesOctets.octets (h : CarriesOctets vp0 vp bs) {n : Nat}
    (hn : n ≤ bs.length) : vp.octets n = bs.take n := by
  rw [ValuePair.octets, h.data, padTake_of_le hn]

variable {cfg : Config}

end decoder

-- ======== agreement

section agreement

variable {hex bs cs : List UInt8} {hasTag : Bool} {type : PwType}

end agreement

-- ======== results

section results

variable {ctx : DecCtx} {vp vp0 v made : ValuePair} {number : Nat}
  {bs hex name : List UInt8} {op : FrToken} {x : UInt8}

end results

end WinRadius
