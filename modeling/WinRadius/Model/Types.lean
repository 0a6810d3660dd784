/-
The data model of the RADIUS library: the constants, records and unions
of libradius.h, radius.h and token.h, as far as the modelled functions
read or write them.

# The value union

`VALUE_PAIR_DATA` overlays a 254-byte string, a signed 32-bit integer and
a TLV pointer; `lvalue` is a separate word (the `#else` branch of
libradius.h), so integers, dates and IPv4 addresses never touch the
string. The model keeps the union's bytes as one zero-extended list,
`data` (a pair is `memset` to zero when allocated, so bytes never written
are zero), reads `sinteger` off its first four bytes in host order, and
keeps the TLV pointer's target beside it as `tlv`.

The host is the 32-bit little-endian target of the Visual Studio
projects: `le32` is how a `uint32_t` lies in memory, `be32` what `htonl`
makes of it.

# What is left out

Names and debug output: `vp->name` is only printed, and the `DEBUG` and
`printf` traces have no effect on the data.
-/
import WinRadius.Lib.Bytes

namespace WinRadius

open Lib

-- ======== constants

def authVectorLen : Nat := 16
def authHdrLen : Nat := 20
def maxPacketLen : Nat := 4096
def maxPassLen : Nat := 128
/-- `MAX_STRING_LEN`, the size of a value. -/
def maxStringLen : Nat := 254
/-- `FR_MAX_PACKET_CODE`. -/
def frMaxPacketCode : Nat := 52

/-- The packet codes of radius.h the modelled code dispatches on. -/
def pwAuthenticationRequest : Nat := 1
def pwAuthenticationAck : Nat := 2
def pwAuthenticationReject : Nat := 3
def pwAccountingRequest : Nat := 4
def pwAccountingResponse : Nat := 5
def pwAccessChallenge : Nat := 11
def pwStatusServer : Nat := 12
def pwDisconnectRequest : Nat := 40
def pwDisconnectAck : Nat := 41
def pwDisconnectNak : Nat := 42
def pwCoaRequest : Nat := 43
def pwCoaAck : Nat := 44
def pwCoaNak : Nat := 45

/-- The attribute numbers the modelled code treats specially. -/
def pwUserPassword : Nat := 2
def pwVendorSpecific : Nat := 26
def pwEapMessage : Nat := 79
def pwMessageAuthenticator : Nat := 80
def pwChargeableUserIdentity : Nat := 89
def pwRawAttribute : Nat := 1026

/-- What the C string functions see of a buffer. -/
def cString (bs : List UInt8) : List UInt8 := bs.takeWhile (· ≠ 0)

-- ======== unions

/-- `PW_TYPE_*`: the data type of an attribute. -/
inductive PwType where
  | string | integer | ipaddr | date | abinary | octets | ifid
  | ipv6addr | ipv6Prefix | byte | short | ethernet | signed
  | comboIp | tlv
deriving Repr, DecidableEq

/-- `FLAG_ENCRYPT_*`: how an attribute's value is hidden on the wire. The
field is a `uint8_t`, and a dictionary may hold a number with no
meaning. -/
inductive Encrypt where
  | none | userPassword | tunnelPassword | ascendSecret | unknown
deriving Repr, DecidableEq

/-- `FR_TOKEN`, the operators of token.h. -/
inductive FrToken where
  | opInvalid | eol | lcbrace | rcbrace | lbrace | rbrace | comma
  | semicolon | opAdd | opSub | opSet | opEq | opNe | opGe | opGt | opLe
  | opLt | opRegEq | opRegNe | opCmpTrue | opCmpFalse | opCmpEq | hash
  | bareWord | doubleQuotedString | singleQuotedString
  | backQuotedString
deriving Repr, DecidableEq

/-- `ATTR_FLAGS`. -/
structure AttrFlags where
  hasTag : Bool := false
  unknownAttr : Bool := false
  hasTlv : Bool := false
  isTlv : Bool := false
  encoded : Bool := false
  tag : UInt8 := 0
  encrypt : Encrypt := .none
deriving Repr, DecidableEq

/-- `TAG_VALID(x)`. -/
def tagValid (x : UInt8) : Bool := decide (0 < x ∧ x < 0x20)

/-- `VENDOR(x)`: the upper half of a 32-bit attribute number. -/
def vendorOf (attr : Nat) : Nat := (attr >>> 16) % 65536

theorem vendorOf_small {n : Nat} (h : n < 65536) : vendorOf n = 0 := by
  rw [vendorOf, Nat.shiftRight_eq_div_pow]
  omega

/-- `RLM_MODULE_*`: what a module call returns. -/
inductive RlmModule where
  | reject | fail | ok | handled | invalid | userlock | notfound | noop
  | updated
deriving Repr, DecidableEq

-- ======== value pairs

/-- `VALUE_PAIR`. The number `vp->attribute` (`attr` here, Lean reserves
the word) is the 32-bit pattern of the C `int`. -/
structure ValuePair where
  attr : Nat
  vendor : Nat := 0
  type : PwType
  length : Nat := 0
  op : FrToken := .opEq
  flags : AttrFlags := {}
  lvalue : UInt32 := 0
  data : List UInt8 := []
  tlv : Option (List UInt8) := none
deriving Repr, DecidableEq

namespace ValuePair

/-- `vp_octets[0 .. n)`. -/
def octets (vp : ValuePair) (n : Nat) : List UInt8 := padTake n vp.data

/-- `vp_signed`, in the bits of a `uint32_t`. -/
def sinteger (vp : ValuePair) : UInt32 := ofLe32 (vp.octets 4)

/-- `memcpy(vp->vp_octets, bs, len)`. -/
def setOctets (vp : ValuePair) (bs : List UInt8) : ValuePair :=
  { vp with data := bs ++ vp.data.drop bs.length }

/-- `strlen(vp->vp_strvalue)`. -/
def strlen (vp : ValuePair) : Nat :=
  (vp.data.takeWhile fun b => b != 0).length

end ValuePair

/-- What is copied into a fresh pair is read back. -/
theorem octets_setOctets {vp : ValuePair} {bs : List UInt8}
    (h : vp.data = []) : (vp.setOctets bs).octets bs.length = bs := by
  rw [ValuePair.octets, ValuePair.setOctets, h]
  exact padTake_append bs _

theorem setOctets_data {vp : ValuePair} {bs : List UInt8}
    (h : vp.data = []) : (vp.setOctets bs).data = bs := by
  rw [ValuePair.setOctets, h, List.drop_nil, List.append_nil]

/-- `pairfind`. -/
def pairfind (vps : List ValuePair) (attr : Nat) : Option ValuePair :=
  vps.find? (·.attr == attr)

-- ======== the packet

/-- A 16-byte authenticator: `uint8_t vector[AUTH_VECTOR_LEN]` or an MD5
digest. -/
structure AuthVector where
  bytes : List UInt8
  len : bytes.length = 16
deriving DecidableEq

/-- `memset(vector, 0, AUTH_VECTOR_LEN)`. -/
def AuthVector.zero : AuthVector := ⟨List.replicate 16 0, by simp⟩

instance : Inhabited AuthVector := ⟨.zero⟩

/-- Address families, with the numbers of winsock2.h. -/
def afUnspec : Nat := 0
def afInet : Nat := 2
def afInet6 : Nat := 23

/-- `fr_ipaddr_t`: the 16 bytes of the address union (an IPv4 address is
the first four) and the IPv6 scope. -/
structure FrIpaddr where
  af : Nat := 0
  ipaddr : List UInt8 := []
  scope : Nat := 0
deriving Repr, DecidableEq

/-- `RADIUS_PACKET`. `data` is the buffer of `data_len` bytes, empty when
the pointer is `NULL`. -/
structure RadiusPacket where
  sockfd : Int := 0
  srcIpaddr : FrIpaddr := {}
  dstIpaddr : FrIpaddr := {}
  srcPort : Nat := 0
  dstPort : Nat := 0
  id : Int := 0
  code : Nat := 0
  vector : AuthVector := .zero
  data : List UInt8 := []
  vps : List ValuePair := []
  offset : Int := 0
deriving DecidableEq

/-- `packet->data_len`. -/
def RadiusPacket.dataLen (p : RadiusPacket) : Nat := p.data.length

end WinRadius
