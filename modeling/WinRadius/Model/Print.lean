/-
Values as text: `vp_prints_value` of print.cpp and the printers of
misc.cpp it calls.

# Texts

A text is its bytes without the terminator. `out` is what is left in the
caller's buffer of `outlen` bytes; `buf`, of 1024, has room for every
value. The build has its own `inet_ntop`, which writes four decimal or
eight hexadecimal numbers and never shortens zeros.

# Outside the model

The tables of the dictionary, the resolver, and the two conversions of a
date. A string that ends inside a multi-byte character is read on past
its end, where the model has zeros.
-/
import WinRadius.Lib.Numeral
import WinRadius.Model.Detail
import WinRadius.Model.Dict

namespace WinRadius

open Lib

-- ======== environment

/-- What printing and parsing look up. -/
structure TextEnv where
  dict : Dict
  /-- `dict_valbyname`: the value of a name -/
  valbyname : Nat → List UInt8 → Option UInt32
  /-- `getaddrinfo`, without a service: families and addresses -/
  getaddrinfo : List UInt8 → Nat → Option (List (Nat × List UInt8))
  /-- `strftime` with `"%b %e %Y %H:%M:%S %Z"`, of the local time -/
  strftime : UInt32 → List UInt8
  /-- `gettime` -/
  gettime : List UInt8 → Option UInt32

/-- What is in a buffer of `size` bytes after `strlcpy`. -/
def strlcpy (size : Nat) (src : List UInt8) : List UInt8 :=
  (cString src).take (size - 1)

-- ======== strings

/-- `fr_utf8_char`: the length of the character at the front, 0 where
there is none. -/
def frUtf8Char (str : List UInt8) : Nat :=
  let s0 := str.getD 0 0
  let s1 := str.getD 1 0
  let s2 := str.getD 2 0
  let s3 := str.getD 3 0
  let tail2 := 0x80 ≤ s2 ∧ s2 ≤ 0xbf
  let tail3 := 0x80 ≤ s3 ∧ s3 ≤ 0xbf
  if s0 < 0x20 then 0
  else if s0 ≤ 0x7e then 1
  else if s0 ≤ 0xc1 then 0
  else if 0xc2 ≤ s0 ∧ s0 ≤ 0xdf ∧ 0x80 ≤ s1 ∧ s1 ≤ 0xbf then 2
  else if s0 = 0xe0 ∧ 0xa0 ≤ s1 ∧ s1 ≤ 0xbf ∧ tail2 then 3
  else if 0xe1 ≤ s0 ∧ s0 ≤ 0xec ∧ 0x80 ≤ s1 ∧ s1 ≤ 0xbf ∧ tail2 then 3
  else if 0xee ≤ s0 ∧ s0 ≤ 0xef ∧ 0x80 ≤ s1 ∧ s1 ≤ 0xbf ∧ tail2 then 3
  else if s0 = 0xed ∧ 0x80 ≤ s1 ∧ s1 ≤ 0x9f ∧ tail2 then 3
  else if s0 = 0xf0 ∧ 0x90 ≤ s1 ∧ s1 ≤ 0xbf ∧ tail2 ∧ tail3 then 4
  -- the bound 0xf3 is put on the second byte
  else if 0xf1 ≤ s0 ∧ s1 ≤ 0xf3 ∧ 0x80 ≤ s1 ∧ s1 ≤ 0xbf ∧ tail2 ∧ tail3 then
    4
  else if s0 = 0xf4 ∧ 0x80 ≤ s1 ∧ s1 ≤ 0x8f ∧ tail2 ∧ tail3 then 4
  else 0

/-- The letter after the backslash, where a byte has one. -/
def escapeLetter (c : UInt8) : Option UInt8 :=
  if c = 92 then some 92
  else if c = 13 then some 114
  else if c = 10 then some 110
  else if c = 9 then some 116
  else if c = 34 then some 34
  else none

/-- `"\\%03o"`. -/
def octalEscape (c : UInt8) : List UInt8 :=
  [92, digitByte (c.toNat / 64), digitByte (c.toNat / 8 % 8),
    digitByte (c.toNat % 8)]

/-- The loop of `fr_print_string`. `inlen` is a `size_t` and wraps when a
character is longer than what is left. -/
def printLoop : Nat → UInt32 → Nat → List UInt8 → List UInt8
  | 0, _, _, _ => []
  | fuel + 1, inlen, outlen, str =>
      let c := str.headD 0
      if inlen = 0 ∨ outlen ≤ 4 then []
      else if inlen = 1 ∧ c = 0 then []
      else match escapeLetter c with
        | some sp =>
            92 :: sp :: printLoop fuel (inlen - 1) (outlen - 2) str.tail
        | none =>
            let utf8 := frUtf8Char str
            if utf8 = 0 then
              octalEscape c
                ++ printLoop fuel (inlen - 1) (outlen - 4) str.tail
            else
              padTake utf8 str
                ++ printLoop fuel (inlen - UInt32.ofNat utf8)
                  (outlen - utf8) (str.drop utf8)

/-- `fr_print_string`. -/
def frPrintString (str : List UInt8) (inlen outlen : Nat) : List UInt8 :=
  let inlen := if inlen = 0 then (cString str).length else inlen
  printLoop outlen (UInt32.ofNat inlen) outlen str

-- ======== numbers

/-- `vp_signed`. -/
def ValuePair.signed (vp : ValuePair) : Int :=
  if vp.sinteger.toNat < 2147483648 then vp.sinteger.toNat
  else vp.sinteger.toNat - 4294967296

/-- `%d`. -/
def signedNumeral (n : Int) : List UInt8 :=
  if n < 0 then 45 :: numeral 10 n.natAbs else numeral 10 n.natAbs

/-- `%02x`. -/
def hexByte (b : UInt8) : List UInt8 :=
  [digitByte (b.toNat / 16), digitByte (b.toNat % 16)]

/-- `fr_bin2hex`. -/
def frBin2hex (bin : List UInt8) : List UInt8 := bin.flatMap hexByte

/-- Bytes taken two at a time as `(b[0] << 8) + b[1]`. -/
def groups16 : List UInt8 → List Nat
  | a :: b :: bs => (a.toNat * 256 + b.toNat) :: groups16 bs
  | _ => []

/-- `inet_ntop_ex`. -/
def inetNtop (af : Nat) (src : List UInt8) : Option (List UInt8) :=
  if af = afInet then
    some (joined 46 10 ((padTake 4 src).map (·.toNat)))
  else if af = afInet6 then
    some (joined 58 16 (groups16 (padTake 16 src)))
  else none

/-- `ifid_ntoa`. -/
def ifidNtoa (ifid : List UInt8) : List UInt8 :=
  joined 58 16 (groups16 ifid)

/-- The name of a value, or its number. -/
def valueName (env : TextEnv) (attr : Nat) (value : UInt32) : List UInt8 :=
  match env.dict.valbyattr attr value with
  | some name => name
  | none => numeral 10 value.toNat

-- ======== vp_prints_value

/-- `a` of `vp_prints_value`: the text of the value before it is copied
to `out`. -/
def valueText (env : TextEnv) (vp : ValuePair) (delimitst : Int) :
    Option (List UInt8) :=
  match vp.type with
  | .string =>
      if delimitst = 1 then
        some (34 :: frPrintString vp.data vp.length 1022 ++ [34])
      else if delimitst < 0 then some (cString vp.data)
      else some (frPrintString vp.data vp.length 1024)
  | .integer =>
      if vp.flags.hasTag then
        some (valueName env vp.attr (vp.lvalue &&& 0xffffff))
      else some (valueName env vp.attr vp.lvalue)
  | .byte | .short => some (valueName env vp.attr vp.lvalue)
  | .date =>
      let time := env.strftime vp.lvalue
      if time = [] then none
      else if delimitst = 1 then some (34 :: time ++ [34])
      else some time
  | .signed => some (signedNumeral vp.signed)
  | .ipaddr => inetNtop afInet (le32 vp.lvalue)
  | .abinary | .octets =>
      some (48 :: 120 :: frBin2hex (vp.octets vp.length))
  | .ifid => some (ifidNtoa (vp.octets 8))
  | .ipv6addr => inetNtop afInet6 (vp.octets 16)
  | .ipv6Prefix =>
      (inetNtop afInet6 ((vp.octets 18).drop 2)).map fun a =>
        a ++ 47 :: numeral 10 ((vp.octets 18).getD 1 0).toNat
  | .ethernet =>
      some ([58].intercalate ((vp.octets 6).map hexByte))
  | .tlv =>
      some (48 :: 120 :: frBin2hex (padTake vp.length (vp.tlv.getD [])))
  | .comboIp => some (ascii "UNKNOWN-TYPE")

/-- `vp_prints_value`. Values of bytes are not printed where `out` is too
small, all others are cut off. -/
def vpPrintsValue (env : TextEnv) (outlen : Nat) (vp : ValuePair)
    (delimitst : Int) : List UInt8 :=
  let raw := vp.type = .abinary ∨ vp.type = .octets ∨ vp.type = .tlv
  if raw ∧ outlen ≤ 2 * (vp.length + 1) then []
  else match valueText env vp delimitst with
    | some a => strlcpy outlen a
    | none => []

end WinRadius
