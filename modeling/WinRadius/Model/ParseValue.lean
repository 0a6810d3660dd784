/-
Texts as values: `pairparsevalue` of valuepair-lib.cpp and the scanners
of misc.cpp and the C library it calls.

The text is first kept in the pair's string, with its length; the parser
of the type then writes over the front of it. What no parser writes is
left of the text: that of an IPv6 prefix has lost the call that would
write the address.

A scanner of the C library answers with the value and what follows it.
`unsigned long` has 32 bits.

# Left out

The flag for a port after an address, which no modelled code reads.
-/
import WinRadius.Model.Print

namespace WinRadius

open Lib

-- ======== scanners

/-- The sign a number may start with. -/
def scanSign (bs : List UInt8) : Bool × List UInt8 :=
  if bs.head? = some 45 then (true, bs.tail)
  else if bs.head? = some 43 then (false, bs.tail)
  else (false, bs)

/-- The `0x` before a number of base 16. -/
def skipHexMark (bs : List UInt8) : List UInt8 :=
  match bs with
  | a :: b :: c :: cs =>
      if a = 48 ∧ (b = 120 ∨ b = 88) ∧ isDigitOf 16 c then c :: cs else bs
  | _ => bs

/-- A number with a sign: its sign, its digits and what follows, where
there are digits. -/
def scanNumber (base : Nat) (bs : List UInt8) :
    Option (Bool × Nat × List UInt8) :=
  let (neg, bs) := scanSign (bs.dropWhile isSpace)
  let bs := if base = 16 then skipHexMark bs else bs
  let ds := bs.takeWhile (isDigitOf base)
  if ds = [] then none
  else some (neg, ofNumeral base ds, bs.drop ds.length)

/-- `strtoul(bs, &end, base)`. -/
def strtoul (base : Nat) (bs : List UInt8) : UInt32 × List UInt8 :=
  match scanNumber base bs with
  | none => (0, bs)
  | some (neg, n, rest) =>
      if 4294967295 < n then (4294967295, rest)
      else (if neg then 0 - UInt32.ofNat n else UInt32.ofNat n, rest)

/-- `strtol(bs, NULL, base)`. -/
def strtol (base : Nat) (bs : List UInt8) : Int :=
  match scanNumber base bs with
  | none => 0
  | some (neg, n, _) =>
      if neg then max (-2147483648) (-(n : Int))
      else min 2147483647 (n : Int)

/-- `sscanf(bs, "%02x", &tmp)`. -/
def scanHex2 (bs : List UInt8) : Option UInt32 :=
  let (neg, item) := scanSign ((bs.dropWhile isSpace).take 2)
  let ds := item.takeWhile (isDigitOf 16)
  let marked := item = [48, 120] ∨ item = [48, 88]
  if ds = [] ∨ marked then none
  else
    let n := UInt32.ofNat (ofNumeral 16 ds)
    some (if neg then 0 - n else n)

/-- `memchr(hextab, tolower(c), 16) - hextab`. -/
def hextab (c : UInt8) : Option Nat := digitValue 16 c

/-- `getint`. -/
def getint (value : List UInt8) : UInt32 × List UInt8 :=
  if value.take 2 = [48, 120] then strtoul 16 value else strtoul 10 value

/-- `check_for_whitespace`. -/
def checkForWhitespace (value : List UInt8) : Bool := value.all isSpace

-- ======== addresses

/-- `ip_hton`: the first address of the family. -/
def ipHton (env : TextEnv) (src : List UInt8) (af : Nat) :
    Option (Nat × List UInt8) :=
  (env.getaddrinfo src af).bind fun res =>
    res.find? fun ai => decide (af = ai.1 ∨ af = afUnspec)

/-- The two bytes of `val`. -/
def idBytes (val : Nat) : List UInt8 :=
  [UInt8.ofNat (val / 256), UInt8.ofNat val]

/-- The loop of `ifid_aton`; `ifid` is what is written so far, `idx`
bytes. -/
def ifidLoop : List UInt8 → Nat → Nat → Nat → List UInt8 →
    Option (List UInt8)
  | [], numId, val, idx, ifid =>
      if numId = 0 then none
      else if idx ≠ 6 then none
      else some (ifid ++ idBytes val)
  | c :: cs, numId, val, idx, ifid =>
      if c = 58 then
        if numId = 0 then none
        else if 6 < idx + 2 then none
        else ifidLoop cs 0 0 (idx + 2) (ifid ++ idBytes val)
      else match hextab c with
        | none => none
        | some d =>
            if 4 < numId + 1 then none
            else ifidLoop cs (numId + 1) (val * 16 + d) idx ifid

/-- `ifid_aton`. -/
def ifidAton (str : List UInt8) : Option (List UInt8) :=
  ifidLoop str 0 0 0 []

/-- The loop over the text of an Ethernet address: one or two digits and
a colon, six times at most. -/
def etherLoop : List UInt8 → List UInt8 → Option (List UInt8)
  | [], ether => some ether
  | [_], _ => none
  | a :: b :: cs, ether =>
      let pair (c1 c2 : Option Nat) : Option UInt8 := do
        let hi ← c1
        let lo ← c2
        if 6 ≤ ether.length then none
        else some (UInt8.ofNat (hi * 16 + lo))
      if b = 58 then
        match pair (some 0) (hextab a) with
        | none => none
        | some v => etherLoop cs (ether ++ [v])
      else match cs with
        | [] =>
            match pair (hextab a) (hextab b) with
            | none => none
            | some v => some (ether ++ [v])
        | c :: cs =>
            if c = 58 then
              match pair (hextab a) (hextab b) with
              | none => none
              | some v => etherLoop cs (ether ++ [v])
            else none

-- ======== bytes

/-- What `pairparsevalue` can complain about, with the text it shows. -/
inductive ParseError where
  | noAddress (host : List UInt8)
  | byteTooLarge (value : List UInt8)
  | shortTooLarge (value : List UInt8)
  | unknownValue (value : List UInt8)
  | timeString (value : List UInt8)
  | oddHex
  | nonHex (cp : List UInt8)
  | interfaceId (value : List UInt8)
  | ipv6Address (value : List UInt8)
  | ipv6Prefix (value : List UInt8)
  | prefixLength (value : List UInt8)
  | ethernet (value : List UInt8)
  | noIpv4Address (value : List UInt8)
  | tlvSpecification
  | tlvHex
deriving Repr, DecidableEq

/-- The text left in `fr_strerror`. The name is that of the attribute,
`reason` what was there before. -/
def ParseError.text (name reason : List UInt8) : ParseError → List UInt8
  | .noAddress host =>
      ascii "Failed to find IP address for " ++ host
  | .byteTooLarge value =>
      ascii "Byte value \"" ++ value ++ ascii "\" is larger than 255"
  | .shortTooLarge value =>
      ascii "Byte value \"" ++ value ++ ascii "\" is larger than 65535"
  | .unknownValue value =>
      ascii "Unknown value " ++ value ++ ascii " for attribute " ++ name
  | .timeString value =>
      ascii "failed to parse time string \"" ++ value ++ [34]
  | .oddHex => ascii "Hex string is not an even length string."
  | .nonHex cp => ascii "Non-hex characters at " ++ cp.take 2
  | .interfaceId value =>
      ascii "failed to parse interface-id string \"" ++ value ++ [34]
  | .ipv6Address value =>
      ascii "failed to parse IPv6 address string \"" ++ value
        ++ ascii "\": " ++ reason
  | .ipv6Prefix value =>
      ascii "invalid IPv6 prefix string \"" ++ value ++ [34]
  | .prefixLength value =>
      ascii "failed to parse IPv6 address string \"" ++ value ++ [34]
  | .ethernet value =>
      ascii "failed to parse Ethernet address \"" ++ value ++ [34]
  | .noIpv4Address value =>
      ascii "Failed to find IPv4 address for " ++ value
  | .tlvSpecification => ascii "Invalid TLV specification"
  | .tlvHex => ascii "Invalid hex data in TLV"

/-- The digits after `0x`, two for a byte, as long as there is room. -/
def octetsLoop : Nat → List UInt8 → Except ParseError (List UInt8)
  | n + 1, a :: b :: cs =>
      match scanHex2 (a :: b :: cs) with
      | none => .error (.nonHex (a :: b :: cs))
      | some tmp => do
          let us ← octetsLoop n cs
          .ok (tmp.toUInt8 :: us)
  | _, _ => .ok []

/-- `fr_hex2bin` of a text of `2 * len` digits, `none` where it stops
early. -/
def frHex2bin : List UInt8 → Option (List UInt8)
  | a :: b :: cs => do
      let hi ← hextab a
      let lo ← hextab b
      let bin ← frHex2bin cs
      some (UInt8.ofNat (hi * 16 + lo) :: bin)
  | _ => some []

/-- The byte a backslash stands for with what follows it, and what is
left: `none` for a backslash of its own. -/
def unescape (cp : List UInt8) : UInt8 × List UInt8 :=
  match cp with
  | [] => (92, [])
  | c :: cs =>
      if c = 114 then (13, cs)
      else if c = 110 then (10, cs)
      else if c = 116 then (9, cs)
      else if c = 34 ∨ c = 39 ∨ c = 92 ∨ c = 96 then (c, cs)
      else
        -- three decimal digits, of which `%3o` takes the octal ones
        let ds := (cp.take 3).takeWhile (isDigitOf 8)
        if (cp.take 3).length = 3 ∧ (cp.take 3).all isDigit ∧ ds ≠ [] then
          (UInt8.ofNat (ofNumeral 8 ds), cp.drop 3)
        else (92, cp)

/-- The loop over the text of a string: at most 253 bytes. -/
def unescapeLoop : Nat → List UInt8 → List UInt8
  | n + 1, c :: cp =>
      if c = 92 then (unescape cp).1 :: unescapeLoop n (unescape cp).2
      else c :: unescapeLoop n cp
  | _, _ => []

-- ======== pairparsevalue

/-- The text before the slash of an IPv6 prefix and the text after it. -/
def splitSlash (value : List UInt8) :
    Option (List UInt8 × List UInt8) :=
  if value.contains 47 then
    some (value.takeWhile (· != 47), (value.dropWhile (· != 47)).tail)
  else none

/-- A value of a `VALUE` line, under `check_for_value`. -/
def checkForValue (env : TextEnv) (vp : ValuePair)
    (value : List UInt8) : Except ParseError ValuePair :=
  match env.valbyname vp.attr value with
  | none => .error (.unknownValue value)
  | some v => .ok { vp with lvalue := v }

/-- The cases of `PW_TYPE_BYTE`, `PW_TYPE_SHORT` and `PW_TYPE_INTEGER`:
`tooLarge` is what a number above `bound` is answered with. -/
def parseInteger (env : TextEnv) (length bound : Nat)
    (tooLarge : ParseError) (vp : ValuePair) (value : List UInt8) :
    Except ParseError ValuePair :=
  let (n, p) := getint value
  let vp := { vp with lvalue := n, length := length }
  if p = [] then
    if bound < n.toNat then .error tooLarge else .ok vp
  else if checkForWhitespace p then .ok vp
  else checkForValue env vp value

/-- The text is kept in the string of a pair. -/
def ValuePair.keepText (vp : ValuePair) (value : List UInt8) : ValuePair :=
  let kept := value.take 253
  { vp.setOctets (kept ++ [0]) with length := kept.length }

/-- The address an IPv4 text or host name stands for; a `+` after it asks
for the port to be added. -/
def parseIpaddr (env : TextEnv) (value : List UInt8) :
    Except ParseError UInt32 :=
  let cs := if value.getLast? = some 43 then value.dropLast else value
  match ipHton env cs afInet with
  | none => .error (.noAddress cs)
  | some (_, addr) => .ok (ofLe32 addr)

/-- The case of `PW_TYPE_OCTETS`. -/
def parseOctets (vp : ValuePair) (value : List UInt8) :
    Except ParseError ValuePair :=
  if sameNoCase (value.take 2) [48, 120] then
    let cp := value.drop 2
    if cp.length % 2 = 1 then .error .oddHex
    else do
      let us ← octetsLoop maxStringLen cp
      .ok { vp.setOctets us with length := us.length }
  else .ok vp

/-- The case of `PW_TYPE_IPV6PREFIX`. The call of `inet_pton` that wrote
the address is commented out. -/
def parseIpv6Prefix (vp : ValuePair) (value : List UInt8) :
    Except ParseError ValuePair :=
  match splitSlash value with
  | none => .error (.ipv6Prefix value)
  | some (buffer, p) =>
      if 256 ≤ buffer.length then .error (.ipv6Prefix value)
      else
        let (len, eptr) := strtoul 10 p
        if 128 < len ∨ eptr ≠ [] then .error (.prefixLength value)
        else .ok { vp.setOctets [0, len.toUInt8] with length := 18 }

/-- The case of `PW_TYPE_SIGNED`. -/
def parseSigned (vp : ValuePair) (value : List UInt8) : ValuePair :=
  { vp.setOctets (le32 (UInt32.ofInt (strtol 10 value))) with length := 4 }

/-- The case of `PW_TYPE_TLV`. -/
def parseTlv (vp : ValuePair) (value : List UInt8) :
    Except ParseError ValuePair :=
  if sameNoCase (value.take 2) [48, 120] then
    let digits := value.drop 2
    let length := digits.length / 2
    match frHex2bin (digits.take (2 * length)) with
    | none => .error .tlvHex
    | some bin => .ok { vp with tlv := some bin, length := length }
  else .error .tlvSpecification

/-- `pairparsevalue`. -/
def pairparsevalue (env : TextEnv) (vp : ValuePair)
    (value : List UInt8) : Except ParseError ValuePair :=
  let value := cString value
  let vp := if vp.type = .tlv then vp else vp.keepText value
  match vp.type with
  | .string =>
      let text := unescapeLoop 253 value
      .ok { vp.setOctets (text ++ [0]) with length := text.length }
  | .ipaddr =>
      if vp.op = .opRegEq ∨ vp.op = .opRegNe then .ok vp
      else do
        let addr ← parseIpaddr env value
        .ok { vp with lvalue := addr, length := 4 }
  | .byte => parseInteger env 1 255 (.byteTooLarge value) vp value
  | .short => parseInteger env 2 65535 (.shortTooLarge value) vp value
  | .integer =>
      parseInteger env 4 4294967295 (.unknownValue value) vp value
  | .date =>
      match env.gettime value with
      | none => .error (.timeString value)
      | some date => .ok { vp with lvalue := date, length := 4 }
  | .abinary | .octets => parseOctets vp value
  | .ifid =>
      match ifidAton value with
      | none => .error (.interfaceId value)
      | some ifid => .ok { vp.setOctets ifid with length := 8 }
  | .ipv6addr =>
      match ipHton env value afInet6 with
      | none => .error (.ipv6Address value)
      | some (_, addr) =>
          .ok { vp.setOctets (padTake 16 addr) with length := 16 }
  | .ipv6Prefix => parseIpv6Prefix vp value
  | .ethernet =>
      match etherLoop value [] with
      | none => .error (.ethernet value)
      | some ether => .ok { vp.setOctets ether with length := 6 }
  | .comboIp =>
      match ipHton env value afInet with
      | none => .error (.noIpv4Address value)
      | some (_, addr) =>
          .ok { vp with type := .ipaddr, lvalue := ofLe32 addr, length := 4 }
  | .signed => .ok (parseSigned vp value)
  | .tlv => parseTlv vp value

end WinRadius
