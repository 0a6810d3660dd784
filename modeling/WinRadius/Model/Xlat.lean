/-
`radius_xlat` and `decode_attribute` of xlat.cpp.

The output is memory that is written at `q`; a call for a part of it gets
the place (`out`) and the bytes that are left there (`outlen`). `p` is what
is left of the format, with its terminator. A round of the loop is
`xlatRound`; the loop takes fuel, as do the calls inside of each other, and
the length of the format is enough for both.

The intermediate buffer of `decode_attribute` is known by the texts in it:
each copy inside of it goes to a place in front of what is still to be
read.

Outside the model are the dictionary, the conversions of a time, the
registered functions and the escape function: what they leave in the bytes
they are given. Debug output is left out.
-/
import WinRadius.Model.CopyVariable
import WinRadius.Model.Print
import WinRadius.Model.Token

namespace WinRadius

open Lib

-- ======== environment

/-- `RADIUS_ESCAPE_STRING`: the text it leaves in so many bytes. -/
abbrev EscapeString := Nat → List UInt8 → List UInt8

/-- `RAD_XLAT_FUNC`, of an instance and a request: the text it leaves for a
string in so many bytes. -/
abbrev RadXlatFunc := List UInt8 → Nat → EscapeString → List UInt8

/-- What an expansion looks up. -/
structure XlatEnv where
  text : TextEnv
  /-- `dict_attrbyname`: whether there is one -/
  attrbyname : List UInt8 → Bool
  /-- the name of what `dict_vendorbyvalue` finds -/
  vendorName : Nat → Option (List UInt8)
  /-- `vp->name` -/
  vpName : ValuePair → List UInt8
  /-- `strftime` of the local time into 40 bytes -/
  strftime : List UInt8 → UInt32 → List UInt8
  /-- `CTIME_R` -/
  ctime : UInt32 → List UInt8
  /-- `rbtree_finddata` in `xlat_root`, by the module -/
  xlatRoot : List UInt8 → Option RadXlatFunc
  radacctDir : List UInt8
  radlogDir : List UInt8
  radiusDir : List UInt8

/-- The fields of `REQUEST` that an expansion reads. -/
structure XlatRequest where
  packet : List ValuePair := []
  reply : List ValuePair := []
  timestamp : UInt32 := 0
  shortname : List UInt8 := []
deriving Repr, DecidableEq

-- ======== values

/-- The loop of `xlat_copy`. -/
def xlatCopyLoop : Nat → List UInt8 → List UInt8
  | _, [] => []
  | freespace, c :: input =>
      if c ≠ 0 ∧ 1 < freespace then c :: xlatCopyLoop (freespace - 1) input
      else []

/-- `xlat_copy`. -/
def xlatCopy : EscapeString := xlatCopyLoop

/-- `valuepair2str`. -/
def valuepair2str (env : XlatEnv) (func : EscapeString) (outlen : Nat)
    (pair : Option ValuePair) (type : PwType) : List UInt8 :=
  match pair with
  | some vp => func outlen (vpPrintsValue env.text (4 * maxStringLen) vp (-1))
  | none =>
      strlcpy outlen <| match type with
        | .string => ascii "_"
        | .integer => ascii "0"
        | .ipaddr => ascii "?.?.?.?"
        | .ipv6addr => ascii ":?:"
        | .date => ascii "0"
        | _ => ascii "unknown_type"

/-- `vp_tokens`, where there is one. -/
def vpToken : FrToken → List UInt8
  | .opInvalid => ascii "<INVALID-TOKEN>"
  | .eol => ascii "EOL"
  | .lcbrace => [123]
  | .rcbrace => [125]
  | .lbrace => ascii "("
  | .rbrace => ascii ")"
  | .comma => ascii ","
  | .semicolon => ascii ";"
  | .opAdd => ascii "+="
  | .opSub => ascii "-="
  | .opSet => ascii ":="
  | .opEq => ascii "="
  | .opNe => ascii "!="
  | .opGe => ascii ">="
  | .opGt => ascii ">"
  | .opLe => ascii "<="
  | .opLt => ascii "<"
  | .opRegEq => ascii "=~"
  | .opRegNe => ascii "!~"
  | .opCmpTrue => ascii "=*"
  | .opCmpFalse => ascii "!*"
  | .opCmpEq => ascii "=="
  | .hash => ascii "#"
  | .bareWord => ascii "<BARE-WORD>"
  | .doubleQuotedString => ascii "<\"STRING\">"
  | .singleQuotedString => ascii "<'STRING'>"
  | .backQuotedString => [60, 96] ++ ascii "STRING" ++ [96, 62]

/-- `vp_print_name`, into `bufsize` bytes. -/
def vpPrintName (env : XlatEnv) (bufsize attr : Nat) : List UInt8 :=
  let vendor := vendorOf attr
  let front :=
    if vendor = 0 then []
    else match env.vendorName vendor with
      | some name => strlcpy bufsize (name ++ ascii "-")
      | none => strlcpy bufsize
          (ascii "Vendor-" ++ numeral 10 vendor ++ ascii "-")
  front ++ strlcpy (bufsize - front.length)
    (ascii "Attr-" ++ numeral 10 (attr % 65536))

/-- `vp_prints`. -/
def vpPrints (env : XlatEnv) (outlen : Nat) (vp : ValuePair) : List UInt8 :=
  let name := cString (env.vpName vp)
  let name := if name = [] then vpPrintName env 128 vp.attr else name
  let tag :=
    if vp.flags.hasTag then 58 :: numeral 10 vp.flags.tag.toNat else []
  let head := strlcpy outlen
    (name ++ tag ++ ascii " " ++ vpToken vp.op ++ ascii " ")
  head ++ vpPrintsValue env.text (outlen - head.length) vp 1

-- ======== one letter

/-- The pairs a letter stands for: where they are looked for, which one, and
what stands for it when there is none. -/
def letterPair (req : XlatRequest) (c : UInt8) :
    Option (Option ValuePair × PwType) :=
  let letters : List (UInt8 × List ValuePair × Nat × PwType) :=
    [(97, req.reply, 7, .integer), -- a: Framed-Protocol
     (99, req.reply, 19, .string), -- c: Callback-Number
     (102, req.reply, 8, .ipaddr), -- f: Framed-IP-Address
     (105, req.packet, 31, .string), -- i: Calling-Station-Id
     (110, req.packet, 4, .ipaddr), -- n: NAS-IP-Address
     (112, req.packet, 5, .integer), -- p: NAS-Port
     (115, req.packet, 77, .string), -- s: Connect-Info
     (117, req.packet, 1, .string), -- u: User-Name
     (77, req.reply, 12, .integer), -- M: Framed-MTU
     (85, req.packet, 1043, .string)] -- U: Stripped-User-Name
  match letters.find? (·.1 == c) with
  | some (_, vps, attr, type) => some (pairfind vps attr, type)
  | none => none

/-- The formats of the letters for the time of the request. -/
def letterFormat (c : UInt8) : Option (List UInt8) :=
  if c = 100 then some (ascii "%d")
  else if c = 109 then some (ascii "%m")
  else if c = 68 then some (ascii "%Y%m%d")
  else if c = 72 then some (ascii "%H")
  else if c = 83 then some (ascii "%Y-%m-%d %H:%M:%S")
  else if c = 84 then some (ascii "%Y-%m-%d-%H.%M.%S.000000")
  else if c = 89 then some (ascii "%Y")
  else none

/-- The letters whose text is copied by `strlcpy` whatever it is. -/
def letterText (env : XlatEnv) (req : XlatRequest) (c : UInt8) :
    Option (List UInt8) :=
  if c = 108 then some (numeral 10 req.timestamp.toNat)
  else if c = 116 then
    some ((env.ctime req.timestamp).takeWhile (· != 10))
  else if c = 65 then some env.radacctDir
  else if c = 67 then some req.shortname
  else if c = 76 then some env.radlogDir
  else if c = 82 then some env.radiusDir
  else if c = 86 then some (ascii "Verified")
  else none

/-- What the letter `c` writes into `freespace` bytes: not a letter, nothing
at all, or a text. -/
def letterValue (env : XlatEnv) (req : XlatRequest) (func : EscapeString)
    (freespace : Nat) (c : UInt8) : Option (Option (List UInt8)) :=
  match letterPair req c with
  | some (pair, type) => some (some (valuepair2str env func freespace pair type))
  | none =>
      match letterFormat c with
      | some format =>
          let tmpdt := env.strftime format req.timestamp
          some (if tmpdt = [] then none else some (strlcpy freespace tmpdt))
      | none => (letterText env req c).map fun text =>
          some (strlcpy freespace text)

/-- A text and its terminator, written at `q`. -/
def putText (mem : List UInt8) (q : Nat) (text : List UInt8) :
    Mem (List UInt8) :=
  storeN mem q (text ++ [0])

/-- The loop of `%Z`, over the pairs of the request. -/
def pairsLoop (env : XlatEnv) :
    List ValuePair → List UInt8 → Nat → Nat → Mem (List UInt8 × Nat)
  | [], mem, q, _ => return (mem, q)
  | vp :: vps, mem, q, freespace => do
      if ¬ 3 < freespace then return (mem, q)
      if vp.attr = pwUserPassword then pairsLoop env vps mem q freespace
      else
        let mem ← store mem q 9
        let text := vpPrints env (freespace - 2) vp
        let mem ← putText mem (q + 1) text
        let mem ← store mem (q + 1 + text.length) 10
        pairsLoop env vps mem (q + 1 + text.length + 1)
          (freespace - (text.length + 2))

-- ======== variables

/-- What `radius_xlat` returns, and the output. -/
structure Expansion where
  ret : Nat
  mem : List UInt8
deriving Repr, DecidableEq

/-- What `decode_attribute` leaves: 0 or -1, the output, and the two
pointers. -/
structure DecodedVariable where
  ok : Bool
  mem : List UInt8
  q : Nat
  p : List UInt8
deriving Repr, DecidableEq

/-- `xlat_find`. -/
def xlatFind (env : XlatEnv) (name : List UInt8) : Option RadXlatFunc :=
  let name :=
    if env.attrbyname name ∨ 91 ∈ name ∨ 35 ∈ name then ascii "request"
    else name
  env.xlatRoot (strlcpy maxStringLen name)

/-- The scan for the colon behind a module's name: the name, and what is
behind it. -/
def splitModule : List UInt8 → Option (List UInt8 × List UInt8)
  | [] => none
  | c :: rest =>
      if c = 92 then
        match rest with
        | [] => none
        | d :: rest =>
            (splitModule rest).map fun found => (c :: d :: found.1, found.2)
      else if c = 58 then some ([], rest)
      else if c = 32 ∨ c = 9 then none
      else (splitModule rest).map fun found => (c :: found.1, found.2)

/-- The second alternative: `l`, and whether it is to be expanded; `none`
when it is no variable although it begins like one. `left` is the text that
`l` points to before it is written. -/
def secondAlternative (rest left : List UInt8) :
    Mem (Option (List UInt8 × Bool)) := do
  if [37, 123] <+: rest then
    match ← radCopyVariable (rest ++ [0]) with
    | none => return none
    | some (_, copied) => return some (cString copied, true)
  else if rest.head? = some 34 ∨ rest.head? = some 39 then
    let thing ← getstring (rest ++ [0]) (left ++ [0]) left.length
    return some (cString thing.buf, false)
  else return some (rest, false)

/-- `%{%{foo}:-bar}`: `text` is what stands at `p`, `off` bytes
into the buffer. -/
def decodeConditional
    (xlat : List UInt8 → Nat → Nat → List UInt8 → Mem Expansion)
    (mem : List UInt8) (q freespace off : Nat) (text p : List UInt8) :
    Mem DecodedVariable := do
  match ← radCopyVariable (text ++ [0]) with
  | none => return ⟨false, mem, q, p⟩
  | some (len1, copied) =>
      let first := cString copied
      let rest := text.drop len1
      -- nothing behind it, or no `:-`
      if rest.getD 0 0 ≠ 58 ∨ rest.getD 1 0 ≠ 45 then
        return ⟨false, mem, q, p⟩
      match ← secondAlternative (rest.drop 2) (text.drop (len1 + 1 - off)) with
      | none => return ⟨false, mem, q, p⟩
      | some (second, expand2) =>
          let run ← xlat mem q freespace (first ++ [0])
          if run.ret ≠ 0 then return ⟨true, run.mem, q + run.ret, p⟩
          if expand2 then
            let run ← xlat run.mem q freespace (second ++ [0])
            return ⟨true, run.mem, q + run.ret, p⟩
          let text := strlcpy freespace second
          return ⟨true, ← putText run.mem q text, q + text.length, p⟩

/-- From `do_xlat` on. -/
def decodeModule (env : XlatEnv) (func : EscapeString)
    (xlat : List UInt8 → Nat → Nat → List UInt8 → Mem Expansion)
    (mem : List UInt8) (q freespace : Nat) (doLength : Bool)
    (xlatName xlatStr : List UInt8) (next : Option (List UInt8))
    (p : List UInt8) : Mem DecodedVariable := do
  match xlatFind env xlatName with
  | none => return ⟨false, mem, q, p⟩
  | some doXlat =>
      let text := doXlat xlatStr freespace func
      let mem ← putText mem q text
      if text ≠ [] then
        if doLength then
          let count := strlcpy freespace (numeral 10 text.length)
          return ⟨true, ← putText mem q count, q + count.length, p⟩
        return ⟨true, mem, q + text.length, p⟩
      match next with
      | some next =>
          let run ← xlat mem q freespace (next ++ [0])
          return ⟨true, run.mem, q + run.ret, p⟩
      | none => return ⟨true, mem, q, p⟩

/-- `decode_attribute`, at a `%{`. -/
def decodeAttribute (env : XlatEnv) (func : EscapeString)
    (xlat : List UInt8 → Nat → Nat → List UInt8 → Mem Expansion)
    (mem : List UInt8) (q freespace : Nat) (p : List UInt8) :
    Mem DecodedVariable := do
  let mem ← store mem q 0
  match ← radCopyVariable p with
  | none =>
      -- everything up to the terminator has been copied to `buffer`
      if 8192 < (cString p).length then throw .overwrite
      return ⟨false, mem, q, p⟩
  | some (varlen, copied) =>
      if 8192 < copied.length then throw .overwrite
      let p := p.drop varlen
      -- the text inside of the braces
      let text := cString ((copied.take (varlen - 1)).drop 2)
      let doLength := text.head? = some 35
      let text := if doLength then text.drop 1 else text
      if [37, 123] <+: text then
        decodeConditional xlat mem q freespace (if doLength then 3 else 2)
          text p
      else
        match splitModule text with
        | none =>
            decodeModule env func xlat mem q freespace doLength text text none
              p
        | some (name, rest) =>
            if rest.head? = some 45 then
              decodeModule env func xlat mem q freespace doLength name name
                (some (rest.drop 1)) p
            else
              decodeModule env func xlat mem q freespace doLength name rest
                none p

-- ======== the loop

/-- The variables of the loop. -/
structure XlatState where
  mem : List UInt8
  q : Nat
  p : List UInt8
  openbraces : Nat := 0
deriving Repr, DecidableEq

/-- How a round ends: the loop goes on or is left, or the function returns 0
at once. -/
inductive XlatNext where
  | more (s : XlatState)
  | leave (s : XlatState)
  | fail (s : XlatState)
deriving Repr, DecidableEq

/-- Bytes written at `q`. -/
def XlatState.put (s : XlatState) (bytes p : List UInt8) : Mem XlatState := do
  return { s with mem := ← storeN s.mem s.q bytes, q := s.q + bytes.length, p }

/-- Behind a backslash, at the character `d`. -/
def xlatEscape (s : XlatState) (d : UInt8) (p : List UInt8) :
    Mem XlatNext := do
  let bytes : List UInt8 :=
    if d = 92 then [92] else if d = 116 then [9] else if d = 110 then [10]
    else [92, d]
  return .more (← s.put bytes (p.drop 1))

/-- Behind a percent sign, at the character `d`; `s.p` is still at the
sign. -/
def xlatPercent (env : XlatEnv) (req : XlatRequest) (func : EscapeString)
    (xlat : List UInt8 → Nat → Nat → List UInt8 → Mem Expansion)
    (freespace : Nat) (s : XlatState) (d : UInt8) (p : List UInt8) :
    Mem XlatNext := do
  if d = 123 then
    let v ← decodeAttribute env func xlat s.mem s.q freespace s.p
    let s := { s with mem := v.mem, q := v.q, p := v.p }
    return if v.ok then .more s else .fail s
  if d = 37 then return .more (← s.put [d] (p.drop 1))
  if d = 90 then
    let (mem, q) ← pairsLoop env req.packet s.mem s.q freespace
    return .more { s with mem, q, p := p.drop 1 }
  match letterValue env req func freespace d with
  | some (some text) =>
      let mem ← putText s.mem s.q text
      return .more { s with mem, q := s.q + text.length, p := p.drop 1 }
  | some none => return .more { s with p := p.drop 1 }
  | none =>
      if 2 < freespace then return .more (← s.put [37, d] (p.drop 1))
      return .more { s with p }

/-- A round of `while (*p)`. What is left of the output is taken as 0 where
it would be negative. -/
def xlatRound (env : XlatEnv) (req : XlatRequest) (func : EscapeString)
    (xlat : List UInt8 → Nat → Nat → List UInt8 → Mem Expansion)
    (out outlen : Nat) (s : XlatState) : Mem XlatNext := do
  let c ← peekByte s.p
  if c = 0 then return .leave s
  let freespace := outlen - (s.q - out)
  if freespace ≤ 1 then return .leave s
  let p := s.p.drop 1
  if c ≠ 37 ∧ c ≠ 36 ∧ c ≠ 92 then
    if c = 125 ∧ s.openbraces ≠ 0 then
      return .more { s with openbraces := s.openbraces - 1, p }
    return .more (← s.put [c] p)
  let d ← peekByte p
  if d = 0 then return .leave (← s.put [c] p)
  if c = 92 then xlatEscape s d p
  else if c = 37 then xlatPercent env req func xlat freespace s d p
  else return .more { s with p }

/-- The loop, and what is behind it. -/
def xlatLoop (env : XlatEnv) (req : XlatRequest) (func : EscapeString)
    (xlat : List UInt8 → Nat → Nat → List UInt8 → Mem Expansion)
    (out outlen : Nat) : Nat → XlatState → Mem Expansion
  | 0, _ => throw .hang
  | k + 1, s => do
      match ← xlatRound env req func xlat out outlen s with
      | .more s => xlatLoop env req func xlat out outlen k s
      | .fail s => return ⟨0, s.mem⟩
      | .leave s =>
          let mem ← store s.mem s.q 0
          return ⟨(cString (mem.drop out)).length, mem⟩

/-- `radius_xlat`, within calls inside of each other. -/
def xlatAt (env : XlatEnv) (req : XlatRequest) (func : EscapeString) :
    Nat → List UInt8 → Nat → Nat → List UInt8 → Mem Expansion
  | 0, _, _, _, _ => throw .hang
  | depth + 1, mem, out, outlen, fmt =>
      xlatLoop env req func (xlatAt env req func depth) out outlen
        (fmt.length + 1) ⟨mem, out, fmt, 0⟩

/-- `radius_xlat`. -/
def radiusXlat (env : XlatEnv) (req : XlatRequest)
    (func : Option EscapeString) (mem : List UInt8) (out outlen : Nat)
    (fmt : List UInt8) : Mem Expansion :=
  xlatAt env req (func.getD xlatCopy) (fmt.length + 1) mem out outlen fmt

end WinRadius
