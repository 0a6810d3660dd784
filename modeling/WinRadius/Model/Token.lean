/-
The tokens of token.cpp: `getthing` and the functions that call it.

`*ptr` is what is left of the text, with its terminator, and the buffer is
the caller's memory, written at `s` byte by byte. The word loop counts
`buflen` down, as the source does, and that is its recursion.

A `char` is taken as unsigned: `isspace` of a negative one is not defined.
-/
import WinRadius.Model.Detail
import WinRadius.Model.Types
import WinRadius.Lib.Blocks
import WinRadius.Lib.Cursor
import WinRadius.Lib.Numeral

namespace WinRadius

open Lib

/-- An `FR_NAME_NUMBER` of a token list. -/
structure NameNumber where
  name : List UInt8
  number : FrToken
deriving Repr, DecidableEq

/-- `tokens`; the order is important. -/
def tokens : List NameNumber :=
  [⟨ascii "=~", .opRegEq⟩, ⟨ascii "!~", .opRegNe⟩, ⟨[123], .lcbrace⟩,
   ⟨[125], .rcbrace⟩, ⟨ascii "(", .lbrace⟩, ⟨ascii ")", .rbrace⟩,
   ⟨ascii ",", .comma⟩, ⟨ascii "+=", .opAdd⟩, ⟨ascii "-=", .opSub⟩,
   ⟨ascii ":=", .opSet⟩, ⟨ascii "=*", .opCmpTrue⟩,
   ⟨ascii "!*", .opCmpFalse⟩, ⟨ascii "==", .opCmpEq⟩, ⟨ascii "=", .opEq⟩,
   ⟨ascii "!=", .opNe⟩, ⟨ascii ">=", .opGe⟩, ⟨ascii ">", .opGt⟩,
   ⟨ascii "<=", .opLe⟩, ⟨ascii "<", .opLt⟩, ⟨ascii "#", .hash⟩,
   ⟨ascii ";", .semicolon⟩]

/-- `TOKEN_MATCH`. -/
def tokenMatch (p name : List UInt8) : Mem Bool := do
  if name.getD 0 0 ≠ (← peekByte p) then return false
  return name.getD 1 0 = (← peekByte (p.drop 1)) || name.getD 1 0 = 0

/-- `for (t = tokenlist; t->name; t++) if (TOKEN_MATCH(p, t->name))`. -/
def tokenFind (p : List UInt8) : List NameNumber → Mem (Option NameNumber)
  | [] => return none
  | t :: rest => do
      if ← tokenMatch p t.name then return some t
      tokenFind p rest

/-- `while (*p && isspace(*p)) p++`. A terminator is no space. -/
def skipSpace : List UInt8 → Mem (List UInt8)
  | [] => throw .overread
  | c :: p => if c ≠ 0 ∧ isSpace c then skipSpace p else return c :: p

/-- `strcpy(buf, t->name)`. -/
def strcpy (buf : List UInt8) : Nat → List UInt8 → Mem (List UInt8)
  | s, [] => store buf s 0
  | s, c :: rest => do strcpy (← store buf s c) (s + 1) rest

/-- `sscanf(p, "%3o", &x)`, at a digit. -/
def scanOctal (p : List UInt8) : Option UInt8 :=
  let digits := (p.take 3).takeWhile (isDigitOf 8)
  if digits = [] then none else some (UInt8.ofNat (ofNumeral 8 digits))

/-- The `switch` behind a backslash, with the `p++` that follows it: the
character that is stored and where `p` is left. -/
def escape (p : List UInt8) : Mem (UInt8 × List UInt8) := do
  let (c, rest) ← readByte p
  if c = 114 then return (13, rest)
  if c = 110 then return (10, rest)
  if c = 116 then return (9, rest)
  if c = 0 then return (92, p) -- back to the backslash, to force EOS
  if 48 ≤ c ∧ c ≤ 57 then
    match scanOctal p with
    | some x => return (x, p.drop 3)
    | none => return (c, rest)
  return (c, rest)

/-- The variables of `getthing` behind the word loop. -/
structure Word where
  buf : List UInt8
  s : Nat
  p : List UInt8
  closed : Bool := false -- `end`
deriving Repr, DecidableEq

/-- `if (!quote)`: whether a bare word ends at `p`. -/
def wordEnds (quote : UInt8) (tok : Bool) (tokenlist : List NameNumber)
    (p : List UInt8) : Mem Bool := do
  if quote ≠ 0 then return false
  if isSpace (← peekByte p) then return true
  if tok then return (← tokenFind p tokenlist).isSome
  return false

/-- `while (*p && buflen-- > 1)`. -/
def wordLoop (quote : UInt8) (tok : Bool) (tokenlist : List NameNumber) :
    Nat → List UInt8 → Nat → List UInt8 → Mem Word
  | 0, buf, s, p => do
      let _ ← peekByte p
      return { buf, s, p }
  | buflen + 1, buf, s, p => do
      let c ← peekByte p
      if c = 0 ∨ ¬ 1 < buflen + 1 then return { buf, s, p }
      if quote ≠ 0 ∧ c = 92 then
        let (x, p) ← escape (p.drop 1)
        wordLoop quote tok tokenlist buflen (← store buf s x) (s + 1) p
      else if quote ≠ 0 ∧ c = quote then
        return { buf, s, p := p.drop 1, closed := true }
      else if ← wordEnds quote tok tokenlist p then return { buf, s, p }
      else
        wordLoop quote tok tokenlist buflen (← store buf s c) (s + 1)
          (p.drop 1)

/-- What a call leaves behind: the token, the buffer and `*ptr`. -/
structure Thing where
  token : FrToken
  buf : List UInt8
  ptr : List UInt8
deriving Repr, DecidableEq

/-- The token of a word, by its quote. -/
def wordToken (quote : UInt8) : FrToken :=
  if quote = 39 then .singleQuotedString
  else if quote = 34 then .doubleQuotedString
  else if quote = 96 then .backQuotedString
  else .bareWord

/-- From `Read word` on: `p` is at the first character of the word. -/
def getWord (ptr p buf : List UInt8) (buflen : Nat) (tok : Bool)
    (tokenlist : List NameNumber) : Mem Thing := do
  let c ← peekByte p
  let (quote, p) := if c = 34 ∨ c = 39 ∨ c = 96 then (c, p.drop 1) else (0, p)
  let w ← wordLoop quote tok tokenlist buflen buf 0 p
  let buf ← store w.buf w.s 0
  if quote ≠ 0 ∧ ¬ w.closed then
    return ⟨.opInvalid, buf, ptr⟩ -- Unterminated string
  return ⟨wordToken quote, buf, ← skipSpace w.p⟩

/-- `getthing`. -/
def getthing (ptr buf : List UInt8) (buflen : Nat) (tok : Bool)
    (tokenlist : List NameNumber) : Mem Thing := do
  let buf ← store buf 0 0
  let p ← skipSpace ptr
  if (← peekByte p) = 0 then return ⟨.eol, buf, p⟩
  match ← if tok then tokenFind p tokenlist else pure none with
  | some t =>
      let buf ← strcpy buf 0 t.name
      return ⟨t.number, buf, ← skipSpace (p.drop t.name.length)⟩
  | none => getWord ptr p buf buflen tok tokenlist

/-- `getword`: whether there is a word, the buffer and `*ptr`. -/
def getword (ptr buf : List UInt8) (buflen : Nat) :
    Mem (Bool × List UInt8 × List UInt8) := do
  let r ← getthing ptr buf buflen false tokens
  return (r.token ≠ .eol, r.buf, r.ptr)

/-- `gettoken`. -/
def gettoken (ptr buf : List UInt8) (buflen : Nat) : Mem Thing :=
  getthing ptr buf buflen true tokens

/-- `getstring`. -/
def getstring (ptr buf : List UInt8) (buflen : Nat) : Mem Thing := do
  let p ← skipSpace ptr
  let c ← peekByte p
  if c = 34 ∨ c = 39 ∨ c = 96 then gettoken p buf buflen
  else getthing p buf buflen false tokens

end WinRadius
