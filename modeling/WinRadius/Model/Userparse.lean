/-
`pairread` and `userparse` of valuepair-lib.cpp.

`pairmake` and `pairparsevalue` are parameters. What `*ptr` is left at
where no pair is made is left out, since `userparse` returns there, and so
are the texts of the errors. A pair carries its `do_xlat` flag beside it.

The local arrays start out as zeros: `getthing` writes what is read of
them, up to a terminator.
-/
import WinRadius.Model.Print
import WinRadius.Model.Token

namespace WinRadius

open Lib

/-- The functions that make a pair of a name and a value. -/
structure PairMakers where
  pairmake : List UInt8 → Option (List UInt8) → FrToken → Option ValuePair
  pairparsevalue : ValuePair → List UInt8 → Option ValuePair

/-- A pair, and whether its value is still to be expanded. -/
structure UserPair where
  vp : ValuePair
  doXlat : Bool := false
deriving Repr, DecidableEq

/-- `valid_attr_name`. -/
def validAttrName (c : UInt8) : Bool :=
  c = 45 || (48 ≤ c && c ≤ 58) || (65 ≤ c && c ≤ 90) || c = 95
    || (97 ≤ c && c ≤ 122)

/-- The characters `pairread` skips first. -/
def isBlank (c : UInt8) : Bool := c = 32 || c = 9

/-- The name of an attribute and what is left behind it; none where it is
too long. -/
def attrName (p : List UInt8) : Option (List UInt8 × List UInt8) :=
  let name := (p.takeWhile validAttrName).take 64
  if name.length = 64 then none
  else if name.getLast? = some 58 then
    -- we may have Foo-Bar:= stuff, so back up
    some (name.dropLast, p.drop (name.length - 1))
  else some (name, p.drop name.length)

/-- `T_EQSTART <= token && token <= T_EQEND`; the end of the range is one
behind the last operator. -/
def isEqToken : FrToken → Bool
  | .opAdd | .opSub | .opSet | .opEq | .opNe | .opGe | .opGt | .opLe | .opLt
  | .opRegEq | .opRegNe | .opCmpTrue | .opCmpFalse | .opCmpEq | .hash => true
  | _ => false

/-- What is read of a pair before it is made. -/
structure PairWords where
  name : List UInt8
  token : FrToken
  xlat : FrToken
  value : List UInt8
  t : FrToken
  ptr : List UInt8
deriving Repr, DecidableEq

/-- Peek at the next token. Must be `T_EOL`, `T_COMMA`, or `T_HASH`. -/
def peekWord (name : List UInt8) (op v : Thing) :
    Mem (Option PairWords) := do
  let next ← gettoken v.ptr op.buf 64
  if next.token ≠ .eol ∧ next.token ≠ .comma ∧ next.token ≠ .hash then
    return none
  return some {
    name, token := op.token, xlat := v.token, value := cString v.buf,
    t := next.token
    ptr := if next.token = .comma then next.ptr else v.ptr }

/-- Read value. -/
def valueWords (name : List UInt8) (op : Thing) : Mem (Option PairWords) := do
  if isEqToken op.token = false then return none
  let v ← gettoken op.ptr (List.replicate 1024 0) 1024
  if v.token = .eol then return none
  peekWord name op v

/-- From the attribute name on, up to the token that is peeked at. -/
def pairWords (p : List UInt8) : Mem (Option PairWords) := do
  match attrName p with
  | none => return none
  | some (name, p) =>
      let op ← gettoken p (List.replicate 64 0) 64
      valueWords name op

/-- `p = strchr(value, '%'); p && (p[1] == '{')`. -/
def startsXlat (value : List UInt8) : Bool :=
  (value.dropWhile (· ≠ 37)).getD 1 0 = 123

/-- A pair whose value is expanded later. -/
def deferred (vp : ValuePair) (value : List UInt8) : UserPair :=
  { vp := { vp with data := strlcpy maxStringLen value, length := 0 }
    doXlat := true }

/-- The switch over `xlat`, with `*eol`. -/
def pairSwitch (cfg : PairMakers) (w : PairWords) :
    Option UserPair × FrToken :=
  match w.xlat with
  | .doubleQuotedString =>
      if startsXlat w.value then
        if maxStringLen ≤ w.value.length then (none, w.t) -- Value too long
        else match cfg.pairmake w.name none w.token with
          | none => (none, .opInvalid)
          | some vp => (some (deferred vp w.value), w.t)
      else match cfg.pairmake w.name (some w.value) w.token with
        | none => (none, .opInvalid)
        | some vp => (some { vp }, w.t)
  | .singleQuotedString =>
      match cfg.pairmake w.name none w.token with
      | none => (none, .opInvalid)
      | some vp =>
          if vp.type = .string ∨ vp.type = .octets then
            let text := strlcpy maxStringLen w.value
            (some { vp := { vp with data := text, length := text.length } },
              w.t)
          else match cfg.pairparsevalue vp w.value with
            | none => (none, .opInvalid)
            | some vp => (some { vp }, w.t)
  | .backQuotedString =>
      if maxStringLen ≤ w.value.length then (none, w.t) -- Value too long
      else match cfg.pairmake w.name none w.token with
        | none => (none, .opInvalid)
        | some vp => (some (deferred vp w.value), w.t)
  | _ =>
      match cfg.pairmake w.name (some w.value) w.token with
      | none => (none, .opInvalid)
      | some vp => (some { vp }, w.t)

/-- The answer of `pairread`: a pair, `*eol` and `*ptr`, or only `*eol`. -/
inductive PairRead where
  | made (pair : UserPair) (last : FrToken) (ptr : List UInt8)
  | failed (last : FrToken)
deriving Repr, DecidableEq

/-- `pairread`. -/
def pairread (cfg : PairMakers) (ptr : List UInt8) : Mem PairRead := do
  let p := ptr.dropWhile isBlank
  let c ← peekByte p
  if c = 0 then return .failed .opInvalid
  if c = 35 then return .failed .hash
  match ← pairWords p with
  | none => return .failed .opInvalid
  | some w =>
      match pairSwitch cfg w with
      | (none, next) => return .failed next
      | (some pair, next) => return .made pair next w.ptr

/-- The loop of `userparse`. The fuel is more than the text; a pair moves
on. -/
def userparseLoop (cfg : PairMakers) : Nat → List UInt8 → List UserPair →
    FrToken → Mem (FrToken × List UserPair)
  | 0, _, _, _ => throw .hang
  | fuel + 1, p, first, last => do
      let previous := last
      match ← pairread cfg p with
      | .failed last => return (last, first)
      | .made pair last p =>
          let first := first ++ [pair]
          if (← peekByte p) ≠ 0 ∧ last = .comma then
            userparseLoop cfg fuel p first last
          else if last = .hash then return (previous, first)
          else return (last, first)

/-- `userparse`: the token and the list behind `first_pair`. -/
def userparse (cfg : PairMakers) (buffer : List UInt8)
    (first : List UserPair) : Mem (FrToken × List UserPair) := do
  if (← peekByte buffer) = 0 then return (.eol, first)
  userparseLoop cfg buffer.length buffer first .opInvalid

end WinRadius
