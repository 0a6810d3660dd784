/-
The comparisons of pairs: `paircmp` of valuepair-lib.cpp, and of
valuepair.cpp `radius_compare_vps` and `paircompare`.

A difference of two 32-bit values is kept in an `int` (`cInt`). The build
has neither regular expressions nor `ASCEND_BINARY`. The lists given to a
registered comparison are the same for the whole call, so it is a function
of the two pairs.
-/
import WinRadius.Model.ConfSection
import WinRadius.Model.PacketList

namespace WinRadius

open Lib

def pwCryptPassword : Nat := 1006
def pwAuthType : Nat := 1000
def pwAutzType : Nat := 1011
def pwAcctType : Nat := 1012
def pwSessionType : Nat := 1013
def pwStripUserName : Nat := 1035

/-- A `uint32_t` kept in an `int`. -/
def cInt (v : UInt32) : Int :=
  if v.toNat < 2147483648 then v.toNat else (v.toNat : Int) - 4294967296

/-- The number of an attribute, kept in an `int`. -/
def attrInt (attr : Nat) : Int := cInt (UInt32.ofNat attr)

/-- `vp_strvalue`, as a string. -/
def ValuePair.strvalue (vp : ValuePair) : List UInt8 := cString vp.data

-- ======== paircmp

/-- The comparison by type of `paircmp`; `none` for a type it does not
know. -/
def paircmpValue (one two : ValuePair) : Option Int :=
  match one.type with
  | .abinary | .octets =>
      let length := min one.length two.length
      let compare := memcmp (two.octets length) (one.octets length)
      if compare ≠ 0 then some compare
      else some ((two.length : Int) - one.length)
  | .string => some (strcmp two.strvalue one.strvalue)
  | .byte | .short | .integer | .date => some (cInt (two.lvalue - one.lvalue))
  | .ipaddr =>
      some (cInt (byteSwap32 two.lvalue - byteSwap32 one.lvalue))
  | .ipv6addr => some (memcmp (two.octets 16) (one.octets 16))
  | .ipv6Prefix => some (memcmp (two.octets 18) (one.octets 18))
  | .ifid => some (memcmp (two.octets 8) (one.octets 8))
  | _ => none

/-- What an operator asks of the sign of a comparison. -/
def opAsks (op : FrToken) (compare : Int) : Bool :=
  match op with
  | .opNe => compare ≠ 0
  | .opLt => compare < 0
  | .opGt => 0 < compare
  | .opLe => compare ≤ 0
  | .opGe => 0 ≤ compare
  | _ => compare = 0

/-- `paircmp`; `none` when it reads through a `NULL` pointer. -/
def paircmp (one : ValuePair) (two : Option ValuePair) : Option Int :=
  match one.op, two with
  | .opCmpTrue, _ => some (if two.isSome then 1 else 0)
  | .opCmpFalse, _ => some (if two.isNone then 1 else 0)
  | .opRegEq, _ | .opRegNe, _ => some (-1)
  | _, none => none
  | op, some two =>
      match paircmpValue one two with
      | none => some 0
      | some compare =>
          match op with
          | .opCmpEq | .opNe | .opLt | .opGt | .opLe | .opGe =>
              some (if opAsks op compare then 1 else 0)
          | _ => some 0

-- ======== radius_compare_vps

/-- The switch over the types of `radius_compare_vps`, with what `ret` was
before. -/
def compareTypes (check vp : ValuePair) (ret : Int) : Int :=
  match check.type with
  | .octets =>
      if vp.length ≠ check.length then 1
      else memcmp (vp.octets vp.length) (check.octets vp.length)
  | .string => strcmp vp.strvalue check.strvalue
  | .byte | .short | .integer | .date => cInt (vp.lvalue - check.lvalue)
  | .ipaddr => cInt (byteSwap32 vp.lvalue - byteSwap32 check.lvalue)
  | .ipv6addr => memcmp (vp.octets 16) (check.octets 16)
  | .ipv6Prefix => memcmp (vp.octets 18) (check.octets 18)
  | .ifid => memcmp (vp.octets 8) (check.octets 8)
  | _ => ret

/-- `radius_compare_vps`. -/
def radiusCompareVps (check vp : ValuePair) : Int :=
  if check.op = .opCmpTrue then 0
  else if check.op = .opCmpFalse then 1
  else if check.flags.hasTag then
    let ret := (vp.flags.tag.toNat : Int) - check.flags.tag.toNat
    if ret ≠ 0 then ret else compareTypes check vp ret
  else compareTypes check vp (-2)

-- ======== paircompare

/-- `struct cmp`: a registered comparison. -/
structure Cmp where
  attr : Int
  otherattr : Int
  compare : ValuePair → ValuePair → Int

/-- An item of a check list, which may have to be expanded first. -/
structure CheckItem where
  vp : ValuePair
  doXlat : Bool := false
deriving DecidableEq

/-- `radius_callback_compare`, of a pair in the request. -/
def radiusCallbackCompare (cmp : List Cmp) (request check : ValuePair) :
    Int :=
  if check.op = .opCmpTrue then 0
  else if check.op = .opCmpFalse then 1
  else
    match cmp.find? fun c => c.attr = attrInt check.attr with
    | some c => c.compare request check
    | none => radiusCompareVps check request

/-- `otherattr`. -/
def otherattr (cmp : List Cmp) (attr : Nat) : Int :=
  match cmp.find? fun c => c.attr = attrInt attr with
  | some c => c.otherattr
  | none => attrInt attr

/-- What a check item comes to: the next one is looked at, with `result`,
or the function returns -1. -/
inductive ItemOutcome where
  | next (result : Int)
  | fail
deriving DecidableEq

/-- The item expanded: `radius_xlat` and `pairparsevalue`, which parses a
value and leaves the number and the operator. -/
def CheckItem.expand (xlat : ValuePair → ValuePair) (item : CheckItem) :
    CheckItem :=
  if item.doXlat then
    ⟨{ xlat item.vp with attr := item.vp.attr, op := item.vp.op }, false⟩
  else item

/-- From `try_again` on, with the rest of the request. -/
def tryAgain (cmp : List Cmp) (xlat : ValuePair → ValuePair) (other : Int) :
    List ValuePair → CheckItem → Int → ItemOutcome
  | [], checkItem, result =>
      if checkItem.vp.op = .opCmpFalse then .next result else .fail
  | authItem :: rest, checkItem, result =>
      if 0 ≤ other ∧ attrInt authItem.attr ≠ other ∧ other ≠ 0 then
        tryAgain cmp xlat other rest checkItem result
      else if checkItem.vp.op = .opCmpFalse then .fail
      else
        let checkItem := checkItem.expand xlat
        let compare := radiusCallbackCompare cmp authItem checkItem.vp
        let result := if opAsks checkItem.vp.op compare then result else -1
        if result ≠ 0 ∧ 0 ≤ other then
          tryAgain cmp xlat other rest checkItem 0
        else .next result

/-- The attributes that are not compared. -/
def serverAttr (attr : Nat) : Bool :=
  [pwCryptPassword, pwAuthType, pwAutzType, pwAcctType, pwSessionType,
    pwStripUserName].contains attr

/-- The items `paircompare` passes over. -/
def skipItem (request : List ValuePair) (item : CheckItem) : Bool :=
  item.vp.op == .opSet || item.vp.op == .opAdd || serverAttr item.vp.attr
    || (item.vp.attr == pwUserPassword
      && (pairfind request pwUserPassword).isNone)

/-- The loop of `paircompare`. -/
def paircompareLoop (cmp : List Cmp) (xlat : ValuePair → ValuePair)
    (request : List ValuePair) : List CheckItem → Int → Int
  | [], result => result
  | item :: check, result =>
      if skipItem request item then
        paircompareLoop cmp xlat request check result
      else
        match tryAgain cmp xlat (otherattr cmp item.vp.attr) request item
            result with
        | .fail => -1
        | .next result => paircompareLoop cmp xlat request check result

/-- `paircompare`. -/
def paircompare (cmp : List Cmp) (xlat : ValuePair → ValuePair)
    (request : List ValuePair) (check : List CheckItem) : Int :=
  paircompareLoop cmp xlat request check 0

end WinRadius
