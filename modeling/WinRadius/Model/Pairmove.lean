/-
`pairmove` of valuepair-lib.cpp, with the list functions it calls, on
linked pairs.

A pair is the address of a cell; what `memcpy` copies of it is its
`ValuePair`, and its link is beside it. A `VALUE_PAIR **` is a head or the
link of a pair (`PairRef`). A pair that was freed has no value any more,
and a read or a write of it is a fault, `none`. So is a walk that does not
end within its bound.

`moveItem` is one round of the loop over `from`, after `next` was read.

# Left out

The block that is compiled out for want of regular expressions. The
string of a TLV pair, which lies over its pointer, is taken to be empty.
-/
import WinRadius.Model.Compare
import Mathlib.Logic.Function.Basic

namespace WinRadius

open Lib

-- ======== the memory

def pwFramedRoute : Nat := 22
def pwFallThrough : Nat := 500
def pwHint : Nat := 1040

/-- `VALUE_PAIR **`: where a pointer to a pair is kept. -/
inductive PairRef where
  | toHead
  | fromHead
  | nextOf (vp : Nat)
deriving Repr, DecidableEq

/-- The pairs and the heads of the two lists. -/
structure PairStore where
  vps : Nat → Option ValuePair := fun _ => none
  next : Nat → Option Nat := fun _ => none
  toHead : Option Nat := none
  fromHead : Option Nat := none

namespace PairStore

/-- `*ref = p`. -/
def assign (s : PairStore) (ref : PairRef) (p : Option Nat) :
    Option PairStore :=
  match ref with
  | .toHead => some { s with toHead := p }
  | .fromHead => some { s with fromHead := p }
  | .nextOf a =>
      match s.vps a with
      | none => none
      | some _ => some { s with next := Function.update s.next a p }

/-- `pairbasicfree`. -/
def basicfree (s : PairStore) (a : Nat) : PairStore :=
  { s with vps := Function.update s.vps a none }

/-- `memcpy(found, i, sizeof(*found))`, with the link put back. -/
def overwrite (s : PairStore) (found : Nat) (vp : ValuePair) : PairStore :=
  { s with vps := Function.update s.vps found (some vp) }

-- ======== walks

/-- `pairfind`. -/
def find : Nat → PairStore → Option Nat → Nat → Option (Option Nat)
  | _, _, none, _ => some none
  | 0, _, some _, _ => none
  | n + 1, s, some first, attr =>
      match s.vps first with
      | none => none
      | some vp =>
          if vp.attr = attr then some (some first)
          else find n s (s.next first) attr

/-- The loop of `pairdelete`. -/
def delete : Nat → PairStore → Nat → Option Nat → PairRef →
    Option PairStore
  | _, s, _, none, _ => some s
  | 0, _, _, some _, _ => none
  | n + 1, s, attr, some i, last =>
      match s.vps i with
      | none => none
      | some vp =>
          let next := s.next i
          if vp.attr = attr then
            match s.assign last next with
            | none => none
            | some s => delete n (s.basicfree i) attr next last
          else delete n s attr next (.nextOf i)

/-- The loops that point `tailto` to the end of a list. -/
def tail : Nat → PairStore → Option Nat → PairRef → Option PairRef
  | _, _, none, tailto => some tailto
  | 0, _, some _, _ => none
  | n + 1, s, some j, _ =>
      match s.vps j with
      | none => none
      | some _ => tail n s (s.next j) (.nextOf j)

end PairStore

-- ======== one item

/-- The attributes that are not moved when there is one of them. -/
def isPassword (attr : Nat) : Bool :=
  attr == pwUserPassword || attr == pwCryptPassword

/-- `i->op_token` is one of the operators of a check list that are
listed. -/
def staysInCheckList : FrToken → Bool
  | .opNe | .opGe | .opGt | .opLe | .opLt | .opCmpTrue | .opCmpFalse
  | .opCmpEq => true
  | _ => false

/-- The local variables of `pairmove` that change in the loop. -/
structure PairMover where
  store : PairStore
  tailto : PairRef := .toHead
  tailfrom : Option Nat := none

/-- The end of the loop: `i` is taken out of `from` and put behind `to`. -/
def moveOver (st : PairMover) (i : Nat) (next : Option Nat) :
    Option PairMover := do
  -- `tailfrom->next`, or `*from` where nothing has stayed so far
  let ref := (st.tailfrom.map PairRef.nextOf).getD .fromHead
  let s ← st.store.assign ref next
  let tailto := if s.toHead = none then .toHead else st.tailto
  let s ← s.assign tailto (some i)
  let s ← s.assign (.nextOf i) none
  return { st with store := s, tailto := .nextOf i }

/-- The case of `T_OP_SUB`. -/
def moveSub (n : Nat) (st : PairMover) (i : Nat) (vp : ValuePair)
    (found : Option Nat) : Option PairMover :=
  let kept := { st with tailfrom := some i }
  match found with
  | none => some kept
  | some found =>
      match st.store.vps found with
      | none => none
      | some old =>
          if cString vp.data = [] ∨ cString old.data = cString vp.data then do
            let s ← st.store.delete n old.attr st.store.toHead .toHead
            let tailto ← s.tail n s.toHead .toHead
            return { kept with store := s, tailto := tailto }
          else some kept

/-- The case of `T_OP_SET`, for a pair that is found. The item is neither
taken out of `from` nor made its tail. -/
def moveSet (n : Nat) (st : PairMover) (vp : ValuePair) (found : Nat) :
    Option PairMover := do
  let s := st.store.overwrite found vp
  let s ← s.delete n vp.attr (s.next found) (.nextOf found)
  let tailto ← s.tail n (some found) st.tailto
  return { st with store := s, tailto := tailto }

/-- One item of `from`. -/
def movePair (n : Nat) (hasPassword : Bool) (st : PairMover) (i : Nat)
    (next : Option Nat) : Option PairMover :=
  let kept := { st with tailfrom := some i }
  match st.store.vps i with
  | none => none
  | some vp =>
      if hasPassword ∧ isPassword vp.attr then some kept
      else if staysInCheckList vp.op then some kept
      else if vp.attr = pwFallThrough
          ∨ (vp.attr ≠ pwHint ∧ vp.attr ≠ pwFramedRoute) then do
        let found ← st.store.find n st.store.toHead vp.attr
        match vp.op, found with
        | .opSub, found => moveSub n st i vp found
        | .opEq, some _ => some kept
        | .opSet, some found => moveSet n st vp found
        | _, _ => moveOver st i next
      else moveOver st i next

-- ======== the loops

/-- The first loop: `has_password` and `tailto`. -/
def scanTo : Nat → PairStore → Option Nat → Bool × PairRef →
    Option (Bool × PairRef)
  | _, _, none, found => some found
  | 0, _, some _, _ => none
  | n + 1, s, some i, (hasPassword, _) =>
      match s.vps i with
      | none => none
      | some vp =>
          scanTo n s (s.next i) (hasPassword || isPassword vp.attr,
            .nextOf i)

/-- The loop over `from`, at most `rounds` of it. -/
def movePairs (n : Nat) (hasPassword : Bool) :
    Nat → PairMover → Option Nat → Option PairMover
  | _, st, none => some st
  | 0, _, some _ => none
  | rounds + 1, st, some i => do
      let next := st.store.next i
      let st ← movePair n hasPassword st i next
      movePairs n hasPassword rounds st next

/-- `pairmove`. -/
def pairmove (n : Nat) (s : PairStore) : Option PairStore := do
  let (hasPassword, tailto) ← scanTo n s s.toHead (false, .toHead)
  let st ← movePairs n hasPassword n { store := s, tailto := tailto }
    s.fromHead
  return st.store

end WinRadius
