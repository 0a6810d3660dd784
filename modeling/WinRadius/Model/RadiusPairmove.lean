/-
`radius_pairmove` of evaluate.cpp: the operators of an `update` section,
applied to the pairs a list had before.

The pairs of the list are moved to an array (`ToList`): a slot for each of
them, emptied when the pair is deleted and marked when it is overwritten,
and behind these what was appended. The pointers to the user name and the
password that are set anew in a request are left out.
-/
import WinRadius.Model.Compare

namespace WinRadius

open Lib

/-- `to_list[j]` and `edited[j]`, for a pair of the list. -/
structure Slot where
  vp : Option ValuePair
  edited : Bool := false
deriving DecidableEq

/-- `to_list`: the slots, and what lies behind them up to `tailto`. -/
structure ToList where
  slots : List Slot
  appended : List ValuePair := []
deriving DecidableEq

/-- What the loop over `j` makes of a slot. -/
inductive SlotMove where
  | skip
  | delete
  | replace
  | found
  | panic
deriving DecidableEq

/-- The body of the loop over `j`, for an item that is still there. -/
def slotMove (slot : Slot) (item : ValuePair) : SlotMove :=
  match slot.vp with
  | none => .skip
  | some vp =>
      if slot.edited then .skip
      else if item.attr ≠ vp.attr then .skip
      else if item.op = .opSet then .replace
      else if item.op = .opEq then .found
      else if item.op = .opCmpFalse then .delete
      else
        let rcode := radiusCompareVps { item with op := .opCmpEq } vp
        match item.op with
        | .opCmpEq => if rcode ≠ 0 then .delete else .skip
        | .opSub => if rcode = 0 then .delete else .skip
        | .opLe => if 0 < rcode then .replace else .skip
        | .opGe => if rcode < 0 then .replace else .skip
        | _ => .panic

/-- The loop over `j`: the slots, `from_list[i]`, and `found`. `none` is the
assertion. An item that was moved to a slot is gone: `:=` ends the loop
there, and the other operators pass over the rest. -/
def moveLoop (item : ValuePair) :
    List Slot → Option (List Slot × Option ValuePair × Bool)
  | [] => some ([], some item, false)
  | slot :: slots =>
      match slotMove slot item with
      | .skip => (moveLoop item slots).map fun (slots, rest) =>
          (slot :: slots, rest)
      | .delete => (moveLoop item slots).map fun (slots, rest) =>
          ({ slot with vp := none } :: slots, rest)
      | .replace => some (⟨some item, true⟩ :: slots, none, false)
      | .found => some (slot :: slots, some item, true)
      | .panic => none

/-- One item of `from`. -/
def moveItem (st : ToList) (item : ValuePair) : Option ToList :=
  if item.op = .opAdd then
    some { st with appended := st.appended ++ [item] }
  else
    match moveLoop item st.slots with
    | none => none
    | some (slots, none, _) => some { st with slots := slots }
    | some (slots, some item, found) =>
        if found = false ∧ (item.op = .opEq ∨ item.op = .opLe
            ∨ item.op = .opGe ∨ item.op = .opSet) then
          some ⟨slots, st.appended ++ [item]⟩
        else some { st with slots := slots }

/-- The array of a list. -/
def toArray (vps : List ValuePair) : ToList where
  slots := vps.map fun vp => ⟨some vp, false⟩

/-- The list is chained again, its operators all `=`. -/
def rechain (st : ToList) : List ValuePair :=
  (st.slots.filterMap Slot.vp ++ st.appended).map fun vp =>
    { vp with op := .opEq }

/-- `radius_pairmove`. -/
def radiusPairmove (toVps fromVps : List ValuePair) :
    Option (List ValuePair) :=
  (fromVps.foldlM moveItem (toArray toVps)).map rechain

/-- The operators and types `do_compile_modupdate` lets through. -/
def updateAccepts (vp : ValuePair) : Bool :=
  match vp.op with
  | .opEq | .opCmpEq | .opAdd | .opSub | .opCmpFalse | .opSet => true
  | .opLe | .opGe =>
      vp.type == .byte || vp.type == .short || vp.type == .integer
  | _ => false

end WinRadius
