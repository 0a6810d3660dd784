/-
The references of conffile.cpp: how `cf_reference_item` finds what a name
stands for, and `cf_expand_variables`, which puts values in their place.

A text is what stands before its terminator, and a pointer into it is what
is left of it; values and the environment end at their first NUL. The
output is the caller's memory, written at `p`.

Searches take a bound for their walks; a walk that is not over within it is
the fault `hang`. Messages are left out.
-/
import WinRadius.Model.ConfSection
import WinRadius.Model.Token

namespace WinRadius

open Lib

/-- What a walk found, when it is over. -/
def orHang {α : Type} : Option α → Mem α
  | none => throw .hang
  | some a => return a

-- ======== sections

/-- `cf_top_section`. -/
def cfTopSection (heap : ConfHeap) : Nat → Nat → Option Nat
  | 0, _ => none
  | n + 1, cs =>
      match (heap.sections cs).parent with
      | none => some cs
      | some parent => cfTopSection heap n parent

/-- The first section of a list with the names. -/
def partFrom (heap : ConfHeap) (names : ConfPart → Bool) :
    Nat → Option ConfItem → Option (Option ConfPart)
  | _, none => some none
  | 0, some _ => none
  | n + 1, some ci =>
      match ci with
      | .part cs =>
          if names cs then some (some cs)
          else partFrom heap names n (heap.next ci.ident)
      | _ => partFrom heap names n (heap.next ci.ident)

/-- `cf_section_sub_find`. -/
def cfSectionSubFind (heap : ConfHeap) (n cs : Nat) (name : List UInt8) :
    Mem (Option ConfPart) :=
  match (heap.sections cs).sectionTree with
  | some tree => return rbtreeFinddata tree { ident := 0, name1 := name }
  | none => orHang (partFrom heap (fun part => part.name1 == name) n
      (heap.sections cs).children)

/-- `cf_section_sub_find_name2`, where a section and both names are
given. -/
def cfSectionSubFindName2 (heap : ConfHeap) (n cs : Nat)
    (name1 name2 : List UInt8) : Mem (Option ConfPart) :=
  let mycs : ConfPart := { ident := 0, name1 := name1, name2 := some name2 }
  let master := (heap.sections cs).sectionTree.bind fun tree =>
    rbtreeFinddata tree mycs
  match master with
  | some masterCs =>
      match (heap.sections masterCs.ident).name2Tree with
      | some tree => return rbtreeFinddata tree mycs
      | none => throw .nullDeref
  | none => orHang (partFrom heap
      (fun part => part.name1 == name1 && part.name2 == some name2) n
      (heap.sections cs).children)

-- ======== references

/-- The dots in front of a reference: the first stays in the section, every
other one leads to the section around it. -/
def leadingDots (heap : ConfHeap) : Nat → List UInt8 → Nat × List UInt8
  | cs, [] => (cs, [])
  | cs, c :: p =>
      if c = 46 then
        leadingDots heap ((heap.sections cs).parent.getD cs) p
      else (cs, c :: p)

/-- Where the sections a reference names lead: nowhere, to a section, or to
a name in a section; `first` tells that no section was left for it. -/
inductive RefWalk where
  | missing
  | found (part : ConfPart)
  | item (cs : Nat) (p : List UInt8) (first : Bool)
deriving Repr, DecidableEq

/-- The loop of `cf_reference_item`; `k` bounds the sections that are
named. -/
def referenceWalk (heap : ConfHeap) (n : Nat) :
    Nat → Nat → List UInt8 → Bool → Mem RefWalk
  | 0, cs, p, first => return .item cs p first
  | k + 1, cs, p, first =>
      let (name, rest) := p.span fun c => c != 91 && c != 46
      match rest with
      | [] => return .item cs p first
      | c :: rest =>
          if c = 91 then
            let (name2, rest) := rest.span fun c => c != 93
            match rest with
            | [] => return .missing
            | _ :: [] => do
                match ← cfSectionSubFindName2 heap n cs name name2 with
                | none => return .missing
                | some next => return .found next
            | _ :: d :: p' =>
                if d ≠ 46 then return .missing
                else do
                  match ← cfSectionSubFindName2 heap n cs name name2 with
                  | none => return .item cs p first
                  | some next => referenceWalk heap n k next.ident p' false
          else do
            match ← cfSectionSubFind heap n cs name with
            | none => return .item cs p first
            | some next => referenceWalk heap n k next.ident rest false

/-- A pair of the name in a section, or a section. -/
def referenceFind (heap : ConfHeap) (n cs : Nat) (p : List UInt8) :
    Mem (Option ConfItem) := do
  match ← orHang (cfPairFind heap n cs (some p)) with
  | some cp => return some (.pair cp)
  | none => return (← cfSectionSubFind heap n cs p).map .part

/-- What `cf_reference_item` does behind its loop. -/
def referenceEnd (heap : ConfHeap) (n parentcs : Nat) :
    RefWalk → Mem (Option ConfItem)
  | .missing => return none
  | .found part => return some (.part part)
  | .item cs p first => do
      if p = [] then return none
      match ← referenceFind heap n cs p with
      | some ci => return some ci
      | none =>
          if first = true ∧ cs ≠ parentcs then
            referenceFind heap n parentcs p
          else return none

/-- `cf_reference_item`, with a top section. -/
def cfReferenceItem (heap : ConfHeap) (n parentcs outercs : Nat)
    (ptr : List UInt8) : Mem (Option ConfItem) := do
  let name := ptr.take 8191
  let walk ←
    if name.head? = some 46 then
      let (cs, p) := leadingDots heap outercs (name.drop 1)
      referenceWalk heap n name.length cs p false
    else
      let cs := if name.contains 46 then parentcs else outercs
      referenceWalk heap n name.length cs name true
  referenceEnd heap n parentcs walk

-- ======== expansion

/-- The value of the pair a reference is found to be. -/
def referenceValue (heap : ConfHeap) (n parentcs outercs : Nat)
    (name : List UInt8) : Mem (Option (List UInt8)) := do
  match ← cfReferenceItem heap n parentcs outercs name with
  | some (.pair cp) => return cp.value.map cString
  | _ => return none

/-- `getenv`, where a variable that does not exist is empty. -/
def envValue (getenv : List UInt8 → Option (List UInt8)) (name : List UInt8) :
    List UInt8 :=
  cString ((getenv name).getD [])

/-- `strchr(ptr, '}')`: the name in front of the brace and what is behind
it. -/
def cutBrace (ptr : List UInt8) : Option (List UInt8 × List UInt8) :=
  match ptr.span fun c => c != 125 with
  | (_, []) => none
  | (name, _ :: rest) => some (name, rest)

/-- `while (*ptr)`. -/
def expandLoop (lookup : List UInt8 → Mem (Option (List UInt8)))
    (getenv : List UInt8 → Option (List UInt8)) :
    Nat → List UInt8 → Nat → List UInt8 → Mem (Option (List UInt8))
  | 0, _, _, _ => throw .hang
  | _ + 1, output, p, [] => return some (← store output p 0)
  | k + 1, output, p, c :: ptr =>
      if [36, 123] <+: c :: ptr then
        match cutBrace (ptr.drop 1) with
        | none => do
            let _ ← store output p 0
            return none -- Variable expansion missing a brace
        | some (name, rest) => do
            if 8192 ≤ name.length then return none
            match ← lookup name with
            | none => return none
            | some value =>
                let output ← strcpy output p value
                expandLoop lookup getenv k output (p + value.length) rest
      else if ascii "$ENV" ++ [123] <+: c :: ptr then
        match cutBrace (ptr.drop 4) with
        | none => do
            let _ ← store output p 0
            return none
        | some (name, rest) => do
            if 8192 ≤ name.length then return none
            let env := envValue getenv name
            let output ← strcpy output p env
            expandLoop lookup getenv k output (p + env.length) rest
      else do
        expandLoop lookup getenv k (← store output p c) (p + 1) ptr

/-- `cf_expand_variables`: the output buffer, when it does not return
`NULL`. -/
def cfExpandVariables (getenv : List UInt8 → Option (List UInt8))
    (heap : ConfHeap) (n outercs : Nat) (output input : List UInt8) :
    Mem (Option (List UInt8)) := do
  let parentcs ← orHang (cfTopSection heap n outercs)
  let input := cString input
  expandLoop (referenceValue heap n parentcs outercs) getenv
    (input.length + 1) output 0 input

end WinRadius
