/-
A section of conffile.cpp: its items in a linked list that knows its last
one, and once more in trees by name.

# Objects

An object is its address (`ident`) with the fields that never change after
its allocation; the links, and the fields of a section that are written
while it is in use, are tables over the addresses (`ConfHeap`). Nothing is
freed while the configuration is in use, so an allocation is a new address.

The walks over links have no bound of their own: they take one, and are
`none` when it does not suffice. So is a failed assertion.

Line numbers, the depth and the parse tables of a section are left out, and
of the file names all but that of a section; so is the printing of the tree
for two names. The assertion of `name2_cmp` holds, since a tree of second
names is made for one first name.
-/
import WinRadius.Model.RbTree
import WinRadius.Model.Detail

namespace WinRadius

open Lib

-- ======== objects

/-- `strcmp`: its sign, by the first bytes that differ. -/
def strcmp : List UInt8 → List UInt8 → Int
  | [], [] => 0
  | [], _ :: _ => -1
  | _ :: _, [] => 1
  | a :: as, b :: bs =>
      if a < b then -1
      else if b < a then 1
      else strcmp as bs

/-- `CONF_PAIR`. -/
structure ConfPair where
  ident : Nat
  attr : List UInt8
  value : Option (List UInt8) := none
  opToken : FrToken := .opInvalid
  valueType : FrToken := .opInvalid
deriving Repr, DecidableEq

/-- `CONF_SECTION` as an item: its names. -/
structure ConfPart where
  ident : Nat
  name1 : List UInt8
  name2 : Option (List UInt8) := none
deriving Repr, DecidableEq

/-- `CONF_DATA`. -/
structure ConfData where
  ident : Nat
  name : List UInt8
  flag : Int := 0
deriving Repr, DecidableEq

/-- `CONF_ITEM`, by its type. -/
inductive ConfItem where
  | pair (cp : ConfPair)
  | part (cs : ConfPart)
  | data (cd : ConfData)
deriving Repr, DecidableEq

/-- The address of an item. -/
def ConfItem.ident : ConfItem → Nat
  | .pair cp => cp.ident
  | .part cs => cs.ident
  | .data cd => cd.ident

/-- `pair_cmp`. -/
def pairCmp (one two : ConfPair) : Int := strcmp one.attr two.attr

/-- `section_cmp`. -/
def sectionCmp (one two : ConfPart) : Int := strcmp one.name1 two.name1

/-- `name2_cmp`. -/
def name2Cmp (one two : ConfPart) : Int :=
  match one.name2, two.name2 with
  | none, none => 0
  | none, some _ => -1
  | some _, none => 1
  | some a, some b => strcmp a b

/-- `data_cmp`. -/
def dataCmp (one two : ConfData) : Int :=
  if one.flag - two.flag ≠ 0 then one.flag - two.flag
  else strcmp one.name two.name

/-- `struct conf_part`. -/
structure ConfSection where
  name1 : List UInt8 := []
  name2 : Option (List UInt8) := none
  parent : Option Nat := none
  filename : Option (List UInt8) := none
  children : Option ConfItem := none
  tail : Option ConfItem := none
  templ : Option Nat := none
  pairTree : RbTree ConfPair := rbtreeCreate pairCmp false
  sectionTree : Option (RbTree ConfPart) := none
  name2Tree : Option (RbTree ConfPart) := none
  dataTree : Option (RbTree ConfData) := none

/-- The memory of the configuration: the links between the items, the
sections, and the address of the next allocation. -/
structure ConfHeap where
  next : Nat → Option ConfItem := fun _ => none
  sections : Nat → ConfSection := fun _ => {}
  fresh : Nat := 0

/-- A section written. -/
def ConfHeap.setSection (heap : ConfHeap) (cs : Nat) (s : ConfSection) :
    ConfHeap :=
  { heap with sections := Function.update heap.sections cs s }

/-- A link written: the next item of the one at an address. -/
def ConfHeap.setNext (heap : ConfHeap) (a : Nat) (ci : Option ConfItem) :
    ConfHeap :=
  { heap with next := Function.update heap.next a ci }

/-- `cf_pair_alloc`. -/
def cfPairAlloc (heap : ConfHeap) (attr : List UInt8)
    (value : Option (List UInt8)) (opToken valueType : FrToken) :
    ConfHeap × ConfPair :=
  ({ heap.setNext heap.fresh none with fresh := heap.fresh + 1 },
    ⟨heap.fresh, attr, value, opToken, valueType⟩)

/-- `cf_section_alloc`. -/
def cfSectionAlloc (heap : ConfHeap) (name1 : List UInt8)
    (name2 : Option (List UInt8)) (parent : Option Nat) :
    ConfHeap × ConfPart :=
  let name2 := if name2 = some [] then none else name2
  let s : ConfSection := { name1 := name1, name2 := name2, parent := parent }
  ({ (heap.setNext heap.fresh none).setSection heap.fresh s with
      fresh := heap.fresh + 1 },
    ⟨heap.fresh, name1, name2⟩)

/-- `cf_data_alloc`, with the flag. -/
def cfDataAlloc (heap : ConfHeap) (name : List UInt8) (flag : Int) :
    ConfHeap × ConfData :=
  ({ heap.setNext heap.fresh none with fresh := heap.fresh + 1 },
    ⟨heap.fresh, name, flag⟩)

-- ======== adding

/-- `cf_item_add` of a section: the tree of first names, and under the
first section of the name the tree of second names. -/
def addPart (heap : ConfHeap) (cs : Nat) (csNew : ConfPart) :
    Option ConfHeap := do
  let s := heap.sections cs
  let tree := s.sectionTree.getD (rbtreeCreate sectionCmp false)
  let (tree, _) ← rbtreeInsertnode tree csNew
  let heap := heap.setSection cs { s with sectionTree := some tree }
  match rbtreeFinddata tree csNew with
  | none => return heap
  | some oldCs => do
      let old := heap.sections oldCs.ident
      let tree := old.name2Tree.getD (rbtreeCreate name2Cmp false)
      let (tree, _) ← rbtreeInsertnode tree csNew
      return heap.setSection oldCs.ident { old with name2Tree := some tree }

/-- One round of the loop of `cf_item_add`: the tail and the trees. -/
def addItem (heap : ConfHeap) (cs : Nat) (ci : ConfItem) :
    Option ConfHeap := do
  let s := { heap.sections cs with tail := some ci }
  match ci with
  | .pair cp => do
      let (tree, _) ← rbtreeInsertnode s.pairTree cp
      return heap.setSection cs { s with pairTree := tree }
  | .part csNew => addPart (heap.setSection cs s) cs csNew
  | .data cd => do
      let tree := s.dataTree.getD (rbtreeCreate dataCmp false)
      let (tree, _) ← rbtreeInsertnode tree cd
      return heap.setSection cs { s with dataTree := some tree }

/-- The loop of `cf_item_add`, over what is linked to the item. -/
def addLoop (cs : Nat) : Nat → ConfHeap → Option ConfItem → Option ConfHeap
  | _, heap, none => some heap
  | 0, _, some _ => none
  | n + 1, heap, some ci => do
      let heap ← addItem heap cs ci
      addLoop cs n heap (heap.next ci.ident)

/-- `cf_item_add`. -/
def cfItemAdd (n : Nat) (heap : ConfHeap) (cs : Nat) (ci : ConfItem) :
    Option ConfHeap :=
  let s := heap.sections cs
  match s.children, s.tail with
  | none, none =>
      addLoop cs n (heap.setSection cs { s with children := some ci })
        (some ci)
  | some _, some tail => addLoop cs n (heap.setNext tail.ident (some ci))
      (some ci)
  | _, _ => none

-- ======== replacing

/-- The pointer the walk of `cf_pair_replace` is at: the section's, or the
link of an item. -/
def ConfHeap.load (heap : ConfHeap) (cs : Nat) :
    Option ConfItem → Option ConfItem
  | none => (heap.sections cs).children
  | some ci => heap.next ci.ident

/-- That pointer written. -/
def ConfHeap.store (heap : ConfHeap) (cs : Nat) (last ci : Option ConfItem) :
    ConfHeap :=
  match last with
  | none =>
      heap.setSection cs { heap.sections cs with children := ci }
  | some item => heap.setNext item.ident ci

/-- The loop of `cf_pair_replace`: the new item takes the place of the old
one in the list. -/
def replaceLoop (cs : Nat) (ci cn : ConfItem) :
    Nat → ConfHeap → Option ConfItem → Option ConfHeap
  | 0, _, _ => none
  | n + 1, heap, last =>
      match heap.load cs last with
      | none => some heap
      | some item =>
          if item.ident = ci.ident then
            let heap := heap.setNext cn.ident (heap.next item.ident)
            let heap := heap.store cs last (some cn)
            some (heap.setNext ci.ident none)
          else replaceLoop cs ci cn n heap (some item)

/-- `cf_pair_replace`, with the new pair. -/
def cfPairReplace (n : Nat) (heap : ConfHeap) (cs : Nat) (cp : ConfPair)
    (value : Option (List UInt8)) : Option (ConfHeap × ConfPair) := do
  let (heap, newp) := cfPairAlloc heap cp.attr value cp.opToken cp.valueType
  let heap ← replaceLoop cs (.pair cp) (.pair newp) n heap none
  let s := heap.sections cs
  let tree := (rbtreeDeletebydata s.pairTree cp).1
  let (tree, _) ← rbtreeInsertnode tree newp
  return (heap.setSection cs { s with pairTree := tree }, newp)

-- ======== finding

/-- The first pair of a list, of the name when one is given. -/
def pairFrom (heap : ConfHeap) (attr : Option (List UInt8)) :
    Nat → Option ConfItem → Option (Option ConfPair)
  | _, none => some none
  | 0, some _ => none
  | n + 1, some ci =>
      match ci with
      | .pair cp =>
          if attr = none ∨ attr = some cp.attr then some (some cp)
          else pairFrom heap attr n (heap.next ci.ident)
      | _ => pairFrom heap attr n (heap.next ci.ident)

/-- `cf_pair_find`: by the tree when there is a name, then in the section
that `templ` names. -/
def cfPairFind (heap : ConfHeap) :
    Nat → Nat → Option (List UInt8) → Option (Option ConfPair)
  | 0, _, _ => none
  | n + 1, cs, name => do
      let s := heap.sections cs
      let cp ← match name with
        | some attr => 
            some (rbtreeFinddata s.pairTree { ident := 0, attr := attr })
        | none => pairFrom heap none n s.children
      match cp, s.templ with
      | none, some templ => cfPairFind heap n templ name
      | _, _ => some cp

/-- `cf_pair_find_next`. -/
def cfPairFindNext (heap : ConfHeap) (n cs : Nat) (pair : Option ConfPair)
    (attr : Option (List UInt8)) : Option (Option ConfPair) :=
  match pair with
  | none => cfPairFind heap n cs attr
  | some pair => pairFrom heap attr n (heap.next pair.ident)

end WinRadius
