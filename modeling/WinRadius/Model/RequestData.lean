/-
The data that modules keep with a request: `request_data_add`,
`request_data_get` and `request_data_reference` of util.cpp.

# Memory

A datum is a cell of `cells`, and a pointer to one is its address;
`request_data_t **` is the head or the `next` of a datum (`DataRef`).
`free` takes a cell away, and `none` is a read or a write through a pointer
that leads to no cell, or a walk that goes on for more steps than there are
cells. `malloc` does not fail.

What the callers hand over are their own pointers: a key, the data and a
function that frees them. A call of such a function is kept in `freed`;
what it does, it does to the callers' memory.

# Left out

The case of no request at all.
-/
import WinRadius.Lib.Cells

namespace WinRadius

open Lib

-- ======== the list

/-- `request_data_t`, over the pointers of the callers: keys, data and
functions. A `NULL` is `none`. -/
structure RequestData (κ ω φ : Type) where
  next : Option Nat
  uniquePtr : κ
  uniqueInt : Int
  opaqueData : Option ω
  freeOpaque : Option φ

/-- `request_data_t **`. -/
inductive DataRef where
  | head
  | nextOf (node : Nat)
deriving DecidableEq

/-- What a request keeps, and the calls of free functions so far. -/
structure DataStore (κ ω φ : Type) where
  data : Option Nat := none
  cells : Cells (RequestData κ ω φ) := ∅
  freed : List (φ × ω) := []

namespace DataStore

variable {κ ω φ : Type} [DecidableEq κ]

/-- `*last`. -/
def load (s : DataStore κ ω φ) : DataRef → Option (Option Nat)
  | .head => some s.data
  | .nextOf node => (s.cells.lookup node).map (·.next)

/-- `*last = p`. -/
def assign (s : DataStore κ ω φ) (last : DataRef) (p : Option Nat) :
    Option (DataStore κ ω φ) :=
  match last with
  | .head => some { s with data := p }
  | .nextOf node => do
      let e ← s.cells.lookup node
      some { s with cells := s.cells.insert node { e with next := p } }

/-- The loop of all three functions: where it stops, at the datum of the
key or at the end. -/
def walk (s : DataStore κ ω φ) (ptr : κ) (int : Int) :
    Nat → DataRef → Option DataRef
  | fuel, last =>
      match s.load last with
      | none => none
      | some none => some last
      | some (some node) =>
          match fuel, s.cells.lookup node with
          | fuel + 1, some e =>
              if e.uniquePtr = ptr ∧ e.uniqueInt = int then some last
              else walk s ptr int fuel (.nextOf node)
          | _, _ => none

/-- The loop, from the head of the list. -/
def search (s : DataStore κ ω φ) (ptr : κ) (int : Int) : Option DataRef :=
  s.walk ptr int s.cells.keys.length .head

/-- `if (self->opaque && self->free_opaque) self->free_opaque(self->opaque)`. -/
def release (s : DataStore κ ω φ) (e : RequestData κ ω φ) :
    DataStore κ ω φ :=
  match e.opaqueData, e.freeOpaque with
  | some ptr, some f => { s with freed := s.freed ++ [(f, ptr)] }
  | _, _ => s

/-- `request_data_add`. -/
def add (m : Malloc) (s : DataStore κ ω φ) (ptr : κ) (int : Int)
    (opaqueData : Option ω) (freeOpaque : Option φ) :
    Option (Int × DataStore κ ω φ) :=
  if opaqueData.isNone then some (-1, s)
  else do
    let last ← s.search ptr int
    let (self, next, s) ← match ← s.load last with
      | some self => do
          let e ← s.cells.lookup self
          some (self, e.next, s.release e)
      | none => some (m.address s.cells.keys, none, s)
    let e : RequestData κ ω φ :=
      { next, uniquePtr := ptr, uniqueInt := int, opaqueData, freeOpaque }
    let s ← { s with cells := s.cells.insert self e }.assign last (some self)
    some (0, s)

/-- `request_data_get`. -/
def get (s : DataStore κ ω φ) (ptr : κ) (int : Int) :
    Option (Option ω × DataStore κ ω φ) := do
  let last ← s.search ptr int
  match ← s.load last with
  | none => some (none, s)
  | some self => do
      let e ← s.cells.lookup self
      let s ← s.assign last e.next
      some (e.opaqueData, { s with cells := s.cells.erase self })

/-- `request_data_reference`. -/
def reference (s : DataStore κ ω φ) (ptr : κ) (int : Int) :
    Option (Option ω) := do
  let last ← s.search ptr int
  match ← s.load last with
  | none => some none
  | some self => do
      let e ← s.cells.lookup self
      some e.opaqueData

end DataStore

-- ======== calls

/-- A call, with its arguments. -/
inductive DataCall (κ ω φ : Type) where
  | add (ptr : κ) (int : Int) (opaqueData : Option ω) (freeOpaque : Option φ)
  | get (ptr : κ) (int : Int)
  | reference (ptr : κ) (int : Int)

/-- What a call returns: an `int` or a pointer. -/
inductive DataAnswer (ω : Type) where
  | int (n : Int)
  | data (p : Option ω)
deriving DecidableEq

/-- A call and its answer. -/
def DataStore.call {κ ω φ : Type} [DecidableEq κ] (m : Malloc)
    (s : DataStore κ ω φ) :
    DataCall κ ω φ → Option (DataAnswer ω × DataStore κ ω φ)
  | .add ptr int opaqueData freeOpaque => do
      let (n, s) ← s.add m ptr int opaqueData freeOpaque
      some (.int n, s)
  | .get ptr int => do
      let (p, s) ← s.get ptr int
      some (.data p, s)
  | .reference ptr int => do
      let p ← s.reference ptr int
      some (.data p, s)

end WinRadius
