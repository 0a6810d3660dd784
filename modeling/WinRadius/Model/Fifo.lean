/-
The fifo of fifo.cpp: a linked list with a pointer to its last link, and
the list of the entries that wait to be used again.

# Memory

An entry is a cell of `entries`, and a pointer to one is its address. Of
`tail`, a pointer to an entry's `next`, the entry is kept. `none` is a read
or a write through a pointer that leads to no entry. `malloc` does not
fail, and no call here frees an entry.

# Left out

`fr_fifo_free`, and the callback that only it uses.
-/
import WinRadius.Lib.Cells

namespace WinRadius

open Lib

-- ======== the fifo

/-- `fr_fifo_entry_t`. A `NULL` is `none`. -/
structure FrFifoEntry (α : Type) where
  next : Option Nat := none
  data : Option α := none

/-- `fr_fifo_t`, with the entries. -/
structure FrFifo (α : Type) where
  maxEntries : Int
  head : Option Nat := none
  tail : Option Nat := none
  freelist : Option Nat := none
  numElements : Int := 0
  entries : Cells (FrFifoEntry α) := ∅

/-- `fr_fifo_create`. -/
def frFifoCreate {α : Type} (maxEntries : Int) : Option (FrFifo α) :=
  if maxEntries < 2 ∨ 1024 * 1024 < maxEntries then none
  else some { maxEntries := maxEntries }

namespace FrFifo

variable {α : Type}

/-- `*entry`. -/
def load (fi : FrFifo α) (entry : Nat) : Option (FrFifoEntry α) :=
  fi.entries.lookup entry

/-- `*entry = e`. -/
def store (fi : FrFifo α) (entry : Nat) (e : FrFifoEntry α) : FrFifo α :=
  { fi with entries := fi.entries.insert entry e }

/-- `fr_fifo_alloc_entry`: an entry that was used before, or a new one,
with all of it zero. -/
def allocEntry (m : Malloc) (fi : FrFifo α) : Option (Nat × FrFifo α) :=
  match fi.freelist with
  | some entry => do
      let e ← fi.load entry
      some (entry, { fi with freelist := e.next }.store entry {})
  | none =>
      let entry := m.address fi.entries.keys
      some (entry, fi.store entry {})

/-- `if (!fi->head) fi->head = entry; else *fi->tail = entry;` -/
def link (fi : FrFifo α) (entry : Nat) : Option (FrFifo α) :=
  match fi.head with
  | none => some { fi with head := some entry }
  | some _ => do
      let last ← fi.tail
      let e ← fi.load last
      some (fi.store last { e with next := some entry })

/-- `fr_fifo_push`. -/
def push (m : Malloc) (fi : FrFifo α) (data : Option α) :
    Option (Int × FrFifo α) :=
  if data.isNone then some (0, fi)
  else if fi.maxEntries ≤ fi.numElements then some (0, fi)
  else do
    let (entry, fi) ← fi.allocEntry m
    let e ← fi.load entry
    let fi ← (fi.store entry { e with data := data }).link entry
    some (1, { fi with
      tail := some entry
      numElements := fi.numElements + 1 })

/-- `fr_fifo_free_entry`. -/
def freeEntry (fi : FrFifo α) (entry : Nat) : Option (FrFifo α) := do
  let _ ← fi.load entry
  some { fi.store entry { next := fi.freelist, data := none } with
    freelist := some entry }

/-- `fr_fifo_pop`. -/
def pop (fi : FrFifo α) : Option (Option α × FrFifo α) :=
  match fi.head with
  | none => some (none, fi)
  | some entry => do
      let e ← fi.load entry
      let fi ← { fi with head := e.next }.freeEntry entry
      let fi := { fi with numElements := fi.numElements - 1 }
      some (e.data,
        if fi.head.isNone then { fi with tail := none, numElements := 0 }
        else fi)

/-- `fr_fifo_peek`. -/
def peek (fi : FrFifo α) : Option (Option α) :=
  match fi.head with
  | none => some none
  | some entry => do
      let e ← fi.load entry
      some e.data

end FrFifo

-- ======== calls

/-- A call. What is pushed is not `NULL`. -/
inductive FifoCall (α : Type) where
  | push (data : α)
  | pop
  | peek
  | numElements

/-- What a call returns: an `int` or a pointer. -/
inductive FifoAnswer (α : Type) where
  | int (n : Int)
  | data (p : Option α)
deriving DecidableEq

/-- A call and its answer. -/
def FrFifo.call {α : Type} (m : Malloc) (fi : FrFifo α) :
    FifoCall α → Option (FifoAnswer α × FrFifo α)
  | .push data => do
      let (n, fi) ← fi.push m (some data)
      some (.int n, fi)
  | .pop => do
      let (p, fi) ← fi.pop
      some (.data p, fi)
  | .peek => do
      let p ← fi.peek
      some (.data p, fi)
  | .numElements => some (.int fi.numElements, fi)

end WinRadius
