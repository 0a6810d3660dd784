/-
The descriptors of event-lib.cpp: the table of readers that the select loop
watches.

A handler and its context are their addresses, 0 where the pointer is NULL.
The table has `FR_EV_MAX_FDS` slots at all times, which is a field of it.
-/
import Mathlib.Tactic

namespace WinRadius

/-- `FR_EV_MAX_FDS`. -/
def frEvMaxFds : Nat := 256

/-- `fr_event_fd_t`. -/
structure FrEventFd where
  fd : Int
  handler : Nat
  ctx : Nat
deriving Repr, DecidableEq

/-- The readers of `fr_event_list_t`. -/
structure FrEventFds where
  changed : Bool
  maxReaders : Nat
  readers : List FrEventFd
  size : readers.length = frEvMaxFds
deriving Repr, DecidableEq

/-- The readers of `fr_event_list_create`. -/
def frEventFdsCreate : FrEventFds where
  changed := true
  maxReaders := 0
  readers := List.replicate frEvMaxFds ⟨-1, 0, 0⟩
  size := List.length_replicate

namespace FrEventFds

/-- `el->readers[i]`. -/
def reader (el : FrEventFds) (i : Nat) : FrEventFd :=
  el.readers.getD i ⟨-1, 0, 0⟩

/-- A slot is written, and `max_readers`. -/
def setReader (el : FrEventFds) (i : Nat) (ef : FrEventFd)
    (maxReaders : Nat) : FrEventFds where
  changed := true
  maxReaders := maxReaders
  readers := el.readers.set i ef
  size := by rw [List.length_set, el.size]

/-- `fr_event_fd_insert`: the loop stops at the descriptor or at a free
slot. -/
def fdInsert (el : FrEventFds) (type fd : Int) (handler ctx : Nat) :
    FrEventFds × Bool :=
  if fd < 0 ∨ handler = 0 ∨ ctx = 0 then (el, false)
  else if type ≠ 0 then (el, false)
  else if frEvMaxFds ≤ el.maxReaders then (el, false)
  else
    match (el.readers.take (el.maxReaders + 1)).findIdx? fun ef =>
        ef.fd = fd ∨ ef.fd < 0 with
    | none => (el, false)
    | some i =>
        let ef := el.reader i
        if ef.fd = fd then
          -- be fail-safe on multiple inserts
          (el, ef.handler = handler ∧ ef.ctx = ctx)
        else
          (el.setReader i ⟨fd, handler, ctx⟩
            (if i = el.maxReaders then i + 1 else el.maxReaders), true)

/-- `fr_event_fd_delete`. -/
def fdDelete (el : FrEventFds) (type fd : Int) : FrEventFds × Bool :=
  if fd < 0 then (el, false)
  else if type ≠ 0 then (el, false)
  else
    match (el.readers.take el.maxReaders).findIdx? (·.fd = fd) with
    | none => (el, false)
    | some i =>
        (el.setReader i { el.reader i with fd := -1 }
          (if i + 1 = el.maxReaders then i else el.maxReaders), true)

end FrEventFds

/-- The calls that change the table. -/
inductive FdOp where
  | insert (type fd : Int) (handler ctx : Nat)
  | delete (type fd : Int)
deriving Repr, DecidableEq

/-- A call, and what it returns. -/
def FdOp.run (el : FrEventFds) : FdOp → FrEventFds × Bool
  | .insert type fd handler ctx => el.fdInsert type fd handler ctx
  | .delete type fd => el.fdDelete type fd

end WinRadius
