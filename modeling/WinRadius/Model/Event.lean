/-
The timed events of event-lib.cpp: a heap of events, and the pointers of
their owners.

# Pointers

An event is written between its allocation and its insertion, and not
while it is in the heap, so a pointer to an event is its address with what
the event says; the position that the heap keeps in it is in the heap's
`index`. `cells` is what the pointers to events hold that the callers pass
by address (`fr_event_t **ev_p`): these are written by the functions here
only. The local pointer of `fr_event_run` is not among them.

# Callbacks

A callback runs after its event is gone. What it inserts and deletes are
the calls that follow.
-/
import WinRadius.Model.Heap

namespace WinRadius

-- ======== the events

/-- `struct timeval`. -/
structure Timeval where
  tvSec : Int
  tvUsec : Int
  deriving DecidableEq

/-- `fr_event_t` at an address. -/
structure FrEvent where
  addr : Nat
  callback : Nat
  ctx : Nat
  when : Timeval
  evP : Option Nat
  deriving DecidableEq

/-- `fr_event_list_time_cmp`. -/
def frEventListTimeCmp (a b : FrEvent) : Int :=
  if a.when.tvSec < b.when.tvSec then -1
  else if b.when.tvSec < a.when.tvSec then 1
  else if a.when.tvUsec < b.when.tvUsec then -1
  else if b.when.tvUsec < a.when.tvUsec then 1
  else 0

/-- The times of `fr_event_list_t`, and the pointers to events. -/
structure FrEventList where
  times : FrHeap FrEvent
  cells : Nat → Option FrEvent

/-- `fr_event_list_create`: the `heap` member is 20 bytes into
`fr_event_t`. All pointers to events are NULL. -/
def frEventListCreate (index : FrEvent → Int) : FrEventList where
  times := frHeapCreate frEventListTimeCmp 20 index
  cells := fun _ => none

namespace FrEventList

/-- `*ev_p = ev`, where `ev_p` is not NULL. -/
def setCell (el : FrEventList) (evP : Option Nat) (ev : Option FrEvent) :
    FrEventList :=
  match evP with
  | none => el
  | some p => { el with
      cells := fun q => if q = p then ev else el.cells q }

/-- What `*ev_p` is, where `ev_p` is not NULL. -/
def cell (el : FrEventList) (evP : Option Nat) : Option FrEvent :=
  evP.bind el.cells

end FrEventList

-- ======== operations

/-- `fr_event_delete`. -/
def frEventDelete (el : FrEventList) (evP : Option Nat) :
    Option (FrEventList × Nat) :=
  match el.cell evP with
  | none => some (el, 0)
  | some ev => do
      let el := el.setCell ev.evP none
      let el := el.setCell evP none
      let (times, _) ← frHeapExtract el.times (some ev)
      some ({ el with times := times }, 1)

/-- The arguments of `fr_event_insert`, and what the two allocations
give: an address, and room in the heap where it is full. -/
structure EventArgs where
  callback : Option Nat
  ctx : Nat
  when : Option Timeval
  evP : Option Nat
  malloc : Option Nat
  grown : Bool

/-- The event that `fr_event_insert` is to make, if it accepts its
arguments. -/
def EventArgs.made (a : EventArgs) (addr : Nat) : Option FrEvent := do
  let callback ← a.callback
  let when ← a.when
  if 1000000 ≤ when.tvUsec then none
  else some ⟨addr, callback, a.ctx, when, a.evP⟩

/-- The second half of `fr_event_insert`: a new event goes into the
heap. The allocated memory is cleared. -/
def FrEventList.add (el : FrEventList) (grown : Bool) (ev : FrEvent) :
    Option (FrEventList × Nat) := do
  let cleared := { el.times with
    index := fun x => if x = ev then 0 else el.times.index x }
  let (times, code) ← frHeapInsert cleared grown ev
  let el := { el with times := times }
  if code = 0 then some (el, 0)
  else some (el.setCell ev.evP (some ev), 1)

/-- `fr_event_insert`. -/
def frEventInsert (el : FrEventList) (a : EventArgs) :
    Option (FrEventList × Nat) :=
  if a.made 0 = none then some (el, 0)
  else do
    let (el, _) ← frEventDelete el a.evP
    match a.malloc.bind a.made with
    | none => some (el, 0)
    | some ev => el.add a.grown ev

/-- What `fr_event_run` gives: the event whose callback is to be called,
if there is one, and `*when`. -/
structure EventRan where
  ran : Option FrEvent
  when : Timeval

/-- `fr_event_run`. -/
def frEventRun (el : FrEventList) (when : Timeval) :
    Option (FrEventList × EventRan) :=
  match frHeapPeek el.times with
  | none => some (el, ⟨none, ⟨0, 0⟩⟩)
  | some ev =>
      if when.tvSec < ev.when.tvSec
          ∨ (ev.when.tvSec = when.tvSec ∧ when.tvUsec < ev.when.tvUsec) then
        some (el, ⟨none, ev.when⟩)
      else do
        let el := el.setCell ev.evP none
        let (times, _) ← frHeapExtract el.times (some ev)
        some ({ el with times := times }, ⟨some ev, when⟩)

-- ======== runs

/-- A call on the list, from outside or from a callback. -/
inductive EventCall where
  | insert (a : EventArgs)
  | delete (evP : Option Nat)
  | run (when : Timeval)

/-- A list of events with its history: the insertions are numbered, and
`serial` is the number of an event that is pending. -/
structure EventRun where
  el : FrEventList
  inserted : Nat
  serial : FrEvent → Nat
  ran : List Nat
  removed : List Nat

namespace EventRun

/-- `malloc` gives memory that is not in use: the event that is to be
replaced is freed before. -/
def Admits (s : EventRun) : EventCall → Prop
  | .insert a => ∀ ev ∈ s.el.times.p, a.malloc = some ev.addr →
      s.el.cell a.evP = some ev
  | _ => True

instance (s : EventRun) (c : EventCall) : Decidable (s.Admits c) :=
  match c with
  | .insert a => inferInstanceAs (Decidable (∀ ev ∈ s.el.times.p,
      a.malloc = some ev.addr → s.el.cell a.evP = some ev))
  | .delete _ => inferInstanceAs (Decidable True)
  | .run _ => inferInstanceAs (Decidable True)

/-- The event of a pointer is deleted or replaced. -/
def remove (s : EventRun) (evP : Option Nat) : List Nat :=
  ((s.el.cell evP).map s.serial).toList ++ s.removed

/-- `fr_event_delete`, with the history. -/
def delete (s : EventRun) (evP : Option Nat) : Option EventRun := do
  let (el, _) ← frEventDelete s.el evP
  some { s with el := el, removed := s.remove evP }

/-- `fr_event_insert`, with the history. -/
def insert (s : EventRun) (a : EventArgs) : Option (EventRun × Nat) := do
  let (el, code) ← frEventInsert s.el a
  let removed := if a.made 0 = none then s.removed else s.remove a.evP
  match a.malloc.bind a.made with
  | none => some ({ s with el := el, removed := removed }, code)
  | some ev =>
      if code = 0 then some ({ s with el := el, removed := removed }, code)
      else some ({ s with
        el := el
        removed := removed
        inserted := s.inserted + 1
        serial := fun x => if x = ev then s.inserted else s.serial x },
        code)

/-- `fr_event_run`, with the history. -/
def run (s : EventRun) (when : Timeval) : Option (EventRun × EventRan) := do
  let (el, r) ← frEventRun s.el when
  some ({ s with el := el, ran := (r.ran.map s.serial).toList ++ s.ran }, r)

/-- One call. -/
def call (s : EventRun) : EventCall → Option EventRun
  | .insert a => (s.insert a).map Prod.fst
  | .delete evP => s.delete evP
  | .run when => (s.run when).map Prod.fst

/-- The calls that are made, one after the other. -/
def Step (s t : EventRun) : Prop := ∃ c, s.Admits c ∧ s.call c = some t

/-- An empty list, and no history. -/
def create (index : FrEvent → Int) : EventRun where
  el := frEventListCreate index
  inserted := 0
  serial := fun _ => 0
  ran := []
  removed := []

end EventRun

end WinRadius
