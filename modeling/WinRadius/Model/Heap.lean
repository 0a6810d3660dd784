/-
The heap of heap.cpp: an array of pointers, partially ordered, with the
position of each object stored in the object itself.

# Memory

`p` is the part of the array that is in use, so `num_elements` is its
length, and what stands past it is not read again. `index` is the `int`
that each object holds `offset` bytes from its start: it belongs to the
objects, and a heap created with offset 0 neither reads nor writes it.

`none` is an access outside of the array. The two loops run on fuel: the
children of a position come after it and its parent before it, and the
callers give enough.
-/
import WinRadius.Lib.Run

namespace WinRadius

-- ======== the heap

/-- `fr_heap_t`. -/
structure FrHeap (α : Type) where
  size : Nat
  offset : Nat
  cmp : α → α → Int
  p : List α
  index : α → Int

/-- `HEAP_PARENT`. -/
def heapParent (x : Nat) : Nat := (x - 1) / 2

/-- `HEAP_LEFT`. -/
def heapLeft (x : Nat) : Nat := 2 * x + 1

/-- `fr_heap_create`, over the memory of the objects. -/
def frHeapCreate {α : Type} (cmp : α → α → Int) (offset : Nat)
    (index : α → Int) : FrHeap α where
  size := 2048
  offset := offset
  cmp := cmp
  p := []
  index := index

section heap

variable {α : Type} [DecidableEq α]

namespace FrHeap

/-- The `int` of the object at `node` is written. -/
def writeOffset (hp : FrHeap α) (node : Nat) (value : Int) :
    Option (FrHeap α) :=
  if hp.offset = 0 then some hp
  else do
    let data ← hp.p[node]?
    some { hp with
      index := fun x => if x = data then value else hp.index x }

/-- `SET_OFFSET`. -/
def setOffset (hp : FrHeap α) (node : Nat) : Option (FrHeap α) :=
  hp.writeOffset node node

/-- `RESET_OFFSET`. -/
def resetOffset (hp : FrHeap α) (node : Nat) : Option (FrHeap α) :=
  hp.writeOffset node (-1)

/-- The loop of `fr_heap_bubble`, with the `SET_OFFSET` after it. -/
def bubble : Nat → FrHeap α → Nat → Option (FrHeap α)
  | 0, _, _ => none
  | fuel + 1, hp, child =>
      if 0 < child then do
        let parent := heapParent child
        let above ← hp.p[parent]?
        let here ← hp.p[child]?
        if hp.cmp above here < 0 then hp.setOffset child
        else do
          let hp ← { hp with
            p := (hp.p.set child above).set parent here }.setOffset child
          bubble fuel hp parent
      else hp.setOffset child

/-- The child that moves up: the right one where it is the smaller. -/
def smallerChild (hp : FrHeap α) (max child : Nat) : Option Nat :=
  if child ≠ max then do
    let right ← hp.p[child + 1]?
    let left ← hp.p[child]?
    some (if hp.cmp right left < 0 then child + 1 else child)
  else some child

/-- The loop of `fr_heap_extract`: the hole at `parent` moves down. What
`p` holds at the hole is stale. -/
def sink (max : Nat) : Nat → FrHeap α → Nat → Option (FrHeap α × Nat)
  | 0, _, _ => none
  | fuel + 1, hp, parent =>
      if heapLeft parent ≤ max then do
        let child ← hp.smallerChild max (heapLeft parent)
        let data ← hp.p[child]?
        let hp ← { hp with p := hp.p.set parent data }.setOffset parent
        sink max fuel hp child
      else some (hp, parent)

/-- What follows the loop: the last element fills the hole and bubbles
up. -/
def fill (hp : FrHeap α) (max hole : Nat) : Option (FrHeap α) := do
  if hole ≠ max then do
    let last ← hp.p[max]?
    bubble (hole + 1) { hp with p := hp.p.dropLast.set hole last } hole
  else some { hp with p := hp.p.dropLast }

end FrHeap

-- ======== operations

/-- `fr_heap_insert`. `grown` says whether the allocation of a larger
array succeeds, where one is needed. -/
def frHeapInsert (hp : FrHeap α) (grown : Bool) (data : α) :
    Option (FrHeap α × Nat) :=
  if hp.p.length = hp.size ∧ grown = false then some (hp, 0)
  else do
    let size := if hp.p.length = hp.size then 2 * hp.size else hp.size
    let hp ← FrHeap.bubble (hp.p.length + 1)
      { hp with size := size, p := hp.p ++ [data] } hp.p.length
    some (hp, 1)

/-- The position `fr_heap_extract` starts from: the first one for NULL,
else the one that the object holds. -/
def FrHeap.start (hp : FrHeap α) (data : Option α) : Option Nat :=
  match data with
  | none => some 0
  | some data =>
      if hp.offset = 0 then none
      else if hp.index data < 0 ∨ (hp.p.length : Int) ≤ hp.index data then none
      else some (hp.index data).toNat

/-- `fr_heap_extract`. -/
def frHeapExtract (hp : FrHeap α) (data : Option α) :
    Option (FrHeap α × Nat) :=
  if hp.p.length = 0 then some (hp, 0)
  else
    let max := hp.p.length - 1
    match hp.start data with
    | none => some (hp, 0)
    | some parent => do
        let hp ← hp.resetOffset parent
        let (hp, hole) ← hp.sink max (max + 1) parent
        let hp ← hp.fill max hole
        some (hp, 1)

/-- `fr_heap_peek`. -/
def frHeapPeek (hp : FrHeap α) : Option α := hp.p[0]?

-- ======== runs

/-- A call of the users of the heap. -/
inductive HeapCall (α : Type) where
  | insert (data : α) (grown : Bool)
  | extract (data : Option α)

/-- A heap and what was inserted into it and not extracted since. -/
structure HeapRun (α : Type) where
  hp : FrHeap α
  content : Finset α

/-- Each element is inserted at most once at a time, and what is
extracted by its address is in the heap. -/
def HeapRun.Admits (s : HeapRun α) : HeapCall α → Prop
  | .insert data _ => data ∉ s.content
  | .extract (some data) => data ∈ s.content
  | .extract none => True

instance (s : HeapRun α) (c : HeapCall α) : Decidable (s.Admits c) :=
  match c with
  | .insert data _ => inferInstanceAs (Decidable (data ∉ s.content))
  | .extract (some data) => inferInstanceAs (Decidable (data ∈ s.content))
  | .extract none => inferInstanceAs (Decidable True)

/-- One call. Extraction of NULL takes what peek shows. -/
def HeapRun.call (s : HeapRun α) : HeapCall α → Option (HeapRun α × Nat)
  | .insert data grown => do
      let (hp, code) ← frHeapInsert s.hp grown data
      some (⟨hp, if code = 1 then insert data s.content else s.content⟩, code)
  | .extract data => do
      let (hp, code) ← frHeapExtract s.hp data
      let taken := (data.or (frHeapPeek s.hp)).toFinset
      some (⟨hp, if code = 1 then s.content \ taken else s.content⟩, code)

/-- The calls that are made, one after the other. -/
def HeapRun.Step (s t : HeapRun α) : Prop :=
  ∃ c code, s.Admits c ∧ s.call c = some (t, code)

end heap

end WinRadius
