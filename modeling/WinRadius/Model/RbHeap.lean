/-
The red-black tree of rbtree.cpp, with its nodes in memory.

# Memory

A node is a cell at an address, with the addresses of its children and of
its parent; the sentinel is a cell as well. An address without a cell is
not allocated: reading or writing there ends the run (`none`), as does
following a parent that is `NULL`. The address of a new node is the
allocator's choice and an argument.

# Mirror images

The source writes each case out for both sides. Here a case takes the
side as a parameter, as in the model that has the tree without addresses.

# Loops

A loop takes as fuel the number of data, which no path is longer than.
-/
import WinRadius.Model.RbTree

namespace WinRadius

/-- `rbnode_t *`, other than `NULL`. -/
abbrev NodePtr := Nat

/-- `NIL`. -/
def sentinel : NodePtr := 0

/-- `rbnode_t`. -/
structure RbCell (α : Type) where
  left : NodePtr
  right : NodePtr
  parent : Option NodePtr
  color : NodeColor
  data : Option α

namespace RbCell

variable {α : Type}

def child : Side → RbCell α → NodePtr
  | .left, c => c.left
  | .right, c => c.right

def setChild : Side → NodePtr → RbCell α → RbCell α
  | .left, p, c => { c with left := p }
  | .right, p, c => { c with right := p }

def withParent (p : Option NodePtr) (c : RbCell α) : RbCell α :=
  { c with parent := p }

def withColor (color : NodeColor) (c : RbCell α) : RbCell α :=
  { c with color := color }

def withData (data : Option α) (c : RbCell α) : RbCell α :=
  { c with data := data }

/-- `Sentinel`. -/
def nil : RbCell α :=
  { left := sentinel, right := sentinel, parent := none, color := .black
    data := none }

end RbCell

/-- `rbtree_t` and the memory of its nodes. -/
structure RbHeap (α : Type) where
  cells : NodePtr → Option (RbCell α)
  root : NodePtr
  numElements : Nat
  compare : α → α → Int
  replaceFlag : Bool

/-- `RBTREE_ORDER`. -/
inductive RbtreeOrder where
  | preOrder
  | inOrder
  | postOrder
deriving DecidableEq

/-- A run that may end at an invalid access. -/
abbrev RbM (α β : Type) := StateT (RbHeap α) Option β

namespace RbHeap

variable {α : Type}

/-- `rbtree_create`. -/
def rbtreeCreate (compare : α → α → Int) (replaceFlag : Bool) :
    RbHeap α :=
  { cells := fun p => if p = sentinel then some .nil else none
    root := sentinel
    numElements := 0
    compare := compare
    replaceFlag := replaceFlag }

-- ======== access

def write (h : RbHeap α) (p : NodePtr) (c : RbCell α) : RbHeap α :=
  { h with cells := fun q => if q = p then some c else h.cells q }

def withRoot (h : RbHeap α) (p : NodePtr) : RbHeap α :=
  { h with root := p }

/-- `*p`. -/
def read (p : NodePtr) : RbM α (RbCell α) := fun h =>
  (h.cells p).map fun c => (c, h)

def modify (p : NodePtr) (f : RbCell α → RbCell α) : RbM α Unit :=
  fun h => (h.cells p).map fun c => ((), h.write p (f c))

/-- `p->Parent` where the source goes on to follow it. -/
def parent (p : NodePtr) : RbM α NodePtr := do
  let c ← read p
  match c.parent with
  | some q => return q
  | none => failure

def child (s : Side) (p : NodePtr) : RbM α NodePtr := do
  return (← read p).child s

def color (p : NodePtr) : RbM α NodeColor := do
  return (← read p).color

def setParent (p : NodePtr) (q : Option NodePtr) : RbM α Unit :=
  modify p (·.withParent q)

def setChild (s : Side) (p q : NodePtr) : RbM α Unit :=
  modify p (·.setChild s q)

def setColor (p : NodePtr) (color : NodeColor) : RbM α Unit :=
  modify p (·.withColor color)

def setData (p : NodePtr) (data : Option α) : RbM α Unit :=
  modify p (·.withData data)

def setRoot (p : NodePtr) : RbM α Unit := fun h =>
  some ((), h.withRoot p)

/-- `free(p)`. -/
def free (p : NodePtr) : RbM α Unit := fun h =>
  (h.cells p).map fun _ => ((), { h with
    cells := fun q => if q = p then none else h.cells q })

/-- `X != tree->Root`. -/
def isRoot (p : NodePtr) : RbM α Bool := fun h =>
  some (p == h.root, h)

-- ======== rotation

/-- The link from above to `x` is set to `y`: `side` is the child that is
looked at first. -/
def relink (side : Side) (above : Option NodePtr) (x y : NodePtr) :
    RbM α Unit :=
  match above with
  | some p => do
      if x = (← child side p) then setChild side p y
      else setChild side.other p y
  | none => setRoot y

/-- `RotateLeft`, `RotateRight`. -/
def rotate (s : Side) (x : NodePtr) : RbM α Unit := do
  let y ← child s.other x
  let b ← child s y
  setChild s.other x b
  if b ≠ sentinel then setParent b (some x)
  let above := (← read x).parent
  if y ≠ sentinel then setParent y above
  relink s above x y
  setChild s y x
  if x ≠ sentinel then setParent x (some y)

def rotateLeft (x : NodePtr) : RbM α Unit := rotate .left x

def rotateRight (x : NodePtr) : RbM α Unit := rotate .right x

-- ======== search

/-- The loop of `rbtree_find` and of `rbtree_insertnode`: the node that
compares equal, or `none` and the last node passed. -/
def search (data : α) :
    Nat → NodePtr → Option NodePtr →
      RbM α (Option NodePtr × Option NodePtr)
  | 0, _, _ => failure
  | fuel + 1, current, parent => do
      if current = sentinel then return (none, parent)
      let c ← read current
      match c.data with
      | none => failure
      | some d =>
          let result := (← get).compare data d
          if result = 0 then return (some current, parent)
          else
            search data fuel
              (if result < 0 then c.left else c.right) (some current)

/-- `rbtree_find`. -/
def rbtreeFind (data : α) : RbM α (Option NodePtr) := do
  let h ← get
  return (← search data (h.numElements + 1) h.root none).1

/-- `rbtree_finddata`. -/
def rbtreeFinddata (data : α) : RbM α (Option α) := do
  match ← rbtreeFind data with
  | none => return none
  | some x => return (← read x).data

-- ======== insertion

/-- `X != tree->Root && X->Parent->Color == Red`. -/
def redParent (x : NodePtr) : RbM α Bool := do
  if ← isRoot x then return false
  else return (← color (← parent x)) == .red

/-- The side of the node `x` below `p`. -/
def sideOf (x p : NodePtr) : RbM α Side := do
  return if x = (← child .left p) then .left else .right

/-- The case of a black uncle. -/
def insertRotate (s : Side) (x p : NodePtr) : RbM α NodePtr := do
  let x ← if x = (← child s.other p) then do
      rotate s p
      pure p
    else pure x
  let p ← parent x
  setColor p .black
  let g ← parent p
  setColor g .red
  rotate s.other g
  return x

/-- `InsertFixup`. -/
def insertFixup : Nat → NodePtr → RbM α Unit
  | 0, _ => failure
  | fuel + 1, x => do
      if ← redParent x then
        let p ← parent x
        let g ← parent p
        let s ← sideOf p g
        let y ← child s.other g
        if (← color y) = .red then
          -- uncle is red
          setColor p .black
          setColor y .black
          setColor g .red
          insertFixup fuel g
        else insertFixup fuel (← insertRotate s x p)
      else setColor (← get).root .black

/-- `rbtree_insertnode`, with the address `malloc` returns if it comes to
that. -/
def rbtreeInsertnode (x : NodePtr) (data : α) :
    RbM α (Option NodePtr) := do
  let h ← get
  match ← search data (h.numElements + 1) h.root none with
  | (some current, _) =>
      if h.replaceFlag then
        setData current (some data)
        return some current
      else return none
  | (none, parent) =>
      let fresh : RbCell α :=
        { left := sentinel, right := sentinel, parent := parent
          color := .red, data := some data }
      set (h.write x fresh)
      match parent with
      | some p =>
          match (← read p).data with
          | none => failure
          | some d =>
              if h.compare data d ≤ 0 then setChild .left p x
              else setChild .right p x
      | none => setRoot x
      insertFixup (h.numElements + 2) x
      modifyThe (RbHeap α) fun h =>
        { h with numElements := h.numElements + 1 }
      return some x

-- ======== deletion

/-- `W`, after the case that it is red. -/
def siblingOf (s : Side) (p : NodePtr) : RbM α NodePtr := do
  let w ← child s.other p
  if (← color w) = .red then
    setColor w .black
    setColor p .red
    rotate s p
    child s.other p
  else return w

/-- The case of a black sibling with a red child. -/
def deleteRotate (s : Side) (p w near far : NodePtr) : RbM α Unit := do
  let w ← if (← color far) = .black then do
      if near ≠ sentinel then setColor near .black
      setColor w .red
      rotate s.other w
      child s.other p
    else pure w
  setColor w (← color p)
  if p ≠ sentinel then setColor p .black
  let far ← child s.other w
  if (← color far) ≠ .black then setColor far .black
  rotate s p

/-- The part of the loop of `DeleteFixup` behind the case of a red
sibling: whether `X` moves up. -/
def deleteBalance (s : Side) (p w : NodePtr) : RbM α Bool := do
  let near ← child s w
  let far ← child s.other w
  if (← color near) = .black ∧ (← color far) = .black then
    if w ≠ sentinel then setColor w .red
    return true
  else
    deleteRotate s p w near far
    return false

/-- `X != tree->Root && X->Color == Black`. -/
def blackBelow (x : NodePtr) : RbM α Bool := do
  if ← isRoot x then return false
  else return (← color x) == .black

/-- `DeleteFixup`. -/
def deleteFixup : Nat → NodePtr → Option NodePtr → RbM α Unit
  | 0, _, _ => failure
  | fuel + 1, x, parent => do
      if ← blackBelow x then
        match parent with
        | none => failure
        | some p =>
            let s ← sideOf x p
            let w ← siblingOf s p
            if ← deleteBalance s p w then
              deleteFixup fuel p (← read p).parent
            else deleteFixup fuel (← get).root (some p)
      else setColor x .black

/-- `while (Y->Left != tree->Sentinel) Y = Y->Left`. -/
def leftmost : Nat → NodePtr → RbM α NodePtr
  | 0, _ => failure
  | fuel + 1, y => do
      let l ← child .left y
      if l ≠ sentinel then leftmost fuel l else return y

/-- `Y`, the node that leaves its place: `Z`, or the one that follows it
in order. -/
def successor (z : NodePtr) : RbM α NodePtr := do
  let fuel := (← get).numElements + 1
  if (← child .left z) = sentinel ∨ (← child .right z) = sentinel then
    return z
  else leftmost fuel (← child .right z)

/-- `X`, "Y's only child". -/
def onlyChild (y : NodePtr) : RbM α NodePtr := do
  if (← child .left y) ≠ sentinel then child .left y
  else child .right y

/-- "remove Y from the parent chain". -/
def splice (x y : NodePtr) (parent : Option NodePtr) : RbM α Unit := do
  if x ≠ sentinel then setParent x parent
  relink .left parent y x

/-- The call of `DeleteFixup`. -/
def fixupBelow (y x : NodePtr) (parent : Option NodePtr) :
    RbM α Unit := do
  let fuel := (← get).numElements + 1
  if (← color y) = .black ∧ x ≠ sentinel then deleteFixup fuel x parent

/-- `if (X->Parent == Z) X->Parent = Y`. -/
def reparent (x y z : NodePtr) : RbM α Unit := do
  if (← read x).parent = some z then setParent x (some y)

/-- The link from above to `Z` is set to `Y`. -/
def replaceLink (y z : NodePtr) : Option NodePtr → RbM α Unit
  | none => setRoot y
  | some p => do
      if (← child .left p) = z then setChild .left p y
      if (← child .right p) = z then setChild .right p y

/-- `memcpy(Y, Z, sizeof(*Y))` and the links to `Z`. -/
def takePlace (y z : NodePtr) : RbM α Unit := do
  let cz ← read z
  modify y fun _ => cz
  replaceLink y z cz.parent
  reparent (← child .left y) y z
  reparent (← child .right y) y z

/-- `rbtree_delete`, for a node that is neither `NULL` nor the
sentinel. -/
def deleteNode (z : NodePtr) : RbM α Unit := do
  let y ← successor z
  let x ← onlyChild y
  let parent := (← read y).parent
  splice x y parent
  if y ≠ z then
    setData z (← read y).data
    setData y none
    fixupBelow y x parent
    takePlace y z
    free z
  else
    fixupBelow y x parent
    free y
  modifyThe (RbHeap α) fun h =>
    { h with numElements := h.numElements - 1 }

/-- `rbtree_delete`. -/
def rbtreeDelete : Option NodePtr → RbM α Unit
  | none => return
  | some z => if z = sentinel then return else deleteNode z

/-- `rbtree_deletebydata`. -/
def rbtreeDeletebydata (data : α) : RbM α Bool := do
  match ← rbtreeFind data with
  | none => return false
  | some node =>
      rbtreeDelete (some node)
      return true

-- ======== walks

section walks

variable {σ : Type} (callback : σ → α → Int × σ)

/-- `callback(context, X->Data)`: what it returns, and what it leaves
behind `context`. It cannot modify the tree. -/
def callOn (c : RbCell α) (context : σ) : RbM α (Int × σ) :=
  match c.data with
  | none => failure
  | some d => return callback context d

/-- `if (rcode != 0) return rcode;` behind a call. -/
def goOn (call : RbM α (Int × σ)) (rest : σ → RbM α (Int × σ)) :
    RbM α (Int × σ) := do
  let r ← call
  if r.1 ≠ 0 then return r else rest r.2

/-- `WalkNodePreOrder`. A child is told from the sentinel by its data. -/
def walkNodePreOrder : Nat → NodePtr → σ → RbM α (Int × σ)
  | 0, _, _ => failure
  | fuel + 1, x, context => do
      let c ← read x
      goOn (callOn callback c context) fun context =>
        goOn (do
            if (← read c.left).data.isSome then
              walkNodePreOrder fuel c.left context
            else return (0, context)) fun context => do
          if (← read c.right).data.isSome then
            walkNodePreOrder fuel c.right context
          else return (0, context)

/-- `WalkNodeInOrder`. -/
def walkNodeInOrder : Nat → NodePtr → σ → RbM α (Int × σ)
  | 0, _, _ => failure
  | fuel + 1, x, context => do
      let c ← read x
      goOn (if c.left ≠ sentinel then
          walkNodeInOrder fuel c.left context
        else return (0, context)) fun context =>
        goOn (callOn callback c context) fun context =>
          if c.right ≠ sentinel then
            walkNodeInOrder fuel c.right context
          else return (0, context)

/-- `WalkNodePostOrder`: the children are left to `WalkNodeInOrder`. -/
def walkNodePostOrder (fuel : Nat) (x : NodePtr) (context : σ) :
    RbM α (Int × σ) := do
  let c ← read x
  goOn (if c.left ≠ sentinel then
      walkNodeInOrder callback fuel c.left context
    else return (0, context)) fun context =>
    goOn (if c.right ≠ sentinel then
        walkNodeInOrder callback fuel c.right context
      else return (0, context)) fun context =>
      callOn callback c context

/-- `rbtree_walk`. -/
def rbtreeWalk (order : RbtreeOrder) (context : σ) :
    RbM α (Int × σ) := do
  let h ← get
  if h.root = sentinel then return (0, context)
  else
    match order with
    | .preOrder =>
        walkNodePreOrder callback h.numElements h.root context
    | .inOrder => walkNodeInOrder callback h.numElements h.root context
    | .postOrder =>
        walkNodePostOrder callback h.numElements h.root context

end walks

end RbHeap

-- ======== operations

/-- The operations, with the address a new node gets. -/
inductive RbOp (α : Type) where
  | insertnode (x : NodePtr) (data : α)
  | delete (z : Option NodePtr)
  | deletebydata (data : α)

/-- What an operation returns. -/
inductive RbAnswer where
  | node (x : Option NodePtr)
  | done
  | found (b : Bool)

namespace RbOp

variable {α : Type}

def run : RbOp α → RbM α RbAnswer
  | insertnode x data =>
      return .node (← RbHeap.rbtreeInsertnode x data)
  | delete z => do
      RbHeap.rbtreeDelete z
      return .done
  | deletebydata data =>
      return .found (← RbHeap.rbtreeDeletebydata data)

/-- `malloc` returns memory that is not in use, and a node that is deleted
has not been freed. -/
def Admissible (h : RbHeap α) : RbOp α → Prop
  | insertnode x _ => h.cells x = none
  | delete (some z) => h.cells z ≠ none
  | _ => True

end RbOp

end WinRadius
