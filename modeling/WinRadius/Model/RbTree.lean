/-
The red-black tree of rbtree.cpp.

# Nodes and positions

A pointer to a node is the subtree below it together with the way up to
the root: what `X->Parent` would lead to, one `Frame` for each ancestor,
the nearest first. Writing through such a pointer and following `Parent`
to the root is `zip`. The sentinel is `nil`; it is black and its children
are itself.

# Mirror images

The source writes each case out for both sides. Here a case takes the
side as a parameter: the child on that side, and a rotation towards it.

# Faults

`InsertFixup` reads the colour of a grandparent that is not there when a
red root gets a child: `none` is the `NULL` dereference.
-/
import Mathlib.Tactic

namespace WinRadius

-- ======== nodes

/-- `NodeColor`. -/
inductive NodeColor where
  | black
  | red
deriving DecidableEq

/-- `rbnode_t`, with `Sentinel` as `nil`. -/
inductive RbNode (α : Type) where
  | nil
  | node (color : NodeColor) (left : RbNode α) (data : α)
      (right : RbNode α)

/-- `X == X->Parent->Left`, or the mirror image. -/
inductive Side where
  | left
  | right
deriving DecidableEq

namespace Side

def other : Side → Side
  | left => right
  | right => left

end Side

namespace RbNode

variable {α : Type}

/-- `X->Color`. -/
def color : RbNode α → NodeColor
  | nil => .black
  | node c _ _ _ => c

/-- `X->Color = c`, for a node that is not the sentinel. -/
def paint (c : NodeColor) : RbNode α → RbNode α
  | nil => nil
  | node _ l d r => node c l d r

/-- `X->Left` or `X->Right`. -/
def child : Side → RbNode α → RbNode α
  | _, nil => nil
  | .left, node _ l _ _ => l
  | .right, node _ _ _ r => r

/-- `X->Left = Y` or `X->Right = Y`. -/
def setChild : Side → RbNode α → RbNode α → RbNode α
  | _, nil, _ => nil
  | .left, node c _ d r, y => node c y d r
  | .right, node c l d _, y => node c l d y

/-- `RotateLeft`, `RotateRight`. Neither is called where the child that
moves up is the sentinel. -/
def rotate : Side → RbNode α → RbNode α
  | .left, node c a x (node c' b y d) => node c' (node c a x b) y d
  | .right, node c (node c' a x b) y d => node c' a x (node c b y d)
  | _, t => t

end RbNode

/-- What a node's parent holds beside it. -/
structure Frame (α : Type) where
  side : Side
  color : NodeColor
  data : α
  sibling : RbNode α

/-- The parent with `x` as its child. -/
def Frame.plug {α : Type} (f : Frame α) (x : RbNode α) : RbNode α :=
  match f.side with
  | .left => .node f.color x f.data f.sibling
  | .right => .node f.color f.sibling f.data x

/-- The whole tree around a node. -/
def zip {α : Type} : RbNode α → List (Frame α) → RbNode α
  | x, [] => x
  | x, f :: path => zip (f.plug x) path

-- ======== the tree

/-- `rbtree_t`. -/
structure RbTree (α : Type) where
  root : RbNode α := .nil
  numElements : Nat := 0
  compare : α → α → Int
  replaceFlag : Bool := false

/-- `rbtree_create`. -/
def rbtreeCreate {α : Type} (compare : α → α → Int)
    (replaceFlag : Bool) : RbTree α :=
  { compare := compare, replaceFlag := replaceFlag }

section search

variable {α : Type} (compare : α → α → Int) (data : α)

/-- The search of `rbtree_insertnode` and `rbtree_find`: the node that
compares equal, or the sentinel a new node takes the place of. -/
def descend : RbNode α → List (Frame α) → RbNode α × List (Frame α)
  | .nil, path => (.nil, path)
  | .node c l d r, path =>
      if compare data d = 0 then (.node c l d r, path)
      else if compare data d < 0 then
        descend l ({ side := .left, color := c, data := d, sibling := r }
          :: path)
      else
        descend r ({ side := .right, color := c, data := d, sibling := l }
          :: path)

end search

/-- `rbtree_finddata`. -/
def rbtreeFinddata {α : Type} (tree : RbTree α) (data : α) : Option α :=
  match (descend tree.compare data tree.root []).1 with
  | .nil => none
  | .node _ _ d _ => some d

-- ======== insertion

/-- `InsertFixup`, from the node `x` up. The loop runs as long as the
parent is red; after a rotation it is black. -/
def insertFixup {α : Type} :
    RbNode α → List (Frame α) → Option (RbNode α)
  | x, [] => some (x.paint .black)
  | x, [p] =>
      if p.color = .red then none else some ((p.plug x).paint .black)
  | x, p :: g :: path =>
      if p.color = .red then
        if g.sibling.color = .red then
          -- uncle is red
          insertFixup
            ({ g with color := .red
                      sibling := g.sibling.paint .black }.plug
              ({ p with color := .black }.plug x)) path
        else
          -- uncle is black
          let parent :=
            if p.side ≠ g.side then (p.plug x).rotate g.side
            else p.plug x
          let top :=
            ({ g with color := .red }.plug (parent.paint .black)).rotate
              g.side.other
          some ((zip top path).paint .black)
      else some ((zip x (p :: g :: path)).paint .black)

/-- `rbtree_insertnode`: the tree, and whether a node is returned. The
second comparison with the parent's data links the new node on the side
the search went down. -/
def rbtreeInsertnode {α : Type} (tree : RbTree α) (data : α) :
    Option (RbTree α × Bool) :=
  match descend tree.compare data tree.root [] with
  | (.node c l _ r, path) =>
      if tree.replaceFlag then
        some ({ tree with root := zip (.node c l data r) path }, true)
      else some (tree, false)
  | (.nil, path) => do
      let root ← insertFixup (.node .red .nil data .nil) path
      return ({ tree with
        root := root
        numElements := tree.numElements + 1 }, true)

-- ======== deletion

/-- The part of the loop of `DeleteFixup` behind the case of a red
sibling: the subtree of `Parent`, and whether `X` moves up to it. -/
def deleteBalance {α : Type} (f : Frame α) (x : RbNode α) :
    RbNode α × Bool :=
  let w := f.sibling
  if (w.child f.side).color = .black
      ∧ (w.child f.side.other).color = .black then
    ({ f with sibling := w.paint .red }.plug x, true)
  else
    let w :=
      if (w.child f.side.other).color = .black then
        ((w.setChild f.side ((w.child f.side).paint .black)).paint
          .red).rotate f.side.other
      else w
    let w := w.paint f.color
    let w := w.setChild f.side.other
      ((w.child f.side.other).paint .black)
    (({ f with color := .black, sibling := w }.plug x).rotate f.side,
      false)

/-- `DeleteFixup`. A red sibling is rotated above the parent, which is
red from then on: the loop ends after this round. -/
def deleteFixup {α : Type} : RbNode α → List (Frame α) → RbNode α
  | x, [] => x.paint .black
  | x, f :: path =>
      if x.color = .red then zip (x.paint .black) (f :: path)
      else
        match f.sibling with
        | .node .red wl wd wr =>
            let w := RbNode.node .red wl wd wr
            let top : Frame α :=
              { side := f.side, color := .black, data := wd
                sibling := w.child f.side.other }
            let (sub, up) := deleteBalance
              { f with color := .red, sibling := w.child f.side } x
            if up then zip (sub.paint .black) (top :: path)
            else (zip sub (top :: path)).paint .black
        | _ =>
            let (sub, up) := deleteBalance f x
            if up then deleteFixup sub path
            else (zip sub path).paint .black

/-- The node with the least data below a node, and the way to it. -/
def leftmost {α : Type} :
    RbNode α → List (Frame α) → RbNode α × List (Frame α)
  | .node c (.node c' l' d' r') d r, path =>
      leftmost (.node c' l' d' r')
        ({ side := .left, color := c, data := d, sibling := r } :: path)
  | x, path => (x, path)

/-- "X is Y's only child". -/
def onlyChild {α : Type} (y : RbNode α) : RbNode α :=
  match y.child .left with
  | .nil => y.child .right
  | x => x

/-- The end of `rbtree_delete`: `y` is taken out and its only child put in
its place. -/
def unlink {α : Type} (y : RbNode α) (path : List (Frame α)) : RbNode α :=
  match y.color, onlyChild y with
  | .black, .node c l d r => deleteFixup (.node c l d r) path
  | _, x => zip x path

/-- `rbtree_delete` of the node `z`. With two children, the data of its
successor moves into `z`, and the successor's node is taken out. -/
def rbtreeDelete {α : Type} (z : RbNode α) (path : List (Frame α)) :
    RbNode α :=
  match z with
  | .node c (.node lc ll ld lr) _ (.node rc rl rd rr) =>
      let right := RbNode.node rc rl rd rr
      match leftmost right [] with
      | (.node yc yl yd yr, down) =>
          unlink (.node yc yl yd yr) (down ++
            { side := .right, color := c, data := yd
              sibling := .node lc ll ld lr } :: path)
      | (.nil, _) => zip z path
  | z => unlink z path

/-- `rbtree_deletebydata`: the tree, and whether there was such a node. -/
def rbtreeDeletebydata {α : Type} (tree : RbTree α) (data : α) :
    RbTree α × Bool :=
  match descend tree.compare data tree.root [] with
  | (.nil, _) => (tree, false)
  | (z, path) =>
      ({ tree with
        root := rbtreeDelete z path
        numElements := tree.numElements - 1 }, true)

end WinRadius
