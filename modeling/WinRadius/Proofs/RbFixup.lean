/-
The loops of the red-black tree in memory are those on the tree.

# Reading

A node at a position has the cell of its subtree, a frame of a path that of
the subtree plugged in, and a sibling is at a position as well, with the
two children of its parent changing roles (`Frame.flip`). So every read in
a loop is the same lemma, `Models.cell`.

# Loops

`InsertFixup` and `DeleteFixup` go up the path of the position they start
from, by the induction of the function of the same name on the tree.
-/
import WinRadius.Proofs.RbBalance
import WinRadius.Proofs.RbLinks

namespace WinRadius

open RbNode

variable {α : Type}

-- ======== reading

/-- The cell of a subtree, or the sentinel. -/
def cellOf (x : RbNode (NodePtr × α)) (par : Option NodePtr) : RbCell α :=
  match x with
  | .nil => .nil
  | .node c l d r => ⟨addr l, addr r, par, c, some d.2⟩

@[simp] theorem cellOf_color (x : RbNode (NodePtr × α))
    (par : Option NodePtr) : (cellOf x par).color = x.color := by
  cases x with
  | nil => rfl
  | node c l d r => rfl

@[simp] theorem cellOf_child (s : Side) (x : RbNode (NodePtr × α))
    (par : Option NodePtr) :
    (cellOf x par).child s = addr (x.child s) := by
  cases x with
  | nil =>
      cases s with
      | left => rfl
      | right => rfl
  | node c l d r =>
      cases s with
      | left => rfl
      | right => rfl

theorem cellOf_parent {x : RbNode (NodePtr × α)} (hx : x ≠ .nil)
    (par : Option NodePtr) : (cellOf x par).parent = par := by
  cases x with
  | nil => exact absurd rfl hx
  | node c l d r => rfl

@[simp] theorem addr_paint (c : NodeColor) (x : RbNode (NodePtr × α)) :
    addr (x.paint c) = addr x := by
  cases x with
  | nil => rfl
  | node _ l d r => rfl

@[simp] theorem addr_setChild (s : Side) (x y : RbNode (NodePtr × α)) :
    addr (x.setChild s y) = addr x := by
  cases x with
  | nil =>
      cases s with
      | left => rfl
      | right => rfl
  | node c l d r =>
      cases s with
      | left => rfl
      | right => rfl

@[simp] theorem paint_child {β : Type} (c : NodeColor) (s : Side)
    (x : RbNode β) : (x.paint c).child s = x.child s := by
  cases x with
  | nil => rfl
  | node _ l d r =>
      cases s with
      | left => rfl
      | right => rfl

@[simp] theorem paint_eq_nil {β : Type} (c : NodeColor) (x : RbNode β) :
    x.paint c = .nil ↔ x = .nil := by
  cases x with
  | nil => exact Iff.rfl
  | node _ l d r => simp [paint]

@[simp] theorem setChild_eq_nil {β : Type} (s : Side) (x y : RbNode β) :
    x.setChild s y = .nil ↔ x = .nil := by
  cases x with
  | nil =>
      cases s with
      | left => exact Iff.rfl
      | right => exact Iff.rfl
  | node _ l d r =>
      cases s with
      | left => simp [RbNode.setChild]
      | right => simp [RbNode.setChild]

theorem setChild_child {β : Type} {x : RbNode β} (hx : x ≠ .nil)
    (s : Side) (y : RbNode β) : (x.setChild s y).child s = y := by
  cases x with
  | nil => exact absurd rfl hx
  | node _ l d r =>
      cases s with
      | left => rfl
      | right => rfl

theorem setChild_self {β : Type} (s : Side) (x : RbNode β) :
    x.setChild s (x.child s) = x := by
  cases x with
  | nil =>
      cases s with
      | left => rfl
      | right => rfl
  | node _ l d r =>
      cases s with
      | left => rfl
      | right => rfl

theorem child_ne_nil {β : Type} {s : Side} {x : RbNode β}
    (h : x.child s ≠ .nil) : x ≠ .nil := by
  rintro rfl
  cases s with
  | left => exact h rfl
  | right => exact h rfl

theorem ne_nil_of_red {β : Type} {x : RbNode β} (h : x.color ≠ .black) :
    x ≠ .nil := by
  rintro rfl
  exact h rfl

theorem ne_nil_of_toList {β : Type} {x y : RbNode β}
    (h : x.toList = y.toList) (hy : y ≠ .nil) : x ≠ .nil := by
  rintro rfl
  cases y with
  | nil => exact hy rfl
  | node c l d r => simp at h

/-- The frame of the sibling. -/
def Frame.flip {β : Type} (f : Frame β) (x : RbNode β) : Frame β :=
  { f with side := f.side.other, sibling := x }

theorem plug_flip {β : Type} (f : Frame β) (x : RbNode β) :
    (f.flip x).plug f.sibling = f.plug x := by
  unfold Frame.plug Frame.flip
  cases hs : f.side with
  | left => rfl
  | right => rfl

theorem zip_flip {β : Type} (f : Frame β) (x : RbNode β)
    (k : List (Frame β)) :
    zip f.sibling (f.flip x :: k) = zip x (f :: k) := by
  rw [zip, plug_flip, zip]

@[simp] theorem addr_plug (f : Frame (NodePtr × α))
    (x : RbNode (NodePtr × α)) : addr (f.plug x) = f.data.1 := by
  rw [plug_eq_ofSides, addr_ofSides]

theorem plug_ne_nil {β : Type} (f : Frame β) (x : RbNode β) :
    f.plug x ≠ .nil := by
  unfold Frame.plug
  cases f.side with
  | left => simp
  | right => simp

@[simp] theorem plug_child {β : Type} (f : Frame β) (x : RbNode β) :
    (f.plug x).child f.side = x := by
  unfold Frame.plug
  cases f.side with
  | left => rfl
  | right => rfl

theorem plug_child_of {β : Type} {f : Frame β} {s : Side}
    (hs : f.side = s) (x : RbNode β) : (f.plug x).child s = x := by
  rw [← hs, plug_child]

@[simp] theorem plug_child_other {β : Type} (f : Frame β) (x : RbNode β) :
    (f.plug x).child f.side.other = f.sibling := by
  unfold Frame.plug
  cases f.side with
  | left => rfl
  | right => rfl

/-- The frame of a node that is painted. -/
def Frame.withColor {β : Type} (c : NodeColor) (f : Frame β) : Frame β :=
  { f with color := c }

theorem plug_paint {β : Type} (c : NodeColor) (f : Frame β)
    (x : RbNode β) : (f.plug x).paint c = (f.withColor c).plug x := by
  unfold Frame.plug Frame.withColor
  cases f.side with
  | left => rfl
  | right => rfl

/-- The frame above a node whose parent is rotated to the other side. -/
def Frame.lift {β : Type} (p g : Frame β) : Frame β :=
  { side := p.side
    color := p.color
    data := p.data
    sibling := .ofSides g.side.other g.color g.sibling g.data p.sibling }

theorem plug_rotate {β : Type} {p g : Frame β} (hs : p.side = g.side)
    (x : RbNode β) :
    (g.plug (p.plug x)).rotate g.side.other = (p.lift g).plug x := by
  unfold Frame.plug Frame.lift
  rw [hs]
  cases g.side with
  | left => rfl
  | right => rfl

/-- A node rotated below its inner child. -/
theorem rotate_inner {p : Frame (NodePtr × α)} {s : Side}
    {x : RbNode (NodePtr × α)} (hs : p.side = s.other) (hx : x ≠ .nil) :
    ∃ q y, (p.plug x).rotate s = Frame.plug q y ∧ q.side = s
      ∧ y ≠ .nil ∧ addr y = p.data.1 := by
  cases x with
  | nil => exact absurd rfl hx
  | node c l d r =>
      unfold Frame.plug
      rw [hs]
      cases s with
      | left =>
          exact ⟨⟨.left, c, d, r⟩, .node p.color p.sibling p.data l, rfl,
            rfl, by simp, rfl⟩
      | right =>
          exact ⟨⟨.right, c, d, l⟩, .node p.color r p.data p.sibling, rfl,
            rfl, by simp, rfl⟩

theorem deleteBalance_up {β : Type} {f : Frame β} {x : RbNode β}
    (h : (deleteBalance f x).2 = true) : (deleteBalance f x).1
      = { f with sibling := f.sibling.paint .red }.plug x := by
  unfold deleteBalance at h ⊢
  simp only at h ⊢
  split
  · rfl
  · next hred =>
      rw [if_neg hred] at h
      cases h

theorem deleteBalance_ne_nil {β : Type} (f : Frame β) (x : RbNode β) :
    (deleteBalance f x).1 ≠ .nil :=
  ne_nil_of_toList (deleteBalance_toList f x) (plug_ne_nil f x)

namespace Models

variable {h : RbHeap α} {x : RbNode (NodePtr × α)}
  {f : Frame (NodePtr × α)} {k : List (Frame (NodePtr × α))}

theorem cell (hm : Models h (zip x k)) :
    h.cells (addr x) = some (cellOf x (above k)) := by
  cases x with
  | nil => exact hm.nil
  | node c l d r => exact ((links_zip _ k).mp hm.links).1.1

theorem addr_ne (hm : Models h (zip x k)) (hx : x ≠ .nil) :
    addr x ≠ sentinel := by
  intro hnil
  exact hm.apart_zip.1 (hnil ▸ addr_mem hx)

theorem color_at (hm : Models h (zip x k)) :
    RbHeap.color (addr x) h = some (x.color, h) := by
  rw [RbHeap.color_run, hm.cell, Option.map_some, cellOf_color]

theorem child_at (hm : Models h (zip x k)) (s : Side) :
    RbHeap.child s (addr x) h = some (addr (x.child s), h) := by
  rw [RbHeap.child_run, hm.cell, Option.map_some, cellOf_child]

theorem color_child (hm : Models h (zip x k)) (s : Side) :
    RbHeap.color (addr (x.child s)) h = some ((x.child s).color, h) := by
  cases x with
  | nil =>
      cases s with
      | left => exact hm.color_at
      | right => exact hm.color_at
  | node c l d r =>
      cases s with
      | left => exact color_at (k := ⟨.left, c, d, r⟩ :: k) hm
      | right => exact color_at (k := ⟨.right, c, d, l⟩ :: k) hm

theorem addr_ne_child {s : Side} (hm : Models h (zip x k))
    (hs : x.child s ≠ .nil) : addr (x.child s) ≠ sentinel := by
  cases x with
  | nil => exact absurd rfl hs
  | node c l d r =>
      cases s with
      | left => exact addr_ne (k := ⟨.left, c, d, r⟩ :: k) hm hs
      | right => exact addr_ne (k := ⟨.right, c, d, l⟩ :: k) hm hs

theorem near_at (hm : Models h (zip x (f :: k))) :
    RbHeap.child f.side f.data.1 h = some (addr x, h) := by
  have hchild := child_at (x := f.plug x) hm f.side
  rwa [addr_plug, plug_child] at hchild

theorem sibling_at (hm : Models h (zip x (f :: k))) :
    RbHeap.child f.side.other f.data.1 h = some (addr f.sibling, h) := by
  have hchild := child_at (x := f.plug x) hm f.side.other
  rwa [addr_plug, plug_child_other] at hchild

theorem parent_at (hm : Models h (zip x (f :: k))) (hx : x ≠ .nil) :
    RbHeap.parent (addr x) h = some (f.data.1, h) := by
  unfold RbHeap.parent
  simp only [RbHeap.bind_run, RbHeap.read_run, hm.cell, Option.map_some,
    Option.bind_some, cellOf_parent hx]
  rfl

theorem root_ne (hm : Models h (zip x (f :: k))) (hx : x ≠ .nil) :
    addr x ≠ h.root := by
  have hnd := hm.nodup_zip
  rw [List.nodup_append] at hnd
  refine hnd.2.2 _ (addr_mem hx) _ ?_
  rw [hm.root, addr_zip_cons f x .nil k]
  have hmem := addr_mem (t := zip .nil (f :: k)) (by
    intro hnil
    have := congrArg RbNode.toList hnil
    rw [zip_toList] at this
    cases hs : f.side with
    | left => simp [listL, listR, Frame.before, Frame.after, hs] at this
    | right => simp [listL, listR, Frame.before, Frame.after, hs] at this)
  exact (addrs_zip .nil (f :: k)).mem_iff.mp hmem

theorem isRoot_cons (hm : Models h (zip x (f :: k))) (hx : x ≠ .nil) :
    RbHeap.isRoot (addr x) h = some (false, h) := by
  unfold RbHeap.isRoot
  rw [beq_false_of_ne (hm.root_ne hx)]

theorem isRoot_nil (hm : Models h x) :
    RbHeap.isRoot (addr x) h = some (true, h) := by
  unfold RbHeap.isRoot
  rw [hm.root, beq_self_eq_true]

theorem redParent_cons (hm : Models h (zip x (f :: k)))
    (hx : x ≠ .nil) :
    RbHeap.redParent (addr x) h = some (f.color == .red, h) := by
  have hcol := color_at (x := f.plug x) hm
  rw [addr_plug, plug_color] at hcol
  unfold RbHeap.redParent
  simp only [RbHeap.bind_run, hm.isRoot_cons hx, Option.bind_some,
    Bool.false_eq_true, if_false, hm.parent_at hx, hcol, RbHeap.pure_run]

theorem redParent_nil (hm : Models h x) :
    RbHeap.redParent (addr x) h = some (false, h) := by
  unfold RbHeap.redParent
  simp only [RbHeap.bind_run, hm.isRoot_nil, Option.bind_some, if_true,
    RbHeap.pure_run]

theorem sideOf_at (hm : Models h (zip x (f :: k))) (hx : x ≠ .nil) :
    RbHeap.sideOf (addr x) f.data.1 h = some (f.side, h) := by
  have hl := child_at (x := f.plug x) hm .left
  rw [addr_plug] at hl
  unfold RbHeap.sideOf
  simp only [RbHeap.bind_run, hl, Option.bind_some, RbHeap.pure_run]
  have hne := hm.sibling_ne hx
  unfold Frame.plug
  cases hs : f.side with
  | left => simp [RbNode.child]
  | right => simp [RbNode.child, hne.symm]

-- ======== one step each

/-- Colour or datum of a node changes. -/
theorem write_node {c : NodeColor} {l r : RbNode (NodePtr × α)}
    {d : NodePtr × α} (hm : Models h (zip (.node c l d r) k))
    (c' : NodeColor) (e : α) :
    Moves h (zip (.node c l d r) k)
      (h.write d.1 ⟨addr l, addr r, above k, c', some e⟩)
      (zip (.node c' l (d.1, e) r) k) := by
  obtain ⟨⟨-, hl, hr⟩, hpath⟩ := (links_zip _ k).mp hm.links
  have hnd := ((addrs_node c l d r).append_right
    (pathAddrs k)).nodup_iff.mp hm.nodup_zip
  simp only [List.cons_append, List.append_assoc, List.nodup_cons,
    List.mem_append, not_or] at hnd
  obtain ⟨⟨hdl, hdr, hdp⟩, -⟩ := hnd
  have hne {p : NodePtr} {A : List NodePtr} (hd : d.1 ∉ A) (hp : p ∈ A) :
      (h.write d.1 ⟨addr l, addr r, above k, c', some e⟩).cells p
        = h.cells p := by
    rw [RbHeap.write_cells, if_neg]
    rintro rfl
    exact hd hp
  refine hm.moves ?_ ?_ ?_ ?_ (RbHeap.same_write _ _)
  · simp [addrs, zip_toList]
  · rw [RbHeap.write_root, hm.root]
    cases k with
    | nil => rfl
    | cons f k => exact addr_zip_cons f _ _ k
  · rw [links_zip]
    refine ⟨⟨?_, hl.congr fun p => hne hdl, hr.congr fun p => hne hdr⟩,
      hpath.congr fun p => hne hdp⟩
    rw [RbHeap.write_cells, if_pos rfl]
  · intro p hp
    rw [RbHeap.write_cells, if_neg]
    rintro rfl
    refine hp ((addrs_zip _ k).mem_iff.mpr (List.mem_append_left _ ?_))
    exact addr_mem (t := .node c l d r) (by simp)

/-- `X->Color = c`. -/
theorem setColor (hm : Models h (zip x k)) (hx : x ≠ .nil)
    (c : NodeColor) : ∃ h', RbHeap.setColor (addr x) c h = some ((), h')
      ∧ Moves h (zip x k) h' (zip (x.paint c) k) := by
  cases x with
  | nil => exact absurd rfl hx
  | node c' l d r =>
      refine ⟨_, ?_, hm.write_node c d.2⟩
      rw [RbHeap.setColor_run, hm.cell]
      rfl

theorem setColor_sibling (hm : Models h (zip x (f :: k)))
    (hs : f.sibling ≠ .nil) (c : NodeColor) :
    ∃ h', RbHeap.setColor (addr f.sibling) c h = some ((), h')
      ∧ Moves h (zip x (f :: k)) h'
        (zip x ({ f with sibling := f.sibling.paint c } :: k)) := by
  obtain ⟨h', hrun, hmv⟩ := setColor (x := f.sibling)
    (k := f.flip x :: k) ((zip_flip f x k).symm ▸ hm) hs c
  refine ⟨h', hrun, ?_⟩
  rw [zip_flip] at hmv
  exact zip_flip { f with sibling := f.sibling.paint c } x k ▸ hmv

theorem setColor_last (hm : Models h (zip x (f :: k)))
    (c : NodeColor) : ∃ h', RbHeap.setColor f.data.1 c h = some ((), h')
      ∧ Moves h (zip x (f :: k)) h'
        (zip x (f.withColor c :: k)) := by
  obtain ⟨h', hrun, hmv⟩ := setColor (x := f.plug x) hm (plug_ne_nil f x)
    c
  rw [addr_plug] at hrun
  rw [plug_paint] at hmv
  exact ⟨h', hrun, hmv⟩

theorem setColor_child {s : Side} (hm : Models h (zip x k))
    (hs : x.child s ≠ .nil) (c : NodeColor) :
    ∃ h', RbHeap.setColor (addr (x.child s)) c h = some ((), h')
      ∧ Moves h (zip x k) h'
        (zip (x.setChild s ((x.child s).paint c)) k) := by
  cases x with
  | nil => exact absurd rfl hs
  | node c' l d r =>
      cases s with
      | left =>
          exact setColor (k := ⟨.left, c', d, r⟩ :: k) hm hs c
      | right =>
          exact setColor (k := ⟨.right, c', d, l⟩ :: k) hm hs c

/-- `tree->Root->Color = Black`. -/
theorem setColor_root {t : RbNode (NodePtr × α)} (hm : Models h t)
    (ht : t ≠ .nil) (c : NodeColor) :
    ∃ h', RbHeap.setColor h.root c h = some ((), h')
      ∧ Moves h t h' (t.paint c) := by
  rw [hm.root]
  exact setColor (k := []) hm ht c

theorem rotate_at {s : Side} (hm : Models h (zip x k))
    (hy : x.child s.other ≠ .nil) :
    ∃ h', RbHeap.rotate s (addr x) h = some ((), h')
      ∧ Moves h (zip x k) h' (zip (x.rotate s) k) := by
  cases x with
  | nil => exact absurd rfl hy
  | node c l d r =>
      cases s with
      | left =>
          change r ≠ .nil at hy
          cases r with
          | nil => exact absurd rfl hy
          | node c' b e t => exact hm.rotate (s := .left)
      | right =>
          change l ≠ .nil at hy
          cases l with
          | nil => exact absurd rfl hy
          | node c' b e t => exact hm.rotate (s := .right)

-- ======== insertion

/-- "recolor and rotate": the parent moves above the grandparent. -/
theorem recolorRotate {p g : Frame (NodePtr × α)}
    (hm : Models h (zip x (p :: g :: k))) (hx : x ≠ .nil)
    (hs : p.side = g.side) :
    ∃ h', (do
        let p ← RbHeap.parent (addr x)
        RbHeap.setColor p .black
        let g' ← RbHeap.parent p
        RbHeap.setColor g' .red
        RbHeap.rotate g.side.other g'
        return addr x : RbM α NodePtr) h = some (addr x, h')
      ∧ Moves h (zip x (p :: g :: k)) h' (zip x
        ((p.withColor .black).lift (g.withColor .red) :: k)) := by
  obtain ⟨h₁, hrun₁, hm₁⟩ := setColor (x := p.plug x) (k := g :: k)
    hm (plug_ne_nil p x) .black
  rw [addr_plug] at hrun₁
  rw [plug_paint] at hm₁
  have hpar := parent_at hm₁.models (plug_ne_nil _ x)
  obtain ⟨h₂, hrun₂, hm₂⟩ := setColor
    (x := g.plug ((p.withColor .black).plug x)) (k := k)
    hm₁.models (plug_ne_nil g _) .red
  rw [addr_plug] at hrun₂
  rw [plug_paint] at hm₂
  obtain ⟨h₃, hrun₃, hm₃⟩ := rotate_at (s := g.side.other) hm₂.models
    (by
      rw [Side.other_other]
      exact (plug_child (g.withColor .red) _).symm ▸ plug_ne_nil _ x)
  have hrot := plug_rotate (p := p.withColor .black)
    (g := g.withColor .red) hs x
  change RbNode.rotate g.side.other _ = _ at hrot
  rw [hrot] at hm₃
  rw [addr_plug] at hrun₃ hpar
  change RbHeap.parent p.data.1 h₁ = _ at hpar
  change RbHeap.rotate _ g.data.1 h₂ = _ at hrun₃
  refine ⟨h₃, ?_, (hm₁.trans hm₂).trans hm₃⟩
  simp only [RbHeap.bind_run, hm.parent_at hx, Option.bind_some, hrun₁,
    hpar, hrun₂, hrun₃, RbHeap.pure_run]

/-- "uncle is black": the loop stops at the node it goes on with. -/
theorem insertRotate {p g : Frame (NodePtr × α)}
    (hm : Models h (zip x (p :: g :: k))) (hx : x ≠ .nil) :
    ∃ h' y f, RbHeap.insertRotate g.side (addr x) p.data.1 h
        = some (addr y, h')
      ∧ Moves h (zip x (p :: g :: k)) h' (zip y (f :: k))
      ∧ y ≠ .nil ∧ f.color = .black
      ∧ f.plug y = ({ g with color := .red }.plug
          ((if p.side ≠ g.side then (p.plug x).rotate g.side
            else p.plug x).paint .black)).rotate g.side.other := by
  have htop {q : Frame (NodePtr × α)} (hq : q.side = g.side)
      (y : RbNode (NodePtr × α)) :
      ((q.withColor .black).lift (g.withColor .red)).plug y
        = ({ g with color := .red }.plug
          ((q.plug y).paint .black)).rotate g.side.other := by
    rw [plug_paint]
    exact (plug_rotate (p := q.withColor .black)
      (g := g.withColor .red) hq y).symm
  unfold RbHeap.insertRotate
  by_cases hs : p.side = g.side
  · obtain ⟨h', hrun, hmv⟩ := recolorRotate hm hx hs
    refine ⟨h', x, _, ?_, hmv, hx, rfl, ?_⟩
    · have hsib := hm.sibling_at
      rw [hs] at hsib
      rw [RbHeap.bind_run, hsib, Option.bind_some,
        if_neg (hm.sibling_ne hx).symm]
      exact hrun
    · rw [if_neg (not_not_intro hs), htop hs]
  · have hs' : p.side = g.side.other := Side.eq_other hs
    have hnear := hm.near_at
    rw [hs'] at hnear
    obtain ⟨h₁, hrun₁, hm₁⟩ := rotate_at (x := p.plug x)
      (k := g :: k) (s := g.side) hm (by
        rw [← hs', plug_child]
        exact hx)
    obtain ⟨q, y, hqy, hq, hy, hay⟩ := rotate_inner hs' hx
    rw [hqy] at hm₁
    rw [addr_plug] at hrun₁
    obtain ⟨h', hrun, hmv⟩ := recolorRotate (x := y) (p := q) hm₁.models
      hy hq
    refine ⟨h', y, _, ?_, hm₁.trans hmv, hy, rfl, ?_⟩
    · rw [RbHeap.bind_run, hnear, Option.bind_some, if_pos rfl]
      simp only [pure_bind]
      rw [RbHeap.bind_run, hrun₁, Option.bind_some, ← hay]
      exact hrun
    · rw [if_pos hs, hqy, htop hq]

/-- "uncle is red": the colours of the parent, the uncle and the
grandparent. -/
theorem insertRecolor {p g : Frame (NodePtr × α)}
    (hm : Models h (zip x (p :: g :: k)))
    (hu : g.sibling ≠ .nil) :
    ∃ h', (do
        RbHeap.setColor p.data.1 .black
        RbHeap.setColor (addr g.sibling) .black
        RbHeap.setColor g.data.1 .red : RbM α Unit) h = some ((), h')
      ∧ Moves h (zip x (p :: g :: k)) h'
        (zip ({ g with color := .red
                       sibling := g.sibling.paint .black }.plug
          ({ p with color := .black }.plug x)) k) := by
  obtain ⟨h₁, hrun₁, hm₁⟩ := setColor_last hm .black
  obtain ⟨h₂, hrun₂, hm₂⟩ := setColor_sibling
    (x := (p.withColor .black).plug x) (f := g) hm₁.models hu .black
  obtain ⟨h₃, hrun₃, hm₃⟩ := setColor_last hm₂.models .red
  refine ⟨h₃, ?_, (hm₁.trans hm₂).trans hm₃⟩
  simp only [RbHeap.bind_run, hrun₁, hrun₂, hrun₃, Option.bind_some]

/-- The loop of `InsertFixup` is over. -/
theorem insertFixup_done {t : RbNode (NodePtr × α)} {a : NodePtr}
    (hm : Models h t) (ht : t ≠ .nil)
    (hred : RbHeap.redParent a h = some (false, h)) (fuel : Nat) :
    ∃ h', RbHeap.insertFixup (fuel + 1) a h = some ((), h')
      ∧ Moves h t h' (t.paint .black) := by
  obtain ⟨h', hrun, hmv⟩ := hm.setColor_root ht .black
  refine ⟨h', ?_, hmv⟩
  simp only [RbHeap.insertFixup, RbHeap.bind_run, hred, Option.bind_some,
    Bool.false_eq_true, if_false, RbHeap.get_run]
  exact hrun

theorem zip_ne_nil {β : Type} {x : RbNode β} (hx : x ≠ .nil)
    (k : List (Frame β)) : zip x k ≠ .nil := by
  induction k generalizing x with
  | nil => exact hx
  | cons f k ih => exact ih (plug_ne_nil f x)

/-- What the loop of `InsertFixup` reads first. -/
theorem insertFixup_red {p g : Frame (NodePtr × α)}
    (hm : Models h (zip x (p :: g :: k))) (hx : x ≠ .nil)
    (hred : p.color = .red) (fuel : Nat) :
    RbHeap.insertFixup (fuel + 1) (addr x) h
      = if g.sibling.color = .red then
          (do
            RbHeap.setColor p.data.1 .black
            RbHeap.setColor (addr g.sibling) .black
            RbHeap.setColor g.data.1 .red
            RbHeap.insertFixup fuel g.data.1 : RbM α Unit) h
        else
          (RbHeap.insertRotate g.side (addr x) p.data.1
            >>= RbHeap.insertFixup fuel) h := by
  have hpar := parent_at (x := p.plug x) (k := k) hm
    (plug_ne_nil p x)
  have hside := sideOf_at (x := p.plug x) (k := k) hm
    (plug_ne_nil p x)
  have hunc := sibling_at (x := p.plug x) (k := k) hm
  have hcol := color_at (x := g.sibling) (k := g.flip (p.plug x) :: k)
    ((zip_flip g (p.plug x) k).symm ▸ hm)
  rw [addr_plug] at hpar hside
  simp only [RbHeap.insertFixup, RbHeap.bind_run, hm.redParent_cons hx,
    Option.bind_some, hred, beq_self_eq_true, if_true, hm.parent_at hx,
    hpar, hside, hunc, hcol, RbHeap.ite_run]

/-- `InsertFixup`. -/
theorem insertFixup {t : RbNode (NodePtr × α)} (fuel : Nat)
    (hm : Models h (zip x k)) (hx : x ≠ .nil)
    (ht : WinRadius.insertFixup x k = some t)
    (hfuel : k.length < fuel) :
    ∃ h', RbHeap.insertFixup fuel (addr x) h = some ((), h')
      ∧ Moves h (zip x k) h' t := by
  obtain ⟨fuel, rfl⟩ := Nat.exists_eq_succ_of_ne_zero
    (Nat.ne_zero_of_lt hfuel)
  fun_induction WinRadius.insertFixup x k generalizing h fuel with
  | case1 x =>
      cases ht
      exact insertFixup_done hm hx (redParent_nil hm) fuel
  | case2 x p hred => cases ht
  | case3 x p hred =>
      cases ht
      refine insertFixup_done hm (plug_ne_nil p x) ?_ fuel
      rw [hm.redParent_cons hx, beq_false_of_ne hred]
  | case4 x p g k hred huncle ih =>
      have hu : g.sibling ≠ .nil := by
        intro hnil
        rw [hnil] at huncle
        cases huncle
      obtain ⟨h₁, hrun₁, hm₁⟩ := hm.insertRecolor hu
      obtain ⟨fuel, rfl⟩ := Nat.exists_eq_succ_of_ne_zero
        (show fuel ≠ 0 by
          rw [List.length_cons] at hfuel
          omega)
      obtain ⟨h₂, hrun₂, hm₂⟩ := ih hm₁.models (plug_ne_nil _ _) ht fuel
        (by
          simp only [List.length_cons] at hfuel
          omega)
      rw [addr_plug] at hrun₂
      refine ⟨h₂, ?_, hm₁.trans hm₂⟩
      rw [insertFixup_red hm hx hred, if_pos huncle]
      simp only [RbHeap.bind_run, Option.bind_eq_some_iff] at hrun₁ ⊢
      obtain ⟨r₁, hr₁, r₂, hr₂, hr₃⟩ := hrun₁
      exact ⟨r₁, hr₁, r₂, hr₂, _, hr₃, hrun₂⟩
  | case5 x p g k hred huncle =>
      cases ht
      obtain ⟨h₁, y, f, hrun₁, hm₁, hy, hf, htop⟩ := hm.insertRotate hx
      obtain ⟨fuel, rfl⟩ := Nat.exists_eq_succ_of_ne_zero
        (show fuel ≠ 0 by
          rw [List.length_cons] at hfuel
          omega)
      obtain ⟨h₂, hrun₂, hm₂⟩ := insertFixup_done hm₁.models
        (zip_ne_nil hy _) (by
          rw [hm₁.models.redParent_cons hy, hf]
          rfl) fuel
      refine ⟨h₂, ?_, ?_⟩
      · rw [insertFixup_red hm hx hred, if_neg huncle, RbHeap.bind_run,
          hrun₁, Option.bind_some]
        exact hrun₂
      · have hmv := hm₁.trans hm₂
        rw [show zip y (f :: k) = zip (f.plug y) k from rfl, htop]
          at hmv
        exact hmv
  | case6 x p g k hred =>
      cases ht
      refine insertFixup_done hm (zip_ne_nil hx _) ?_ fuel
      rw [hm.redParent_cons hx, beq_false_of_ne hred]

-- ======== deletion

section deletion

variable {s : Side} {w : RbNode (NodePtr × α)}

/-- The sibling gets the red child on the near side above it. -/
theorem deleteInner (hm : Models h (zip w (f :: k)))
    (hf : f.side = s.other) (hnear : w.child s ≠ .nil) :
    ∃ h', (do
        RbHeap.setColor (addr (w.child s)) .black
        RbHeap.setColor (addr w) .red
        RbHeap.rotate s.other (addr w)
        RbHeap.child s.other f.data.1 : RbM α NodePtr) h
          = some (addr (((w.setChild s ((w.child s).paint .black)).paint
            .red).rotate s.other), h')
      ∧ Moves h (zip w (f :: k)) h'
        (zip (((w.setChild s ((w.child s).paint .black)).paint
          .red).rotate s.other) (f :: k)) := by
  have hw := child_ne_nil hnear
  obtain ⟨h₁, hrun₁, hm₁⟩ := setColor_child hm hnear .black
  obtain ⟨h₂, hrun₂, hm₂⟩ := setColor hm₁.models (by simpa using hw) .red
  obtain ⟨h₃, hrun₃, hm₃⟩ := rotate_at (s := s.other) hm₂.models (by
    rw [Side.other_other, paint_child, setChild_child hw]
    simpa using hnear)
  have hchild := hm₃.models.near_at
  rw [hf] at hchild
  rw [addr_setChild] at hrun₂
  rw [addr_paint, addr_setChild] at hrun₃
  refine ⟨h₃, ?_, (hm₁.trans hm₂).trans hm₃⟩
  simp only [RbHeap.bind_run, hrun₁, hrun₂, hrun₃, hchild,
    Option.bind_some]

/-- `if (W->Right->Color != Black) W->Right->Color = Black`. -/
theorem blacken_child (hm : Models h (zip x k)) (s : Side) :
    ∃ h', (do
        if (← RbHeap.color (addr (x.child s))) ≠ .black then
          RbHeap.setColor (addr (x.child s)) .black
        : RbM α Unit) h = some ((), h')
      ∧ Moves h (zip x k) h'
        (zip (x.setChild s ((x.child s).paint .black)) k) := by
  simp only [RbHeap.bind_run, hm.color_child, Option.bind_some,
    RbHeap.ite_run]
  by_cases hc : (x.child s).color = .black
  · rw [if_neg (not_not_intro hc), paint_of_black hc, setChild_self]
    exact ⟨h, rfl, Moves.refl hm⟩
  · rw [if_pos hc]
    exact setColor_child hm (ne_nil_of_red hc) .black

/-- The sibling takes the parent's place and colour. -/
theorem deleteOuter (hm : Models h (zip w (f :: k)))
    (hf : f.side = s.other) (hw : w ≠ .nil) :
    ∃ h', (do
        RbHeap.setColor (addr w) (← RbHeap.color f.data.1)
        if f.data.1 ≠ sentinel then RbHeap.setColor f.data.1 .black
        let far ← RbHeap.child s.other (addr w)
        if (← RbHeap.color far) ≠ .black then RbHeap.setColor far .black
        RbHeap.rotate s f.data.1 : RbM α Unit) h = some ((), h')
      ∧ Moves h (zip w (f :: k)) h'
        (zip (((f.withColor .black).plug ((w.paint f.color).setChild
          s.other (((w.paint f.color).child s.other).paint
            .black))).rotate s) k) := by
  have hcol := color_at (x := f.plug w) (k := k) hm
  rw [addr_plug, plug_color] at hcol
  have hp := addr_ne (x := f.plug w) (k := k) hm (plug_ne_nil f w)
  rw [addr_plug] at hp
  obtain ⟨h₁, hrun₁, hm₁⟩ := setColor hm hw f.color
  obtain ⟨h₂, hrun₂, hm₂⟩ := setColor_last hm₁.models .black
  have hfar := hm₂.models.child_at s.other
  rw [addr_paint] at hfar
  obtain ⟨h₃, hrun₃, hm₃⟩ := hm₂.models.blacken_child s.other
  obtain ⟨h₄, hrun₄, hm₄⟩ := rotate_at (s := s) (k := k)
    (x := (f.withColor .black).plug _) hm₃.models (by
      rw [plug_child_of (f := f.withColor .black) hf]
      simpa using hw)
  rw [addr_plug] at hrun₄
  refine ⟨h₄, ?_, ((hm₁.trans hm₂).trans hm₃).trans hm₄⟩
  have hfc := hm₂.models.color_child s.other
  simp only [RbHeap.bind_run, hcol, hrun₁, hrun₂, hfar, hfc,
    Option.bind_some, if_pos hp, RbHeap.ite_run] at hrun₃ ⊢
  split
  · next hc =>
      rw [if_pos hc] at hrun₃
      rw [hrun₃, Option.bind_some]
      exact hrun₄
  · next hc =>
      rw [if_neg hc] at hrun₃
      cases hrun₃
      exact hrun₄

/-- A black sibling with a red child. -/
theorem deleteRotate (hm : Models h (zip w (f :: k)))
    (hf : f.side = s.other)
    (hred : ¬ ((w.child s).color = .black
      ∧ (w.child s.other).color = .black)) :
    ∃ h' w', RbHeap.deleteRotate s f.data.1 (addr w) (addr (w.child s))
        (addr (w.child s.other)) h = some ((), h')
      ∧ w' = (if (w.child s.other).color = .black then
          ((w.setChild s ((w.child s).paint .black)).paint .red).rotate
            s.other
        else w).paint f.color
      ∧ Moves h (zip w (f :: k)) h'
        (zip (((f.withColor .black).plug (w'.setChild s.other
          ((w'.child s.other).paint .black))).rotate s) k) := by
  unfold RbHeap.deleteRotate
  by_cases hfar : (w.child s.other).color = .black
  · have hnear := ne_nil_of_red fun hc => hred ⟨hc, hfar⟩
    obtain ⟨h₁, hrun₁, hm₁⟩ := hm.deleteInner hf hnear
    obtain ⟨h₂, hrun₂, hm₂⟩ := hm₁.models.deleteOuter hf
      (ne_nil_of_toList (y := w) (by simp) (child_ne_nil hnear))
    refine ⟨h₂, _, ?_, rfl, ?_⟩
    · have hns := addr_ne_child hm hnear
      simp only [RbHeap.bind_run, Option.bind_eq_some_iff] at hrun₁
      obtain ⟨r₁, hr₁, r₂, hr₂, r₃, hr₃, hr₄⟩ := hrun₁
      simp only [RbHeap.bind_run, hm.color_child, Option.bind_some,
        RbHeap.ite_run, if_pos hfar, if_pos hns, hr₁, hr₂, hr₃, hr₄]
      simp only [RbHeap.bind_run, RbHeap.ite_run] at hrun₂
      exact hrun₂
    · rw [if_pos hfar]
      exact hm₁.trans hm₂
  · obtain ⟨h₂, hrun₂, hm₂⟩ := hm.deleteOuter hf
      (child_ne_nil (ne_nil_of_red hfar))
    refine ⟨h₂, _, ?_, rfl, ?_⟩
    · simp only [RbHeap.bind_run, hm.color_child, Option.bind_some,
        RbHeap.ite_run, if_neg hfar, RbHeap.pure_run]
      simp only [RbHeap.bind_run, RbHeap.ite_run] at hrun₂
      exact hrun₂
    · rw [if_neg hfar]
      exact hm₂

/-- The tail of the loop of `DeleteFixup`. -/
theorem deleteBalance (hm : Models h (zip x (f :: k))) :
    ∃ h', RbHeap.deleteBalance f.side f.data.1 (addr f.sibling) h
        = some ((WinRadius.deleteBalance f x).2, h')
      ∧ Moves h (zip x (f :: k)) h'
        (zip (WinRadius.deleteBalance f x).1 k) := by
  have hm' : Models h (zip f.sibling (f.flip x :: k)) :=
    (zip_flip f x k).symm ▸ hm
  unfold RbHeap.deleteBalance WinRadius.deleteBalance
  simp only [RbHeap.bind_run, hm'.child_at, hm'.color_child,
    Option.bind_some, RbHeap.ite_run]
  split
  · by_cases hw : f.sibling = .nil
    · refine ⟨h, ?_, ?_⟩
      · rw [hw]
        rfl
      · rw [hw, show RbNode.paint .red (.nil : RbNode (NodePtr × α))
          = .nil from rfl, ← hw]
        exact Moves.refl hm
    · obtain ⟨h', hrun, hmv⟩ := hm.setColor_sibling hw .red
      refine ⟨h', ?_, hmv⟩
      rw [if_pos (hm'.addr_ne hw), hrun]
      rfl
  · next hred =>
      obtain ⟨h', w', hrun, rfl, hmv⟩ := hm'.deleteRotate (s := f.side) rfl
        hred
      refine ⟨h', ?_, ?_⟩
      · rw [show (f.flip x).data = f.data from rfl] at hrun
        rw [hrun]
        rfl
      · have hflip (w : RbNode (NodePtr × α)) :
            ((f.flip x).withColor .black).plug w
              = { f with color := .black, sibling := w }.plug x :=
          plug_flip { f with color := .black, sibling := w } x
        rw [zip_flip, hflip] at hmv
        exact hmv

theorem color_sibling (hm : Models h (zip x (f :: k))) :
    RbHeap.color (addr f.sibling) h = some (f.sibling.color, h) :=
  color_at (x := f.sibling) (k := f.flip x :: k)
    ((zip_flip f x k).symm ▸ hm)

/-- A red sibling moves above the parent. -/
theorem siblingOf_red {wl wr : RbNode (NodePtr × α)} {wd : NodePtr × α}
    (hm : Models h (zip x (f :: k)))
    (hw : f.sibling = .node .red wl wd wr) :
    ∃ h', RbHeap.siblingOf f.side f.data.1 h
        = some (addr (f.sibling.child f.side), h')
      ∧ Moves h (zip x (f :: k)) h' (zip x
        ({ f with color := .red, sibling := f.sibling.child f.side }
          :: { side := f.side, color := .black, data := wd
               sibling := f.sibling.child f.side.other } :: k)) := by
  have hne : f.sibling ≠ .nil := by
    rw [hw]
    simp
  obtain ⟨h₁, hrun₁, hm₁⟩ := hm.setColor_sibling hne .black
  obtain ⟨h₂, hrun₂, hm₂⟩ := hm₁.models.setColor_last .red
  obtain ⟨h₃, hrun₃, hm₃⟩ := rotate_at (s := f.side) (k := k)
    (x := Frame.plug _ x) hm₂.models (by
      have hchild := plug_child_other (Frame.withColor .red
        { f with sibling := f.sibling.paint .black }) x
      exact hchild.symm ▸ (by simpa [Frame.withColor] using hne))
  rw [addr_plug] at hrun₃
  have hrot : ((Frame.withColor .red
      { f with sibling := f.sibling.paint .black }).plug x).rotate f.side
        = Frame.plug { side := f.side, color := .black, data := wd
                       sibling := f.sibling.child f.side.other }
          (Frame.plug { f with
            color := .red, sibling := f.sibling.child f.side } x) := by
    unfold Frame.plug Frame.withColor
    rw [hw]
    cases f.side with
    | left => rfl
    | right => rfl
  rw [hrot] at hm₃
  have hchild := sibling_at (k := _ :: k) hm₃.models
  refine ⟨h₃, ?_, (hm₁.trans hm₂).trans hm₃⟩
  have hcol := hm.color_sibling
  rw [show f.sibling.color = .red by rw [hw]; rfl] at hcol
  unfold RbHeap.siblingOf
  change RbHeap.setColor f.data.1 .red h₁ = _ at hrun₂
  change RbHeap.rotate f.side f.data.1 h₂ = _ at hrun₃
  change RbHeap.child f.side.other f.data.1 h₃ = _ at hchild
  simp only [RbHeap.bind_run, hm.sibling_at, hcol, Option.bind_some,
    if_true, hrun₁, hrun₂, hrun₃, hchild]

theorem siblingOf_black (hm : Models h (zip x (f :: k)))
    (hw : f.sibling.color ≠ .red) :
    RbHeap.siblingOf f.side f.data.1 h = some (addr f.sibling, h) := by
  unfold RbHeap.siblingOf
  simp only [RbHeap.bind_run, hm.sibling_at, hm.color_sibling,
    Option.bind_some, if_neg hw]
  rfl

/-- The loop of `DeleteFixup` is over. -/
theorem deleteFixup_done (hm : Models h (zip x k)) (hx : x ≠ .nil)
    (hbelow : RbHeap.blackBelow (addr x) h = some (false, h)) (fuel : Nat)
    (par : Option NodePtr) :
    ∃ h', RbHeap.deleteFixup (fuel + 1) (addr x) par h = some ((), h')
      ∧ Moves h (zip x k) h' (zip (x.paint .black) k) := by
  obtain ⟨h', hrun, hmv⟩ := hm.setColor hx .black
  refine ⟨h', ?_, hmv⟩
  simp only [RbHeap.deleteFixup, RbHeap.bind_run, hbelow,
    Option.bind_some, Bool.false_eq_true, if_false]
  exact hrun

theorem blackBelow_nil (hm : Models h x) :
    RbHeap.blackBelow (addr x) h = some (false, h) := by
  unfold RbHeap.blackBelow
  simp only [RbHeap.bind_run, hm.isRoot_nil, Option.bind_some, if_true,
    RbHeap.pure_run]

theorem blackBelow_cons (hm : Models h (zip x (f :: k)))
    (hx : x ≠ .nil) :
    RbHeap.blackBelow (addr x) h = some (x.color == .black, h) := by
  unfold RbHeap.blackBelow
  simp only [RbHeap.bind_run, hm.isRoot_cons hx, Option.bind_some,
    Bool.false_eq_true, if_false, hm.color_at, RbHeap.pure_run]

/-- "X = tree->Root" ends the loop. -/
theorem deleteFixup_root {t : RbNode (NodePtr × α)} (hm : Models h t)
    (ht : t ≠ .nil) (fuel : Nat) (par : Option NodePtr) :
    ∃ h', RbHeap.deleteFixup (fuel + 1) h.root par h = some ((), h')
      ∧ Moves h t h' (t.paint .black) := by
  rw [hm.root]
  exact deleteFixup_done (k := []) hm ht hm.blackBelow_nil fuel par

/-- One round of `DeleteFixup`, from the sibling it has found. -/
theorem deleteFixup_round {g : Frame (NodePtr × α)} {h₁ : RbHeap α}
    {rest : List (Frame (NodePtr × α))}
    (hm : Models h (zip x (f :: k))) (hx : x ≠ .nil)
    (hblack : x.color = .black)
    (hw : RbHeap.siblingOf f.side f.data.1 h = some (addr g.sibling, h₁))
    (hm₁ : Moves h (zip x (f :: k)) h₁ (zip x (g :: rest)))
    (hs : g.side = f.side) (hd : g.data = f.data) (fuel : Nat) :
    ∃ h₂, Moves h (zip x (f :: k)) h₂
        (zip (WinRadius.deleteBalance g x).1 rest)
      ∧ RbHeap.deleteFixup (fuel + 1) (addr x) (some f.data.1) h
        = if (WinRadius.deleteBalance g x).2 then
            RbHeap.deleteFixup fuel f.data.1 (above rest) h₂
          else RbHeap.deleteFixup fuel h₂.root (some f.data.1) h₂ := by
  obtain ⟨h₂, hrun₂, hm₂⟩ := hm₁.models.deleteBalance
  refine ⟨h₂, hm₁.trans hm₂, ?_⟩
  rw [hs, hd] at hrun₂
  simp only [RbHeap.deleteFixup, RbHeap.bind_run, hm.blackBelow_cons hx,
    hblack, Option.bind_some, beq_self_eq_true, if_true, hm.sideOf_at hx,
    hw, hrun₂]
  cases hup : (WinRadius.deleteBalance g x).2 with
  | false => simp
  | true =>
      have hcell := (hm₂.models).cell
      rw [deleteBalance_up hup, addr_plug] at hcell
      change h₂.cells g.data.1 = _ at hcell
      rw [hd] at hcell
      simp only [if_true, RbHeap.bind_run, RbHeap.read_run, hcell,
        Option.map_some, Option.bind_some,
        cellOf_parent (plug_ne_nil _ _)]

/-- `DeleteFixup`. -/
theorem deleteFixup (fuel : Nat) (hm : Models h (zip x k))
    (hx : x ≠ .nil) (hfuel : k.length < fuel) :
    ∃ h', RbHeap.deleteFixup fuel (addr x) (above k) h = some ((), h')
      ∧ Moves h (zip x k) h' (WinRadius.deleteFixup x k) := by
  obtain ⟨fuel, rfl⟩ := Nat.exists_eq_succ_of_ne_zero
    (Nat.ne_zero_of_lt hfuel)
  induction k generalizing h x fuel with
  | nil => exact hm.deleteFixup_done hx hm.blackBelow_nil fuel none
  | cons f k ih =>
      obtain ⟨fuel, rfl⟩ := Nat.exists_eq_succ_of_ne_zero
        (show fuel ≠ 0 by
          rw [List.length_cons] at hfuel
          omega)
      rw [WinRadius.deleteFixup]
      split
      · next hred =>
          refine hm.deleteFixup_done hx ?_ (fuel + 1) _
          rw [hm.blackBelow_cons hx, hred]
          rfl
      · next hred =>
          have hblack : x.color = .black := by
            cases hc : x.color with
            | black => rfl
            | red => exact absurd hc hred
          split
          · next wl wd wr hw =>
              obtain ⟨h₁, hrun₁, hm₁⟩ := hm.siblingOf_red hw
              obtain ⟨h₂, hm₂, hrun₂⟩ := deleteFixup_round hm hx hblack
                hrun₁ hm₁ rfl rfl (fuel + 1)
              simp only [← hw]
              have hrun : RbHeap.deleteFixup (fuel + 1 + 1) (addr x)
                (above (f :: k)) h = _ := hrun₂
              split
              · next hup =>
                  rw [if_pos hup] at hrun
                  -- the parent is red below its old sibling
                  obtain ⟨h₃, hrun₃, hm₃⟩ := hm₂.models.deleteFixup_done
                    (deleteBalance_ne_nil _ _) (by
                      rw [hm₂.models.blackBelow_cons
                        (deleteBalance_ne_nil _ _), deleteBalance_up hup,
                        plug_color]
                      rfl) fuel (above _)
                  rw [deleteBalance_up hup, addr_plug] at hrun₃
                  exact ⟨h₃, hrun.trans hrun₃, hm₂.trans hm₃⟩
              · next hup =>
                  rw [if_neg hup] at hrun
                  obtain ⟨h₃, hrun₃, hm₃⟩ := hm₂.models.deleteFixup_root
                    (zip_ne_nil (deleteBalance_ne_nil _ _) _) fuel
                    (some f.data.1)
                  exact ⟨h₃, hrun.trans hrun₃, hm₂.trans hm₃⟩
          · next hw =>
              have hw' : f.sibling.color ≠ .red := by
                intro hc
                cases hsib : f.sibling with
                | nil =>
                    rw [hsib] at hc
                    cases hc
                | node c wl wd wr =>
                    rw [hsib] at hc
                    obtain rfl : c = .red := hc
                    exact hw wl wd wr hsib
              obtain ⟨h₂, hm₂, hrun₂⟩ := deleteFixup_round hm hx hblack
                (hm.siblingOf_black hw') (Moves.refl hm) rfl rfl (fuel + 1)
              have hrun : RbHeap.deleteFixup (fuel + 1 + 1) (addr x)
                (above (f :: k)) h = _ := hrun₂
              simp only
              split
              · next hup =>
                  rw [if_pos hup] at hrun
                  obtain ⟨h₃, hrun₃, hm₃⟩ := ih hm₂.models
                    (deleteBalance_ne_nil _ _) fuel (by
                      rw [List.length_cons] at hfuel
                      omega)
                  rw [deleteBalance_up hup, addr_plug] at hrun₃
                  exact ⟨h₃, hrun.trans hrun₃, hm₂.trans hm₃⟩
              · next hup =>
                  rw [if_neg hup] at hrun
                  obtain ⟨h₃, hrun₃, hm₃⟩ := hm₂.models.deleteFixup_root
                    (zip_ne_nil (deleteBalance_ne_nil _ _) _) fuel
                    (some f.data.1)
                  exact ⟨h₃, hrun.trans hrun₃, hm₂.trans hm₃⟩

end deletion

end Models

end WinRadius
