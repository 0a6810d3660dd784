/-
The nodes of a red-black tree in memory stand for a tree.

# The tree

The tree of a heap has at each node the address and the datum. `Models`
says that every cell has the links of its node and that no two nodes have
one address. A position in the tree splits this into the links of the
subtree and those of the path above it.

# Operations

Each operation of the heap is run symbolically once: what it leaves in
which cell. From there on it is the operation of the same name on the
tree, whose pairs of address and datum it never takes apart.
-/
import WinRadius.Model.RbHeap
import WinRadius.Proofs.RbTree

namespace WinRadius

open RbNode

variable {α : Type}

-- ======== sides

namespace Side

@[simp] theorem other_other (s : Side) : s.other.other = s := by
  cases s with
  | left => rfl
  | right => rfl

@[simp] theorem other_ne (s : Side) : s.other ≠ s := by
  cases s with
  | left => decide
  | right => decide

theorem eq_other {s s' : Side} (h : s ≠ s') : s = s'.other := by
  cases s with
  | left =>
      cases s' with
      | left => exact absurd rfl h
      | right => rfl
  | right =>
      cases s' with
      | left => rfl
      | right => exact absurd rfl h

end Side

/-- A cell with `near` as its child on the side `s`. -/
def RbCell.ofSides (s : Side) (near far : NodePtr)
    (parent : Option NodePtr) (color : NodeColor) (data : Option α) :
    RbCell α :=
  match s with
  | .left => ⟨near, far, parent, color, data⟩
  | .right => ⟨far, near, parent, color, data⟩

namespace RbCell

variable (s : Side) (near far : NodePtr) (parent : Option NodePtr)
  (color : NodeColor) (data : Option α)

@[simp] theorem ofSides_child :
    (ofSides s near far parent color data).child s = near := by
  cases s with
  | left => rfl
  | right => rfl

@[simp] theorem ofSides_child_other :
    (ofSides s near far parent color data).child s.other = far := by
  cases s with
  | left => rfl
  | right => rfl

@[simp] theorem ofSides_setChild (p : NodePtr) :
    (ofSides s near far parent color data).setChild s p
      = ofSides s p far parent color data := by
  cases s with
  | left => rfl
  | right => rfl

@[simp] theorem ofSides_setChild_other (p : NodePtr) :
    (ofSides s near far parent color data).setChild s.other p
      = ofSides s near p parent color data := by
  cases s with
  | left => rfl
  | right => rfl

@[simp] theorem ofSides_parent :
    (ofSides s near far parent color data).parent = parent := by
  cases s with
  | left => rfl
  | right => rfl

@[simp] theorem ofSides_color :
    (ofSides s near far parent color data).color = color := by
  cases s with
  | left => rfl
  | right => rfl

@[simp] theorem ofSides_data :
    (ofSides s near far parent color data).data = data := by
  cases s with
  | left => rfl
  | right => rfl

@[simp] theorem ofSides_withParent (p : Option NodePtr) :
    (ofSides s near far parent color data).withParent p
      = ofSides s near far p color data := by
  cases s with
  | left => rfl
  | right => rfl

@[simp] theorem ofSides_withColor (c : NodeColor) :
    (ofSides s near far parent color data).withColor c
      = ofSides s near far parent c data := by
  cases s with
  | left => rfl
  | right => rfl

end RbCell

-- ======== symbolic execution

namespace RbHeap

variable {β γ : Type} {h : RbHeap α}

@[simp] theorem bind_run (m : RbM α β) (f : β → RbM α γ) :
    (m >>= f) h = (m h).bind fun r => f r.1 r.2 := rfl

@[simp] theorem pure_run (b : β) : (pure b : RbM α β) h = some (b, h) :=
  rfl

@[simp] theorem ite_run (p : Prop) [Decidable p] (m m' : RbM α β) :
    (if p then m else m') h = if p then m h else m' h := by
  split
  · rfl
  · rfl

/-- `if (p) m;` in front of `m'`. -/
theorem guarded_run {p : Prop} [Decidable p] {m : RbM α Unit}
    {m' : RbM α β} {h₁ : RbHeap α}
    (hrun : (if p then m else pure () : RbM α Unit) h = some ((), h₁)) :
    (if p then m >>= fun _ => m' else m') h = m' h₁ := by
  by_cases hp : p
  · rw [if_pos hp] at hrun
    rw [if_pos hp, bind_run, hrun, Option.bind_some]
  · rw [if_neg hp] at hrun
    cases hrun
    rw [if_neg hp]

@[simp] theorem get_run : (get : RbM α (RbHeap α)) h = some (h, h) := rfl

@[simp] theorem write_cells (p q : NodePtr) (c : RbCell α) :
    (h.write p c).cells q = if q = p then some c else h.cells q := rfl

@[simp] theorem write_root (p : NodePtr) (c : RbCell α) :
    (h.write p c).root = h.root := rfl

@[simp] theorem withRoot_cells (p : NodePtr) :
    (h.withRoot p).cells = h.cells := rfl

@[simp] theorem withRoot_root (p : NodePtr) : (h.withRoot p).root = p :=
  rfl

@[simp] theorem read_run (p : NodePtr) :
    read p h = (h.cells p).map fun c => (c, h) := rfl

@[simp] theorem modify_run (p : NodePtr) (f : RbCell α → RbCell α) :
    modify p f h = (h.cells p).map fun c => ((), h.write p (f c)) := rfl

@[simp] theorem setRoot_run (p : NodePtr) :
    setRoot p h = some ((), h.withRoot p) := rfl

@[simp] theorem child_run (s : Side) (p : NodePtr) :
    child s p h = (h.cells p).map fun c => (c.child s, h) := by
  unfold child
  rw [bind_run, read_run]
  cases h.cells p with
  | none => rfl
  | some c => rfl

@[simp] theorem color_run (p : NodePtr) :
    color p h = (h.cells p).map fun c => (c.color, h) := by
  unfold color
  rw [bind_run, read_run]
  cases h.cells p with
  | none => rfl
  | some c => rfl

@[simp] theorem setParent_run (p : NodePtr) (q : Option NodePtr) :
    setParent p q h
      = (h.cells p).map fun c => ((), h.write p (c.withParent q)) := rfl

@[simp] theorem setChild_run (s : Side) (p q : NodePtr) :
    setChild s p q h
      = (h.cells p).map fun c => ((), h.write p (c.setChild s q)) := rfl

@[simp] theorem setColor_run (p : NodePtr) (color : NodeColor) :
    setColor p color h
      = (h.cells p).map fun c => ((), h.write p (c.withColor color)) :=
  rfl

@[simp] theorem setData_run (p : NodePtr) (data : Option α) :
    setData p data h
      = (h.cells p).map fun c => ((), h.write p (c.withData data)) := rfl

/-- The cell above a link that is set to `y`. -/
def relinked (s : Side) (x y : NodePtr) (c : RbCell α) : RbCell α :=
  if x = c.child s then c.setChild s y else c.setChild s.other y

@[simp] theorem relink_none (s : Side) (x y : NodePtr) :
    relink s none x y h = some ((), h.withRoot y) := rfl

@[simp] theorem relink_some (s : Side) (p x y : NodePtr) :
    relink s (some p) x y h
      = (h.cells p).map fun c => ((), h.write p (relinked s x y c)) := by
  simp only [relink, relinked, bind_run, child_run]
  cases hc : h.cells p with
  | none => rfl
  | some c =>
      simp only [Option.map_some, Option.bind_some, ite_run, setChild_run,
        hc]
      split
      · rfl
      · rfl

/-- All but the cells and the root. -/
structure Same (h h' : RbHeap α) : Prop where
  numElements : h'.numElements = h.numElements
  compare : h'.compare = h.compare
  replaceFlag : h'.replaceFlag = h.replaceFlag

theorem Same.refl : Same h h := ⟨rfl, rfl, rfl⟩

theorem Same.trans {h' h'' : RbHeap α} (a : Same h h') (b : Same h' h'') :
    Same h h'' :=
  ⟨b.numElements.trans a.numElements, b.compare.trans a.compare,
    b.replaceFlag.trans a.replaceFlag⟩

theorem same_write (p : NodePtr) (c : RbCell α) : Same h (h.write p c) :=
  ⟨rfl, rfl, rfl⟩

/-- A rotation writes to the two nodes, the child that changes sides and
the parent. -/
theorem rotate_run {s : Side} {x y a b d : NodePtr}
    {par : Option NodePtr} {c c' : NodeColor} {dx dy : Option α}
    (hx : h.cells x = some (.ofSides s a y par c dx))
    (hy : h.cells y = some (.ofSides s b d (some x) c' dy))
    (hb : ∃ cb, h.cells b = some cb)
    (hp : ∀ p, par = some p → ∃ cp, h.cells p = some cp)
    (hxs : x ≠ sentinel) (hys : y ≠ sentinel) (hxy : x ≠ y)
    (hbx : b ≠ x) (hby : b ≠ y) (hpx : par ≠ some x) (hpy : par ≠ some y)
    (hpb : b ≠ sentinel → par ≠ some b) :
    ∃ h', rotate s x h = some ((), h')
      ∧ h'.cells x = some (.ofSides s a b (some y) c dx)
      ∧ h'.cells y = some (.ofSides s x d par c' dy)
      ∧ (b ≠ sentinel →
        h'.cells b = (h.cells b).map (·.withParent (some x)))
      ∧ (∀ p, par = some p →
        h'.cells p = (h.cells p).map (relinked s x y))
      ∧ (∀ q, q ≠ x → q ≠ y → (b ≠ sentinel → q ≠ b) → par ≠ some q →
        h'.cells q = h.cells q)
      ∧ h'.root = (if par = none then y else h.root)
      ∧ Same h h' := by
  obtain ⟨cb, hb⟩ := hb
  cases par with
  | none =>
      by_cases hbs : b = sentinel
      · refine ⟨_, by
          simp [rotate, hx, hy, hbs, hxs, hys, hxy, hxy.symm]
          rfl, ?_⟩
        refine ⟨?_, ?_, ?_, ?_, ?_, ?_, ?_⟩
        · simp [hbs]
        · simp [hxy.symm]
        · simp [hbs]
        · simp
        · intro q hqx hqy _ _
          simp [hqx, hqy]
        · simp
        · exact ⟨rfl, rfl, rfl⟩
      · refine ⟨_, by
          simp [rotate, hx, hy, hb, hbs, hxs, hys, hxy, hxy.symm, hbx,
            hbx.symm, hby.symm]
          rfl, ?_⟩
        refine ⟨?_, ?_, ?_, ?_, ?_, ?_, ?_⟩
        · simp
        · simp [hxy.symm]
        · simp [hb, hbx, hby]
        · simp
        · intro q hqx hqy hqb _
          simp [hqx, hqy, hqb hbs]
        · simp
        · exact ⟨rfl, rfl, rfl⟩
  | some p =>
      obtain ⟨cp, hcp⟩ := hp p rfl
      have hpx' : p ≠ x := fun h => hpx (congrArg some h)
      have hpy' : p ≠ y := fun h => hpy (congrArg some h)
      by_cases hbs : b = sentinel
      · refine ⟨_, by
          simp [rotate, hx, hy, hbs, hxs, hys, hxy, hxy.symm, hcp, hpx',
            hpx'.symm, hpy', hpy'.symm]
          rfl, ?_⟩
        refine ⟨?_, ?_, ?_, ?_, ?_, ?_, ?_⟩
        · simp [hbs]
        · simp [hxy.symm]
        · simp [hbs]
        · intro q hq
          cases hq
          simp [hpx', hpy', hcp]
        · intro q hqx hqy _ hqp
          have hqp' : q ≠ p := fun h => hqp (congrArg some h.symm)
          simp [hqx, hqy, hqp']
        · simp
        · exact ⟨rfl, rfl, rfl⟩
      · have hpb' : p ≠ b := fun h => hpb hbs (congrArg some h)
        refine ⟨_, by
          simp [rotate, hx, hy, hb, hbs, hxs, hys, hxy, hxy.symm, hcp,
            hpx', hpx'.symm, hpy', hpy'.symm, hpb', hbx, hbx.symm,
            hby.symm]
          rfl, ?_⟩
        refine ⟨?_, ?_, ?_, ?_, ?_, ?_, ?_⟩
        · simp
        · simp [hxy.symm]
        · simp [hb, hbx, hby, hpb'.symm]
        · intro q hq
          cases hq
          simp [hpx', hpy', hcp]
        · intro q hqx hqy hqb hqp
          have hqp' : q ≠ p := fun h => hqp (congrArg some h.symm)
          simp [hqx, hqy, hqp', hqb hbs]
        · simp
        · exact ⟨rfl, rfl, rfl⟩

end RbHeap

-- ======== shapes

/-- A node with `near` on the side `s`. -/
def RbNode.ofSides {β : Type} (s : Side) (c : NodeColor)
    (near : RbNode β) (d : β) (far : RbNode β) : RbNode β :=
  match s with
  | .left => .node c near d far
  | .right => .node c far d near

theorem plug_eq_ofSides {β : Type} (f : Frame β) (x : RbNode β) :
    f.plug x = .ofSides f.side f.color x f.data f.sibling := by
  unfold Frame.plug RbNode.ofSides
  cases f.side with
  | left => rfl
  | right => rfl

theorem rotate_ofSides {β : Type} (s : Side) (c c' : NodeColor)
    (a b d : RbNode β) (x y : β) :
    (RbNode.ofSides s c a x (.ofSides s c' b y d)).rotate s
      = .ofSides s c' (.ofSides s c a x b) y d := by
  cases s with
  | left => rfl
  | right => rfl

/-- Where a subtree is. -/
def addr : RbNode (NodePtr × α) → NodePtr
  | .nil => sentinel
  | .node _ _ d _ => d.1

/-- The addresses of a subtree. -/
def addrs (t : RbNode (NodePtr × α)) : List NodePtr :=
  t.toList.map Prod.fst

/-- The addresses of a path and what hangs from it. -/
def pathAddrs (k : List (Frame (NodePtr × α))) : List NodePtr :=
  (listL k ++ listR k).map Prod.fst

@[simp] theorem addr_ofSides (s : Side) (c : NodeColor)
    (n f : RbNode (NodePtr × α)) (d : NodePtr × α) :
    addr (.ofSides s c n d f) = d.1 := by
  cases s with
  | left => rfl
  | right => rfl

theorem addrs_ofSides (s : Side) (c : NodeColor)
    (n f : RbNode (NodePtr × α)) (d : NodePtr × α) :
    (addrs (.ofSides s c n d f)).Perm (d.1 :: (addrs n ++ addrs f)) := by
  unfold addrs RbNode.ofSides
  cases s with
  | left =>
      simp only [toList_node, List.map_append, List.map_cons]
      exact List.perm_middle
  | right =>
      simp only [toList_node, List.map_append, List.map_cons]
      exact List.perm_middle.trans (List.perm_append_comm.cons _)

theorem addrs_node (c : NodeColor) (l : RbNode (NodePtr × α))
    (d : NodePtr × α) (r : RbNode (NodePtr × α)) :
    (addrs (.node c l d r)).Perm (d.1 :: (addrs l ++ addrs r)) :=
  addrs_ofSides .left c l r d

theorem addrs_zip (x : RbNode (NodePtr × α))
    (k : List (Frame (NodePtr × α))) :
    (addrs (zip x k)).Perm (addrs x ++ pathAddrs k) := by
  unfold addrs pathAddrs
  rw [zip_toList]
  simp only [List.map_append, List.append_assoc]
  exact List.perm_append_comm_assoc _ _ _

theorem addr_mem {t : RbNode (NodePtr × α)} (h : t ≠ .nil) :
    addr t ∈ addrs t := by
  cases t with
  | nil => exact absurd rfl h
  | node c l d r => simp [addr, addrs]

-- ======== links

/-- The cells of a subtree whose parent is `par`. -/
def Links (cells : NodePtr → Option (RbCell α)) :
    RbNode (NodePtr × α) → Option NodePtr → Prop
  | .nil, _ => True
  | .node c l d r, par =>
      cells d.1 = some ⟨addr l, addr r, par, c, some d.2⟩
        ∧ Links cells l (some d.1) ∧ Links cells r (some d.1)

/-- The parent of the hole of a path. -/
def above : List (Frame (NodePtr × α)) → Option NodePtr
  | [] => none
  | f :: _ => some f.data.1

/-- The cell of the last node of a path. -/
def Frame.cell (f : Frame (NodePtr × α)) (hole : NodePtr)
    (par : Option NodePtr) : RbCell α :=
  .ofSides f.side hole (addr f.sibling) par f.color (some f.data.2)

/-- The cells of a path with `hole` in its hole. -/
def LinksPath (cells : NodePtr → Option (RbCell α)) :
    List (Frame (NodePtr × α)) → NodePtr → Prop
  | [], _ => True
  | f :: k, hole =>
      cells f.data.1 = some (f.cell hole (above k))
        ∧ Links cells f.sibling (some f.data.1)
        ∧ LinksPath cells k f.data.1

section links

variable {cells cells' : NodePtr → Option (RbCell α)}

theorem links_ofSides (s : Side) (c : NodeColor)
    (n f : RbNode (NodePtr × α)) (d : NodePtr × α)
    (par : Option NodePtr) :
    Links cells (.ofSides s c n d f) par
      ↔ cells d.1
          = some (.ofSides s (addr n) (addr f) par c (some d.2))
        ∧ Links cells n (some d.1) ∧ Links cells f (some d.1) := by
  cases s with
  | left => exact Iff.rfl
  | right => exact and_congr_right fun _ => and_comm

theorem links_zip (x : RbNode (NodePtr × α))
    (k : List (Frame (NodePtr × α))) :
    Links cells (zip x k) none
      ↔ Links cells x (above k) ∧ LinksPath cells k (addr x) := by
  induction k generalizing x with
  | nil => simp [zip, above, LinksPath]
  | cons f k ih =>
      rw [zip, ih, plug_eq_ofSides, links_ofSides, addr_ofSides,
        LinksPath]
      change _ ↔ Links cells x (some f.data.1) ∧ cells f.data.1
        = some (.ofSides f.side (addr x) (addr f.sibling) (above k)
          f.color (some f.data.2)) ∧ _
      tauto

theorem Links.congr {t : RbNode (NodePtr × α)} {par : Option NodePtr}
    (h : Links cells t par)
    (heq : ∀ p ∈ addrs t, cells' p = cells p) : Links cells' t par := by
  induction t generalizing par with
  | nil => trivial
  | node c l d r ihl ihr =>
      simp only [addrs, toList_node, List.map_append, List.map_cons,
        List.mem_append, List.mem_cons] at heq
      refine ⟨?_, ihl h.2.1 fun p hp => heq p (Or.inl hp),
        ihr h.2.2 fun p hp => heq p (Or.inr (Or.inr hp))⟩
      rw [heq _ (Or.inr (Or.inl rfl))]
      exact h.1

/-- The root of a subtree gets another parent. -/
theorem Links.reparent {t : RbNode (NodePtr × α)}
    {par par' : Option NodePtr} (h : Links cells t par)
    (hnd : (addrs t).Nodup)
    (hroot : t ≠ .nil →
      cells' (addr t) = (cells (addr t)).map (·.withParent par'))
    (heq : ∀ p ∈ addrs t, p ≠ addr t → cells' p = cells p) :
    Links cells' t par' := by
  cases t with
  | nil => trivial
  | node c l d r =>
      have hperm := addrs_node c l d r
      rw [hperm.nodup_iff, List.nodup_cons, List.mem_append, not_or]
        at hnd
      have hne {p : NodePtr} (hp : p ∈ addrs l ∨ p ∈ addrs r) :
          cells' p = cells p := by
        refine heq p (hperm.mem_iff.mpr (List.mem_cons_of_mem _
          (List.mem_append.mpr hp))) ?_
        rintro rfl
        exact hp.elim hnd.1.1 hnd.1.2
      refine ⟨?_, h.2.1.congr fun p hp => hne (Or.inl hp),
        h.2.2.congr fun p hp => hne (Or.inr hp)⟩
      have hd := hroot (by simp)
      rw [show addr (.node c l d r) = d.1 from rfl, h.1] at hd
      exact hd

theorem pathAddrs_cons (f : Frame (NodePtr × α))
    (k : List (Frame (NodePtr × α))) :
    (pathAddrs (f :: k)).Perm
      (f.data.1 :: (addrs f.sibling ++ pathAddrs k)) := by
  have h := addrs_zip (.nil : RbNode (NodePtr × α)) (f :: k)
  have h' := addrs_zip (f.plug .nil) k
  rw [plug_eq_ofSides] at h'
  have h'' := addrs_ofSides f.side f.color .nil f.sibling f.data
  refine (h.symm.trans ?_)
  rw [zip, plug_eq_ofSides]
  exact h'.trans (h''.append_right _)

theorem LinksPath.congr {k : List (Frame (NodePtr × α))}
    {hole : NodePtr} (h : LinksPath cells k hole)
    (heq : ∀ p ∈ pathAddrs k, cells' p = cells p) :
    LinksPath cells' k hole := by
  induction k generalizing hole with
  | nil => trivial
  | cons f k ih =>
      have hmem {p : NodePtr} := (pathAddrs_cons f k).mem_iff (a := p)
      simp only [List.mem_cons, List.mem_append] at hmem
      refine ⟨?_, h.2.1.congr fun p hp => heq p (hmem.mpr
        (Or.inr (Or.inl hp))), ih h.2.2 fun p hp => heq p (hmem.mpr
        (Or.inr (Or.inr hp)))⟩
      rw [heq _ (hmem.mpr (Or.inl rfl))]
      exact h.1

/-- The hole of a path gets another subtree. -/
theorem LinksPath.rehole {k : List (Frame (NodePtr × α))}
    {hole hole' : NodePtr} (h : LinksPath cells k hole)
    (hnd : (pathAddrs k).Nodup)
    (hlast : ∀ f rest, k = f :: rest →
      cells' f.data.1 = some (f.cell hole' (above rest)))
    (heq : ∀ p ∈ pathAddrs k, above k ≠ some p →
      cells' p = cells p) : LinksPath cells' k hole' := by
  cases k with
  | nil => trivial
  | cons f k =>
      have hperm := pathAddrs_cons f k
      rw [hperm.nodup_iff, List.nodup_cons, List.mem_append, not_or]
        at hnd
      have hne {p : NodePtr} (hp : p ∈ addrs f.sibling
          ∨ p ∈ pathAddrs k) : cells' p = cells p := by
        refine heq p (hperm.mem_iff.mpr (List.mem_cons_of_mem _
          (List.mem_append.mpr hp))) ?_
        intro hab
        cases hab
        exact hp.elim hnd.1.1 hnd.1.2
      exact ⟨hlast f k rfl, h.2.1.congr fun p hp => hne (Or.inl hp),
        h.2.2.congr fun p hp => hne (Or.inr hp)⟩

end links

-- ======== the heap

/-- The cells of the tree and the sentinel. -/
structure Models (h : RbHeap α) (t : RbNode (NodePtr × α)) : Prop where
  root : h.root = addr t
  links : Links h.cells t none
  nodup : (addrs t).Nodup
  nil : h.cells sentinel = some .nil
  apart : sentinel ∉ addrs t

/-- A run of an operation from `t` to `t'`: the nodes stay where they are
and no other cell is written to. -/
structure Moves (h : RbHeap α) (t : RbNode (NodePtr × α)) (h' : RbHeap α)
    (t' : RbNode (NodePtr × α)) : Prop where
  models : Models h' t'
  addrs : addrs t' = addrs t
  out : ∀ p, p ∉ WinRadius.addrs t → h'.cells p = h.cells p
  same : RbHeap.Same h h'

namespace Moves

variable {h h' h'' : RbHeap α} {t t' t'' : RbNode (NodePtr × α)}

theorem refl (hm : Models h t) : Moves h t h t :=
  ⟨hm, rfl, fun _ _ => rfl, RbHeap.Same.refl⟩

theorem trans (a : Moves h t h' t') (b : Moves h' t' h'' t'') :
    Moves h t h'' t'' := by
  refine ⟨b.models, b.addrs.trans a.addrs, fun p hp => ?_,
    a.same.trans b.same⟩
  rw [b.out p (by rw [a.addrs]; exact hp), a.out p hp]

end Moves

namespace Models

variable {h : RbHeap α} {k : List (Frame (NodePtr × α))}

/-- A change to the cells of the tree that keeps the addresses. -/
theorem moves {h' : RbHeap α} {t t' : RbNode (NodePtr × α)}
    (hm : Models h t) (ha : addrs t' = addrs t) (hroot : h'.root = addr t')
    (hlinks : Links h'.cells t' none)
    (hout : ∀ p, p ∉ addrs t → h'.cells p = h.cells p)
    (hsame : RbHeap.Same h h') : Moves h t h' t' := by
  refine ⟨⟨hroot, hlinks, by rw [ha]; exact hm.nodup, ?_, by
    rw [ha]; exact hm.apart⟩, ha, hout, hsame⟩
  rw [hout _ hm.apart]
  exact hm.nil

theorem nodup_zip {x : RbNode (NodePtr × α)}
    (hm : Models h (zip x k)) : (addrs x ++ pathAddrs k).Nodup :=
  (addrs_zip x k).nodup_iff.mp hm.nodup

theorem apart_zip {x : RbNode (NodePtr × α)}
    (hm : Models h (zip x k)) :
    sentinel ∉ addrs x ∧ sentinel ∉ pathAddrs k := by
  have := hm.apart
  rw [(addrs_zip x k).mem_iff, List.mem_append, not_or] at this
  exact this

/-- The cell at the end of a path. -/
theorem read_last {x : RbNode (NodePtr × α)} {f : Frame (NodePtr × α)}
    (hm : Models h (zip x (f :: k))) :
    h.cells f.data.1 = some (f.cell (addr x) (above k)) :=
  ((links_zip x (f :: k)).mp hm.links).2.1

theorem above_mem {p : NodePtr} (h : above k = some p) :
    p ∈ pathAddrs k := by
  cases k with
  | nil => cases h
  | cons f k =>
      cases h
      exact (pathAddrs_cons f k).mem_iff.mpr List.mem_cons_self

theorem sibling_ne {x : RbNode (NodePtr × α)} {f : Frame (NodePtr × α)}
    (hm : Models h (zip x (f :: k))) (hx : x ≠ .nil) :
    addr f.sibling ≠ addr x := by
  have hnd := hm.nodup_zip
  rw [List.nodup_append] at hnd
  intro heq
  by_cases hs : f.sibling = .nil
  · have hmem := addr_mem hx
    rw [← heq, hs] at hmem
    exact hm.apart_zip.1 hmem
  · refine hnd.2.2 _ (addr_mem hx) (addr f.sibling) ?_ heq.symm
    exact (pathAddrs_cons f k).mem_iff.mpr (List.mem_cons_of_mem _
      (List.mem_append_left _ (addr_mem hs)))

theorem relinked_cell (s : Side) {f : Frame (NodePtr × α)}
    {x y : NodePtr} (par : Option NodePtr) (hne : addr f.sibling ≠ x) :
    RbHeap.relinked s x y (f.cell x par) = f.cell y par := by
  unfold RbHeap.relinked Frame.cell
  by_cases hs : f.side = s
  · subst hs
    simp
  · obtain rfl := Side.eq_other (Ne.symm hs)
    simp [hne.symm]

/-- Where the top of a tree is does not depend on what is in a hole
below. -/
theorem addr_zip_cons (f : Frame (NodePtr × α)) (x y : RbNode (NodePtr × α))
    (k : List (Frame (NodePtr × α))) :
    addr (zip x (f :: k)) = addr (zip y (f :: k)) := by
  induction k generalizing f x y with
  | nil =>
      simp only [zip, plug_eq_ofSides, addr_ofSides]
  | cons g k ih => exact ih g (f.plug x) (f.plug y)

/-- `RotateLeft` and `RotateRight` rotate the tree. -/
theorem rotate {s : Side} {c c' : NodeColor}
    {a b d : RbNode (NodePtr × α)} {x y : NodePtr × α}
    (hm : Models h (zip (.ofSides s c a x (.ofSides s c' b y d)) k)) :
    ∃ h', RbHeap.rotate s x.1 h = some ((), h')
      ∧ Moves h (zip (.ofSides s c a x (.ofSides s c' b y d)) k) h'
        (zip (.ofSides s c' (.ofSides s c a x b) y d) k) := by
  obtain ⟨hsub, hpath⟩ := (links_zip _ k).mp hm.links
  obtain ⟨hx, ha, hsub⟩ := (links_ofSides _ _ _ _ _ _).mp hsub
  obtain ⟨hy, hb, hd⟩ := (links_ofSides _ _ _ _ _ _).mp hsub
  rw [addr_ofSides] at hx hpath
  have hperm := ((addrs_ofSides s c a (.ofSides s c' b y d) x).trans
    (((addrs_ofSides s c' b d y).append_left _).cons _)).append_right
      (pathAddrs k)
  have hnd := hperm.nodup_iff.mp hm.nodup_zip
  obtain ⟨hap, happ⟩ := hm.apart_zip
  have hmemp := fun p => (((addrs_ofSides s c a (.ofSides s c' b y d)
    x).trans (((addrs_ofSides s c' b d y).append_left _).cons
      _)).mem_iff (a := p))
  rw [hmemp] at hap
  simp only [List.cons_append, List.append_assoc, List.nodup_cons,
    List.nodup_append, List.mem_append, List.mem_cons, not_or]
    at hnd hap
  obtain ⟨⟨hxa, hxy, hxb, hxd, hxp⟩, hna, ⟨⟨hyb, hyd, hyp⟩, hnb, ⟨-, hnp,
    hdp⟩, hbo⟩, hao⟩ := hnd
  obtain ⟨hsx, hsa, hsy, hsb, hsd⟩ := hap
  -- the child that changes sides
  have hbmem (hbs : addr b ≠ sentinel) : addr b ∈ addrs b := by
    refine addr_mem ?_
    rintro rfl
    exact hbs rfl
  have hbcell : ∃ cb, h.cells (addr b) = some cb := by
    cases b with
    | nil => exact ⟨_, hm.nil⟩
    | node cb lb db rb => exact ⟨_, hb.1⟩
  have hb_ne {p : NodePtr} (hp : p ∉ addrs b) (hps : sentinel ≠ p) :
      addr b ≠ p := by
    rintro rfl
    exact hp (hbmem (Ne.symm hps))
  have hpcell (p : NodePtr) (hp : above k = some p) :
      ∃ cp, h.cells p = some cp := by
    cases k with
    | nil => cases hp
    | cons f k =>
        cases hp
        exact ⟨_, hpath.1⟩
  obtain ⟨h', hrun, hx', hy', hb', hp', hrest, hroot, hsame⟩ :=
    RbHeap.rotate_run hx hy hbcell hpcell (Ne.symm hsx) (Ne.symm hsy) hxy
      (hb_ne hxb hsx) (hb_ne hyb hsy) (fun hp => hxp (above_mem hp))
      (fun hp => hyp (above_mem hp))
      (fun hbs hp => hbo _ (hbmem hbs) _ (Or.inr (above_mem hp)) rfl)
  refine ⟨h', hrun, hm.moves ?_ ?_ ?_ ?_ hsame⟩
  · unfold addrs
    rw [zip_toList, zip_toList, ← rotate_ofSides, rotate_toList]
  · rw [hroot]
    cases k with
    | nil => simp [above, zip]
    | cons f k =>
        rw [if_neg (by simp [above]), hm.root]
        exact addr_zip_cons f _ _ k
  · rw [links_zip, links_ofSides, links_ofSides, addr_ofSides,
      addr_ofSides]
    refine ⟨⟨hy', ⟨hx', ?_, ?_⟩, ?_⟩, ?_⟩
    · refine ha.congr fun p hp => hrest p ?_ ?_ ?_ ?_
      · rintro rfl
        exact hxa hp
      · exact hao p hp _ (Or.inl rfl)
      · exact fun hbs => hao p hp _ (Or.inr (Or.inl (hbmem hbs)))
      · exact fun hab => hao p hp p
          (Or.inr (Or.inr (Or.inr (above_mem hab)))) rfl
    · refine hb.reparent hnb (fun hne => hb' ?_) fun p hp hpb =>
        hrest p ?_ ?_ (fun _ => hpb) ?_
      · intro hbs
        exact hsb (hbs ▸ addr_mem hne)
      · rintro rfl
        exact hxb hp
      · rintro rfl
        exact hyb hp
      · exact fun hab => hbo p hp p (Or.inr (above_mem hab)) rfl
    · refine hd.congr fun p hp => hrest p ?_ ?_ ?_ ?_
      · rintro rfl
        exact hxd hp
      · rintro rfl
        exact hyd hp
      · exact fun hbs => (hbo _ (hbmem hbs) p (Or.inl hp)).symm
      · exact fun hab => hdp p hp p (above_mem hab) rfl
    · refine hpath.rehole hnp (fun f rest hf => ?_) fun p hp hpa =>
        hrest p ?_ ?_ ?_ hpa
      · subst hf
        have hsib := hm.sibling_ne (x := .ofSides s c a x _) (by
          cases s with
          | left => simp [RbNode.ofSides]
          | right => simp [RbNode.ofSides])
        rw [addr_ofSides] at hsib
        rw [hp' f.data.1 rfl, hpath.1, Option.map_some,
          relinked_cell s _ hsib]
      · rintro rfl
        exact hxp hp
      · rintro rfl
        exact hyp hp
      · exact fun hbs => (hbo _ (hbmem hbs) p (Or.inr hp)).symm
  · intro p hp
    rw [(addrs_zip _ k).mem_iff, List.mem_append, hmemp] at hp
    simp only [List.mem_cons, List.mem_append, not_or] at hp
    refine hrest p hp.1.1 hp.1.2.2.1 ?_ fun hab => hp.2 (above_mem hab)
    rintro hbs rfl
    exact hp.1.2.2.2.1 (hbmem hbs)

end Models

end WinRadius
