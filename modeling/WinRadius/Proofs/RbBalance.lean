/-
The balance of the red-black tree.

# Two measures

A node has a height when all ways down from it pass the same number of
black nodes (`HasHeight`). A path has one when the subtree in its hole
needs it for the whole tree to have one (`PathFits`), and colours when
that subtree may have a colour (`PathColors`).

# Insertion

`InsertFixup` starts from a red node whose parent may be red, and is right
otherwise. That is the invariant of its loop.

# Deletion

`rbtree_delete` takes out a node with at most one child. If the tree is in
balance, a child of a black one is red and repainted, and a red one has
none; `DeleteFixup` never comes to its loop. A black node without a child
is the case the loop is made for, and the one where the source leaves it
out: the tree stays in balance just if the node is the root.
-/
import WinRadius.Lib.Run
import WinRadius.Proofs.RbTree

namespace WinRadius

open Lib RbNode

variable {α : Type}

-- ======== the property

/-- What a node counts for on a way down. -/
def NodeColor.weight : NodeColor → Nat
  | black => 1
  | red => 0

namespace RbNode

/-- The number of black nodes on each way down to the sentinel. -/
def blackCounts : RbNode α → List Nat
  | nil => [0]
  | node c l _ r =>
      (l.blackCounts ++ r.blackCounts).map (· + c.weight)

/-- No red node has a red child. -/
def NoRedRed : RbNode α → Prop
  | nil => True
  | node c l _ r => (c = .red → l.color = .black ∧ r.color = .black)
      ∧ l.NoRedRed ∧ r.NoRedRed

/-- The red-black invariants. -/
structure RedBlack (t : RbNode α) : Prop where
  root : t.color = .black
  noRedRed : t.NoRedRed
  balanced : ∃ n, ∀ k ∈ t.blackCounts, k = n

/-- All ways down pass `n` black nodes. -/
def HasHeight : RbNode α → Nat → Prop
  | nil, n => n = 0
  | node c l _ r, n =>
      ∃ m, n = m + c.weight ∧ l.HasHeight m ∧ r.HasHeight m

theorem blackCounts_nonempty (t : RbNode α) : ∃ k, k ∈ t.blackCounts := by
  induction t with
  | nil => exact ⟨0, List.mem_singleton_self 0⟩
  | node c l d r ihl _ =>
      obtain ⟨k, hk⟩ := ihl
      exact ⟨k + c.weight, List.mem_map_of_mem
        (List.mem_append_left _ hk)⟩

theorem hasHeight_iff (t : RbNode α) (n : Nat) :
    t.HasHeight n ↔ ∀ k ∈ t.blackCounts, k = n := by
  induction t generalizing n with
  | nil => simp [HasHeight, blackCounts, eq_comm]
  | node c l d r ihl ihr =>
      simp only [HasHeight, blackCounts, ihl, ihr, List.mem_map,
        List.mem_append]
      constructor
      · rintro ⟨m, rfl, hl, hr⟩ k ⟨j, hj | hj, rfl⟩
        · rw [hl j hj]
        · rw [hr j hj]
      · intro h
        obtain ⟨m, hm⟩ := l.blackCounts_nonempty
        have hn := h _ ⟨m, Or.inl hm, rfl⟩
        refine ⟨m, hn.symm, fun k hk => ?_, fun k hk => ?_⟩
        · have := h _ ⟨k, Or.inl hk, rfl⟩
          omega
        · have := h _ ⟨k, Or.inr hk, rfl⟩
          omega

theorem HasHeight.unique {t : RbNode α} {n m : Nat} (h : t.HasHeight n)
    (h' : t.HasHeight m) : n = m := by
  obtain ⟨k, hk⟩ := t.blackCounts_nonempty
  rw [hasHeight_iff] at h h'
  rw [← h k hk, h' k hk]

theorem redBlack_iff (t : RbNode α) :
    t.RedBlack ↔ t.color = .black ∧ t.NoRedRed ∧ ∃ n, t.HasHeight n := by
  simp only [hasHeight_iff]
  exact ⟨fun h => ⟨h.root, h.noRedRed, h.balanced⟩,
    fun h => ⟨h.1, h.2.1, h.2.2⟩⟩

theorem NoRedRed.paint {t : RbNode α} (h : t.NoRedRed) :
    (t.paint .black).NoRedRed := by
  cases t with
  | nil => trivial
  | node c l d r =>
      refine ⟨fun hc => ?_, h.2⟩
      cases hc

/-- A red node painted black is higher by one. -/
theorem HasHeight.paint {t : RbNode α} {n : Nat} (h : t.HasHeight n)
    (hred : t.color = .red) : (t.paint .black).HasHeight (n + 1) := by
  cases t with
  | nil => cases hred
  | node c l d r =>
      obtain rfl : c = .red := hred
      obtain ⟨m, hm, hl, hr⟩ := h
      exact ⟨m, congrArg (· + 1) hm, hl, hr⟩

/-- A black node painted black. -/
theorem paint_of_black {t : RbNode α} (h : t.color = .black) :
    t.paint .black = t := by
  cases t with
  | nil => rfl
  | node c l d r =>
      obtain rfl : c = .black := h
      rfl

/-- Painting the root black is always right. -/
theorem redBlack_paint {t : RbNode α} {n : Nat} (hc : t.NoRedRed)
    (hh : t.HasHeight n) : (t.paint .black).RedBlack := by
  rw [redBlack_iff]
  refine ⟨paint_black t, hc.paint, ?_⟩
  cases hcol : t.color with
  | red => exact ⟨n + 1, hh.paint hcol⟩
  | black =>
      rw [paint_of_black hcol]
      exact ⟨n, hh⟩

end RbNode

-- ======== paths

/-- A subtree of height `n` in the hole gives the tree a height. -/
def PathFits : List (Frame α) → Nat → Prop
  | [], _ => True
  | f :: path, n =>
      f.sibling.HasHeight n ∧ PathFits path (n + f.color.weight)

/-- A subtree with a root of colour `c` in the hole leaves no red node
with a red child above it. -/
def PathColors : List (Frame α) → NodeColor → Prop
  | [], _ => True
  | f :: path, c =>
      (f.color = .red → c = .black ∧ f.sibling.color = .black)
        ∧ f.sibling.NoRedRed ∧ PathColors path f.color

theorem plug_hasHeight (f : Frame α) (x : RbNode α) (k : Nat) :
    (f.plug x).HasHeight k ↔ ∃ n, x.HasHeight n
      ∧ f.sibling.HasHeight n ∧ k = n + f.color.weight := by
  unfold Frame.plug
  cases f.side with
  | left =>
      simp only [HasHeight]
      exact exists_congr fun n => by tauto
  | right =>
      simp only [HasHeight]
      exact exists_congr fun n => by tauto

theorem plug_noRedRed (f : Frame α) (x : RbNode α) :
    (f.plug x).NoRedRed ↔ x.NoRedRed ∧ f.sibling.NoRedRed
      ∧ (f.color = .red → x.color = .black
        ∧ f.sibling.color = .black) := by
  unfold Frame.plug
  cases f.side with
  | left =>
      simp only [NoRedRed]
      tauto
  | right =>
      simp only [NoRedRed]
      tauto

theorem zip_hasHeight (x : RbNode α) (path : List (Frame α)) :
    (∃ n, (zip x path).HasHeight n)
      ↔ ∃ n, x.HasHeight n ∧ PathFits path n := by
  induction path generalizing x with
  | nil => simp [zip, PathFits]
  | cons f path ih =>
      rw [zip, ih]
      simp only [plug_hasHeight, PathFits]
      constructor
      · rintro ⟨k, ⟨n, hx, hs, rfl⟩, hp⟩
        exact ⟨n, hx, hs, hp⟩
      · rintro ⟨n, hx, hs, hp⟩
        exact ⟨_, ⟨n, hx, hs, rfl⟩, hp⟩

theorem zip_noRedRed (x : RbNode α) (path : List (Frame α)) :
    (zip x path).NoRedRed ↔ x.NoRedRed ∧ PathColors path x.color := by
  induction path generalizing x with
  | nil => simp [zip, PathColors]
  | cons f path ih =>
      rw [zip, ih, plug_noRedRed, plug_color, PathColors]
      tauto

/-- A hole for a red node takes a black one. -/
theorem PathColors.black {path : List (Frame α)} {c : NodeColor}
    (h : PathColors path c) : PathColors path .black := by
  cases path with
  | nil => trivial
  | cons f path => exact ⟨fun hf => ⟨rfl, (h.1 hf).2⟩, h.2⟩

/-- Under a black parent any colour will do. -/
theorem PathColors.of_black {f : Frame α} {path : List (Frame α)}
    {c c' : NodeColor} (hf : f.color = .black)
    (h : PathColors (f :: path) c) : PathColors (f :: path) c' := by
  refine ⟨fun hr => ?_, h.2⟩
  rw [hf] at hr
  cases hr

theorem zip_append (x : RbNode α) (p q : List (Frame α)) :
    zip x (p ++ q) = zip (zip x p) q := by
  induction p generalizing x with
  | nil => rfl
  | cons f p ih => exact ih _

-- ======== insertion

/-- The rotations of `InsertFixup`: the subtree of the grandparent. -/
theorem insertRotate_redBlack {x : RbNode α} {p g : Frame α} {n : Nat}
    (hx : x.color = .red) (hxc : x.NoRedRed) (hxh : x.HasHeight n)
    (hpc : p.sibling.NoRedRed) (hps : p.sibling.color = .black)
    (hph : p.sibling.HasHeight n) (hgc : g.sibling.NoRedRed)
    (hgs : g.sibling.color = .black) (hgh : g.sibling.HasHeight n)
    (hp : p.color = .red) :
    let parent := if p.side ≠ g.side then (p.plug x).rotate g.side
      else p.plug x
    let top := ({ g with color := .red }.plug
      (parent.paint .black)).rotate g.side.other
    top.color = .black ∧ top.NoRedRed ∧ top.HasHeight (n + 1) := by
  obtain ⟨ps, pc, pd, psib⟩ := p
  obtain ⟨gs, gc, gd, gsib⟩ := g
  obtain rfl : pc = .red := hp
  cases x with
  | nil => cases hx
  | node xc a xd b =>
      obtain rfl : xc = .red := hx
      obtain ⟨hab, hac, hbc⟩ := hxc
      obtain ⟨hab, hbb⟩ := hab rfl
      obtain ⟨m, hm, hah, hbh⟩ := hxh
      obtain rfl : n = m := hm
      have hnode {l r : RbNode α} (d : α) (hl : l.HasHeight n)
          (hr : r.HasHeight n) : (node .red l d r).HasHeight n :=
        ⟨n, rfl, hl, hr⟩
      simp only at hpc hps hph hgc hgs hgh
      cases gs with
      | left =>
          cases ps with
          | left =>
              exact ⟨rfl, ⟨by simp, ⟨fun _ => ⟨hab, hbb⟩, hac, hbc⟩,
                ⟨fun _ => ⟨hps, hgs⟩, hpc, hgc⟩⟩,
                n, rfl, hnode xd hah hbh, hnode gd hph hgh⟩
          | right =>
              exact ⟨rfl, ⟨by simp, ⟨fun _ => ⟨hps, hab⟩, hpc, hac⟩,
                ⟨fun _ => ⟨hbb, hgs⟩, hbc, hgc⟩⟩,
                n, rfl, hnode pd hph hah, hnode gd hbh hgh⟩
      | right =>
          cases ps with
          | left =>
              exact ⟨rfl, ⟨by simp, ⟨fun _ => ⟨hgs, hab⟩, hgc, hac⟩,
                ⟨fun _ => ⟨hbb, hps⟩, hbc, hpc⟩⟩,
                n, rfl, hnode gd hgh hah, hnode pd hbh hph⟩
          | right =>
              exact ⟨rfl, ⟨by simp, ⟨fun _ => ⟨hgs, hps⟩, hgc, hpc⟩,
                ⟨fun _ => ⟨hab, hbb⟩, hac, hbc⟩⟩,
                n, rfl, hnode gd hgh hph, hnode xd hah hbh⟩

/-- The loop of `InsertFixup`: all is right but for the parent of `x`,
which may be red as `x` is. -/
theorem insertFixup_redBlack {x t : RbNode α} {path : List (Frame α)}
    {n : Nat} (hx : x.color = .red) (hxc : x.NoRedRed)
    (hxh : x.HasHeight n) (hpc : PathColors path .black)
    (hph : PathFits path n) (h : insertFixup x path = some t) :
    t.RedBlack := by
  fun_induction insertFixup x path generalizing n with
  | case1 x =>
      cases h
      exact redBlack_paint hxc hxh
  | case2 x p hred => cases h
  | case3 x p hred =>
      cases h
      have hblack : p.color = .black := by
        cases hc : p.color with
        | black => rfl
        | red => exact absurd hc hred
      have hzip := (zip_noRedRed x [p]).mpr
        ⟨hxc, hpc.of_black hblack⟩
      obtain ⟨k, hk⟩ := (zip_hasHeight x [p]).mpr ⟨n, hxh, hph⟩
      exact redBlack_paint hzip hk
  | case4 x p g path hred huncle ih =>
      -- uncle is red
      obtain ⟨hp, hpn, hgp⟩ := hpc
      obtain ⟨hpsh, hgsh, hpath⟩ := hph
      have hg : g.color = .black := by
        cases hc : g.color with
        | black => rfl
        | red =>
            rw [hred] at hgp
            cases (hgp.1 hc).1
      simp only [hred, NodeColor.weight, Nat.add_zero] at hgsh
      refine ih (n := n + 1) (plug_color _ _) ?_ ?_ ?_ ?_ h
      · rw [plug_noRedRed, plug_noRedRed, plug_color]
        exact ⟨⟨hxc, hpn, fun hc => by cases hc⟩, hgp.2.1.paint,
          fun _ => ⟨rfl, paint_black _⟩⟩
      · rw [plug_hasHeight]
        refine ⟨n + 1, ?_, hgsh.paint huncle, rfl⟩
        rw [plug_hasHeight]
        exact ⟨n, hxh, hpsh, rfl⟩
      · exact hgp.2.2.black
      · simpa only [hred, hg, NodeColor.weight, Nat.add_zero] using hpath
  | case5 x p g path hred huncle parent =>
      cases h
      obtain ⟨hp, hpn, hgp⟩ := hpc
      obtain ⟨hpsh, hgsh, hpath⟩ := hph
      have hg : g.color = .black := by
        cases hc : g.color with
        | black => rfl
        | red =>
            rw [hred] at hgp
            cases (hgp.1 hc).1
      have hgs : g.sibling.color = .black := by
        cases hc : g.sibling.color with
        | black => rfl
        | red => exact absurd hc huncle
      simp only [hred, NodeColor.weight, Nat.add_zero] at hgsh
      obtain ⟨htc, htn, hth⟩ := insertRotate_redBlack hx hxc hxh hpn
        (hp hred).2 hpsh hgp.2.1 hgs hgsh hred
      simp only [hred, hg, NodeColor.weight, Nat.add_zero] at hpath
      have hcolors := hgp.2.2
      rw [hg, ← htc] at hcolors
      have hzip := (zip_noRedRed _ path).mpr ⟨htn, hcolors⟩
      obtain ⟨k, hk⟩ := (zip_hasHeight _ path).mpr ⟨n + 1, hth, hpath⟩
      exact redBlack_paint hzip hk
  | case6 x p g path hred =>
      cases h
      have hblack : p.color = .black := by
        cases hc : p.color with
        | black => rfl
        | red => exact absurd hc hred
      have hzip := (zip_noRedRed x (p :: g :: path)).mpr
        ⟨hxc, hpc.of_black hblack⟩
      obtain ⟨k, hk⟩ := (zip_hasHeight x (p :: g :: path)).mpr
        ⟨n, hxh, hph⟩
      exact redBlack_paint hzip hk

-- ======== deletion

/-- The node that `rbtree_delete` takes out, and the way to it: the node
itself, or its successor if it has two children. -/
def takenOut (z : RbNode α) (path : List (Frame α)) :
    RbNode α × List (Frame α) :=
  match z with
  | .node c (.node lc ll ld lr) _ (.node rc rl rd rr) =>
      match leftmost (.node rc rl rd rr) [] with
      | (.node yc yl yd yr, down) =>
          (.node yc yl yd yr, down ++
            { side := .right, color := c, data := yd
              sibling := .node lc ll ld lr } :: path)
      | (.nil, _) => (z, path)
  | z => (z, path)

/-- The node is the root, red, or has a child. -/
def Spared (z : RbNode α) (path : List (Frame α)) : Prop :=
  (takenOut z path).1.color = .red ∨ onlyChild (takenOut z path).1 ≠ .nil
    ∨ (takenOut z path).2 = []

/-- The data of a node do not show in the balance. -/
theorem redBlack_data {c : NodeColor} {l r : RbNode α} {d : α} (d' : α)
    {path : List (Frame α)} (h : (zip (.node c l d r) path).RedBlack) :
    (zip (.node c l d' r) path).RedBlack := by
  rw [redBlack_iff, zip_black_iff, zip_noRedRed, zip_hasHeight] at h ⊢
  exact h

/-- The node taken out, and the same tree but for data around it. -/
theorem takenOut_spec {c : NodeColor} {l r : RbNode α} {d : α}
    {path : List (Frame α)} (h : (zip (.node c l d r) path).RedBlack) :
    ∃ yc yl yd yr down, takenOut (.node c l d r) path
        = (.node yc yl yd yr, down)
      ∧ rbtreeDelete (.node c l d r) path
        = unlink (.node yc yl yd yr) down
      ∧ (yl = .nil ∨ yr = .nil)
      ∧ (zip (.node yc yl yd yr) down).RedBlack := by
  cases l with
  | nil => exact ⟨c, .nil, d, r, path, rfl, rfl, Or.inl rfl, h⟩
  | node lc ll ld lr =>
      cases r with
      | nil => exact ⟨c, _, d, .nil, path, rfl, rfl, Or.inr rfl, h⟩
      | node rc rl rd rr =>
          obtain ⟨y, down, hlm⟩ : ∃ y down,
              leftmost (.node rc rl rd rr) [] = (y, down) := ⟨_, _, rfl⟩
          obtain ⟨hz, -, yc, yd, yr, rfl⟩ := leftmost_spec (by simp) hlm
          rw [zip] at hz
          refine ⟨yc, .nil, yd, yr, down ++
            { side := .right, color := c, data := yd
              sibling := .node lc ll ld lr } :: path,
            by simp only [takenOut, hlm], by simp only [rbtreeDelete, hlm],
            Or.inl rfl, ?_⟩
          rw [zip_append, hz]
          exact redBlack_data yd h

/-- Of the nodes of height 0 only a red one has data. -/
theorem color_of_height_zero {t : RbNode α} (h : t.HasHeight 0)
    (hne : t ≠ .nil) : t.color = .red := by
  cases t with
  | nil => exact absurd rfl hne
  | node c l d r =>
      obtain ⟨m, hm, -⟩ := h
      cases c with
      | red => rfl
      | black => cases hm

/-- In a tree in balance, a node is taken out rightly just if it is the
root, red, or has a child. -/
theorem unlink_redBlack_iff {yc : NodeColor} {yl yr : RbNode α} {yd : α}
    {path : List (Frame α)} (hone : yl = .nil ∨ yr = .nil)
    (h : (zip (.node yc yl yd yr) path).RedBlack) :
    (unlink (.node yc yl yd yr) path).RedBlack
      ↔ yc = .red ∨ onlyChild (.node yc yl yd yr) ≠ .nil ∨ path = [] := by
  rw [redBlack_iff, zip_black_iff, zip_noRedRed, zip_hasHeight] at h
  obtain ⟨⟨hpr, -⟩, ⟨hyc, hpc⟩, n, ⟨m, rfl, hlh, hrh⟩, hph⟩ := h
  -- one of the children is the sentinel, so both have height 0
  obtain rfl : m = 0 := by
    rcases hone with rfl | rfl
    · exact hlh
    · exact hrh
  have hxh : (onlyChild (.node yc yl yd yr)).HasHeight 0 := by
    unfold onlyChild RbNode.child
    cases yl with
    | nil => exact hrh
    | node _ _ _ _ => exact hlh
  have hxc : (onlyChild (.node yc yl yd yr)).NoRedRed := by
    unfold onlyChild RbNode.child
    cases yl with
    | nil => exact hyc.2.2
    | node _ _ _ _ => exact hyc.2.1
  have hnil (hfits : PathFits path 0) : (zip .nil path).RedBlack := by
    rw [redBlack_iff, zip_black_iff, zip_noRedRed, zip_hasHeight]
    exact ⟨⟨hpr, fun _ => rfl⟩, ⟨trivial, hpc.black⟩, 0, rfl, hfits⟩
  cases hx : onlyChild (.node yc yl yd yr) with
  | nil =>
      have hun : unlink (.node yc yl yd yr) path = zip .nil path := by
        unfold unlink
        rw [hx]
        cases yc with
        | red => rfl
        | black => rfl
      rw [hun]
      cases yc with
      | red => exact iff_of_true (hnil hph) (Or.inl rfl)
      | black =>
          cases path with
          | nil => exact iff_of_true (hnil trivial) (Or.inr (Or.inr rfl))
          | cons f path =>
              -- the sibling has a black node that is missing now
              refine iff_of_false (fun hrb => ?_) (by simp)
              obtain ⟨k, hk, hfits⟩ := (zip_hasHeight _ _).mp
                ((redBlack_iff _).mp hrb).2.2
              obtain rfl : k = 0 := hk
              have := hfits.1.unique hph.1
              simp [NodeColor.weight] at this
  | node xc xl xd xr =>
      rw [hx] at hxh hxc
      have hred : xc = .red := color_of_height_zero hxh (by simp)
      subst hred
      refine iff_of_true ?_ (Or.inr (Or.inl (by simp)))
      cases yc with
      | red =>
          -- the children of a red node are black
          have hcols := hyc.1 rfl
          unfold onlyChild RbNode.child at hx
          cases yl with
          | nil =>
              simp only at hx
              rw [hx] at hcols
              cases hcols.2
          | node c' l' d' r' =>
              simp only at hx
              rw [hx] at hcols
              cases hcols.1
      | black =>
          have hun : unlink (.node .black yl yd yr) path
              = zip (.node .black xl xd xr) path := by
            unfold unlink
            rw [hx]
            cases path with
            | nil => rfl
            | cons f path => rfl
          rw [hun, redBlack_iff, zip_black_iff, zip_noRedRed,
            zip_hasHeight]
          exact ⟨⟨hpr, fun _ => rfl⟩, ⟨hxc.paint, hpc⟩, 1,
            hxh.paint rfl, hph⟩

/-- `rbtree_delete` keeps the balance just if the node it takes out is
spared. -/
theorem rbtreeDelete_redBlack_iff {z : RbNode α} {path : List (Frame α)}
    (hz : z ≠ .nil) (h : (zip z path).RedBlack) :
    (rbtreeDelete z path).RedBlack ↔ Spared z path := by
  cases z with
  | nil => exact absurd rfl hz
  | node c l d r =>
      obtain ⟨yc, yl, yd, yr, down, hy, hdel, hone, hrb⟩ := takenOut_spec h
      rw [hdel, unlink_redBlack_iff hone hrb, Spared, hy]
      rfl

-- ======== runs

/-- What the search leaves behind is a way down from the root. -/
theorem descend_zip (compare : α → α → Int) (d : α) (t : RbNode α)
    (path : List (Frame α)) :
    zip (descend compare d t path).1 (descend compare d t path).2
      = zip t path := by
  fun_induction descend compare d t path with
  | case1 path => rfl
  | case2 c l d' r path heq => rfl
  | case3 c l d' r path heq hlt ih => exact ih
  | case4 c l d' r path heq hlt ih => exact ih

/-- `rbtree_insert` keeps the balance. -/
theorem insertnode_redBlack {t t' : RbTree α} {d : α} {ok : Bool}
    (h : t.root.RedBlack)
    (hins : rbtreeInsertnode t d = some (t', ok)) : t'.root.RedBlack := by
  have hzip := descend_zip t.compare d t.root []
  unfold rbtreeInsertnode at hins
  obtain ⟨x, path, hd⟩ : ∃ x path,
      descend t.compare d t.root [] = (x, path) := ⟨_, _, rfl⟩
  rw [hd] at hins hzip
  change zip x path = t.root at hzip
  rw [← hzip] at h
  cases x with
  | node c l d' r =>
      simp only at hins
      split at hins
      · cases hins
        exact redBlack_data d h
      · cases hins
        rw [← hzip]
        exact h
  | nil =>
      obtain ⟨root, hroot, hret⟩ := Option.bind_eq_some_iff.mp hins
      cases hret
      rw [redBlack_iff, zip_black_iff, zip_noRedRed, zip_hasHeight] at h
      obtain ⟨-, ⟨-, hpc⟩, n, hn, hph⟩ := h
      obtain rfl : n = 0 := hn
      refine insertFixup_redBlack rfl ?_ ?_ hpc hph hroot
      · exact ⟨fun _ => ⟨rfl, rfl⟩, trivial, trivial⟩
      · exact ⟨0, rfl, rfl, rfl⟩

/-- A call of `rbtree_insert`, or of `rbtree_delete` for a node of the
tree that is spared. -/
def SparingStep (s t : RbTree α) : Prop :=
  (∃ d ok, rbtreeInsertnode s d = some (t, ok))
  ∨ ∃ z path, z ≠ .nil ∧ zip z path = s.root ∧ Spared z path
    ∧ t = { s with
      root := rbtreeDelete z path
      numElements := s.numElements - 1 }

/-- In every run of such calls the tree is red-black, and after it a
deletion keeps it so just if it spares the balance. -/
theorem sparing_redBlack {compare : α → α → Int} {replaceFlag : Bool}
    {t : RbTree α}
    (h : Reaches SparingStep (rbtreeCreate compare replaceFlag) t) :
    t.root.RedBlack ∧ ∀ z path, z ≠ .nil → zip z path = t.root →
      ((rbtreeDelete z path).RedBlack ↔ Spared z path) := by
  have hrb : t.root.RedBlack := by
    refine h.invariant (fun t => t.root.RedBlack) ?_ ?_
    · exact (redBlack_iff _).mpr ⟨rfl, trivial, 0, rfl⟩
    · rintro s t hs (⟨d, ok, hins⟩ | ⟨z, path, hz, hzip, hsp, rfl⟩)
      · exact insertnode_redBlack hs hins
      · rw [← hzip] at hs
        exact (rbtreeDelete_redBlack_iff hz hs).mpr hsp
  refine ⟨hrb, fun z path hz hzip => ?_⟩
  rw [← hzip] at hrb
  exact rbtreeDelete_redBlack_iff hz hrb

/-- Data inserted one after the other. -/
def insertAll (t : RbTree α) : List α → Option (RbTree α)
  | [] => some t
  | d :: ds => do
      let (t, _) ← rbtreeInsertnode t d
      insertAll t ds

theorem insertAll_reaches {s t t' : RbTree α} {ds : List α}
    (h : Reaches SparingStep s t) (hins : insertAll t ds = some t') :
    Reaches SparingStep s t' := by
  induction ds generalizing t with
  | nil =>
      cases hins
      exact h
  | cons d ds ih =>
      obtain ⟨⟨t₁, ok⟩, h₁, hrest⟩ := Option.bind_eq_some_iff.mp hins
      exact ih (h.step (Or.inl ⟨d, ok, h₁⟩)) hrest

/-- An empty tree of numbers. -/
def numberTree : RbTree Nat :=
  rbtreeCreate (fun a b => (a : Int) - b) false

theorem redLeaf_spared :
    ∃ t, insertAll numberTree [2, 1] = some t ∧ t.root.RedBlack
      ∧ (rbtreeDelete (.node .red .nil 1 .nil)
        [⟨.left, .black, 2, .nil⟩]).RedBlack := by
  obtain ⟨t, ht⟩ : ∃ t, insertAll numberTree [2, 1] = some t := ⟨_, rfl⟩
  have hroot : t.root = .node .black (.node .red .nil 1 .nil) 2 .nil := by
    cases ht
    rfl
  obtain ⟨hrb, hdel⟩ := sparing_redBlack (insertAll_reaches .refl ht)
  refine ⟨t, ht, hrb, (hdel _ _ (by simp) ?_).mpr (Or.inl rfl)⟩
  rw [hroot]
  rfl

/-- The black leaf 1 is taken out of the tree of 1, 2, 3 and 4: the way
left of the root has a black node less than the others. -/
theorem blackLeaf_unbalanced :
    ∃ t, insertAll numberTree [2, 1, 3, 4] = some t
      ∧ (rbtreeDeletebydata t 1).2 = true
      ∧ (rbtreeDeletebydata t 1).1.root.blackCounts = [1, 2, 2, 2]
      ∧ ¬(rbtreeDeletebydata t 1).1.root.RedBlack := by
  refine ⟨_, rfl, rfl, rfl, fun h => ?_⟩
  obtain ⟨n, hn⟩ := h.balanced
  have h1 := hn 1 (by decide)
  have h2 := hn 2 (by decide)
  omega

end WinRadius
