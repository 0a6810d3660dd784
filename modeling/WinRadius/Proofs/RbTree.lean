/-
The red-black tree as an ordered list.

# The list

`toList` is the tree in order. A position splits it into what is left of
the subtree, the subtree and what is right of it (`zip_toList`), and no
rotation or repainting changes it. So an insertion puts the new datum
where the search stopped, and a deletion takes out the datum found.

# The root

The root is black after every operation, which is what keeps `InsertFixup`
from a grandparent that is not there. The balance of the tree is not
needed for any of this, and `rbtree_delete` does not keep it: it leaves
out `DeleteFixup` where the node taken out has no child.
-/
import WinRadius.Model.RbTree

namespace WinRadius

variable {α : Type}

-- ======== in order

namespace RbNode

/-- The data in order. -/
def toList : RbNode α → List α
  | nil => []
  | node _ l d r => l.toList ++ d :: r.toList

@[simp] theorem toList_nil : (nil : RbNode α).toList = [] := rfl

@[simp] theorem toList_node (c : NodeColor) (l : RbNode α) (d : α)
    (r : RbNode α) : (node c l d r).toList = l.toList ++ d :: r.toList :=
  rfl

@[simp] theorem paint_toList (c : NodeColor) (t : RbNode α) :
    (t.paint c).toList = t.toList := by
  cases t with
  | nil => rfl
  | node _ _ _ _ => rfl

@[simp] theorem rotate_toList (s : Side) (t : RbNode α) :
    (t.rotate s).toList = t.toList := by
  unfold rotate
  split
  · simp
  · simp
  · rfl

/-- Repainting a child does not show in the list. -/
@[simp] theorem setChild_paint_toList (s : Side) (c : NodeColor)
    (t : RbNode α) :
    (t.setChild s ((t.child s).paint c)).toList = t.toList := by
  cases t with
  | nil =>
      cases s with
      | left => rfl
      | right => rfl
  | node _ _ _ _ =>
      cases s with
      | left => simp [setChild, child]
      | right => simp [setChild, child]

theorem paint_black (t : RbNode α) : (t.paint .black).color = .black := by
  cases t with
  | nil => rfl
  | node _ _ _ _ => rfl

end RbNode

open RbNode

-- ======== positions

/-- What a frame has left of the node. -/
def Frame.before (f : Frame α) : List α :=
  match f.side with
  | .left => []
  | .right => f.sibling.toList ++ [f.data]

/-- What a frame has right of the node. -/
def Frame.after (f : Frame α) : List α :=
  match f.side with
  | .left => f.data :: f.sibling.toList
  | .right => []

/-- All the data left of a position. -/
def listL : List (Frame α) → List α
  | [] => []
  | f :: path => listL path ++ f.before

/-- All the data right of a position. -/
def listR : List (Frame α) → List α
  | [] => []
  | f :: path => f.after ++ listR path

theorem plug_toList (f : Frame α) (x : RbNode α) :
    (f.plug x).toList = f.before ++ x.toList ++ f.after := by
  unfold Frame.plug Frame.before Frame.after
  cases f.side with
  | left => simp
  | right => simp

theorem zip_toList (x : RbNode α) (path : List (Frame α)) :
    (zip x path).toList = listL path ++ x.toList ++ listR path := by
  induction path generalizing x with
  | nil => simp [zip, listL, listR]
  | cons f path ih =>
      rw [zip, ih, plug_toList]
      simp [listL, listR]

theorem listL_append (p q : List (Frame α)) :
    listL (p ++ q) = listL q ++ listL p := by
  induction p with
  | nil => simp [listL]
  | cons f p ih => simp [listL, ih]

theorem listR_append (p q : List (Frame α)) :
    listR (p ++ q) = listR p ++ listR q := by
  induction p with
  | nil => simp [listR]
  | cons f p ih => simp [listR, ih]

/-- A change of colours and a move of data across the parent that keeps
the list. -/
theorem plug_toList_congr {f g : Frame α} {x y : RbNode α}
    (hs : g.side = f.side) (hd : g.data = f.data)
    (hsib : g.sibling.toList = f.sibling.toList)
    (hx : y.toList = x.toList) :
    (g.plug y).toList = (f.plug x).toList := by
  rw [plug_toList, plug_toList]
  unfold Frame.before Frame.after
  rw [hs, hd, hsib, hx]

/-- The root of a tree with a hole is black. -/
def RootBlack (path : List (Frame α)) : Prop :=
  ∀ f, path.getLast? = some f → f.color = .black

theorem plug_color (f : Frame α) (x : RbNode α) :
    (f.plug x).color = f.color := by
  unfold Frame.plug
  cases f.side with
  | left => rfl
  | right => rfl

theorem zip_black_iff (x : RbNode α) (path : List (Frame α)) :
    (zip x path).color = .black
      ↔ RootBlack path ∧ (path = [] → x.color = .black) := by
  induction path generalizing x with
  | nil => simp [zip, RootBlack]
  | cons f path ih =>
      rw [zip, ih, plug_color]
      cases path with
      | nil => simp [RootBlack]
      | cons g path => simp [RootBlack]

theorem RootBlack.tail {f : Frame α} {path : List (Frame α)}
    (h : RootBlack (f :: path)) : RootBlack path := by
  intro g hg
  cases path with
  | nil => cases hg
  | cons f' path =>
      refine h g ?_
      rw [List.getLast?_cons_cons]
      exact hg

-- ======== insertion

theorem insertFixup_toList {x t : RbNode α} {path : List (Frame α)}
    (h : insertFixup x path = some t) :
    t.toList = listL path ++ x.toList ++ listR path := by
  rw [← zip_toList]
  fun_induction insertFixup x path with
  | case1 x =>
      cases h
      simp [zip]
  | case2 x p hred => cases h
  | case3 x p hred =>
      cases h
      rw [paint_toList, zip, zip]
  | case4 x p g path hred huncle ih =>
      -- uncle is red
      rw [ih h, zip, zip, zip_toList, zip_toList]
      congr 2
      exact plug_toList_congr rfl rfl (paint_toList _ _)
        (plug_toList_congr rfl rfl rfl rfl)
  | case5 x p g path hred huncle parent top =>
      cases h
      have hparent : parent.toList = (p.plug x).toList := by
        unfold parent
        split
        · rw [rotate_toList]
        · rfl
      rw [paint_toList, zip, zip, zip_toList, zip_toList, rotate_toList]
      congr 2
      exact plug_toList_congr rfl rfl rfl
        ((paint_toList _ _).trans hparent)
  | case6 x p g path hred =>
      cases h
      rw [paint_toList]

theorem insertFixup_black {x t : RbNode α} {path : List (Frame α)}
    (h : insertFixup x path = some t) : t.color = .black := by
  fun_induction insertFixup x path with
  | case2 x p hred => cases h
  | case4 x p g path hred huncle ih => exact ih h
  | case1 | case3 | case5 | case6 =>
      cases h
      exact paint_black _

/-- Below a black root there is always a grandparent. -/
theorem insertFixup_isSome {x : RbNode α} {path : List (Frame α)}
    (h : RootBlack path) : ∃ t, insertFixup x path = some t := by
  fun_induction insertFixup x path with
  | case2 x p hred =>
      rw [h p rfl] at hred
      cases hred
  | case4 x p g path hred huncle ih => exact ih h.tail.tail
  | case1 | case3 | case5 | case6 => exact ⟨_, rfl⟩

-- ======== deletion

theorem deleteBalance_toList (f : Frame α) (x : RbNode α) :
    (deleteBalance f x).1.toList = (f.plug x).toList := by
  unfold deleteBalance
  simp only
  split
  · exact plug_toList_congr rfl rfl (paint_toList _ _) rfl
  · simp only [rotate_toList]
    refine plug_toList_congr rfl rfl ?_ rfl
    simp only [setChild_paint_toList, paint_toList]
    split
    · simp
    · rfl

/-- A red sibling above the parent. -/
theorem zip_redSibling (f : Frame α) {c : NodeColor} {wl wr : RbNode α}
    {wd : α} (hw : f.sibling = .node c wl wd wr) (x y : RbNode α)
    (hy : y.toList = (Frame.plug { f with
      color := .red, sibling := f.sibling.child f.side } x).toList)
    (path : List (Frame α)) :
    (zip y ({ side := f.side, color := .black, data := wd
              sibling := f.sibling.child f.side.other } :: path)).toList
      = (zip x (f :: path)).toList := by
  rw [zip_toList, zip_toList, hy, plug_toList]
  unfold listL listR Frame.before Frame.after
  simp only [hw]
  cases f.side with
  | left => simp [RbNode.child, Side.other]
  | right => simp [RbNode.child, Side.other]

theorem deleteFixup_toList (x : RbNode α) (path : List (Frame α)) :
    (deleteFixup x path).toList = listL path ++ x.toList ++ listR path := by
  rw [← zip_toList]
  induction path generalizing x with
  | nil => simp [deleteFixup, zip]
  | cons f path ih =>
      rw [deleteFixup]
      split
      · rw [zip_toList, zip_toList, paint_toList]
      · split
        · next wl wd wr hw =>
            simp only [← hw]
            have hbal := deleteBalance_toList
              { f with color := .red, sibling := f.sibling.child f.side } x
            split
            · exact zip_redSibling f hw x _
                (by rw [paint_toList, hbal]) path
            · rw [paint_toList]
              exact zip_redSibling f hw x _ hbal path
        · have hbal := deleteBalance_toList f x
          simp only
          split
          · rw [ih, zip_toList, hbal, zip, zip_toList]
          · rw [paint_toList, zip_toList, hbal, zip, zip_toList]

theorem deleteFixup_black {x : RbNode α} {path : List (Frame α)}
    (h : RootBlack path) : (deleteFixup x path).color = .black := by
  induction path generalizing x with
  | nil => exact paint_black x
  | cons f path ih =>
      rw [deleteFixup]
      split
      · exact (zip_black_iff _ _).mpr ⟨h, by simp⟩
      · split
        · simp only
          split
          · refine (zip_black_iff _ _).mpr ⟨?_, by simp⟩
            intro g hg
            cases path with
            | nil =>
                cases hg
                rfl
            | cons f' path => exact h.tail g (by simpa using hg)
          · exact paint_black _
        · simp only
          split
          · exact ih h.tail
          · exact paint_black _

theorem onlyChild_toList {c : NodeColor} {l r : RbNode α} {d : α}
    (h : l = .nil ∨ r = .nil) :
    (onlyChild (.node c l d r)).toList = l.toList ++ r.toList := by
  cases l with
  | nil => rfl
  | node lc ll ld lr =>
      obtain rfl := h.resolve_left (by simp)
      simp [onlyChild, RbNode.child]

/-- Taking out a node with one child at most. -/
theorem unlink_toList {c : NodeColor} {l r : RbNode α} {d : α}
    {path : List (Frame α)} (h : l = .nil ∨ r = .nil) :
    (unlink (.node c l d r) path).toList
      = listL path ++ (l.toList ++ r.toList) ++ listR path := by
  rw [← onlyChild_toList h (c := c) (d := d)]
  unfold unlink
  split
  · next hx =>
      rw [hx]
      exact deleteFixup_toList _ _
  · exact zip_toList _ _

theorem unlink_black {y : RbNode α} {path : List (Frame α)}
    (h : RootBlack path) (hy : path = [] → y.color = .black) :
    (unlink y path).color = .black := by
  unfold unlink
  split
  · exact deleteFixup_black h
  · next hx =>
      refine (zip_black_iff _ _).mpr ⟨h, fun hp => ?_⟩
      -- the root goes and has no child
      cases hc : onlyChild y with
      | nil => rfl
      | node c l d r => exact absurd hc (hx c l d r (hy hp))

theorem leftmost_spec {x y : RbNode α} {path down : List (Frame α)}
    (hx : x ≠ .nil) (h : leftmost x path = (y, down)) :
    zip y down = zip x path ∧ listL down = listL path
      ∧ ∃ c d r, y = .node c .nil d r := by
  fun_induction leftmost x path with
  | case1 path c c' l' d' r' d r ih =>
      obtain ⟨hz, hl, hy⟩ := ih (by simp) h
      refine ⟨hz, ?_, hy⟩
      rw [hl]
      simp [listL, Frame.before]
  | case2 x path hleaf =>
      cases h
      refine ⟨rfl, rfl, ?_⟩
      cases y with
      | nil => exact absurd rfl hx
      | node c l d r =>
          cases l with
          | nil => exact ⟨c, d, r, rfl⟩
          | node c' l' d' r' => exact absurd rfl (hleaf c c' l' d' r' d r)

/-- `rbtree_delete` takes out the datum of the node. -/
theorem rbtreeDelete_toList (c : NodeColor) (l : RbNode α) (d : α)
    (r : RbNode α) (path : List (Frame α)) :
    (rbtreeDelete (.node c l d r) path).toList
      = listL path ++ (l.toList ++ r.toList) ++ listR path := by
  cases l with
  | nil => exact unlink_toList (Or.inl rfl)
  | node lc ll ld lr =>
      cases r with
      | nil => exact unlink_toList (Or.inr rfl)
      | node rc rl rd rr =>
          obtain ⟨y, down, hlm⟩ : ∃ y down,
              leftmost (.node rc rl rd rr) [] = (y, down) := ⟨_, _, rfl⟩
          obtain ⟨hz, hl, yc, yd, yr, rfl⟩ := leftmost_spec (by simp) hlm
          have hr := congrArg RbNode.toList hz
          rw [zip_toList, hl, zip] at hr
          simp only [rbtreeDelete, hlm]
          rw [unlink_toList (Or.inl rfl), listL_append, listR_append, hl,
            ← hr]
          simp [listL, listR, Frame.before, Frame.after]

theorem rbtreeDelete_black {z : RbNode α} {path : List (Frame α)}
    (h : (zip z path).color = .black) :
    (rbtreeDelete z path).color = .black := by
  obtain ⟨hp, hz⟩ := (zip_black_iff z path).mp h
  unfold rbtreeDelete
  split
  · next c lc ll ld lr rd' rc rl rd rr =>
      simp only
      split
      · refine unlink_black ?_ (by simp)
        intro f hf
        rw [List.getLast?_append_cons] at hf
        cases path with
        | nil =>
            cases hf
            exact hz rfl
        | cons f' path => exact hp f (by simpa using hf)
      · exact h
  · exact unlink_black hp hz

-- ======== searching

/-- What the tree relies on: against the data it holds, the comparison is
that of a linear order. -/
structure RbLawful {κ : Type} [LinearOrder κ] (compare : α → α → Int)
    (valid : α → Prop) (key : α → κ) : Prop where
  lt_iff : ∀ a b, valid b → (compare a b < 0 ↔ key a < key b)
  eq_iff : ∀ a b, valid b → (compare a b = 0 ↔ key a = key b)

section tree

variable {κ : Type} [LinearOrder κ] {compare : α → α → Int}
  {valid : α → Prop} {key : α → κ}

/-- The search keeps what is smaller left of it and what is greater right
of it. The induction is on the subtree it is at. -/
theorem descend_spec (law : RbLawful compare valid key) {d : α}
    {t : RbNode α} {path : List (Frame α)}
    (hv : ∀ x ∈ t.toList, valid x)
    (hs : t.toList.Pairwise fun a b => key a < key b)
    (hl : ∀ x ∈ listL path, key x < key d)
    (hr : ∀ x ∈ listR path, key d < key x)
    {x : RbNode α} {path' : List (Frame α)}
    (h : descend compare d t path = (x, path')) :
    zip x path' = zip t path ∧ (∀ y ∈ listL path', key y < key d)
      ∧ (∀ y ∈ listR path', key d < key y)
      ∧ (x = .nil ∨ ∃ c l e r, x = .node c l e r ∧ key e = key d) := by
  induction t generalizing path with
  | nil =>
      cases h
      exact ⟨rfl, hl, hr, Or.inl rfl⟩
  | node c l e r ihl ihr =>
      rw [toList_node] at hv hs
      rw [List.pairwise_append, List.pairwise_cons] at hs
      have hve : valid e := hv e (by simp)
      rw [descend] at h
      split at h
      · next heq =>
          cases h
          exact ⟨rfl, hl, hr, Or.inr ⟨c, l, e, r, rfl,
            ((law.eq_iff d e hve).mp heq).symm⟩⟩
      · next hne =>
          split at h
          · next hlt =>
              have hde := (law.lt_iff d e hve).mp hlt
              refine ihl (fun x hx => hv x (by simp [hx])) hs.1 ?_ ?_ h
              · simpa [listL, Frame.before] using hl
              · intro y hy
                simp only [listR, Frame.after, List.cons_append,
                  List.mem_cons, List.mem_append] at hy
                rcases hy with rfl | hy | hy
                · exact hde
                · exact hde.trans (hs.2.1.1 y hy)
                · exact hr y hy
          · next hge =>
              have hde : key e < key d := lt_of_le_of_ne
                (not_lt.mp fun hlt => hge ((law.lt_iff d e hve).mpr hlt))
                (fun heq => hne ((law.eq_iff d e hve).mpr heq.symm))
              refine ihr (fun x hx => hv x (by simp [hx])) hs.2.1.2 ?_ ?_ h
              · intro y hy
                simp only [listL, Frame.before, List.mem_append,
                  List.mem_singleton] at hy
                rcases hy with hy | hy | rfl
                · exact hl y hy
                · exact (hs.2.2 y hy e (by simp)).trans hde
                · exact hde
              · simpa [listR, Frame.after] using hr

/-- A tree of the packet list: no replacing, a black root, and the data in
the order of their keys. -/
structure RbTree.Wf (valid : α → Prop) (key : α → κ) (t : RbTree α) :
    Prop where
  lawful : RbLawful t.compare valid key
  noReplace : t.replaceFlag = false
  black : t.root.color = .black
  valid : ∀ x ∈ t.root.toList, valid x
  sorted : t.root.toList.Pairwise fun a b => key a < key b

theorem rbtreeCreate_wf (law : RbLawful compare valid key) :
    (rbtreeCreate compare false).Wf valid key :=
  ⟨law, rfl, rfl, by simp [rbtreeCreate], by simp [rbtreeCreate]⟩

namespace RbTree.Wf

variable {t : RbTree α}

/-- No two data have one key. -/
theorem key_inj (h : t.Wf valid key) {x y : α} (hx : x ∈ t.root.toList)
    (hy : y ∈ t.root.toList) (hk : key x = key y) : x = y := by
  have hnd : (t.root.toList.map key).Nodup := by
    rw [List.Nodup, List.pairwise_map]
    exact h.sorted.imp fun hlt => hlt.ne
  exact List.inj_on_of_nodup_map hnd hx hy hk

/-- Where a datum is, or would be. -/
theorem locate (h : t.Wf valid key) (d : α) : ∃ x path,
    descend t.compare d t.root [] = (x, path)
      ∧ zip x path = t.root
      ∧ t.root.toList = listL path ++ x.toList ++ listR path
      ∧ (∀ y ∈ listL path, key y < key d)
      ∧ (∀ y ∈ listR path, key d < key y)
      ∧ (x = .nil ∨ ∃ c l e r, x = .node c l e r ∧ key e = key d) := by
  obtain ⟨x, path, hd⟩ : ∃ x path,
      descend t.compare d t.root [] = (x, path) := ⟨_, _, rfl⟩
  obtain ⟨hz, hl, hr, hx⟩ := descend_spec h.lawful h.valid h.sorted
    (by simp [listL]) (by simp [listR]) hd
  rw [zip] at hz
  refine ⟨x, path, hd, hz, ?_, hl, hr, hx⟩
  rw [← hz, zip_toList]

/-- `rbtree_finddata` returns what the tree holds under the key. -/
theorem finddata_eq_some_iff (h : t.Wf valid key) (d y : α) :
    rbtreeFinddata t d = some y
      ↔ y ∈ t.root.toList ∧ key y = key d := by
  obtain ⟨x, path, hd, -, hlist, hl, hr, hx⟩ := h.locate d
  unfold rbtreeFinddata
  rw [hd]
  rcases hx with rfl | ⟨c, l, e, r, rfl, hk⟩
  · simp only [reduceCtorEq, false_iff, not_and]
    intro hy hk
    rw [hlist, toList_nil, List.append_nil, List.mem_append] at hy
    rcases hy with hy | hy
    · exact (hl y hy).ne hk
    · exact (hr y hy).ne' hk
  · have he : e ∈ t.root.toList := by
      rw [hlist]
      simp
    simp only [Option.some.injEq]
    constructor
    · rintro rfl
      exact ⟨he, hk⟩
    · rintro ⟨hy, hk'⟩
      exact h.key_inj he hy (hk.trans hk'.symm)

/-- `rbtree_insert` puts a datum in unless its key is taken. -/
theorem insertnode_spec (h : t.Wf valid key) {d : α} (hd : valid d) :
    ∃ t' b, rbtreeInsertnode t d = some (t', b) ∧ t'.Wf valid key
      ∧ (b = true ↔ ∀ y ∈ t.root.toList, key y ≠ key d)
      ∧ ∀ y, y ∈ t'.root.toList
        ↔ y ∈ t.root.toList ∨ b = true ∧ y = d := by
  obtain ⟨x, path, hdesc, hz, hlist, hl, hr, hx⟩ := h.locate d
  unfold rbtreeInsertnode
  rw [hdesc]
  rcases hx with rfl | ⟨c, l, e, r, rfl, hk⟩
  · have hroot : RootBlack path :=
      ((zip_black_iff _ _).mp (by rw [hz]; exact h.black)).1
    obtain ⟨root, hfix⟩ := insertFixup_isSome
      (x := .node .red .nil d .nil) hroot
    have hlist' := insertFixup_toList hfix
    rw [toList_nil, List.append_nil] at hlist
    rw [toList_node, toList_nil, List.nil_append] at hlist'
    simp only [hfix]
    refine ⟨_, true, rfl, ⟨h.lawful, h.noReplace,
      insertFixup_black hfix, ?_, ?_⟩, ?_, ?_⟩
    · intro y hy
      simp only [hlist', List.mem_append, List.mem_singleton] at hy
      rcases hy with (hy | rfl) | hy
      · exact h.valid y (by rw [hlist]; simp [hy])
      · exact hd
      · exact h.valid y (by rw [hlist]; simp [hy])
    · have hs := h.sorted
      rw [hlist, List.pairwise_append] at hs
      simp only [hlist']
      rw [List.append_assoc, List.pairwise_append, List.cons_append,
        List.nil_append, List.pairwise_cons]
      refine ⟨hs.1, ⟨hr, hs.2.1⟩, fun a ha b hb => ?_⟩
      rcases List.mem_cons.mp hb with rfl | hb
      · exact hl a ha
      · exact hs.2.2 a ha b hb
    · refine ⟨fun _ y hy hk => ?_, fun _ => rfl⟩
      rw [hlist, List.mem_append] at hy
      rcases hy with hy | hy
      · exact (hl y hy).ne hk
      · exact (hr y hy).ne' hk
    · intro y
      simp only [hlist', hlist, List.mem_append, List.mem_singleton]
      tauto
  · refine ⟨t, false, by simp [h.noReplace], h, ?_, by simp⟩
    simp only [Bool.false_eq_true, false_iff, not_forall, not_not]
    refine ⟨e, ?_, hk⟩
    rw [hlist]
    simp

/-- `rbtree_deletebydata` takes out what has the key. -/
theorem deletebydata_spec (h : t.Wf valid key) (d : α) :
    (rbtreeDeletebydata t d).1.Wf valid key
      ∧ ∀ y, y ∈ (rbtreeDeletebydata t d).1.root.toList
        ↔ y ∈ t.root.toList ∧ key y ≠ key d := by
  obtain ⟨x, path, hdesc, hz, hlist, hl, hr, hx⟩ := h.locate d
  unfold rbtreeDeletebydata
  rw [hdesc]
  rcases hx with rfl | ⟨c, l, e, r, rfl, hk⟩
  · refine ⟨h, fun y => ⟨fun hy => ⟨hy, fun hk => ?_⟩, And.left⟩⟩
    simp only [hlist, toList_nil, List.append_nil, List.mem_append] at hy
    rcases hy with hy | hy
    · exact (hl y hy).ne hk
    · exact (hr y hy).ne' hk
  · have hdel := rbtreeDelete_toList c l e r path
    have hsub : (rbtreeDelete (.node c l e r) path).toList.Sublist
        t.root.toList := by
      rw [hdel, hlist, toList_node]
      refine List.Sublist.append (List.Sublist.append (List.Sublist.refl _)
        (List.Sublist.append (List.Sublist.refl _) ?_))
        (List.Sublist.refl _)
      exact List.sublist_cons_self e _
    refine ⟨⟨h.lawful, h.noReplace,
      rbtreeDelete_black (by rw [hz]; exact h.black),
      fun y hy => h.valid y (hsub.subset hy), h.sorted.sublist hsub⟩, ?_⟩
    have hs := h.sorted
    rw [hlist, toList_node] at hs
    intro y
    constructor
    · intro hy
      refine ⟨hsub.subset hy, fun hyk => ?_⟩
      -- `e` was the only one with its key
      have hnd : (listL path ++ (l.toList ++ e :: r.toList)
          ++ listR path).Nodup := hs.imp fun hlt heq => by
        rw [heq] at hlt
        exact lt_irrefl _ hlt
      have hye : y = e := h.key_inj (hsub.subset hy)
        (by rw [hlist]; simp) (hyk.trans hk.symm)
      subst hye
      simp only [hdel] at hy
      grind
    · rintro ⟨hy, hyk⟩
      have hne : y ≠ e := fun heq => hyk (heq ▸ hk)
      simp only [hdel]
      simp only [hlist, toList_node, List.mem_append,
        List.mem_cons] at hy ⊢
      tauto

end RbTree.Wf

/-- The count goes down where the key is found. -/
theorem deletebydata_count {t : RbTree α} {d y : α}
    (h : rbtreeFinddata t d = some y) :
    (rbtreeDeletebydata t d).1.numElements = t.numElements - 1 := by
  unfold rbtreeFinddata at h
  unfold rbtreeDeletebydata
  cases hd : descend t.compare d t.root [] with
  | mk x path =>
      rw [hd] at h
      cases x with
      | nil => cases h
      | node c l e r => rfl

/-- The count goes up with a new node. -/
theorem insertnode_count {t t' : RbTree α} {d : α}
    (hflag : t.replaceFlag = false)
    (h : rbtreeInsertnode t d = some (t', true)) :
    t'.numElements = t.numElements + 1
      ∧ t'.replaceFlag = t.replaceFlag := by
  unfold rbtreeInsertnode at h
  cases hd : descend t.compare d t.root [] with
  | mk x path =>
      rw [hd] at h
      cases x with
      | nil =>
          obtain ⟨root, -, hroot⟩ := Option.bind_eq_some_iff.mp h
          cases hroot
          exact ⟨rfl, rfl⟩
      | node c l e r =>
          rw [hflag] at h
          cases h

end tree

end WinRadius
