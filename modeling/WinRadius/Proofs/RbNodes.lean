/-
Insertion and deletion of nodes in memory.

# Insertion

The search follows links to the place of the tree's own search. The new
cell is linked there and `InsertFixup` runs from it.

# Deletion

`rbtree_delete` links its node out of the tree while the cell is still
allocated. With two children it is the successor's cell that is linked
out: the datum goes to the place of the deleted node, the fix-up runs, and
the cell there is then moved to the successor's address, so that each
datum other than the deleted one keeps its address (`Models.rehome`).
-/
import WinRadius.Proofs.RbFixup

namespace WinRadius

open RbNode

variable {α : Type}

-- ======== sizes

/-- A path is no longer than the tree has nodes. -/
theorem length_zip {β : Type} (x : RbNode β) (k : List (Frame β)) :
    x.toList.length + k.length ≤ (zip x k).toList.length := by
  induction k generalizing x with
  | nil => exact Nat.le_refl _
  | cons f k ih =>
      have hplug : x.toList.length + 1 ≤ (f.plug x).toList.length := by
        unfold Frame.plug
        cases f.side with
        | left =>
            simp only [toList_node, List.length_append, List.length_cons]
            omega
        | right =>
            simp only [toList_node, List.length_append, List.length_cons]
            omega
      have := ih (f.plug x)
      rw [zip, List.length_cons]
      omega

/-- A datum is at some position. -/
theorem exists_zip {β : Type} {t : RbNode β} {d : β} (h : d ∈ t.toList) :
    ∃ c l r k, t = zip (.node c l d r) k := by
  induction t with
  | nil => cases h
  | node c l e r ihl ihr =>
      simp only [toList_node, List.mem_append, List.mem_cons] at h
      rcases h with h | rfl | h
      · obtain ⟨c', l', r', k, rfl⟩ := ihl h
        exact ⟨c', l', r', k ++ [⟨.left, c, e, r⟩], by
          rw [zip_append]
          rfl⟩
      · exact ⟨c, l, r, [], rfl⟩
      · obtain ⟨c', l', r', k, rfl⟩ := ihr h
        exact ⟨c', l', r', k ++ [⟨.right, c, e, l⟩], by
          rw [zip_append]
          rfl⟩

-- ======== searching

/-- The second comparison with the parent's datum goes to the side the
search went down. -/
theorem descend_side {β : Type} {cmp : β → β → Int} {d : β}
    {t y : RbNode β} {k k' : List (Frame β)}
    (hd : descend cmp d t k = (y, k'))
    (hp : ∀ f rest, k = f :: rest →
      (cmp d f.data ≤ 0 ↔ f.side = .left)) :
    ∀ f rest, k' = f :: rest →
      (cmp d f.data ≤ 0 ↔ f.side = .left) := by
  induction t generalizing k with
  | nil =>
      cases hd
      exact hp
  | node c l e r ihl ihr =>
      rw [descend] at hd
      split at hd
      · cases hd
        exact hp
      · next hne =>
          split at hd
          · next hlt =>
              refine ihl hd fun f rest hf => ?_
              cases hf
              exact ⟨fun _ => rfl, fun _ => hlt.le⟩
          · next hge =>
              refine ihr hd fun f rest hf => ?_
              cases hf
              refine ⟨fun hle => ?_, fun hs => by cases hs⟩
              exact absurd (lt_of_le_of_ne hle hne) hge

namespace Frame

variable (f : Frame (NodePtr × α)) (hole : NodePtr)
  (par : Option NodePtr)

theorem cell_data : (f.cell hole par).data = some f.data.2 :=
  RbCell.ofSides_data ..

theorem cell_setChild (a : NodePtr) :
    (f.cell hole par).setChild f.side a = f.cell a par :=
  RbCell.ofSides_setChild ..

end Frame

/-- A comparison of data as one of nodes. -/
def nodeCompare (compare : α → α → Int) (a b : NodePtr × α) : Int :=
  compare a.2 b.2

/-- The pointer to a node that is not the sentinel. -/
def pointer : RbNode (NodePtr × α) → Option NodePtr
  | .nil => none
  | .node _ _ d _ => some d.1

namespace Models

variable {h : RbHeap α} {x : RbNode (NodePtr × α)}
  {k : List (Frame (NodePtr × α))}

/-- One turn of the search. -/
theorem search_node {c : NodeColor} {l r : RbNode (NodePtr × α)}
    {e : NodePtr × α} (hm : Models h (zip (.node c l e r) k))
    (data : α) (fuel : Nat) (par : Option NodePtr) :
    RbHeap.search data (fuel + 1) e.1 par h
      = if h.compare data e.2 = 0 then some ((some e.1, par), h)
        else RbHeap.search data fuel
          (if h.compare data e.2 < 0 then addr l else addr r)
          (some e.1) h := by
  have hne : e.1 ≠ sentinel := hm.addr_ne (by simp)
  have hcell : h.cells e.1 = _ := hm.cell
  simp only [RbHeap.search, if_neg hne, RbHeap.bind_run, RbHeap.read_run,
    hcell, Option.map_some, Option.bind_some, cellOf, RbHeap.get_run]
  split
  · rfl
  · rfl

/-- The search in memory is that of the tree. -/
theorem search {a : NodePtr} {data : α} (fuel : Nat)
    (hm : Models h (zip x k)) (hfuel : x.toList.length < fuel)
    {y : RbNode (NodePtr × α)} {k' : List (Frame (NodePtr × α))}
    (hd : descend (nodeCompare h.compare) (a, data) x k = (y, k')) :
    RbHeap.search data fuel (addr x) (above k) h
      = some ((pointer y, above k'), h) := by
  induction x generalizing k fuel with
  | nil =>
      obtain ⟨fuel, rfl⟩ := Nat.exists_eq_succ_of_ne_zero
        (Nat.ne_zero_of_lt hfuel)
      cases hd
      rfl
  | node c l e r ihl ihr =>
      obtain ⟨fuel, rfl⟩ := Nat.exists_eq_succ_of_ne_zero
        (Nat.ne_zero_of_lt hfuel)
      simp only [toList_node, List.length_append, List.length_cons]
        at hfuel
      rw [descend] at hd
      change RbHeap.search data (fuel + 1) e.1 (above k) h = _
      rw [hm.search_node]
      by_cases heq : nodeCompare h.compare (a, data) e = 0
      · rw [if_pos heq] at hd
        rw [if_pos (show h.compare data e.2 = 0 from heq)]
        cases hd
        rfl
      · rw [if_neg heq] at hd
        rw [if_neg (show ¬ h.compare data e.2 = 0 from heq)]
        by_cases hlt : nodeCompare h.compare (a, data) e < 0
        · rw [if_pos hlt] at hd
          rw [if_pos (show h.compare data e.2 < 0 from hlt)]
          exact ihl (k := ⟨.left, c, e, r⟩ :: k) fuel hm (by omega) hd
        · rw [if_neg hlt] at hd
          rw [if_neg (show ¬ h.compare data e.2 < 0 from hlt)]
          exact ihr (k := ⟨.right, c, e, l⟩ :: k) fuel hm (by omega) hd

-- ======== the hole

/-- Every datum of the tree is in its cell. -/
theorem cells_of_mem {t : RbNode (NodePtr × α)} (hm : Models h t)
    {d : NodePtr × α} (hd : d ∈ t.toList) :
    ∃ c, h.cells d.1 = some c ∧ c.data = some d.2 := by
  obtain ⟨c, l, r, k, rfl⟩ := exists_zip hd
  exact ⟨_, hm.cell, rfl⟩

/-- A free address is not in the tree. -/
theorem not_mem_of_none {t : RbNode (NodePtr × α)} (hm : Models h t)
    {a : NodePtr} (ha : h.cells a = none) : a ∉ addrs t := by
  intro hmem
  obtain ⟨d, hd, rfl⟩ := List.mem_map.mp hmem
  obtain ⟨c, hc, -⟩ := hm.cells_of_mem hd
  rw [ha] at hc
  cases hc

/-- A heap that has the same cells for the tree. -/
theorem congr {t : RbNode (NodePtr × α)} {h' : RbHeap α}
    (hm : Models h t) (hroot : h'.root = h.root)
    (heq : ∀ p, p = sentinel ∨ p ∈ addrs t → h'.cells p = h.cells p) :
    Models h' t := by
  refine ⟨hroot.trans hm.root, hm.links.congr fun p hp =>
    heq p (Or.inr hp), hm.nodup, ?_, hm.apart⟩
  rw [heq _ (Or.inl rfl)]
  exact hm.nil

/-- The subtree at a position is exchanged for another one: the link from
above is the only cell outside that changes. -/
theorem exchange {x' : RbNode (NodePtr × α)} {h' : RbHeap α}
    (hm : Models h (zip x k))
    (hlinks : Links h'.cells x' (above k))
    (hnd : (addrs x' ++ pathAddrs k).Nodup) (hap : sentinel ∉ addrs x')
    (hlast : ∀ f rest, k = f :: rest →
      h'.cells f.data.1 = some (f.cell (addr x') (above rest)))
    (heq : ∀ p, p = sentinel ∨ p ∈ pathAddrs k → above k ≠ some p →
      h'.cells p = h.cells p)
    (hroot : h'.root = if k = [] then addr x' else h.root) :
    Models h' (zip x' k) := by
  have hmem (p : NodePtr) : p ∈ addrs (zip x' k)
      ↔ p ∈ addrs x' ++ pathAddrs k := (addrs_zip x' k).mem_iff
  refine ⟨?_, ?_, (addrs_zip x' k).nodup_iff.mpr hnd, ?_, ?_⟩
  · rw [hroot]
    cases k with
    | nil => rfl
    | cons f k =>
        rw [if_neg (by simp), hm.root]
        exact addr_zip_cons f x x' k
  · rw [links_zip]
    refine ⟨hlinks, ((links_zip x k).mp hm.links).2.rehole
      (List.nodup_append.mp hnd).2.1 hlast fun p hp => heq p (Or.inr hp)⟩
  · rw [heq sentinel (Or.inl rfl)]
    · exact hm.nil
    · intro hab
      exact hm.apart_zip.2 (above_mem hab)
  · rw [hmem, List.mem_append, not_or]
    exact ⟨hap, hm.apart_zip.2⟩

/-- The link from above to a position is set to `a`. -/
def linked (h : RbHeap α) (a : NodePtr) :
    List (Frame (NodePtr × α)) → RbHeap α
  | [] => h.withRoot a
  | f :: rest => h.write f.data.1 (f.cell a (above rest))

theorem linked_same (h : RbHeap α) (a : NodePtr)
    (k : List (Frame (NodePtr × α))) :
    RbHeap.Same h (linked h a k) := by
  cases k with
  | nil => exact ⟨rfl, rfl, rfl⟩
  | cons f rest => exact RbHeap.same_write _ _

/-- The cell above has its link set. -/
theorem linked_last {a : NodePtr} {f : Frame (NodePtr × α)}
    {rest : List (Frame (NodePtr × α))} (hk : k = f :: rest) :
    (linked h a k).cells f.data.1 = some (f.cell a (above rest)) := by
  subst hk
  exact if_pos rfl

/-- Only the cell above is written. -/
theorem linked_cells {a p : NodePtr} (hp : above k ≠ some p) :
    (linked h a k).cells p = h.cells p := by
  cases k with
  | nil => rfl
  | cons f rest =>
      refine if_neg ?_
      rintro rfl
      exact hp rfl

/-- Without a cell above it is the root that is set. -/
theorem linked_root (h : RbHeap α) (a : NodePtr)
    (k : List (Frame (NodePtr × α))) :
    (linked h a k).root = if k = [] then a else h.root := by
  cases k with
  | nil => rfl
  | cons f rest => rfl

-- ======== insertion

/-- The cell of a new node. -/
def freshCell (par : Option NodePtr) (data : α) : RbCell α :=
  { left := sentinel, right := sentinel, parent := par, color := .red
    data := some data }

/-- The heap with a new node in the place of a sentinel. -/
def linkFresh (h : RbHeap α) (a : NodePtr) (data : α)
    (k : List (Frame (NodePtr × α))) : RbHeap α :=
  linked (h.write a (freshCell (above k) data)) a k

theorem linkFresh_same (h : RbHeap α) (a : NodePtr) (data : α)
    (k : List (Frame (NodePtr × α))) :
    RbHeap.Same h (linkFresh h a data k) :=
  (RbHeap.same_write _ _).trans (linked_same _ _ k)

theorem linkFresh_cells {a : NodePtr} {p : NodePtr} (data : α)
    (hpa : p ≠ a) (hp : above k ≠ some p) :
    (linkFresh h a data k).cells p = h.cells p := by
  rw [linkFresh, linked_cells hp, RbHeap.write_cells, if_neg hpa]

/-- The new node is in its place. -/
theorem linkFresh_models {a : NodePtr} (data : α)
    (hm : Models h (zip .nil k)) (ha : h.cells a = none) :
    Models (linkFresh h a data k)
      (zip (.node .red .nil (a, data) .nil) k) := by
  have has : a ≠ sentinel := by
    rintro rfl
    rw [hm.nil] at ha
    cases ha
  have hap : a ∉ pathAddrs k := fun hmem => hm.not_mem_of_none ha
    ((addrs_zip .nil k).mem_iff.mpr (List.mem_append_right _ hmem))
  refine hm.exchange ⟨?_, trivial, trivial⟩ ?_ ?_ (fun f rest hf =>
    linked_last hf) ?_ ?_
  · rw [linkFresh, linked_cells fun hab => hap (above_mem hab),
      RbHeap.write_cells, if_pos rfl]
    rfl
  · exact List.nodup_cons.mpr ⟨hap, hm.nodup_zip⟩
  · simpa [addrs] using has.symm
  · intro p hp hk
    refine linkFresh_cells data ?_ hk
    rintro rfl
    exact hp.elim has hap
  · exact linked_root _ _ k

/-- `rbtree_insertnode` up to `InsertFixup`. -/
theorem insertnode_link {t : RbNode (NodePtr × α)} {a : NodePtr}
    {data : α} (hm : Models h t)
    (hn : h.numElements = t.toList.length) (ha : h.cells a = none)
    (hd : descend (nodeCompare h.compare) (a, data) t [] = (.nil, k)) :
    RbHeap.rbtreeInsertnode a data h
      = ((RbHeap.insertFixup (h.numElements + 2) a >>= fun _ =>
          modifyThe (RbHeap α) (fun h =>
            { h with numElements := h.numElements + 1 }) >>= fun _ =>
          pure (some a)) : RbM α (Option NodePtr))
          (linkFresh h a data k) := by
  have hz := descend_zip (nodeCompare h.compare) (a, data) t []
  rw [hd] at hz
  have hm' : Models h (zip .nil k) := by
    rw [hz]
    exact hm
  have hrun := search (k := []) (h.numElements + 1) hm (by omega) hd
  rw [← hm.root] at hrun
  change RbHeap.search data _ _ none h = _ at hrun
  unfold RbHeap.rbtreeInsertnode
  simp only [RbHeap.bind_run, RbHeap.get_run, Option.bind_some, hrun,
    pointer]
  cases k with
  | nil => rfl
  | cons f rest =>
      have hcell := hm'.read_last
      have haf : f.data.1 ≠ a := by
        rintro rfl
        rw [ha] at hcell
        cases hcell
      have hside := descend_side hd (by simp) f rest rfl
      change h.compare data f.data.2 ≤ 0 ↔ _ at hside
      have hset (h' : RbHeap α) :
          (set h' : RbM α PUnit) h = some (⟨⟩, h') := rfl
      have habove : above (f :: rest) = some f.data.1 := rfl
      simp only [hset, Option.bind_some, habove, RbHeap.bind_run,
        RbHeap.read_run, RbHeap.write_cells, if_neg haf, hcell,
        Option.map_some, Frame.cell_data, RbHeap.ite_run,
        RbHeap.setChild_run]
      by_cases hle : h.compare data f.data.2 ≤ 0
      · rw [if_pos hle, ← hside.mp hle, Frame.cell_setChild]
        rfl
      · have hs : f.side = .right :=
          Side.eq_other fun hs => hle (hside.mpr hs)
        rw [if_neg hle, ← hs, Frame.cell_setChild]
        rfl

end Models

/-- What every operation keeps: the cells are those of a tree with a black
root, and their number is right. -/
structure Holds (h : RbHeap α) (t : RbNode (NodePtr × α)) : Prop where
  models : Models h t
  black : t.color = .black
  count : h.numElements = t.toList.length
  only : ∀ p c, h.cells p = some c → p = sentinel ∨ p ∈ addrs t

/-- The same order and the same way with equal data. -/
structure Tuned (h h' : RbHeap α) : Prop where
  compare : h'.compare = h.compare
  replaceFlag : h'.replaceFlag = h.replaceFlag

namespace Holds

variable {h : RbHeap α} {t : RbNode (NodePtr × α)}
  {k : List (Frame (NodePtr × α))}

/-- A run that moves no node. -/
theorem of_moves {h' : RbHeap α} {t' : RbNode (NodePtr × α)}
    (hh : Holds h t) (hmv : Moves h t h' t') (hb : t'.color = .black) :
    Holds h' t' := by
  refine ⟨hmv.models, hb, ?_, fun p c hc => ?_⟩
  · have hlen := congrArg List.length hmv.addrs
    simp only [addrs, List.length_map] at hlen
    rw [hmv.same.numElements, hh.count, hlen]
  · rw [hmv.addrs]
    by_cases hp : p ∈ addrs t
    · exact Or.inr hp
    · rw [hmv.out p hp] at hc
      exact hh.only p c hc

/-- `rbtree_insertnode` of a new datum. -/
theorem insertnode_fresh {a : NodePtr} {data : α} (hh : Holds h t)
    (ha : h.cells a = none)
    (hd : descend (nodeCompare h.compare) (a, data) t [] = (.nil, k)) :
    ∃ h' t', RbHeap.rbtreeInsertnode a data h = some (some a, h')
      ∧ Holds h' t' ∧ t'.toList = listL k ++ (a, data) :: listR k
      ∧ Tuned h h' := by
  have hz : zip .nil k = t := by
    have hz := descend_zip (nodeCompare h.compare) (a, data) t []
    rw [hd] at hz
    exact hz
  subst hz
  obtain ⟨t', ht'⟩ := insertFixup_isSome
    (x := .node .red .nil (a, data) .nil)
    ((zip_black_iff _ k).mp hh.black).1
  have hlist := insertFixup_toList ht'
  have hm₁ := Models.linkFresh_models data hh.models ha
  have hsame := Models.linkFresh_same h a data k
  have hlen := length_zip .nil k
  rw [← hh.count, toList_nil, List.length_nil, Nat.zero_add] at hlen
  obtain ⟨h₂, hrun₂, hm₂⟩ := hm₁.insertFixup (h.numElements + 2)
    (by simp) ht' (by omega)
  refine ⟨{ h₂ with numElements := h₂.numElements + 1 }, t', ?_, ?_, ?_,
    ?_⟩
  · rw [hh.models.insertnode_link hh.count ha hd, RbHeap.bind_run]
    change Option.bind (RbHeap.insertFixup _ (addr (.node .red .nil
      (a, data) .nil)) _) _ = _
    rw [hrun₂]
    rfl
  · refine ⟨hm₂.models.congr rfl fun p _ => rfl, insertFixup_black ht',
      ?_, ?_⟩
    · have hcount := hh.count
      rw [zip_toList, toList_nil, List.append_nil] at hcount
      simp only [hm₂.same.numElements, hsame.numElements, hcount, hlist,
        toList_node, toList_nil, List.nil_append, List.length_append,
        List.length_cons, List.length_nil]
      omega
    · intro p c hc
      rw [hm₂.addrs]
      by_cases hp : p ∈ addrs (zip (.node .red .nil (a, data) .nil) k)
      · exact Or.inr hp
      · change h₂.cells p = some c at hc
        rw [hm₂.out p hp] at hc
        rw [(addrs_zip _ k).mem_iff, List.mem_append, not_or] at hp
        have hpa : p ≠ a := by
          rintro rfl
          exact hp.1 List.mem_cons_self
        rw [Models.linkFresh_cells data hpa
          (fun hab => hp.2 (Models.above_mem hab))] at hc
        have hold := hh.only p c hc
        rw [(addrs_zip _ k).mem_iff] at hold
        exact Or.inl (hold.resolve_right hp.2)
  · rw [hlist]
    simp
  · exact ⟨hm₂.same.compare.trans hsame.compare,
      hm₂.same.replaceFlag.trans hsame.replaceFlag⟩

/-- `rbtree_insertnode` of a datum that compares equal. -/
theorem insertnode_found {a : NodePtr} {data : α} {c : NodeColor}
    {l r : RbNode (NodePtr × α)} {e : NodePtr × α} (hh : Holds h t)
    (hd : descend (nodeCompare h.compare) (a, data) t []
      = (.node c l e r, k)) :
    (h.replaceFlag = false →
      RbHeap.rbtreeInsertnode a data h = some (none, h))
    ∧ (h.replaceFlag = true →
      ∃ h', RbHeap.rbtreeInsertnode a data h = some (some e.1, h')
        ∧ Holds h' (zip (.node c l (e.1, data) r) k)
        ∧ Tuned h h') := by
  have hz : zip (.node c l e r) k = t := by
    have hz := descend_zip (nodeCompare h.compare) (a, data) t []
    rw [hd] at hz
    exact hz
  have hrun := Models.search (k := []) (h.numElements + 1) hh.models
    (by rw [hh.count]; omega) hd
  rw [← hh.models.root] at hrun
  change RbHeap.search data _ _ none h = some ((some e.1, _), h) at hrun
  subst hz
  unfold RbHeap.rbtreeInsertnode
  simp only [RbHeap.bind_run, RbHeap.get_run, Option.bind_some, hrun]
  constructor
  · intro hrep
    rw [hrep]
    rfl
  · intro hrep
    refine ⟨_, ?_, hh.of_moves (hh.models.write_node c data) ?_,
      ⟨rfl, rfl⟩⟩
    · rw [hrep, if_pos rfl, RbHeap.bind_run, RbHeap.setData_run,
        show h.cells e.1 = _ from hh.models.cell]
      rfl
    · have hb := (zip_black_iff _ k).mp hh.black
      exact (zip_black_iff _ k).mpr hb

end Holds

-- ======== deletion

namespace Models

variable {h : RbHeap α} {x y : RbNode (NodePtr × α)}
  {k : List (Frame (NodePtr × α))}

/-- `while (Y->Left != tree->Sentinel) Y = Y->Left`. -/
theorem leftmost (fuel : Nat) {down : List (Frame (NodePtr × α))}
    (hm : Models h (zip x k)) (hx : x ≠ .nil)
    (hfuel : x.toList.length ≤ fuel) :
    RbHeap.leftmost fuel (addr x) h
      = some (addr (WinRadius.leftmost x down).1, h) := by
  fun_induction WinRadius.leftmost x down generalizing k fuel with
  | case1 c c' l' d' r' d r down ih =>
      simp only [toList_node, List.length_append, List.length_cons]
        at hfuel
      obtain ⟨fuel, rfl⟩ := Nat.exists_eq_succ_of_ne_zero
        (show fuel ≠ 0 by omega)
      have hl := ih (k := ⟨.left, c, d, r⟩ :: k) fuel hm (by simp) (by
          simp only [toList_node, List.length_append, List.length_cons]
          omega)
      have hne : d'.1 ≠ sentinel := addr_ne (x := .node c' l' d' r')
        (k := ⟨.left, c, d, r⟩ :: k) hm (by simp)
      simp only [RbHeap.leftmost, RbHeap.bind_run, hm.child_at,
        Option.bind_some, RbNode.child]
      rw [if_pos (show addr (.node c' l' d' r') ≠ sentinel from hne)]
      exact hl
  | case2 x down hleaf =>
      obtain ⟨c, l, d, r, rfl⟩ : ∃ c l d r, x = .node c l d r := by
        cases x with
        | nil => exact absurd rfl hx
        | node c l d r => exact ⟨c, l, d, r, rfl⟩
      obtain rfl : l = .nil := by
        cases l with
        | nil => rfl
        | node c' l' d' r' => exact absurd rfl (hleaf c c' l' d' r' d r)
      obtain ⟨fuel, rfl⟩ := Nat.exists_eq_succ_of_ne_zero
        (show fuel ≠ 0 by
          simp only [toList_node, List.length_append, List.length_cons]
            at hfuel
          omega)
      simp only [RbHeap.leftmost, RbHeap.bind_run, hm.child_at,
        Option.bind_some]
      rfl

/-- `relink` finds the side that the node was at. -/
theorem relink_run (s : Side) {h₁ : RbHeap α} (hm : Models h (zip y k))
    (hy : y ≠ .nil) (a : NodePtr)
    (heq : ∀ p, above k = some p → h₁.cells p = h.cells p) :
    RbHeap.relink s (above k) (addr y) a h₁
      = some ((), linked h₁ a k) := by
  cases k with
  | nil => rfl
  | cons f rest =>
      have hcell := (heq f.data.1 rfl).trans hm.read_last
      change RbHeap.relink s (some f.data.1) (addr y) a h₁ = _
      rw [RbHeap.relink_some, hcell, Option.map_some,
        relinked_cell s _ (hm.sibling_ne hy)]
      rfl

/-- A subtree gets another parent. -/
theorem setParent {f : Frame (NodePtr × α)}
    (hm : Models h (zip x (f :: k))) (par : Option NodePtr) :
    ∃ h', (if addr x ≠ sentinel then RbHeap.setParent (addr x) par
        else pure () : RbM α Unit) h = some ((), h')
      ∧ Links h'.cells x par
      ∧ (∀ p, p ∉ addrs x → h'.cells p = h.cells p)
      ∧ h'.root = h.root ∧ RbHeap.Same h h' := by
  have hlinks := ((links_zip _ _).mp hm.links).1
  have hnd := (List.nodup_append.mp hm.nodup_zip).1
  by_cases hx : x = .nil
  · subst hx
    exact ⟨h, rfl, trivial, fun _ _ => rfl, rfl, RbHeap.Same.refl⟩
  · refine ⟨h.write (addr x) ((cellOf x (above (f :: k))).withParent
      par), ?_, ?_, ?_, rfl, RbHeap.same_write _ _⟩
    · rw [if_pos (hm.addr_ne hx), RbHeap.setParent_run, hm.cell]
      rfl
    · refine hlinks.reparent hnd (fun _ => ?_) fun p _ hp => ?_
      · rw [RbHeap.write_cells, if_pos rfl, hm.cell]
        rfl
      · rw [RbHeap.write_cells, if_neg hp]
    · intro p hp
      rw [RbHeap.write_cells, if_neg]
      rintro rfl
      exact hp (addr_mem hx)

/-- `Y` is taken out of the tree, its only child linked to its parent; the
cell of `Y` is left as it is. -/
theorem splice {c : NodeColor} {l r : RbNode (NodePtr × α)}
    {d : NodePtr × α} (hm : Models h (zip (.node c l d r) k))
    (hone : l = .nil ∨ r = .nil) :
    ∃ h', RbHeap.splice (addr (onlyChild (.node c l d r))) d.1 (above k)
        h = some ((), h')
      ∧ Models h' (zip (onlyChild (.node c l d r)) k)
      ∧ (∀ p, p ∉ addrs (zip (onlyChild (.node c l d r)) k) →
        h'.cells p = h.cells p)
      ∧ RbHeap.Same h h' := by
  obtain ⟨x, hxdef⟩ : ∃ x, x = onlyChild (.node c l d r) := ⟨_, rfl⟩
  have hlist := onlyChild_toList (c := c) (d := d) hone
  rw [← hxdef] at hlist ⊢
  -- the place of the only child below `Y`
  obtain ⟨f, hf⟩ : ∃ f : Frame (NodePtr × α),
      f.plug x = .node c l d r := by
    cases l with
    | nil => exact ⟨⟨.right, c, d, .nil⟩, by rw [hxdef]; rfl⟩
    | node lc ll ld lr =>
        exact ⟨⟨.left, c, d, r⟩, by rw [hxdef]; rfl⟩
  have hsub : (addrs x ++ pathAddrs k).Sublist
      (addrs (.node c l d r) ++ pathAddrs k) := by
    refine List.Sublist.append ?_ (List.Sublist.refl _)
    unfold addrs
    rw [hlist, toList_node]
    exact ((List.sublist_cons_self d _).append_left _).map _
  have hnd := hm.nodup_zip.sublist hsub
  have hdisj := (List.nodup_append.mp hnd).2.2
  obtain ⟨h₁, hrun₁, hl₁, hout₁, hroot₁, hsame₁⟩ := setParent (x := x)
    (f := f) (k := k) (by rw [zip, hf]; exact hm) (above k)
  have hpath {p : NodePtr} (hp : p ∈ pathAddrs k) : p ∉ addrs x :=
    fun hpx => hdisj p hpx p hp rfl
  have hap : sentinel ∉ addrs x := fun hs => hm.apart
    ((addrs_zip _ k).mem_iff.mpr (hsub.subset
      (List.mem_append_left _ hs)))
  have hrun₂ := relink_run .left hm (by simp) (addr x) fun p hp =>
    hout₁ p (hpath (above_mem hp))
  refine ⟨linked h₁ (addr x) k, (RbHeap.guarded_run hrun₁).trans hrun₂,
    ?_, ?_, hsame₁.trans (linked_same h₁ _ k)⟩
  · refine hm.exchange ?_ hnd hap (fun f rest hf => linked_last hf) ?_ ?_
    · refine hl₁.congr fun p hp => linked_cells fun hab => ?_
      exact hpath (above_mem hab) hp
    · intro p hp hab
      rw [linked_cells hab, hout₁ p]
      rcases hp with rfl | hp
      · exact hap
      · exact hpath hp
    · rw [linked_root, hroot₁]
  · intro p hp
    rw [(addrs_zip _ _).mem_iff, List.mem_append, not_or] at hp
    rw [linked_cells fun hab => hp.2 (above_mem hab), hout₁ p hp.1]

/-- The sentinel stands for the empty tree alone. -/
theorem addr_eq_sentinel (hm : Models h (zip x k)) :
    addr x = sentinel ↔ x = .nil := by
  constructor
  · intro hs
    by_contra hx
    exact hm.addr_ne hx hs
  · rintro rfl
    rfl

theorem child_eq_sentinel (hm : Models h (zip x k)) (s : Side) :
    addr (x.child s) = sentinel ↔ x.child s = .nil := by
  constructor
  · intro hs
    by_contra hx
    exact hm.addr_ne_child hx hs
  · intro hx
    rw [hx]
    rfl

/-- "X is Y's only child". -/
theorem onlyChild_run (hm : Models h (zip x k)) :
    RbHeap.onlyChild (addr x) h = some (addr (onlyChild x), h) := by
  unfold RbHeap.onlyChild
  simp only [RbHeap.bind_run, hm.child_at, Option.bind_some,
    RbHeap.ite_run]
  have hiff := hm.child_eq_sentinel .left
  unfold onlyChild
  cases hl : x.child .left with
  | nil => rfl
  | node c l d r =>
      rw [hl] at hiff
      rw [if_pos (by simp [hiff])]

/-- The fix-up, if the node taken out was black and has a child. -/
theorem fixupBelow {a : NodePtr} {cy : RbCell α}
    (hm : Models h (zip (WinRadius.onlyChild y) k))
    (hc : h.cells a = some cy) (hcol : cy.color = y.color)
    (hfuel : k.length ≤ h.numElements) :
    ∃ h', RbHeap.fixupBelow a (addr (WinRadius.onlyChild y)) (above k) h
        = some ((), h')
      ∧ Moves h (zip (WinRadius.onlyChild y) k) h'
        (unlink y k) := by
  unfold RbHeap.fixupBelow
  simp only [RbHeap.bind_run, RbHeap.get_run, RbHeap.color_run, hc,
    Option.map_some, Option.bind_some, hcol, RbHeap.ite_run]
  have hiff := hm.addr_eq_sentinel
  unfold unlink
  cases hx : WinRadius.onlyChild y with
  | nil =>
      rw [if_neg (by simp [addr])]
      refine ⟨h, rfl, ?_⟩
      rw [hx] at hm
      split
      · next hy => cases hy
      · exact Moves.refl hm
  | node xc xl xd xr =>
      rw [hx] at hm hiff
      cases hy : y.color with
      | red =>
          rw [if_neg (by simp)]
          exact ⟨h, rfl, Moves.refl hm⟩
      | black =>
          rw [if_pos ⟨rfl, by simp [hiff]⟩]
          exact hm.deleteFixup _ (by simp) (by omega)

/-- A node with a sentinel below it is its own `Y`. -/
theorem successor_one {c : NodeColor} {l r : RbNode (NodePtr × α)}
    {d : NodePtr × α} (hm : Models h (zip (.node c l d r) k))
    (hone : l = .nil ∨ r = .nil) :
    RbHeap.successor d.1 h = some (d.1, h) := by
  have hchild (s : Side) : RbHeap.child s d.1 h = _ := hm.child_at s
  unfold RbHeap.successor
  simp only [RbHeap.bind_run, RbHeap.get_run, Option.bind_some, hchild,
    RbHeap.ite_run]
  rw [if_pos (hone.imp (hm.child_eq_sentinel .left).mpr
    (hm.child_eq_sentinel .right).mpr)]
  rfl

/-- With two children it is the leftmost node on the right. -/
theorem successor_two {c : NodeColor} {l r : RbNode (NodePtr × α)}
    {d : NodePtr × α} (hm : Models h (zip (.node c l d r) k))
    (hl : l ≠ .nil) (hr : r ≠ .nil)
    (hn : r.toList.length ≤ h.numElements) :
    RbHeap.successor d.1 h
      = some (addr (WinRadius.leftmost r []).1, h) := by
  have hchild (s : Side) : RbHeap.child s d.1 h = _ := hm.child_at s
  unfold RbHeap.successor
  simp only [RbHeap.bind_run, RbHeap.get_run, Option.bind_some, hchild,
    RbHeap.ite_run]
  rw [if_neg (not_or.mpr ⟨mt (hm.child_eq_sentinel .left).mp hl,
    mt (hm.child_eq_sentinel .right).mp hr⟩)]
  exact leftmost (k := ⟨.right, c, d, l⟩ :: k) _ hm hr
    (Nat.le_succ_of_le hn)

/-- A cell outside the tree is given back. -/
theorem free {t : RbNode (NodePtr × α)} (hm : Models h t) {a : NodePtr}
    {ca : RbCell α} (hc : h.cells a = some ca) (ha : a ∉ addrs t)
    (has : a ≠ sentinel) :
    ∃ h', RbHeap.free a h = some ((), h') ∧ Models h' t
      ∧ (∀ p, h'.cells p = if p = a then none else h.cells p)
      ∧ RbHeap.Same h h' := by
  refine ⟨{ h with cells := fun q => if q = a then none else h.cells q },
    ?_, hm.congr rfl ?_, fun p => rfl, ⟨rfl, rfl, rfl⟩⟩
  · unfold RbHeap.free
    rw [hc]
    rfl
  · intro p hp
    refine if_neg ?_
    rintro rfl
    exact hp.elim has ha

/-- The cell above had `z` on the side of the frame only. -/
theorem replaceLink_some {f : Frame (NodePtr × α)} {z : NodePtr}
    {par : Option NodePtr} (hc : h.cells f.data.1 = some (f.cell z par))
    (hs : addr f.sibling ≠ z) (a : NodePtr) :
    RbHeap.replaceLink a z (some f.data.1) h
      = some ((), h.write f.data.1 (f.cell a par)) := by
  unfold RbHeap.replaceLink
  simp only [RbHeap.bind_run, RbHeap.child_run, hc, Option.map_some,
    Option.bind_some, RbHeap.ite_run]
  unfold Frame.cell
  cases hside : f.side with
  | left =>
      simp [RbCell.ofSides, RbCell.child, RbCell.setChild, hs, hc,
        Frame.cell, hside]
  | right =>
      simp [RbCell.ofSides, RbCell.child, RbCell.setChild, hs, hc,
        Frame.cell, hside]

/-- The link to `y` is set to `a`, at the root too. -/
theorem replaceLink_run {h₁ : RbHeap α} (hm : Models h (zip y k))
    (hy : y ≠ .nil) (a : NodePtr)
    (heq : ∀ p, above k = some p → h₁.cells p = h.cells p) :
    RbHeap.replaceLink a (addr y) (above k) h₁
      = some ((), linked h₁ a k) := by
  cases k with
  | nil => rfl
  | cons f rest =>
      have hcell := (heq f.data.1 rfl).trans hm.read_last
      exact replaceLink_some hcell (hm.sibling_ne hy) a

/-- The child of a node that moves. -/
theorem reparent {z a : NodePtr} (hl : Links h.cells x (some z))
    (hnd : (addrs x).Nodup) (hap : sentinel ∉ addrs x)
    (hnil : h.cells sentinel = some .nil) :
    ∃ h', RbHeap.reparent (addr x) a z h = some ((), h')
      ∧ Links h'.cells x (some a)
      ∧ (∀ p, p ∉ addrs x → h'.cells p = h.cells p)
      ∧ h'.root = h.root ∧ RbHeap.Same h h' := by
  cases x with
  | nil =>
      refine ⟨h, ?_, trivial, fun _ _ => rfl, rfl, RbHeap.Same.refl⟩
      unfold RbHeap.reparent
      simp only [RbHeap.bind_run, RbHeap.read_run, addr, hnil]
      rfl
  | node c l d r =>
      have hcell := hl.1
      refine ⟨h.write d.1 ⟨addr l, addr r, some a, c, some d.2⟩, ?_,
        hl.reparent hnd (fun _ => ?_) fun p _ hp => ?_, fun p hp => ?_,
        rfl, RbHeap.same_write _ _⟩
      · unfold RbHeap.reparent
        simp only [RbHeap.bind_run, RbHeap.read_run, addr, hcell,
          Option.map_some, Option.bind_some, if_true,
          RbHeap.setParent_run]
        rfl
      · change (if d.1 = d.1 then _ else _) = (h.cells d.1).map _
        rw [if_pos rfl, hcell]
        rfl
      · exact if_neg hp
      · rw [RbHeap.write_cells, if_neg]
        rintro rfl
        exact hp (addr_mem (t := .node c l d r) (by simp))

/-- The cell of `Z` moves to `Y`. -/
theorem takePlace {c : NodeColor} {l r : RbNode (NodePtr × α)}
    {d : NodePtr × α} {a : NodePtr} {ca : RbCell α}
    (hm : Models h (zip (.node c l d r) k))
    (hc : h.cells a = some ca) (ha : a ∉ addrs (zip (.node c l d r) k))
    (has : a ≠ sentinel) :
    ∃ h', RbHeap.takePlace a d.1 h = some ((), h')
      ∧ Models h' (zip (.node c l (a, d.2) r) k)
      ∧ (∀ p, p ≠ a → p ∉ addrs (zip (.node c l (a, d.2) r) k) →
        h'.cells p = h.cells p)
      ∧ RbHeap.Same h h' := by
  obtain ⟨⟨hz, hl, hr⟩, hpath⟩ := (links_zip _ k).mp hm.links
  have hperm := (addrs_node c l d r).append_right (pathAddrs k)
  have hnd := hperm.nodup_iff.mp hm.nodup_zip
  have hap := fun hs => hm.apart ((addrs_zip _ k).mem_iff.mpr
    (hperm.mem_iff.mpr hs))
  rw [(addrs_zip _ k).mem_iff] at ha
  replace ha := fun hs => ha (hperm.mem_iff.mpr hs)
  simp only [List.cons_append, List.append_assoc, List.mem_cons,
    List.mem_append, List.nodup_cons, List.nodup_append, imp_false,
    not_or] at hnd hap ha
  obtain ⟨⟨hzl, hzr, hzp⟩, hnl, ⟨hnr, hnp, hrp⟩, hlo⟩ := hnd
  obtain ⟨hsz, hsl, hsr, hsp⟩ := hap
  obtain ⟨haz, hal, har, hap⟩ := ha
  -- the copy
  obtain ⟨h₁, hh₁⟩ : ∃ h₁, h₁ = h.write a
    ⟨addr l, addr r, above k, c, some d.2⟩ := ⟨_, rfl⟩
  have hcells₁ (p : NodePtr) (hp : p ≠ a) : h₁.cells p = h.cells p := by
    rw [hh₁, RbHeap.write_cells, if_neg hp]
  -- the link from above
  obtain ⟨h₂, hh₂⟩ : ∃ h₂, h₂ = linked h₁ a k := ⟨_, rfl⟩
  have hrun₂ : RbHeap.replaceLink a d.1 (above k) h₁ = some ((), h₂) := by
    rw [hh₂]
    refine replaceLink_run hm (by simp) a fun p hp => hcells₁ p ?_
    rintro rfl
    exact hap (above_mem hp)
  have hout₂ (p : NodePtr) (hp : above k ≠ some p) :
      h₂.cells p = h₁.cells p := hh₂ ▸ linked_cells hp
  -- the links from below
  have hlow {x : RbNode (NodePtr × α)} (hx : Links h.cells x (some d.1))
      (hax : a ∉ addrs x)
      (hxp : ∀ q ∈ addrs x, q ∉ pathAddrs k) :
      Links h₂.cells x (some d.1) := by
    refine hx.congr fun p hp => ?_
    have hpa : p ≠ a := by
      rintro rfl
      exact hax hp
    rw [hout₂ p fun hab => hxp p hp (above_mem hab), hcells₁ p hpa]
  have hnil₂ : h₂.cells sentinel = some .nil := by
    rw [hout₂ _ fun hab => hsp (above_mem hab), hcells₁ _ has.symm]
    exact hm.nil
  obtain ⟨h₃, hrun₃, hl₃, hout₃, hroot₃, hsame₃⟩ := reparent (a := a)
    (hlow hl hal fun q hq hqp => hlo q hq q (Or.inr hqp) rfl) hnl hsl
    hnil₂
  obtain ⟨h₄, hrun₄, hr₄, hout₄, hroot₄, hsame₄⟩ := reparent (a := a)
    ((hlow hr har fun q hq hqp => hrp q hq q hqp rfl).congr fun q hq =>
      hout₃ q fun hql => hlo q hql q (Or.inl hq) rfl) hnr hsr
    ((hout₃ _ hsl).trans hnil₂)
  have hrest (p : NodePtr) (hpl : p ∉ addrs l) (hpr : p ∉ addrs r) :
      h₄.cells p = h₂.cells p := (hout₄ p hpr).trans (hout₃ p hpl)
  have ha₂ : h₂.cells a = some ⟨addr l, addr r, above k, c,
      some d.2⟩ := by
    rw [hout₂ a fun hab => hap (above_mem hab), hh₁, RbHeap.write_cells,
      if_pos rfl]
  refine ⟨h₄, ?_, hm.exchange ⟨?_, ?_, hr₄⟩ ?_ ?_ ?_ ?_ ?_, ?_, ?_⟩
  · have hchild {h' : RbHeap α} (s : Side) (hc : h'.cells a = some
        ⟨addr l, addr r, above k, c, some d.2⟩) :
        RbHeap.child s a h' = some (addr (RbNode.child s
          (.node c l d r)), h') := by
      rw [RbHeap.child_run, hc]
      cases s with
      | left => rfl
      | right => rfl
    unfold RbHeap.takePlace
    simp only [RbHeap.bind_run, RbHeap.read_run, hz, Option.map_some,
      Option.bind_some, RbHeap.modify_run, hc, ← hh₁]
    rw [hrun₂, Option.bind_some, hchild .left ha₂, Option.bind_some,
      show RbHeap.reparent (addr (RbNode.child .left (.node c l d r)))
        a d.1 h₂ = _ from hrun₃, Option.bind_some,
      hchild .right ((hout₃ a hal).trans ha₂), Option.bind_some]
    exact hrun₄
  · rw [hrest a hal har]
    exact ha₂
  · exact hl₃.congr fun p hp => hout₄ p fun hpr =>
      hlo p hp p (Or.inl hpr) rfl
  · refine ((addrs_node c l (a, d.2) r).append_right
      (pathAddrs k)).nodup_iff.mpr ?_
    simp only [List.cons_append, List.append_assoc, List.nodup_cons,
      List.nodup_append, List.mem_append, not_or]
    exact ⟨⟨hal, har, hap⟩, hnl, ⟨hnr, hnp, hrp⟩, hlo⟩
  · rw [(addrs_node c l (a, d.2) r).mem_iff]
    simp only [List.mem_cons, List.mem_append, not_or]
    exact ⟨has.symm, hsl, hsr⟩
  · rintro f rest rfl
    rw [hrest _ (fun hq => hlo _ hq _ (Or.inr (above_mem rfl)) rfl)
      fun hq => hrp _ hq _ (above_mem rfl) rfl]
    rw [hh₂]
    exact linked_last rfl
  · intro p hp hab
    rcases hp with rfl | hp
    · rw [hrest _ hsl hsr, hnil₂, hm.nil]
    · have hpa : p ≠ a := by
        rintro rfl
        exact hap hp
      rw [hrest p (fun hq => hlo p hq p (Or.inr hp) rfl)
        fun hq => hrp p hq p hp rfl, hout₂ p hab, hcells₁ p hpa]
  · rw [hroot₄, hroot₃, hh₂, linked_root, hh₁]
    rfl
  · intro p hpa hp
    rw [(addrs_zip _ k).mem_iff, List.mem_append, not_or] at hp
    obtain ⟨hp, hpp⟩ := hp
    rw [(addrs_node c l (a, d.2) r).mem_iff] at hp
    simp only [List.mem_cons, List.mem_append, not_or] at hp
    rw [hrest p hp.2.1 hp.2.2, hout₂ p fun hab => hpp (above_mem hab),
      hcells₁ p hpa]
  · rw [hh₂, hh₁] at hsame₃
    exact (((RbHeap.same_write _ _).trans (linked_same _ _ k)).trans
      hsame₃).trans hsame₄

end Models

/-- The addresses of a tree, from a node of it. -/
theorem addrs_zip_node (c : NodeColor) (l r : RbNode (NodePtr × α))
    (d : NodePtr × α) (k : List (Frame (NodePtr × α))) :
    (addrs (zip (.node c l d r) k)).Perm
      (d.1 :: (addrs l ++ addrs r ++ pathAddrs k)) :=
  (addrs_zip _ k).trans ((addrs_node c l d r).append_right _)

/-- What leaves the tree with `Y` is its address. -/
theorem addrs_onlyChild {c : NodeColor} {l r : RbNode (NodePtr × α)}
    {d : NodePtr × α} {k : List (Frame (NodePtr × α))}
    (hone : l = .nil ∨ r = .nil) :
    (addrs (zip (.node c l d r) k)).Perm
      (d.1 :: addrs (zip (onlyChild (.node c l d r)) k)) := by
  refine (addrs_zip _ k).trans (.trans ?_
    ((addrs_zip _ k).symm.cons d.1))
  rw [← List.cons_append]
  refine List.Perm.append_right _ ?_
  simp only [addrs, onlyChild_toList hone, toList_node, ← List.map_cons]
  exact List.perm_middle.map _

/-- A node whose address no other node has is at one place in the order. -/
theorem place_unique {c : NodeColor} {l r : RbNode (NodePtr × α)}
    {d : NodePtr × α} {k : List (Frame (NodePtr × α))}
    {as bs : List (NodePtr × α)}
    (hd : d.1 ∉ addrs l ++ addrs r ++ pathAddrs k)
    (heq : (zip (.node c l d r) k).toList = as ++ d :: bs) :
    listL k ++ l.toList = as ∧ r.toList ++ listR k = bs := by
  unfold addrs pathAddrs at hd
  have hsplit : listL k ++ l.toList = as ∧ d = d
      ∧ r.toList ++ listR k = bs := by
    refine (List.append_cons_inj_of_notMem ?_ ?_).mp ?_
    · intro hmem
      refine hd ?_
      rcases List.mem_append.mp hmem with hmem | hmem
      · exact List.mem_append_right _ (List.mem_map_of_mem
          (List.mem_append_left _ hmem))
      · exact List.mem_append_left _ (List.mem_append_left _
          (List.mem_map_of_mem hmem))
    · intro hmem
      refine hd ?_
      rcases List.mem_append.mp hmem with hmem | hmem
      · exact List.mem_append_left _ (List.mem_append_right _
          (List.mem_map_of_mem hmem))
      · exact List.mem_append_right _ (List.mem_map_of_mem
          (List.mem_append_right _ hmem))
    · rw [← heq, zip_toList, toList_node]
      simp
  exact ⟨hsplit.1, hsplit.2.2⟩

/-- `Z->Data = Y->Data; Y->Data = NULL` for a `Y` that has left the tree:
the datum is in the tree at `Z`, and `Y` keeps its links and color. -/
theorem Models.moveDatum {h : RbHeap α} {c : NodeColor}
    {l r : RbNode (NodePtr × α)} {d : NodePtr × α}
    {k : List (Frame (NodePtr × α))} {a : NodePtr} {ca : RbCell α}
    (hm : Models h (zip (.node c l d r) k)) (hc : h.cells a = some ca)
    (ha : a ∉ addrs (zip (.node c l d r) k)) (has : a ≠ sentinel)
    (v : α) :
    ∃ h₁ h₂, RbHeap.setData d.1 (some v) h = some ((), h₁)
      ∧ RbHeap.setData a none h₁ = some ((), h₂)
      ∧ Models h₂ (zip (.node c l (d.1, v) r) k)
      ∧ addrs (zip (.node c l (d.1, v) r) k)
        = addrs (zip (.node c l d r) k)
      ∧ h₂.cells a = some (ca.withData none)
      ∧ (∀ p, p ≠ a → p ∉ addrs (zip (.node c l d r) k) →
        h₂.cells p = h.cells p)
      ∧ RbHeap.Same h h₂ := by
  have hw := hm.write_node c v
  have hc₁ := (hw.out a ha).trans hc
  refine ⟨_, _, ?_, by rw [RbHeap.setData_run, hc₁]; rfl,
    hw.models.congr (by rw [RbHeap.write_root]) fun p hp => ?_, hw.addrs,
    by rw [RbHeap.write_cells, if_pos rfl], fun p hpa hp => ?_,
    hw.same.trans (RbHeap.same_write _ _)⟩
  · rw [RbHeap.setData_run, show h.cells d.1 = _ from hm.cell]
    rfl
  · rw [RbHeap.write_cells, if_neg]
    rintro rfl
    rw [hw.addrs] at hp
    exact hp.elim has ha
  · rw [RbHeap.write_cells, if_neg hpa, hw.out p hp]

namespace Holds

variable {h : RbHeap α} {k : List (Frame (NodePtr × α))}

/-- `rbtree_delete` of a node with one child at most. -/
theorem deleteNode_one {c : NodeColor} {l r : RbNode (NodePtr × α)}
    {d : NodePtr × α} (hh : Holds h (zip (.node c l d r) k))
    (hone : l = .nil ∨ r = .nil) :
    ∃ h', RbHeap.deleteNode d.1 h = some ((), h')
      ∧ Holds h' (unlink (.node c l d r) k) ∧ Tuned h h' := by
  have hm := hh.models
  have hlen := length_zip (.node c l d r) k
  rw [← hh.count] at hlen
  have hperm := addrs_onlyChild (c := c) (d := d) (k := k) hone
  have hd := (List.nodup_cons.mp (hperm.nodup_iff.mp hm.nodup)).1
  obtain ⟨h₁, hrun₁, hm₁, hout₁, hsame₁⟩ := hm.splice hone
  have hcell₁ := (hout₁ d.1 hd).trans hm.cell
  obtain ⟨h₂, hrun₂, hm₂⟩ := hm₁.fixupBelow (y := .node c l d r) hcell₁
    (by simp) (by rw [hsame₁.numElements]; omega)
  have hd₂ : d.1 ∉ addrs (unlink (.node c l d r) k) := by
    rw [hm₂.addrs]
    exact hd
  obtain ⟨h₃, hrun₃, hm₃, hcells₃, hsame₃⟩ := hm₂.models.free
    ((hm₂.out d.1 hd).trans hcell₁) hd₂ (hm.addr_ne (by simp))
  refine ⟨{ h₃ with numElements := h₃.numElements - 1 }, ?_,
    ⟨hm₃.congr rfl fun _ _ => rfl, ?_, ?_, ?_⟩, ?_⟩
  · have hread : RbHeap.read d.1 h
        = some (cellOf (.node c l d r) (above k), h) := by
      rw [RbHeap.read_run, show h.cells d.1 = _ from hm.cell]
      rfl
    have hx : RbHeap.onlyChild d.1 h = _ := hm.onlyChild_run
    unfold RbHeap.deleteNode
    simp only [RbHeap.bind_run, hm.successor_one hone, hx, hread,
      Option.bind_some, cellOf_parent (show RbNode.node c l d r ≠ .nil by
        simp), hrun₁, ne_eq, not_true_eq_false, if_false, hrun₂, hrun₃]
    rfl
  · obtain ⟨hp, hy⟩ := (zip_black_iff _ k).mp hh.black
    exact unlink_black hp hy
  · have hlist : (unlink (.node c l d r) k).toList = _ :=
      unlink_toList hone
    have hcount := hh.count
    rw [zip_toList, toList_node] at hcount
    simp only [hsame₃.numElements, hm₂.same.numElements,
      hsame₁.numElements, hcount, hlist, List.length_append,
      List.length_cons]
    omega
  · intro p cp hc
    change h₃.cells p = some cp at hc
    rw [hcells₃] at hc
    split at hc
    · cases hc
    · next hpd =>
        rw [hm₂.addrs]
        by_contra hp
        obtain ⟨hps, hp⟩ := not_or.mp hp
        rw [hm₂.out p hp, hout₁ p hp] at hc
        rcases hh.only p cp hc with h | h
        · exact hps h
        · exact (List.mem_cons.mp (hperm.mem_iff.mp h)).elim hpd hp
  · exact ⟨((hsame₁.trans hm₂.same).trans hsame₃).compare,
      ((hsame₁.trans hm₂.same).trans hsame₃).replaceFlag⟩

/-- `rbtree_delete` of a node with two children. -/
theorem deleteNode_two {c : NodeColor} {l r : RbNode (NodePtr × α)}
    {d : NodePtr × α} (hh : Holds h (zip (.node c l d r) k))
    (hl : l ≠ .nil) (hr : r ≠ .nil) :
    ∃ h' t', RbHeap.deleteNode d.1 h = some ((), h') ∧ Holds h' t'
      ∧ t'.toList = listL k ++ (l.toList ++ r.toList) ++ listR k
      ∧ Tuned h h' := by
  obtain ⟨y, down, hlm⟩ : ∃ y down, leftmost r [] = (y, down) :=
    ⟨_, _, rfl⟩
  obtain ⟨hz, hdown, yc, e, yr, rfl⟩ := leftmost_spec hr hlm
  change zip (.node yc .nil e yr) down = r at hz
  have hrlist := congrArg RbNode.toList hz
  rw [zip_toList, hdown] at hrlist
  simp only [listL, toList_node, toList_nil, List.nil_append] at hrlist
  -- the places of `Y`, before and after the datum has moved
  obtain ⟨place, hplace⟩ : ∃ place : α → List (Frame (NodePtr × α)),
      place = fun v => down ++ ⟨.right, c, (d.1, v), l⟩ :: k :=
    ⟨_, rfl⟩
  have hat (x : RbNode (NodePtr × α)) (v : α) : zip x (place v)
      = zip (.node c l (d.1, v) (zip x down)) k := by
    rw [hplace, zip_append]
    rfl
  have habove (v v' : α) : above (place v) = above (place v') := by
    rw [hplace]
    cases down with
    | nil => rfl
    | cons f down => rfl
  have hm : Models h (zip (.node yc .nil e yr) (place d.2)) := by
    rw [hat, hz]
    exact hh.models
  have hperm := addrs_onlyChild (c := yc) (d := e) (r := yr)
    (k := place d.2) (Or.inl rfl)
  have he := (List.nodup_cons.mp (hperm.nodup_iff.mp hm.nodup)).1
  obtain ⟨h₁, hrun₁, hm₁, hout₁, hsame₁⟩ := hm.splice (Or.inl rfl)
  have hcell₁ := (hout₁ e.1 he).trans hm.cell
  change Models h₁ (zip yr (place d.2)) at hm₁
  change e.1 ∉ addrs (zip yr (place d.2)) at he
  have hm₁' := hm₁
  rw [hat] at hm₁'
  have hne : e.1 ≠ d.1 := by
    rintro heq
    rw [heq, hat] at he
    exact he ((addrs_zip _ k).mem_iff.mpr (List.mem_append_left _
      (addr_mem (t := .node c l (d.1, d.2) _) (by simp))))
  -- the datum moves
  have hes : e.1 ≠ sentinel := hm.addr_ne (by simp)
  obtain ⟨cy, hcy⟩ : ∃ cy, cy = RbCell.withData none
    (cellOf (.node yc .nil e yr) (above (place d.2))) := ⟨_, rfl⟩
  obtain ⟨h₂, h₃, hdata, hnone, hm₃, haddrs, hcell₃, hout₃, hsame₂⟩ :=
    hm₁'.moveDatum hcell₁ (hat _ _ ▸ he) hes e.2
  rw [← hat] at hm₃
  rw [← hat, ← hat] at haddrs
  rw [← hat] at hout₃
  rw [← hcy] at hcell₃
  have he₂ : e.1 ∉ addrs (zip yr (place e.2)) := by
    rw [haddrs]
    exact he
  have hsame₃ := hsame₁.trans hsame₂
  -- the fix-up runs with `Z` in the tree
  obtain ⟨h₄, hrun₄, hm₄⟩ := hm₃.fixupBelow (y := .node yc .nil e yr)
    hcell₃ (by rw [hcy]; rfl) (by
      have hlen := length_zip (.node yc .nil e yr) (place d.2)
      have hlen' : (place d.2).length = (place e.2).length := by
        rw [hplace]
        simp
      rw [hat, hz, ← hh.count] at hlen
      rw [hsame₃.numElements]
      omega)
  have hlist₄ : (unlink (.node yc .nil e yr) (place e.2)).toList = _ :=
    unlink_toList (Or.inl rfl)
  have hcell₄ : h₄.cells e.1 = some cy := (hm₄.out e.1 he₂).trans hcell₃
  obtain ⟨c₄, l₄, r₄, k₄, ht₄⟩ := exists_zip (d := (d.1, e.2))
    (t := unlink (.node yc .nil e yr) (place e.2)) (by
      rw [hlist₄, hplace]
      simp [listL_append, listL, Frame.before])
  have he₄ : e.1 ∉ addrs (unlink (.node yc .nil e yr) (place e.2)) := by
    rw [hm₄.addrs]
    exact he₂
  rw [ht₄] at hlist₄ he₄
  have hm₄' := hm₄.models
  rw [ht₄] at hm₄'
  -- `Y` takes the place of `Z`
  obtain ⟨h₅, hrun₅, hm₅, hout₅, hsame₅⟩ := hm₄'.takePlace hcell₄ he₄ hes
  have hperm₄ := addrs_zip_node c₄ l₄ r₄ (d.1, e.2) k₄
  have hperm₅ := addrs_zip_node c₄ l₄ r₄ (e.1, e.2) k₄
  have hd₄ := (List.nodup_cons.mp (hperm₄.nodup_iff.mp hm₄'.nodup)).1
  have hd₅ : d.1 ∉ addrs (zip (.node c₄ l₄ (e.1, e.2) r₄) k₄) := by
    rw [hperm₅.mem_iff, List.mem_cons, not_or]
    exact ⟨hne.symm, hd₄⟩
  obtain ⟨h₆, hrun₆, hm₆, hcells₆, hsame₆⟩ := hm₅.free (a := d.1)
    ((hout₅ d.1 hne.symm hd₅).trans hm₄'.cell) hd₅
    (hh.models.addr_ne (by simp))
  have hsplit : listL k₄ ++ l₄.toList = listL k ++ l.toList
      ∧ r₄.toList ++ listR k₄ = yr.toList ++ (listR down ++ listR k) := by
    refine place_unique (c := c₄) hd₄ ?_
    rw [hlist₄, hplace]
    simp [listL_append, listR_append, listL, listR, hdown,
      Frame.before, Frame.after]
  have hlist : (zip (.node c₄ l₄ (e.1, e.2) r₄) k₄).toList
      = listL k ++ (l.toList ++ r.toList) ++ listR k := by
    calc (zip (.node c₄ l₄ (e.1, e.2) r₄) k₄).toList
        = (listL k₄ ++ l₄.toList)
          ++ e :: (r₄.toList ++ listR k₄) := by
          rw [zip_toList, toList_node]
          simp
      _ = listL k ++ (l.toList ++ r.toList) ++ listR k := by
          rw [hsplit.1, hsplit.2, ← hrlist]
          simp
  have hsame := ((hsame₃.trans hm₄.same).trans hsame₅).trans hsame₆
  refine ⟨{ h₆ with numElements := h₆.numElements - 1 }, _, ?_,
    ⟨hm₆.congr rfl fun _ _ => rfl, ?_, ?_, ?_⟩, ?_, ?_⟩
  · have hread : RbHeap.read e.1 h = some (cellOf (.node yc .nil e yr)
        (above (place d.2)), h) := by
      rw [RbHeap.read_run, show h.cells e.1 = _ from hm.cell]
      rfl
    have hread₁ : RbHeap.read e.1 h₁ = some (cellOf (.node yc .nil e yr)
        (above (place d.2)), h₁) := by
      rw [RbHeap.read_run, hcell₁]
      rfl
    have hlen := length_zip (.node c l d r) k
    rw [← hh.count, toList_node, List.length_append, List.length_cons]
      at hlen
    have hsucc := hh.models.successor_two hl hr (by omega)
    rw [hlm] at hsucc
    change RbHeap.successor d.1 h = some (e.1, h) at hsucc
    have hx : RbHeap.onlyChild e.1 h = _ := hm.onlyChild_run
    rw [habove e.2 d.2] at hrun₄
    unfold RbHeap.deleteNode
    simp only [RbHeap.bind_run, hsucc, hx, hread, Option.bind_some,
      cellOf_parent (show RbNode.node yc .nil e yr ≠ .nil by simp), hrun₁,
      if_pos hne, hread₁]
    rw [show (cellOf (.node yc .nil e yr) (above (place d.2))).data
      = some e.2 from rfl, hdata]
    change RbHeap.takePlace e.1 d.1 h₄ = _ at hrun₅
    simp only [Option.bind_some, hnone, hrun₄, hrun₅, hrun₆]
    rfl
  · have hb := (zip_black_iff _ k).mp hh.black
    have hb₂ := (zip_black_iff (.node c l (d.1, e.2) (zip yr down))
      k).mpr hb
    rw [← hat] at hb₂
    have hb₄ := unlink_black (y := .node yc .nil e yr)
      ((zip_black_iff _ _).mp hb₂).1 (by
        rw [hplace]
        simp)
    rw [ht₄] at hb₄
    have hb₅ := (zip_black_iff _ k₄).mp hb₄
    exact (zip_black_iff _ k₄).mpr hb₅
  · have hcount := hh.count
    rw [zip_toList, toList_node] at hcount
    simp only [hsame.numElements, hcount, hlist, List.length_append,
      List.length_cons]
    omega
  · intro p cp hc
    change h₆.cells p = some cp at hc
    rw [hcells₆] at hc
    split at hc
    · cases hc
    · next hpd =>
        by_contra hp
        obtain ⟨hps, hp⟩ := not_or.mp hp
        have hpe : p ≠ e.1 := by
          rintro rfl
          exact hp (hperm₅.mem_iff.mpr List.mem_cons_self)
        have hp₄ : p ∉ addrs (zip (.node c₄ l₄ (d.1, e.2) r₄) k₄) := by
          rw [hperm₅.mem_iff, List.mem_cons, not_or] at hp
          rw [hperm₄.mem_iff, List.mem_cons, not_or]
          exact ⟨hpd, hp.2⟩
        rw [← ht₄, hm₄.addrs] at hp₄
        have hp₃ := haddrs ▸ hp₄
        rw [hout₅ p hpe hp, hm₄.out p hp₄, hout₃ p hpe hp₃, hout₁ p hp₃]
          at hc
        have hold := hh.only p cp hc
        rw [← hz, ← hat, hperm.mem_iff, List.mem_cons] at hold
        exact (hold.resolve_left hps).elim hpe hp₃
  · exact hlist
  · exact ⟨hsame.compare, hsame.replaceFlag⟩

end Holds

end WinRadius
