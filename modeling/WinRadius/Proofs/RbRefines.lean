/-
The red-black tree as a finite set of nodes.

# The set

A node of the set is an address and the datum it denotes; no two data in
it compare equal. `RbSet.Step` says what each operation does to it: an
insertion puts in one node, at the address it is given, or puts the datum
into the node that compares equal, or fails; a deletion takes out one
node, and no other node changes its address or its datum.

# The run

`Denotes` connects a heap with its set through the tree of its nodes. One
lemma for each operation, and `Trace.simulate` for the run.
-/
import WinRadius.Lib.Run
import WinRadius.Proofs.RbNodes

namespace WinRadius

open RbNode

variable {α : Type}

-- ======== the order

/-- The comparison of a total order: of data that compare equal, either
may stand for the other. -/
structure TotalCompare (compare : α → α → Int) : Prop where
  swap : ∀ a b, compare a b < 0 ↔ 0 < compare b a
  trans : ∀ a b c, compare a b ≤ 0 → compare b c ≤ 0 → compare a c ≤ 0

namespace TotalCompare

variable {compare : α → α → Int}

/-- Data by their keys. -/
theorem lawful (tc : TotalCompare compare) :
    ∃ (κ : Type) (_ : LinearOrder κ) (key : α → κ),
      RbLawful compare (fun _ => True) key := by
  classical
  have hle (a b : α) : ¬ compare a b ≤ 0 ↔ compare b a < 0 := by
    rw [tc.swap, not_le]
  let _ : Preorder α :=
    { le := fun a b => compare a b ≤ 0
      le_refl := fun a => by
        have := tc.swap a a
        change compare a a ≤ 0
        omega
      le_trans := tc.trans }
  have : @Std.Total α (· ≤ ·) := ⟨fun a b => by
    by_cases h : compare a b ≤ 0
    · exact Or.inl h
    · exact Or.inr ((hle a b).mp h).le⟩
  refine ⟨Antisymmetrization α (· ≤ ·), inferInstance,
    toAntisymmetrization (· ≤ ·), fun a b _ => ?_, fun a b _ => ?_⟩
  · rw [toAntisymmetrization_lt_toAntisymmetrization_iff, lt_iff_le_not_ge]
    change _ ↔ compare a b ≤ 0 ∧ ¬ compare b a ≤ 0
    rw [hle]
    omega
  · have hkey : toAntisymmetrization (· ≤ ·) a
        = toAntisymmetrization (· ≤ ·) b
        ↔ compare a b ≤ 0 ∧ compare b a ≤ 0 := le_antisymm_iff
    rw [hkey]
    have := tc.swap a b
    omega

/-- What compares equal compares equally. -/
theorem congr (tc : TotalCompare compare) {a b : α}
    (h : compare a b = 0) (c : α) :
    (compare a c < 0 ↔ compare b c < 0)
      ∧ (compare c a < 0 ↔ compare c b < 0) := by
  obtain ⟨κ, _, key, law⟩ := tc.lawful
  rw [law.eq_iff _ _ trivial] at h
  simp only [law.lt_iff _ _ trivial, h, and_self]

theorem eq_trans (tc : TotalCompare compare) {a b c : α}
    (hab : compare c a = 0) (hbc : compare c b = 0) :
    compare a b = 0 := by
  obtain ⟨κ, _, key, law⟩ := tc.lawful
  rw [law.eq_iff _ _ trivial] at hab hbc ⊢
  exact hab.symm.trans hbc

theorem ne_of_lt (tc : TotalCompare compare) {a b : α}
    (h : compare a b < 0) : compare b a ≠ 0 := by
  have := (tc.swap a b).mp h
  omega

end TotalCompare

-- ======== the set

/-- A finite set of nodes, as what `rbtree_t` is for. -/
abbrev RbSet (α : Type) := Set (NodePtr × α)

/-- What an operation does to the set. -/
inductive RbSet.Step (compare : α → α → Int) (replaceFlag : Bool)
    (S : RbSet α) : RbOp α × RbAnswer → RbSet α → Prop where
  | inserted {x : NodePtr} {d : α} :
      (∀ q ∈ S, compare d q.2 ≠ 0) →
      Step compare replaceFlag S (.insertnode x d, .node (some x))
        (insert (x, d) S)
  | replaced {x p : NodePtr} {d e : α} :
      (p, e) ∈ S → compare d e = 0 → replaceFlag = true →
      Step compare replaceFlag S (.insertnode x d, .node (some p))
        (insert (p, d) (S \ {(p, e)}))
  | refused {x p : NodePtr} {d e : α} :
      (p, e) ∈ S → compare d e = 0 → replaceFlag = false →
      Step compare replaceFlag S (.insertnode x d, .node none) S
  | deleted {z : NodePtr} {e : α} :
      (z, e) ∈ S →
      Step compare replaceFlag S (.delete (some z), .done) (S \ {(z, e)})
  | spared {z : Option NodePtr} :
      z = none ∨ z = some sentinel →
      Step compare replaceFlag S (.delete z, .done) S
  | found {p : NodePtr} {d e : α} :
      (p, e) ∈ S → compare d e = 0 →
      Step compare replaceFlag S (.deletebydata d, .found true)
        (S \ {(p, e)})
  | absent {d : α} :
      (∀ q ∈ S, compare d q.2 ≠ 0) →
      Step compare replaceFlag S (.deletebydata d, .found false) S

-- ======== heaps and sets

/-- The heap holds the nodes of the set, in the order of the tree. -/
structure Denotes (compare : α → α → Int) (replaceFlag : Bool)
    (h : RbHeap α) (S : RbSet α) : Prop where
  tree : ∃ t, Holds h t
    ∧ t.toList.Pairwise (fun a b => compare a.2 b.2 < 0)
    ∧ ∀ q, q ∈ t.toList ↔ q ∈ S
  compare : h.compare = compare
  replaceFlag : h.replaceFlag = replaceFlag

theorem rbtreeCreate_denotes (compare : α → α → Int)
    (replaceFlag : Bool) :
    Denotes compare replaceFlag (.rbtreeCreate compare replaceFlag) ∅ := by
  refine ⟨⟨.nil, ⟨⟨rfl, trivial, List.nodup_nil, rfl, by simp [addrs]⟩,
    rfl, rfl, fun p c hc => ?_⟩, List.Pairwise.nil, by simp⟩, rfl, rfl⟩
  change (if p = sentinel then some .nil else none) = some c at hc
  split at hc
  · next hp => exact Or.inl hp
  · cases hc

/-- The nodes before and after a node, in order. -/
theorem zip_node_toList {β : Type} (c : NodeColor) (l r : RbNode β) (e : β)
    (path : List (Frame β)) :
    (zip (.node c l e r) path).toList
      = (listL path ++ l.toList) ++ e :: (r.toList ++ listR path) := by
  rw [zip_toList, toList_node]
  simp

/-- A node among nodes in order is different from the others. -/
theorem not_mem_of_sorted {compare : α → α → Int}
    (tc : TotalCompare compare) {A B : List (NodePtr × α)}
    {e : NodePtr × α}
    (hs : (A ++ e :: B).Pairwise fun a b => compare a.2 b.2 < 0) :
    e ∉ A ++ B := by
  have hself : ¬ compare e.2 e.2 < 0 := fun h => tc.ne_of_lt h (by
    have := (tc.swap e.2 e.2).mp h
    omega)
  rw [List.pairwise_append, List.pairwise_cons] at hs
  intro hmem
  rcases List.mem_append.mp hmem with hmem | hmem
  · exact hself (hs.2.2 e hmem e List.mem_cons_self)
  · exact hself (hs.2.1.1 e hmem)

/-- No two of them compare equal. -/
theorem sorted_inj {compare : α → α → Int} (tc : TotalCompare compare)
    {l : List (NodePtr × α)} {a b : NodePtr × α}
    (hs : l.Pairwise fun a b => compare a.2 b.2 < 0) (ha : a ∈ l)
    (hb : b ∈ l) (heq : compare a.2 b.2 = 0) : a = b := by
  obtain ⟨κ, _, key, law⟩ := tc.lawful
  have hnd : (l.map fun q => key q.2).Nodup := by
    rw [List.Nodup, List.pairwise_map]
    exact hs.imp fun hlt => ((law.lt_iff _ _ trivial).mp hlt).ne
  exact List.inj_on_of_nodup_map hnd ha hb
    ((law.eq_iff _ _ trivial).mp heq)

/-- What is left without it. -/
theorem mem_rest {β : Type} {A B : List β} {e : β} (he : e ∉ A ++ B)
    (q : β) : q ∈ A ++ B ↔ q ∈ A ++ e :: B ∧ q ≠ e := by
  simp only [List.mem_append, List.mem_cons] at he ⊢
  constructor
  · intro hq
    refine ⟨hq.imp_right Or.inr, ?_⟩
    rintro rfl
    exact he hq
  · rintro ⟨hq | hq | hq, hne⟩
    · exact Or.inl hq
    · exact absurd hq hne
    · exact Or.inr hq

section operations

variable {compare : α → α → Int} {replaceFlag : Bool} {h : RbHeap α}
  {S : RbSet α}

/-- Where a datum is in the tree of a heap, or would be. -/
theorem Denotes.locate (tc : TotalCompare compare)
    (hd : Denotes compare replaceFlag h S) (a : NodePtr) (d : α) :
    ∃ x path, Holds h (zip x path)
      ∧ descend (nodeCompare h.compare) (a, d) (zip x path) []
        = (x, path)
      ∧ (zip x path).toList.Pairwise (fun a b => compare a.2 b.2 < 0)
      ∧ (∀ q, q ∈ (zip x path).toList ↔ q ∈ S)
      ∧ (∀ q ∈ listL path, compare q.2 d < 0)
      ∧ (∀ q ∈ listR path, compare d q.2 < 0)
      ∧ (x = .nil ∨ ∃ c l e r, x = .node c l e r
        ∧ compare d e.2 = 0) := by
  obtain ⟨t, hh, hs, hS⟩ := hd.tree
  obtain ⟨κ, _, key, law⟩ := tc.lawful
  have hlt (a b : α) : compare a b < 0 ↔ key a < key b :=
    law.lt_iff a b trivial
  have law' : RbLawful (nodeCompare h.compare) (fun _ => True)
      (fun q : NodePtr × α => key q.2) := by
    rw [hd.compare]
    exact ⟨fun a b _ => law.lt_iff a.2 b.2 trivial,
      fun a b _ => law.eq_iff a.2 b.2 trivial⟩
  obtain ⟨x, path, hdesc⟩ : ∃ x path,
      descend (nodeCompare h.compare) (a, d) t [] = (x, path) :=
    ⟨_, _, rfl⟩
  obtain ⟨hz, hl, hr, hx⟩ := descend_spec law' (fun _ _ => trivial)
    (hs.imp fun hab => (hlt _ _).mp hab) (by simp [listL])
    (by simp [listR]) hdesc
  obtain rfl : zip x path = t := hz
  refine ⟨x, path, hh, hdesc, hs, hS, fun q hq => (hlt _ _).mpr (hl q hq),
    fun q hq => (hlt _ _).mpr (hr q hq), hx.imp_right ?_⟩
  rintro ⟨c, l, e, r, rfl, hk⟩
  exact ⟨c, l, e, r, rfl, (law.eq_iff d e.2 trivial).mpr hk.symm⟩

theorem insertnode_run (x : NodePtr) (d : α) :
    (RbOp.insertnode x d).run h
      = (RbHeap.rbtreeInsertnode x d h).map fun r => (.node r.1, r.2) :=
  (Option.map_eq_bind ..).symm ▸ rfl

/-- `rbtree_insertnode`. -/
theorem Denotes.insertnode (tc : TotalCompare compare)
    (hd : Denotes compare replaceFlag h S) {x : NodePtr} (d : α)
    (hx : h.cells x = none) :
    ∃ r h' S', (RbOp.insertnode x d).run h = some (r, h')
      ∧ RbSet.Step compare replaceFlag S (.insertnode x d, r) S'
      ∧ Denotes compare replaceFlag h' S' := by
  obtain ⟨y, path, hh, hdesc, hs, hS, hl, hr, hy⟩ := hd.locate tc x d
  have hlist := zip_toList y path
  rcases hy with rfl | ⟨c, l, e, r, rfl, heq⟩
  · rw [toList_nil, List.append_nil] at hlist
    obtain ⟨h', t', hrun, hh', ht', htun⟩ := hh.insertnode_fresh hx hdesc
    refine ⟨_, h', _, ?_, .inserted ?_, ⟨⟨t', hh', ?_, ?_⟩, ?_, ?_⟩⟩
    · rw [insertnode_run, hrun]
      rfl
    · intro q hq
      rw [← hS, hlist, List.mem_append] at hq
      rcases hq with hq | hq
      · exact tc.ne_of_lt (hl q hq)
      · exact (hr q hq).ne
    · rw [ht', List.pairwise_append, List.pairwise_cons]
      rw [hlist, List.pairwise_append] at hs
      refine ⟨hs.1, ⟨hr, hs.2.1⟩, fun p hp q hq => ?_⟩
      rcases List.mem_cons.mp hq with rfl | hq
      · exact hl p hp
      · exact hs.2.2 p hp q hq
    · intro q
      rw [ht', Set.mem_insert_iff, ← hS, hlist]
      simp only [List.mem_append, List.mem_cons]
      tauto
    · exact htun.compare.trans hd.compare
    · exact htun.replaceFlag.trans hd.replaceFlag
  · have hfound := hh.insertnode_found hdesc
    have he : (e.1, e.2) ∈ S := by
      refine (hS e).mp ?_
      rw [hlist]
      simp
    cases hrep : replaceFlag with
    | false =>
        refine ⟨_, h, S, ?_, .refused he heq rfl, hrep ▸ hd⟩
        rw [insertnode_run, hfound.1 (hd.replaceFlag.trans hrep)]
        rfl
    | true =>
        obtain ⟨h', hrun, hh', htun⟩ :=
          hfound.2 (hd.replaceFlag.trans hrep)
        refine ⟨_, h', _, ?_, .replaced he heq rfl,
          ⟨⟨_, hh', ?_, ?_⟩, ?_, ?_⟩⟩
        · rw [insertnode_run, hrun]
          rfl
        · rw [zip_node_toList] at hs ⊢
          rw [List.pairwise_append, List.pairwise_cons] at hs ⊢
          refine ⟨hs.1, ⟨fun q hq => ?_, hs.2.1.2⟩, fun p hp q hq => ?_⟩
          · exact ((tc.congr heq q.2).1).mpr (hs.2.1.1 q hq)
          · rcases List.mem_cons.mp hq with rfl | hq
            · exact ((tc.congr heq p.2).2).mpr
                (hs.2.2 p hp e List.mem_cons_self)
            · exact hs.2.2 p hp q (List.mem_cons_of_mem _ hq)
        · intro q
          have hne := not_mem_of_sorted tc (zip_node_toList c l r e path
            ▸ hs)
          rw [zip_node_toList, Set.mem_insert_iff, Set.mem_sdiff, ← hS,
            zip_node_toList, Set.mem_singleton_iff, ← mem_rest hne]
          simp only [List.mem_append, List.mem_cons]
          tauto
        · exact htun.compare.trans hd.compare
        · exact htun.replaceFlag.trans (hd.replaceFlag.trans hrep)

/-- `rbtree_delete` of a node. -/
theorem Holds.deleteNode {c : NodeColor} {l r : RbNode (NodePtr × α)}
    {d : NodePtr × α} {path : List (Frame (NodePtr × α))}
    (hh : Holds h (zip (.node c l d r) path)) :
    ∃ h' t', RbHeap.deleteNode d.1 h = some ((), h') ∧ Holds h' t'
      ∧ t'.toList = (listL path ++ l.toList) ++ (r.toList ++ listR path)
      ∧ Tuned h h' := by
  by_cases hone : l = .nil ∨ r = .nil
  · obtain ⟨h', hrun, hh', htun⟩ := hh.deleteNode_one hone
    refine ⟨h', _, hrun, hh', ?_, htun⟩
    rw [unlink_toList hone]
    simp
  · obtain ⟨hl, hr⟩ := not_or.mp hone
    obtain ⟨h', t', hrun, hh', ht', htun⟩ := hh.deleteNode_two hl hr
    refine ⟨h', t', hrun, hh', ?_, htun⟩
    rw [ht']
    simp

/-- A node leaves the set. -/
theorem Denotes.deleteNode (tc : TotalCompare compare)
    (hd : Denotes compare replaceFlag h S) {p : NodePtr} {e : α}
    (hp : (p, e) ∈ S) :
    ∃ h', RbHeap.deleteNode p h = some ((), h')
      ∧ Denotes compare replaceFlag h' (S \ {(p, e)}) := by
  obtain ⟨t, hh, hs, hS⟩ := hd.tree
  obtain ⟨c, l, r, path, rfl⟩ := exists_zip ((hS _).mpr hp)
  obtain ⟨h', t', hrun, hh', ht', htun⟩ := hh.deleteNode
  rw [zip_node_toList] at hs
  refine ⟨h', hrun, ⟨t', hh', ?_, fun q => ?_⟩,
    htun.compare.trans hd.compare, htun.replaceFlag.trans hd.replaceFlag⟩
  · rw [ht']
    exact hs.sublist ((List.sublist_cons_self _ _).append_left _)
  · rw [ht', mem_rest (not_mem_of_sorted tc hs), ← zip_node_toList c,
      Set.mem_sdiff, hS, Set.mem_singleton_iff]

/-- An allocated cell is a node of the set, or the sentinel. -/
theorem Denotes.node_of_cell (hd : Denotes compare replaceFlag h S)
    {p : NodePtr} (hp : h.cells p ≠ none) (hps : p ≠ sentinel) :
    ∃ e, (p, e) ∈ S := by
  obtain ⟨t, hh, -, hS⟩ := hd.tree
  obtain ⟨c, hc⟩ := Option.ne_none_iff_exists'.mp hp
  obtain ⟨⟨q, e⟩, hq, hqp⟩ := List.mem_map.mp
    ((hh.only p c hc).resolve_left hps)
  obtain rfl : q = p := hqp
  exact ⟨e, (hS _).mp hq⟩

theorem Denotes.node_ne (hd : Denotes compare replaceFlag h S)
    {p : NodePtr} {e : α} (hp : (p, e) ∈ S) : p ≠ sentinel := by
  obtain ⟨t, hh, -, hS⟩ := hd.tree
  rintro rfl
  exact hh.models.apart (List.mem_map.mpr ⟨_, (hS _).mpr hp, rfl⟩)

/-- `rbtree_delete`. -/
theorem Denotes.delete (tc : TotalCompare compare)
    (hd : Denotes compare replaceFlag h S) {z : Option NodePtr}
    (hz : (RbOp.delete z).Admissible h) :
    ∃ r h' S', (RbOp.delete z).run h = some (r, h')
      ∧ RbSet.Step compare replaceFlag S (.delete z, r) S'
      ∧ Denotes compare replaceFlag h' S' := by
  cases z with
  | none => exact ⟨_, h, S, rfl, .spared (Or.inl rfl), hd⟩
  | some z =>
      by_cases hzs : z = sentinel
      · subst hzs
        exact ⟨_, h, S, rfl, .spared (Or.inr rfl), hd⟩
      · obtain ⟨e, he⟩ := hd.node_of_cell hz hzs
        obtain ⟨h', hrun, hd'⟩ := hd.deleteNode tc he
        refine ⟨_, h', _, ?_, .deleted he, hd'⟩
        unfold RbOp.run
        simp only [RbHeap.rbtreeDelete, if_neg hzs, RbHeap.bind_run, hrun,
          Option.bind_some]
        rfl

/-- `rbtree_find`. -/
theorem Denotes.find (tc : TotalCompare compare)
    (hd : Denotes compare replaceFlag h S) (d : α) :
    (RbHeap.rbtreeFind d h = some (none, h)
      ∧ ∀ q ∈ S, compare d q.2 ≠ 0)
    ∨ ∃ p e, RbHeap.rbtreeFind d h = some (some p, h) ∧ (p, e) ∈ S
      ∧ compare d e = 0 := by
  obtain ⟨y, path, hh, hdesc, -, hS, hl, hr, hy⟩ := hd.locate tc 0 d
  have hsearch := Models.search (k := []) (h.numElements + 1) hh.models
    (by rw [hh.count]; omega) hdesc
  rw [← hh.models.root] at hsearch
  have hfind : RbHeap.rbtreeFind d h = some (pointer y, h) := by
    unfold RbHeap.rbtreeFind
    simp only [RbHeap.bind_run, RbHeap.get_run, Option.bind_some]
    rw [show RbHeap.search d _ _ none h = _ from hsearch]
    rfl
  rcases hy with rfl | ⟨c, l, e, r, rfl, heq⟩
  · refine Or.inl ⟨hfind, fun q hq => ?_⟩
    rw [← hS, zip_toList, toList_nil, List.append_nil, List.mem_append]
      at hq
    rcases hq with hq | hq
    · exact tc.ne_of_lt (hl q hq)
    · exact (hr q hq).ne
  · refine Or.inr ⟨e.1, e.2, hfind, (hS e).mp ?_, heq⟩
    rw [zip_node_toList]
    exact List.mem_append_right _ List.mem_cons_self

/-- `rbtree_deletebydata`. -/
theorem Denotes.deletebydata (tc : TotalCompare compare)
    (hd : Denotes compare replaceFlag h S) (d : α) :
    ∃ r h' S', (RbOp.deletebydata d).run h = some (r, h')
      ∧ RbSet.Step compare replaceFlag S (.deletebydata d, r) S'
      ∧ Denotes compare replaceFlag h' S' := by
  unfold RbOp.run RbHeap.rbtreeDeletebydata
  rcases hd.find tc d with ⟨hrun, habs⟩ | ⟨p, e, hrun, hp, heq⟩
  · refine ⟨_, h, S, ?_, .absent habs, hd⟩
    simp only [RbHeap.bind_run, hrun, Option.bind_some]
    rfl
  · obtain ⟨h', hdel, hd'⟩ := hd.deleteNode tc hp
    have hps : p ≠ sentinel := hd.node_ne hp
    refine ⟨_, h', _, ?_, .found hp heq, hd'⟩
    simp only [RbHeap.bind_run, hrun, Option.bind_some,
      RbHeap.rbtreeDelete, if_neg hps, hdel]
    rfl

end operations

-- ======== the runs

/-- The heap as the set: what its callers rely on. -/
structure Refines (compare : α → α → Int) (h : RbHeap α) (S : RbSet α) :
    Prop where
  /-- The links are those of a search tree with these nodes. -/
  tree : ∃ t, Models h t
    ∧ t.toList.Pairwise (fun a b => compare a.2 b.2 < 0)
    ∧ ∀ q, q ∈ t.toList ↔ q ∈ S
  /-- `rbtree_finddata` finds what compares equal. -/
  find : ∀ d, ∃ r, RbHeap.rbtreeFinddata d h = some (r, h)
    ∧ ∀ e, r = some e ↔ compare d e = 0 ∧ ∃ p, (p, e) ∈ S
  count : S.Finite ∧ h.numElements = S.ncard
  /-- A pointer to a node denotes its datum. -/
  node : ∀ p e, (p, e) ∈ S → (h.cells p).bind RbCell.data = some e
  /-- Nothing else is allocated. -/
  only : ∀ p, h.cells p ≠ none → p = sentinel ∨ ∃ e, (p, e) ∈ S

theorem Denotes.refines {compare : α → α → Int} {replaceFlag : Bool}
    {h : RbHeap α} {S : RbSet α} (tc : TotalCompare compare)
    (hd : Denotes compare replaceFlag h S) : Refines compare h S := by
  obtain ⟨t, hh, hs, hS⟩ := hd.tree
  have hnode (p : NodePtr) (e : α) (hp : (p, e) ∈ S) :
      (h.cells p).bind RbCell.data = some e := by
    obtain ⟨c, hc, hdata⟩ := hh.models.cells_of_mem ((hS _).mpr hp)
    rw [show h.cells p = some c from hc]
    exact hdata
  have hnd : t.toList.Nodup := .of_map _ hh.models.nodup
  refine ⟨⟨t, hh.models, hs, hS⟩, fun d => ?_, ?_, hnode,
    fun p hp => ?_⟩
  · unfold RbHeap.rbtreeFinddata
    rcases hd.find tc d with ⟨hrun, habs⟩ | ⟨p, e, hrun, hp, heq⟩
    · refine ⟨none, ?_, fun e => ⟨fun he => ?_, ?_⟩⟩
      · rw [RbHeap.bind_run, hrun]
        rfl
      · cases he
      · rintro ⟨he, p, hp⟩
        exact absurd he (habs _ hp)
    · refine ⟨some e, ?_, fun e' => ⟨fun he => ?_, ?_⟩⟩
      · obtain ⟨c, hc, hdata⟩ := Option.bind_eq_some_iff.mp (hnode p e hp)
        simp only [RbHeap.bind_run, hrun, Option.bind_some,
          RbHeap.read_run, hc, Option.map_some, hdata]
        rfl
      · cases he
        exact ⟨heq, p, hp⟩
      · rintro ⟨heq', p', hp'⟩
        have := sorted_inj tc hs ((hS _).mpr hp) ((hS _).mpr hp')
          (tc.eq_trans heq heq')
        cases this
        rfl
  · classical
    have hset : S = ↑t.toList.toFinset := by
      ext q
      rw [List.coe_toFinset, Set.mem_ofPred_eq, hS]
    rw [hset, Set.ncard_coe_finset, List.toFinset_card_of_nodup hnd]
    exact ⟨Finset.finite_toSet _, hh.count⟩
  · by_cases hps : p = sentinel
    · exact Or.inl hps
    · exact Or.inr (hd.node_of_cell hp hps)

/-- A step of the code, with what is called and what it returns. -/
def RbHeap.Step (h : RbHeap α) (a : RbOp α × RbAnswer) (h' : RbHeap α) :
    Prop :=
  a.1.Admissible h ∧ a.1.run h = some (a.2, h')

/-- Each operation goes through and is a step of the set. -/
theorem Denotes.op {compare : α → α → Int} {replaceFlag : Bool}
    {h : RbHeap α} {S : RbSet α} (tc : TotalCompare compare)
    (hd : Denotes compare replaceFlag h S) {op : RbOp α}
    (hop : op.Admissible h) :
    ∃ r h' S', op.run h = some (r, h')
      ∧ RbSet.Step compare replaceFlag S (op, r) S'
      ∧ Denotes compare replaceFlag h' S' := by
  cases op with
  | insertnode x d => exact hd.insertnode tc d hop
  | delete z => exact hd.delete tc hop
  | deletebydata d => exact hd.deletebydata tc d

/-- Every run of the code is one of the set. -/
theorem denotes_run {compare : α → α → Int}
    (tc : TotalCompare compare) (replaceFlag : Bool)
    {tr : List (RbOp α × RbAnswer)} {h : RbHeap α}
    (hrun : Lib.Trace RbHeap.Step (.rbtreeCreate compare replaceFlag)
      tr h) :
    ∃ S, Lib.Trace (RbSet.Step compare replaceFlag) ∅ tr S
      ∧ Denotes compare replaceFlag h S := by
  refine hrun.simulate (RbSet.Step compare replaceFlag)
    (Denotes compare replaceFlag)
    (rbtreeCreate_denotes compare replaceFlag) ?_
  intro a b a' i hd hstep
  obtain ⟨r, h', S', hr, hS, hd'⟩ := hd.op tc hstep.1
  have heq := hr.symm.trans hstep.2
  simp only [Option.some.injEq, Prod.mk.injEq] at heq
  obtain ⟨hr, rfl⟩ := heq
  refine ⟨S', ?_, hd'⟩
  rw [hr] at hS
  exact hS

/-- The tree is the set: a sequence of operations on it, each on memory
and nodes that are there, is one on the set with the same results, and so
is any operation from there. -/
theorem rbtree_refines_set {compare : α → α → Int}
    (tc : TotalCompare compare) (replaceFlag : Bool)
    {tr : List (RbOp α × RbAnswer)} {h : RbHeap α}
    (hrun : Lib.Trace RbHeap.Step (.rbtreeCreate compare replaceFlag)
      tr h) :
    ∃ S, Lib.Trace (RbSet.Step compare replaceFlag) ∅ tr S
      ∧ Refines compare h S
      ∧ ∀ op : RbOp α, op.Admissible h →
        ∃ r h' S', op.run h = some (r, h')
          ∧ RbSet.Step compare replaceFlag S (op, r) S'
          ∧ Refines compare h' S' := by
  obtain ⟨S, htr, hd⟩ := denotes_run tc replaceFlag hrun
  refine ⟨S, htr, hd.refines tc, fun op hop => ?_⟩
  obtain ⟨r, h', S', hr, hS, hd'⟩ := hd.op tc hop
  exact ⟨r, h', S', hr, hS, hd'.refines tc⟩

/-- The order of the numbers. -/
def numberCompare (a b : Nat) : Int := a - b

theorem numberCompare_total : TotalCompare numberCompare := by
  refine ⟨fun a b => ?_, fun a b c => ?_⟩
  · unfold numberCompare
    omega
  · unfold numberCompare
    omega

/-- The root has two children and is deleted; its successor keeps its
address. -/
theorem successor_keeps_address :
    ∃ h : RbHeap Nat,
      Lib.Trace RbHeap.Step (.rbtreeCreate numberCompare false)
        [(.insertnode 1 20, .node (some 1)),
          (.insertnode 2 10, .node (some 2)),
          (.insertnode 3 30, .node (some 3)),
          (.delete (some 1), .done)] h
      ∧ (h.cells 3).bind RbCell.data = some 30
      ∧ ∃ S, Lib.Trace (RbSet.Step numberCompare false) ∅
          [(.insertnode 1 20, .node (some 1)),
            (.insertnode 2 10, .node (some 2)),
            (.insertnode 3 30, .node (some 3)),
            (.delete (some 1), .done)] S
        ∧ Refines numberCompare h S := by
  have htr (h₁ h₂ h₃ h₄ : RbHeap Nat)
      (hs₁ : RbHeap.Step (.rbtreeCreate numberCompare false)
        (.insertnode 1 20, .node (some 1)) h₁)
      (hs₂ : RbHeap.Step h₁ (.insertnode 2 10, .node (some 2)) h₂)
      (hs₃ : RbHeap.Step h₂ (.insertnode 3 30, .node (some 3)) h₃)
      (hs₄ : RbHeap.Step h₃ (.delete (some 1), .done) h₄) :=
    (((Lib.Trace.nil.snoc hs₁).snoc hs₂).snoc hs₃).snoc hs₄
  have hrun := htr _ _ _ _ ⟨rfl, rfl⟩ ⟨rfl, rfl⟩ ⟨rfl, rfl⟩
    ⟨Option.some_ne_none _, rfl⟩
  obtain ⟨S, hS, href, -⟩ := rbtree_refines_set numberCompare_total false
    hrun
  exact ⟨_, hrun, rfl, S, hS, href⟩

end WinRadius
