/-
The walks over a red-black tree.

# What a walk is for

The callback is called on the data in some order, one after the other, as
long as it returns zero. `callAll` says this of a list, and each order of
the tree is a list.

# The walkers

Each walker is run once on the cells of a subtree, by induction on the
subtree: it calls the callback on a list. The walk in postorder visits the
two subtrees of the root in order, so its list is the one asked for only
where these come to the same: no node below the root has a right child.
-/
import WinRadius.Proofs.RbRefines

namespace WinRadius

open RbNode

variable {α σ : Type}

-- ======== orders

namespace RbNode

/-- A node before its children. -/
def preOrder : RbNode α → List α
  | nil => []
  | node _ l d r => d :: (l.preOrder ++ r.preOrder)

/-- A node after its children. -/
def postOrder : RbNode α → List α
  | nil => []
  | node _ l d r => l.postOrder ++ r.postOrder ++ [d]

/-- No node has a right child. -/
def LeftOnly : RbNode α → Prop
  | nil => True
  | node _ l _ r => r = nil ∧ l.LeftOnly

theorem postOrder_perm (t : RbNode α) : t.postOrder.Perm t.toList := by
  induction t with
  | nil => exact List.Perm.refl _
  | node c l d r ihl ihr =>
      have hd : (r.postOrder ++ [d]).Perm (d :: r.toList) :=
        (List.perm_append_singleton d _).trans (ihr.cons d)
      have hl := ihl.append hd
      simpa only [postOrder, toList_node, List.append_assoc] using hl

theorem LeftOnly.postOrder_eq {t : RbNode α} (h : t.LeftOnly) :
    t.postOrder = t.toList := by
  induction t with
  | nil => rfl
  | node c l d r ihl ihr =>
      obtain ⟨rfl, hl⟩ := h
      simp [postOrder, ihl hl]

/-- A right child would come behind its parent in order, and before it in
postorder. -/
theorem leftOnly_of_postOrder {β : Type} {f : α → β} {t : RbNode α}
    (hn : (t.toList.map f).Nodup)
    (h : t.postOrder.map f = t.toList.map f) : t.LeftOnly := by
  induction t with
  | nil => exact trivial
  | node c l d r ihl ihr =>
      simp only [postOrder, toList_node, List.map_append, List.map_cons,
        List.map_nil, List.append_assoc] at h hn
      obtain ⟨hl, hr⟩ := List.append_inj h
        (by simp [l.postOrder_perm.length_eq])
      refine ⟨?_, ihl hn.of_append_left hl⟩
      have hd : f d ∉ r.toList.map f :=
        (List.nodup_cons.mp hn.of_append_right).1
      have hempty : r.postOrder.map f = [] := by
        cases hp : r.postOrder.map f with
        | nil => rfl
        | cons e es =>
            rw [hp, List.cons_append] at hr
            have he : e = f d := (List.cons.inj hr).1
            have hmem : f d ∈ r.postOrder.map f := by simp [hp, he]
            exact absurd ((r.postOrder_perm.map f).mem_iff.mp hmem) hd
      cases r with
      | nil => rfl
      | node _ _ _ _ => simp [postOrder] at hempty

end RbNode

/-- The data in the order that is asked for. -/
def RbtreeOrder.list : RbtreeOrder → RbNode (NodePtr × α) → List α
  | .preOrder, t => t.preOrder.map Prod.snd
  | .inOrder, t => t.toList.map Prod.snd
  | .postOrder, t => t.postOrder.map Prod.snd

-- ======== calls

section calls

variable (callback : σ → α → Int × σ)

/-- The callback is called on one datum after the other, up to the first
on which it does not return zero. -/
def callAll : List α → σ → Int × σ
  | [], context => (0, context)
  | d :: ds, context =>
      if (callback context d).1 ≠ 0 then callback context d
      else callAll ds (callback context d).2

theorem callAll_append (xs ys : List α) (context : σ) :
    callAll callback (xs ++ ys) context
      = if (callAll callback xs context).1 ≠ 0 then
          callAll callback xs context
        else callAll callback ys (callAll callback xs context).2 := by
  induction xs generalizing context with
  | nil => simp [callAll]
  | cons d ds ih =>
      rw [List.cons_append, callAll, callAll]
      by_cases h : (callback context d).1 ≠ 0
      · rw [if_pos h, if_pos h, if_pos h]
      · rw [if_neg h, if_neg h]
        exact ih _

theorem callAll_single (d : α) (context : σ) :
    callAll callback [d] context = callback context d := by
  rw [callAll]
  split
  · rfl
  · next h => exact Prod.ext (not_not.mp h).symm rfl

/-- A callback that notes what it is called on tells two lists apart. -/
theorem callAll_note (xs seen : List α) :
    callAll (fun seen d => ((0 : Int), seen ++ [d])) xs seen
      = (0, seen ++ xs) := by
  induction xs generalizing seen with
  | nil => simp [callAll]
  | cons d ds ih => simp [callAll, ih]

end calls

-- ======== walkers

/-- What a walk reads: the links of a subtree, and the sentinel. -/
structure Standing (h : RbHeap α) (t : RbNode (NodePtr × α))
    (par : Option NodePtr) : Prop where
  links : Links h.cells t par
  nil : h.cells sentinel = some .nil
  apart : sentinel ∉ addrs t

theorem Models.standing {h : RbHeap α} {t : RbNode (NodePtr × α)}
    (hm : Models h t) : Standing h t none := ⟨hm.links, hm.nil, hm.apart⟩

namespace Standing

variable {h : RbHeap α} {c : NodeColor} {l r : RbNode (NodePtr × α)}
  {d : NodePtr × α} {par : Option NodePtr}

theorem left (hs : Standing h (.node c l d r) par) :
    Standing h l (some d.1) := by
  refine ⟨hs.links.2.1, hs.nil, fun hmem => hs.apart ?_⟩
  exact (addrs_node c l d r).mem_iff.mpr
    (List.mem_cons_of_mem _ (List.mem_append_left _ hmem))

theorem right (hs : Standing h (.node c l d r) par) :
    Standing h r (some d.1) := by
  refine ⟨hs.links.2.2, hs.nil, fun hmem => hs.apart ?_⟩
  exact (addrs_node c l d r).mem_iff.mpr
    (List.mem_cons_of_mem _ (List.mem_append_right _ hmem))

theorem addr_ne (hs : Standing h (.node c l d r) par) :
    d.1 ≠ sentinel := by
  intro hd
  refine hs.apart ((addrs_node c l d r).mem_iff.mpr ?_)
  rw [← hd]
  exact List.mem_cons_self

/-- The cell at the root of a node. -/
theorem cell (hs : Standing h (.node c l d r) par) :
    h.cells d.1 = some ⟨addr l, addr r, par, c, some d.2⟩ := hs.links.1

variable (callback : σ → α → Int × σ)

/-- `callback(context, X->Data)` and what the walker makes of it. -/
theorem callOn_run (hole : RbCell α) (datum : α) (context : σ)
    (hc : hole.data = some datum) :
    RbHeap.callOn callback hole context h
      = some (callAll callback [datum] context, h) := by
  unfold RbHeap.callOn
  rw [hc, callAll_single]
  rfl

/-- A walk that goes on where all calls so far returned zero. -/
theorem goOn_run {call : RbM α (Int × σ)} {rest : σ → RbM α (Int × σ)}
    {xs ys : List α} {context : σ}
    (hcall : call h = some (callAll callback xs context, h))
    (hrest : ∀ s, rest s h = some (callAll callback ys s, h)) :
    RbHeap.goOn call rest h
      = some (callAll callback (xs ++ ys) context, h) := by
  unfold RbHeap.goOn
  rw [RbHeap.bind_run, hcall, Option.bind_some, RbHeap.ite_run, hrest,
    callAll_append]
  split
  · rfl
  · rfl

/-- The walk in order below a link, which may be the sentinel's. -/
theorem walkInOrder {t : RbNode (NodePtr × α)}
    (hs : Standing h t par) {fuel : Nat} (hf : t.toList.length ≤ fuel)
    (context : σ) :
    (if addr t ≠ sentinel then
        RbHeap.walkNodeInOrder callback fuel (addr t) context
      else pure (0, context) : RbM α (Int × σ)) h
      = some (callAll callback (t.toList.map Prod.snd) context, h) := by
  induction t generalizing par fuel context with
  | nil =>
      rw [if_neg fun hne => hne rfl]
      rfl
  | node c l d r ihl ihr =>
      rw [toList_node, List.length_append, List.length_cons] at hf
      cases fuel with
      | zero => omega
      | succ fuel =>
          have hl := ihl hs.left (show l.toList.length ≤ fuel by omega)
          have hr := ihr hs.right (show r.toList.length ≤ fuel by omega)
          have hd : addr (node c l d r) = d.1 := rfl
          rw [hd, if_pos hs.addr_ne, RbHeap.walkNodeInOrder,
            RbHeap.bind_run, RbHeap.read_run, hs.cell, toList_node,
            List.map_append, List.map_cons, ← List.singleton_append]
          exact goOn_run callback (hl context) fun s =>
            goOn_run callback (callOn_run callback _ _ s rfl) hr

/-- The walk in preorder below a link. -/
theorem walkPreOrder {t : RbNode (NodePtr × α)}
    (hs : Standing h t par) {fuel : Nat} (hf : t.toList.length ≤ fuel)
    (context : σ) :
    (do
      if (← RbHeap.read (addr t)).data.isSome then
        RbHeap.walkNodePreOrder callback fuel (addr t) context
      else return (0, context) : RbM α (Int × σ)) h
      = some (callAll callback (t.preOrder.map Prod.snd) context, h) := by
  induction t generalizing par fuel context with
  | nil =>
      have haddr : addr (.nil : RbNode (NodePtr × α)) = sentinel := rfl
      rw [RbHeap.bind_run, RbHeap.read_run, haddr, hs.nil]
      rfl
  | node c l d r ihl ihr =>
      rw [toList_node, List.length_append, List.length_cons] at hf
      cases fuel with
      | zero => omega
      | succ fuel =>
          have hl := ihl hs.left (show l.toList.length ≤ fuel by omega)
          have hr := ihr hs.right (show r.toList.length ≤ fuel by omega)
          have hd : addr (node c l d r) = d.1 := rfl
          rw [hd, RbHeap.bind_run, RbHeap.read_run, hs.cell]
          change RbHeap.walkNodePreOrder callback (fuel + 1) d.1 context h
            = _
          rw [RbHeap.walkNodePreOrder, RbHeap.bind_run, RbHeap.read_run,
            hs.cell, preOrder, List.map_cons, List.map_append,
            ← List.singleton_append]
          exact goOn_run callback (callOn_run callback _ _ context rfl)
            fun s => goOn_run callback (hl s) hr

/-- The walk in postorder. -/
theorem walkPostOrder (hs : Standing h (.node c l d r) par) {fuel : Nat}
    (hf : (RbNode.node c l d r).toList.length ≤ fuel) (context : σ) :
    RbHeap.walkNodePostOrder callback fuel d.1 context h
      = some (callAll callback
          ((l.toList ++ (r.toList ++ [d])).map Prod.snd) context, h) := by
  rw [toList_node, List.length_append, List.length_cons] at hf
  have hl := hs.left.walkInOrder callback
    (show l.toList.length ≤ fuel by omega)
  have hr := hs.right.walkInOrder callback
    (show r.toList.length ≤ fuel by omega)
  rw [RbHeap.walkNodePostOrder, RbHeap.bind_run, RbHeap.read_run, hs.cell,
    List.map_append, List.map_append]
  exact goOn_run callback (hl context) fun s =>
    goOn_run callback (hr s) fun s => callOn_run callback _ _ s rfl

end Standing

-- ======== the walk

/-- The data in the order in which the walkers go through them. -/
def RbtreeOrder.walked : RbtreeOrder → RbNode (NodePtr × α) → List α
  | .postOrder, .node _ l d r =>
      (l.toList ++ (r.toList ++ [d])).map Prod.snd
  | order, t => order.list t

variable {h : RbHeap α} {t : RbNode (NodePtr × α)}

theorem rbtreeWalk_run (hh : Holds h t) (order : RbtreeOrder)
    (callback : σ → α → Int × σ) (context : σ) :
    RbHeap.rbtreeWalk callback order context h
      = some (callAll callback (order.walked t) context, h) := by
  have hs := hh.models.standing
  have hf : t.toList.length ≤ h.numElements := hh.count.ge
  rw [RbHeap.rbtreeWalk, RbHeap.bind_run, RbHeap.get_run,
    Option.bind_some, RbHeap.ite_run, hh.models.root]
  cases t with
  | nil =>
      rw [if_pos (show addr (.nil : RbNode (NodePtr × α)) = sentinel
        from rfl)]
      cases order with
      | preOrder => rfl
      | inOrder => rfl
      | postOrder => rfl
  | node c l d r =>
      have hd : addr (node c l d r) = d.1 := rfl
      rw [hd, if_neg hs.addr_ne]
      cases order with
      | preOrder =>
          have hrun := hs.walkPreOrder callback hf context
          rw [hd, RbHeap.bind_run, RbHeap.read_run, hs.cell] at hrun
          exact hrun
      | inOrder =>
          have hrun := hs.walkInOrder callback hf context
          rw [hd, if_pos hs.addr_ne] at hrun
          exact hrun
      | postOrder => exact hs.walkPostOrder callback hf context

-- ======== every tree

/-- The cells of a tree determine it. -/
theorem Links.unique {cells : NodePtr → Option (RbCell α)}
    {x y : RbNode (NodePtr × α)} {p q : Option NodePtr}
    (hx : Links cells x p) (hy : Links cells y q)
    (hxs : sentinel ∉ addrs x) (hys : sentinel ∉ addrs y)
    (ha : addr x = addr y) : x = y := by
  induction x generalizing y p q with
  | nil =>
      cases y with
      | nil => rfl
      | node c l d r =>
          have hne := addr_mem (t := .node c l d r) (by simp)
          rw [← ha] at hne
          exact absurd hne hys
  | node c l d r ihl ihr =>
      cases y with
      | nil =>
          have hne := addr_mem (t := .node c l d r) (by simp)
          rw [ha] at hne
          exact absurd hne hxs
      | node c' l' d' r' =>
          obtain ⟨hd, hl, hr⟩ := hx
          obtain ⟨hd', hl', hr'⟩ := hy
          have hdd : d.1 = d'.1 := ha
          rw [hdd] at hd
          have hcell := hd.symm.trans hd'
          simp only [Option.some.injEq, RbCell.mk.injEq] at hcell
          obtain ⟨hal, har, -, rfl, hdata⟩ := hcell
          have hxs' (p : NodePtr) (hp : p ∈ addrs l ++ addrs r) :
              p ≠ sentinel := by
            rintro rfl
            exact hxs ((addrs_node c l d r).mem_iff.mpr
              (List.mem_cons_of_mem _ hp))
          have hys' (p : NodePtr) (hp : p ∈ addrs l' ++ addrs r') :
              p ≠ sentinel := by
            rintro rfl
            exact hys ((addrs_node c l' d' r').mem_iff.mpr
              (List.mem_cons_of_mem _ hp))
          rw [ihl hl hl'
              (fun hp => hxs' _ (List.mem_append_left _ hp) rfl)
              (fun hp => hys' _ (List.mem_append_left _ hp) rfl) hal,
            ihr hr hr'
              (fun hp => hxs' _ (List.mem_append_right _ hp) rfl)
              (fun hp => hys' _ (List.mem_append_right _ hp) rfl) har,
            Prod.ext hdd hdata]

/-- In order, no datum comes twice. -/
theorem nodup_of_sorted {compare : α → α → Int}
    (tc : TotalCompare compare) {xs : List (NodePtr × α)}
    (hs : xs.Pairwise fun a b => compare a.2 b.2 < 0) :
    (xs.map Prod.snd).Nodup := by
  rw [List.Nodup, List.pairwise_map]
  refine hs.imp fun {a b} hlt heq => ?_
  rw [heq] at hlt
  have hgt := (tc.swap b.2 b.2).mp hlt
  omega

/-- What the walk calls the callback on is the order asked for just where
the walk in postorder has only to do with left children. -/
theorem walked_eq_iff (hd : (t.toList.map Prod.snd).Nodup)
    (order : RbtreeOrder) :
    order.walked t = order.list t ↔ (order = .postOrder →
      (t.child .left).LeftOnly ∧ (t.child .right).LeftOnly) := by
  cases order with
  | preOrder => exact iff_of_true rfl fun h => nomatch h
  | inOrder => exact iff_of_true rfl fun h => nomatch h
  | postOrder =>
      cases t with
      | nil => exact iff_of_true rfl fun _ => ⟨trivial, trivial⟩
      | node c l d r =>
          change (l.toList ++ (r.toList ++ [d])).map Prod.snd
            = (l.postOrder ++ r.postOrder ++ [d]).map Prod.snd
              ↔ (_ → l.LeftOnly ∧ r.LeftOnly)
          constructor
          · intro h _
            simp only [List.map_append, List.append_assoc] at h
            rw [toList_node, List.map_append, List.map_cons] at hd
            obtain ⟨hl, hr⟩ := List.append_inj h
              (by simp [l.postOrder_perm.length_eq])
            exact ⟨leftOnly_of_postOrder hd.of_append_left hl.symm,
              leftOnly_of_postOrder
                (List.nodup_cons.mp hd.of_append_right).2
                (List.append_cancel_right hr).symm⟩
          · intro h
            obtain ⟨hl, hr⟩ := h rfl
            rw [hl.postOrder_eq, hr.postOrder_eq, List.append_assoc]

/-- Where `rbtree_walk` calls the callback on every datum once in the
order that is asked for, up to the first that returns something else than
zero, on every tree that insertions and deletions make: in preorder and in
order everywhere; in postorder where no node below the root has a right
child. -/
theorem rbtreeWalk_iff {compare : α → α → Int}
    (tc : TotalCompare compare) (replaceFlag : Bool)
    {tr : List (RbOp α × RbAnswer)}
    (hrun : Lib.Trace RbHeap.Step (.rbtreeCreate compare replaceFlag)
      tr h)
    (hm : Models h t) (order : RbtreeOrder) :
    (∀ (σ : Type) (callback : σ → α → Int × σ) (context : σ),
      RbHeap.rbtreeWalk callback order context h
        = some (callAll callback (order.list t) context, h))
      ↔ (order = .postOrder →
        (t.child .left).LeftOnly ∧ (t.child .right).LeftOnly) := by
  obtain ⟨S, -, hd⟩ := denotes_run tc replaceFlag hrun
  obtain ⟨t', hh, hs, -⟩ := hd.tree
  have ht : t' = t := hh.models.links.unique hm.links hh.models.apart
    hm.apart (hh.models.root.symm.trans hm.root)
  subst ht
  rw [← walked_eq_iff (nodup_of_sorted tc hs) order]
  constructor
  · intro h
    have hnote := h (List α) (fun seen d => (0, seen ++ [d])) []
    rw [rbtreeWalk_run hh, callAll_note, callAll_note] at hnote
    simpa using hnote
  · intro h σ callback context
    rw [rbtreeWalk_run hh, h]

/-- Three numbers, of which the root has one on either side. -/
theorem rbtreeWalk_iff_three :
    ∃ (h : RbHeap Nat) (t : RbNode (NodePtr × Nat)),
      Lib.Trace RbHeap.Step (.rbtreeCreate numberCompare false)
        [(.insertnode 1 20, .node (some 1)),
          (.insertnode 2 10, .node (some 2)),
          (.insertnode 3 30, .node (some 3))] h
      ∧ Models h t
      ∧ ∀ (σ : Type) (callback : σ → Nat → Int × σ) (context : σ),
        RbHeap.rbtreeWalk callback .postOrder context h
          = some (callAll callback [10, 30, 20] context, h) := by
  have htr (h₁ h₂ h₃ : RbHeap Nat)
      (hs₁ : RbHeap.Step (.rbtreeCreate numberCompare false)
        (.insertnode 1 20, .node (some 1)) h₁)
      (hs₂ : RbHeap.Step h₁ (.insertnode 2 10, .node (some 2)) h₂)
      (hs₃ : RbHeap.Step h₂ (.insertnode 3 30, .node (some 3)) h₃) :=
    ((Lib.Trace.nil.snoc hs₁).snoc hs₂).snoc hs₃
  have hrun := htr _ _ _ ⟨rfl, rfl⟩ ⟨rfl, rfl⟩ ⟨rfl, rfl⟩
  have hright {tr : List (RbOp Nat × RbAnswer)} (h : RbHeap Nat)
      (hrun : Lib.Trace RbHeap.Step (.rbtreeCreate numberCompare false)
        tr h)
      (hm : Models h (.node .black (.node .red .nil (2, 10) .nil) (1, 20)
        (.node .red .nil (3, 30) .nil))) := And.intro hm
    ((rbtreeWalk_iff numberCompare_total false hrun hm .postOrder).mpr
      fun _ => ⟨⟨rfl, trivial⟩, rfl, trivial⟩)
  exact ⟨_, _, hrun, hright _ hrun ⟨rfl, ⟨rfl, ⟨rfl, trivial, trivial⟩,
    rfl, trivial, trivial⟩, by decide, rfl, by decide⟩⟩

/-- A fourth number becomes the right child of a child, which the walk in
postorder then visits first. -/
theorem walkNodePostOrder_inOrder :
    ∃ (h : RbHeap Nat) (t : RbNode (NodePtr × Nat)),
      Lib.Trace RbHeap.Step (.rbtreeCreate numberCompare false)
        [(.insertnode 1 20, .node (some 1)),
          (.insertnode 2 10, .node (some 2)),
          (.insertnode 3 30, .node (some 3)),
          (.insertnode 4 40, .node (some 4))] h
      ∧ Models h t
      ∧ RbtreeOrder.list .postOrder t = [10, 40, 30, 20]
      ∧ RbHeap.rbtreeWalk
          (fun (seen : List Nat) d => (0, seen ++ [d])) .postOrder [] h
        = some ((0, [10, 30, 40, 20]), h) := by
  have htr (h₁ h₂ h₃ h₄ : RbHeap Nat)
      (hs₁ : RbHeap.Step (.rbtreeCreate numberCompare false)
        (.insertnode 1 20, .node (some 1)) h₁)
      (hs₂ : RbHeap.Step h₁ (.insertnode 2 10, .node (some 2)) h₂)
      (hs₃ : RbHeap.Step h₂ (.insertnode 3 30, .node (some 3)) h₃)
      (hs₄ : RbHeap.Step h₃ (.insertnode 4 40, .node (some 4)) h₄) :=
    (((Lib.Trace.nil.snoc hs₁).snoc hs₂).snoc hs₃).snoc hs₄
  have hrun := htr _ _ _ _ ⟨rfl, rfl⟩ ⟨rfl, rfl⟩ ⟨rfl, rfl⟩ ⟨rfl, rfl⟩
  refine ⟨_, .node .black (.node .black .nil (2, 10) .nil) (1, 20)
    (.node .black .nil (3, 30) (.node .red .nil (4, 40) .nil)), hrun,
    ⟨rfl, ?_, by decide, rfl, by decide⟩, rfl, rfl⟩
  exact ⟨rfl, ⟨rfl, trivial, trivial⟩, rfl, trivial, rfl, trivial, trivial⟩

end WinRadius
