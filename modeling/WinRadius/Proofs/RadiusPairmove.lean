/-
What `radius_pairmove` makes of the items of an `update` section.

`idealItem` says what an item is for: it is about the pairs that are left of
the original list, those neither deleted nor overwritten. The function does
that for every operator but `<=` and `>=`: of the pairs violating such a
bound it replaces the first only, and it appends the item where pairs are
left and none of them violates the bound (`moveItem_iff`).
-/
import WinRadius.Model.RadiusPairmove

namespace WinRadius

variable {item : ValuePair} {slot : Slot} {slots : List Slot} {st : ToList}
  {p : Slot → Bool}

-- ======== what an item is for

/-- An original pair of the number of the item is left in the slot. -/
def Slot.left (slot : Slot) (item : ValuePair) : Bool :=
  match slot.vp with
  | none => false
  | some vp => !slot.edited && vp.attr == item.attr

/-- The pair in the slot compares equal to the item. -/
def comparesEqual (item : ValuePair) (slot : Slot) : Bool :=
  match slot.vp with
  | none => false
  | some vp => radiusCompareVps { item with op := .opCmpEq } vp == 0

/-- The value in the slot is on the wrong side of the bound. -/
def overBound (item : ValuePair) (slot : Slot) : Bool :=
  match slot.vp with
  | none => false
  | some vp =>
      match item.op with
      | .opLe => item.lvalue < vp.lvalue
      | .opGe => vp.lvalue < item.lvalue
      | _ => false

/-- The first slot that `p` holds of, overwritten. -/
def overwriteFirst (p : Slot → Bool) (item : ValuePair) :
    List Slot → List Slot
  | [] => []
  | slot :: slots =>
      if p slot then ⟨some item, true⟩ :: slots
      else slot :: overwriteFirst p item slots

/-- The item behind the list. -/
def ToList.append (st : ToList) (item : ValuePair) : ToList :=
  { st with appended := st.appended ++ [item] }

/-- The pairs that are left and that `p` holds of are deleted. -/
def ToList.drop (st : ToList) (item : ValuePair) (p : Slot → Bool) : ToList :=
  { st with slots := st.slots.map fun slot =>
      if slot.left item && p slot then { slot with vp := none } else slot }

/-- The pairs that are left and that `p` holds of are overwritten. -/
def ToList.replace (st : ToList) (item : ValuePair) (p : Slot → Bool) :
    ToList :=
  { st with slots := st.slots.map fun slot =>
      if slot.left item && p slot then ⟨some item, true⟩ else slot }

/-- An item applied to the original pairs. -/
def idealItem (st : ToList) (item : ValuePair) : ToList :=
  let anyLeft := st.slots.any fun slot => slot.left item
  match item.op with
  | .opAdd => st.append item
  | .opEq => if anyLeft then st else st.append item
  | .opSet =>
      if anyLeft then
        { st with slots :=
            overwriteFirst (fun slot => slot.left item) item st.slots }
      else st.append item
  | .opSub => st.drop item (comparesEqual item)
  | .opCmpEq => st.drop item fun slot => !comparesEqual item slot
  | .opCmpFalse => st.drop item fun _ => true
  | .opLe | .opGe =>
      if anyLeft then st.replace item (overBound item) else st.append item
  | _ => st

/-- The original pairs that are left, in their order. -/
def survivors (slots : List Slot) : List ValuePair :=
  slots.filterMap fun slot => if slot.edited then none else slot.vp

-- ======== where it is what is done

/-- `radius_compare_vps` takes the pair to violate the bound. -/
def comparesOver (item : ValuePair) (slot : Slot) : Bool :=
  match slot.vp with
  | none => false
  | some vp =>
      let rcode := radiusCompareVps { item with op := .opCmpEq } vp
      match item.op with
      | .opLe => 0 < rcode
      | .opGe => rcode < 0
      | _ => false

/-- Among the pairs that are left, one violates the bound and is found by
the comparison, which finds none before it. -/
def OneOver (item : ValuePair) (slots : List Slot) : Prop :=
  ∃ before slot after, slots = before ++ slot :: after ∧
    (slot.left item ∧ overBound item slot ∧ comparesOver item slot) ∧
    (∀ other ∈ before, other.left item →
      overBound item other = false ∧ comparesOver item other = false) ∧
    ∀ other ∈ after, other.left item → overBound item other = false

/-- The items that are not bounds, and the bounds that find nothing left or
exactly one pair to replace. -/
def Bounded (st : ToList) (item : ValuePair) : Prop :=
  (item.op = .opLe ∨ item.op = .opGe) →
    (∀ slot ∈ st.slots, slot.left item = false) ∨ OneOver item st.slots

/-- Every item is, when it is its turn. -/
def BoundedAll : ToList → List ValuePair → Prop
  | _, [] => True
  | st, item :: items => Bounded st item ∧ BoundedAll (idealItem st item) items

-- ======== the loop

theorem moveLoop_delete
    (h : ∀ slot ∈ slots, slotMove slot item = if p slot then .delete else .skip) :
    moveLoop item slots = some
      (slots.map fun slot => if p slot then { slot with vp := none } else slot,
        some item, false) := by
  induction slots with
  | nil => rfl
  | cons slot slots ih =>
      have htail := ih fun s hs => h s (List.mem_cons_of_mem _ hs)
      rw [moveLoop, h slot List.mem_cons_self]
      cases hp : p slot with
      | true => simp [htail, hp]
      | false => simp [htail, hp]

theorem moveLoop_found
    (h : ∀ slot ∈ slots, slotMove slot item = if p slot then .found else .skip) :
    moveLoop item slots = some (slots, some item, slots.any p) := by
  induction slots with
  | nil => rfl
  | cons slot slots ih =>
      have htail := ih fun s hs => h s (List.mem_cons_of_mem _ hs)
      rw [moveLoop, h slot List.mem_cons_self]
      cases hp : p slot with
      | true => simp [hp]
      | false => simp [htail, hp]

theorem moveLoop_replace
    (h : ∀ slot ∈ slots, slotMove slot item = if p slot then .replace else .skip) :
    moveLoop item slots = some
      (if slots.any p then (overwriteFirst p item slots, none, false)
        else (slots, some item, false)) := by
  induction slots with
  | nil => rfl
  | cons slot slots ih =>
      have htail := ih fun s hs => h s (List.mem_cons_of_mem _ hs)
      rw [moveLoop, h slot List.mem_cons_self, overwriteFirst]
      cases hp : p slot with
      | true => simp [hp]
      | false =>
          simp only [htail, hp, List.any_cons, Bool.false_or,
            Bool.false_eq_true, if_false, Option.map_some]
          congr 1
          split
          · rfl
          · rfl

/-- Nothing is put between the pairs that are left. -/
theorem moveLoop_survivors {slots' : List Slot} {rest : Option ValuePair}
    {found : Bool} (h : moveLoop item slots = some (slots', rest, found)) :
    (survivors slots').Sublist (survivors slots) := by
  induction slots generalizing slots' rest found with
  | nil =>
      rw [moveLoop] at h
      cases h
      exact List.Sublist.refl _
  | cons slot slots ih =>
      have hcons : ∀ (s s' : Slot) {ss ss' : List Slot},
          (survivors ss').Sublist (survivors ss) →
          (s' = s ∨ s'.edited = true ∨ s'.vp = none) →
          (survivors (s' :: ss')).Sublist (survivors (s :: ss)) := by
        intro s s' ss ss' hss hs
        have hone : (survivors [s']).Sublist (survivors [s]) := by
          obtain rfl | he | hv := hs
          · exact List.Sublist.refl _
          · simp [survivors, he]
          · simp [survivors, hv]
        have happ := hone.append hss
        rwa [survivors, survivors, survivors, survivors, ← List.filterMap_append,
          ← List.filterMap_append] at happ
      rw [moveLoop] at h
      split at h
      · obtain ⟨⟨ss, r⟩, hr, heq⟩ := Option.map_eq_some_iff.mp h
        cases heq
        exact hcons _ _ (ih hr) (Or.inl rfl)
      · obtain ⟨⟨ss, r⟩, hr, heq⟩ := Option.map_eq_some_iff.mp h
        cases heq
        exact hcons _ _ (ih hr) (Or.inr (Or.inr rfl))
      · cases h
        exact hcons _ _ (List.Sublist.refl _) (Or.inr (Or.inl rfl))
      · cases h
        exact List.Sublist.refl _
      · cases h

-- ======== the loop by operators

theorem left_iff : slot.left item = true ↔
    ∃ vp, slot.vp = some vp ∧ slot.edited = false ∧ item.attr = vp.attr := by
  unfold Slot.left
  cases slot.vp with
  | none => simp
  | some vp =>
      simp only [Bool.and_eq_true, Bool.not_eq_true', beq_iff_eq,
        Option.some.injEq, exists_eq_left']
      exact and_congr_right fun _ => eq_comm

theorem slotMove_skip (h : slot.left item = false) :
    slotMove slot item = .skip := by
  unfold slotMove
  split
  · rfl
  · next vp hvp =>
      split
      · rfl
      · next he =>
          split
          · rfl
          · next ha =>
              have : slot.left item = true :=
                left_iff.mpr ⟨vp, hvp, eq_false_of_ne_true he, not_not.mp ha⟩
              rw [h] at this
              cases this

theorem slotMove_set (h : item.op = .opSet) :
    slotMove slot item = if slot.left item then .replace else .skip := by
  cases hl : slot.left item with
  | false => exact slotMove_skip hl
  | true =>
      obtain ⟨vp, hvp, he, ha⟩ := left_iff.mp hl
      simp [slotMove, hvp, he, ha, h]

theorem slotMove_eq (h : item.op = .opEq) :
    slotMove slot item = if slot.left item then .found else .skip := by
  cases hl : slot.left item with
  | false => exact slotMove_skip hl
  | true =>
      obtain ⟨vp, hvp, he, ha⟩ := left_iff.mp hl
      simp [slotMove, hvp, he, ha, h]

/-- The operators that delete, and what they delete. -/
def Deletes (item : ValuePair) (q : Slot → Bool) : Prop :=
  (item.op = .opCmpFalse ∧ q = fun _ => true)
    ∨ (item.op = .opSub ∧ q = comparesEqual item)
    ∨ (item.op = .opCmpEq ∧ q = fun slot => !comparesEqual item slot)

theorem slotMove_delete {q : Slot → Bool} (h : Deletes item q) :
    slotMove slot item =
      if slot.left item && q slot then .delete else .skip := by
  cases hl : slot.left item with
  | false => exact slotMove_skip hl
  | true =>
      obtain ⟨vp, hvp, he, ha⟩ := left_iff.mp hl
      obtain ⟨hop, rfl⟩ | ⟨hop, rfl⟩ | ⟨hop, rfl⟩ := h
      · simp [slotMove, hvp, he, ha, hop]
      · simp [slotMove, comparesEqual, hvp, he, ha, hop]
      · simp [slotMove, comparesEqual, hvp, he, ha, hop]

theorem slotMove_bound (h : item.op = .opLe ∨ item.op = .opGe) :
    slotMove slot item =
      if slot.left item && comparesOver item slot then .replace
      else .skip := by
  cases hl : slot.left item with
  | false => exact slotMove_skip hl
  | true =>
      obtain ⟨vp, hvp, he, ha⟩ := left_iff.mp hl
      obtain hop | hop := h
      · simp [slotMove, comparesOver, hvp, he, ha, hop]
      · simp [slotMove, comparesOver, hvp, he, ha, hop]

-- ======== the items

theorem moveItem_delete {q : Slot → Bool} (h : Deletes item q) :
    moveItem st item = some (st.drop item q) := by
  have hop : item.op ≠ .opAdd ∧ ¬ (item.op = .opEq ∨ item.op = .opLe
      ∨ item.op = .opGe ∨ item.op = .opSet) := by
    obtain ⟨hop, -⟩ | ⟨hop, -⟩ | ⟨hop, -⟩ := h
    · simp [hop]
    · simp [hop]
    · simp [hop]
  rw [moveItem, if_neg hop.1, moveLoop_delete fun _ _ => slotMove_delete h]
  dsimp only
  rw [if_neg fun hx => hop.2 hx.2]
  rfl

/-- A bound: the first pair the comparison finds is replaced, and without
one the item is appended. -/
theorem moveItem_bound (h : item.op = .opLe ∨ item.op = .opGe) :
    moveItem st item = some
      (if st.slots.any fun slot => slot.left item && comparesOver item slot then
        ⟨overwriteFirst (fun slot => slot.left item && comparesOver item slot)
          item st.slots, st.appended⟩
      else st.append item) := by
  have hop : item.op ≠ .opAdd := by
    obtain hop | hop := h
    · simp [hop]
    · simp [hop]
  rw [moveItem, if_neg hop, moveLoop_replace fun _ _ => slotMove_bound h]
  split
  · next heq =>
      cases heq
  · next heq =>
      split at heq
      · next hany =>
          cases heq
          rw [if_pos hany]
      · cases heq
  · next heq =>
      split at heq
      · cases heq
      · next hany =>
          cases heq
          rw [if_neg hany, if_pos ⟨rfl, Or.inr (h.imp_right Or.inl)⟩]
          rfl

/-- Every operator but the bounds does what it is for. -/
theorem moveItem_ideal (haccepts : updateAccepts item)
    (hop : ¬ (item.op = .opLe ∨ item.op = .opGe)) :
    moveItem st item = some (idealItem st item) := by
  cases h : item.op with
  | opAdd => simp [moveItem, idealItem, h, ToList.append]
  | opEq =>
      rw [moveItem, if_neg (by simp [h]),
        moveLoop_found fun _ _ => slotMove_eq h]
      cases hany : st.slots.any fun slot => slot.left item with
      | true => simp [idealItem, h, hany]
      | false => simp [idealItem, h, hany, ToList.append]
  | opSet =>
      rw [moveItem, if_neg (by simp [h]),
        moveLoop_replace fun _ _ => slotMove_set h]
      cases hany : st.slots.any fun slot => slot.left item with
      | true => simp [idealItem, h, hany]
      | false => simp [idealItem, h, hany, ToList.append]
  | opSub =>
      rw [moveItem_delete (Or.inr (Or.inl ⟨h, rfl⟩))]
      simp [idealItem, h]
  | opCmpEq =>
      rw [moveItem_delete (Or.inr (Or.inr ⟨h, rfl⟩))]
      simp [idealItem, h]
  | opCmpFalse =>
      rw [moveItem_delete (Or.inl ⟨h, rfl⟩)]
      simp [idealItem, h]
  | opLe => exact absurd (Or.inl h) hop
  | opGe => exact absurd (Or.inr h) hop
  | _ => simp [updateAccepts, h] at haccepts

-- ======== the bounds

/-- What is overwritten does not look like what is left. -/
def Marks (p : Slot → Bool) : Prop := ∀ slot, p slot = true → slot.edited = false

theorem marks_left (q : Slot → Bool) :
    Marks fun slot => slot.left item && q slot := by
  intro slot h
  obtain ⟨vp, -, he, -⟩ := left_iff.mp (Bool.and_eq_true_iff.mp h).1
  exact he

theorem map_eq_self_iff {bad : Slot → Bool} (hover : Marks bad) :
    slots.map (fun slot => if bad slot then ⟨some item, true⟩ else slot)
        = slots ↔ ∀ slot ∈ slots, bad slot = false := by
  have hid := List.map_inj_left (l := slots) (g := id)
    (f := fun slot => if bad slot then ⟨some item, true⟩ else slot)
  rw [List.map_id] at hid
  rw [hid]
  refine forall₂_congr fun slot _ => ?_
  cases h : bad slot with
  | false => simp
  | true =>
      simp only [if_true, Bool.true_eq_false, iff_false]
      intro heq
      have he := hover slot h
      rw [show slot = _ from heq.symm] at he
      cases he

/-- To overwrite the first of one kind is to overwrite all of another
exactly when there is one of the second kind, and it is that first. -/
theorem overwriteFirst_eq_map {bad found : Slot → Bool}
    (hover : Marks bad) (hfound : Marks found) :
    (slots.any found = true ∧ overwriteFirst found item slots =
      slots.map fun slot => if bad slot then ⟨some item, true⟩ else slot) ↔
    ∃ before slot after, slots = before ++ slot :: after ∧
      (bad slot = true ∧ found slot = true) ∧
      (∀ other ∈ before, bad other = false ∧ found other = false) ∧
      ∀ other ∈ after, bad other = false := by
  induction slots with
  | nil => simp
  | cons head slots ih =>
      constructor
      · intro ⟨hany, heq⟩
        rw [overwriteFirst, List.map_cons] at heq
        cases hf : found head with
        | true =>
            rw [hf, if_pos rfl] at heq
            obtain ⟨hhead, htail⟩ := List.cons.inj heq
            have ho : bad head = true := by
              by_contra ho
              rw [if_neg ho] at hhead
              have he := hfound head hf
              rw [← hhead] at he
              cases he
            exact ⟨[], head, slots, rfl, ⟨ho, hf⟩, by simp,
              (map_eq_self_iff hover).mp htail.symm⟩
        | false =>
            rw [hf, if_neg (by simp)] at heq
            obtain ⟨hhead, htail⟩ := List.cons.inj heq
            have ho : bad head = false := by
              by_contra ho
              rw [Bool.not_eq_false] at ho
              rw [if_pos ho] at hhead
              have he := hover head ho
              rw [hhead] at he
              cases he
            rw [List.any_cons, hf, Bool.false_or] at hany
            obtain ⟨before, slot, after, rfl, hslot, hbefore, hafter⟩ :=
              ih.mp ⟨hany, htail⟩
            refine ⟨head :: before, slot, after, rfl, hslot, ?_, hafter⟩
            intro other hmem
            obtain rfl | hmem := List.mem_cons.mp hmem
            · exact ⟨ho, hf⟩
            · exact hbefore other hmem
      · intro ⟨before, slot, after, hsplit, hslot, hbefore, hafter⟩
        cases before with
        | nil =>
            obtain ⟨rfl, rfl⟩ := List.cons.inj hsplit
            rw [overwriteFirst, List.map_cons, hslot.1, hslot.2, if_pos rfl,
              (map_eq_self_iff hover).mpr hafter]
            exact ⟨by simp [hslot.2], rfl⟩
        | cons b before =>
            obtain ⟨rfl, htail⟩ := List.cons.inj hsplit
            obtain ⟨ho, hf⟩ := hbefore head List.mem_cons_self
            obtain ⟨hany, heq⟩ := ih.mpr ⟨before, slot, after, htail, hslot,
              fun other hmem => hbefore other (List.mem_cons_of_mem _ hmem),
              hafter⟩
            rw [overwriteFirst, List.map_cons, ho, hf, heq]
            exact ⟨by simp [hany], rfl⟩

/-- Of the pairs that are left, and of all slots. -/
theorem oneOver_iff : OneOver item slots ↔
    ∃ before slot after, slots = before ++ slot :: after ∧
      ((slot.left item && overBound item slot) = true
        ∧ (slot.left item && comparesOver item slot) = true) ∧
      (∀ other ∈ before, (other.left item && overBound item other) = false
        ∧ (other.left item && comparesOver item other) = false) ∧
      ∀ other ∈ after, (other.left item && overBound item other) = false := by
  refine exists_congr fun before => exists_congr fun slot =>
    exists_congr fun after => and_congr_right fun _ => and_congr ?_
      (and_congr (forall₂_congr fun other _ => ?_)
        (forall₂_congr fun other _ => ?_))
  · simp only [Bool.and_eq_true]
    tauto
  · cases other.left item with
    | false => simp
    | true => simp
  · cases other.left item with
    | false => simp
    | true => simp

/-- An item does what it is for exactly where it is `Bounded`. -/
theorem moveItem_iff (haccepts : updateAccepts item) :
    moveItem st item = some (idealItem st item) ↔ Bounded st item := by
  by_cases hop : item.op = .opLe ∨ item.op = .opGe
  · have hideal : idealItem st item =
        if st.slots.any fun slot => slot.left item then
          st.replace item (overBound item)
        else st.append item := by
      obtain h | h := hop
      · simp [idealItem, h]
      · simp [idealItem, h]
    rw [moveItem_bound hop, hideal, Option.some.injEq]
    cases hleft : st.slots.any fun slot => slot.left item with
    | false =>
        have hnone := List.any_eq_false.mp hleft
        have hfound : (st.slots.any fun slot =>
            slot.left item && comparesOver item slot) = false := by
          rw [List.any_eq_false]
          intro slot hmem h
          exact hnone slot hmem (Bool.and_eq_true_iff.mp h).1
        rw [hfound]
        refine iff_of_true rfl fun _ => Or.inl fun slot hmem => ?_
        exact eq_false_of_ne_true (hnone slot hmem)
    | true =>
        have hsome : ¬ ∀ slot ∈ st.slots, slot.left item = false := by
          intro hnone
          obtain ⟨slot, hmem, hslot⟩ := List.any_eq_true.mp hleft
          rw [hnone slot hmem] at hslot
          cases hslot
        have hbounded : Bounded st item ↔ OneOver item st.slots :=
          ⟨fun h => (h hop).resolve_left hsome, fun h _ => Or.inr h⟩
        rw [hbounded, oneOver_iff, ← overwriteFirst_eq_map (marks_left _)
          (marks_left _), if_pos rfl]
        constructor
        · intro h
          split at h
          · next hany => exact ⟨hany, congrArg ToList.slots h⟩
          · -- appended, though some are left
            have happ := congrArg (fun st => st.appended.length) h
            simp [ToList.append, ToList.replace] at happ
        · intro ⟨hany, heq⟩
          rw [if_pos hany, heq]
          rfl
  · exact iff_of_true (moveItem_ideal haccepts hop) fun h => absurd h hop

-- ======== the run

/-- The assertion is not reached. -/
theorem moveItem_some (st : ToList) (haccepts : updateAccepts item) :
    ∃ st', moveItem st item = some st' := by
  by_cases hop : item.op = .opLe ∨ item.op = .opGe
  · exact ⟨_, moveItem_bound hop⟩
  · exact ⟨_, moveItem_ideal haccepts hop⟩

theorem moveItem_survivors {st' : ToList} (h : moveItem st item = some st') :
    (survivors st'.slots).Sublist (survivors st.slots) := by
  unfold moveItem at h
  split at h
  · cases h
    exact List.Sublist.refl _
  · split at h
    · cases h
    · next heq =>
        cases h
        exact moveLoop_survivors heq
    · next heq =>
        split at h
        · cases h
          exact moveLoop_survivors heq
        · cases h
          exact moveLoop_survivors heq

theorem foldlM_moveItem (st : ToList) {items : List ValuePair}
    (haccepts : ∀ item ∈ items, updateAccepts item) :
    ∃ st', items.foldlM moveItem st = some st'
      ∧ (survivors st'.slots).Sublist (survivors st.slots) := by
  induction items generalizing st with
  | nil => exact ⟨st, rfl, List.Sublist.refl _⟩
  | cons item items ih =>
      obtain ⟨st₁, h₁⟩ := moveItem_some st (haccepts item List.mem_cons_self)
      obtain ⟨st₂, h₂, hsub⟩ := ih st₁ fun item' hmem =>
        haccepts item' (List.mem_cons_of_mem _ hmem)
      refine ⟨st₂, ?_, hsub.trans (moveItem_survivors h₁)⟩
      rw [List.foldlM_cons, h₁]
      exact h₂

/-- The items are applied as they should be, one after the other, exactly
where each of them is. -/
theorem boundedAll_iff {items : List ValuePair}
    (haccepts : ∀ item ∈ items, updateAccepts item) :
    (∀ n, (items.take n).foldlM moveItem st =
      some ((items.take n).foldl idealItem st)) ↔ BoundedAll st items := by
  induction items generalizing st with
  | nil => simp [BoundedAll]
  | cons item items ih =>
      have hitem := haccepts item List.mem_cons_self
      rw [BoundedAll, ← moveItem_iff hitem, ← ih fun item' hmem =>
        haccepts item' (List.mem_cons_of_mem _ hmem)]
      constructor
      · intro h
        have hone : moveItem st item = some (idealItem st item) := by
          have := h 1
          simpa [List.foldlM_cons] using this
        refine ⟨hone, fun n => ?_⟩
        have := h (n + 1)
        rwa [List.take_succ_cons, List.foldlM_cons, List.foldl_cons, hone] at this
      · intro ⟨hone, hrest⟩ n
        cases n with
        | zero => rfl
        | succ n =>
            rw [List.take_succ_cons, List.foldlM_cons, List.foldl_cons, hone]
            exact hrest n

theorem survivors_toArray (vps : List ValuePair) :
    survivors (toArray vps).slots = vps := by
  rw [survivors, toArray, List.filterMap_map]
  exact List.filterMap_some

/-- Whatever an `update` section holds, `radius_pairmove` comes to its end,
with the pairs that are left of the list in their order; and each item is
applied as it should be exactly where it is. -/
theorem radiusPairmove_iff (toVps fromVps : List ValuePair)
    (haccepts : ∀ item ∈ fromVps, updateAccepts item) :
    (∃ st, radiusPairmove toVps fromVps = some (rechain st)
      ∧ fromVps.foldlM moveItem (toArray toVps) = some st
      ∧ (survivors st.slots).Sublist toVps)
    ∧ ((∀ n, (fromVps.take n).foldlM moveItem (toArray toVps) =
        some ((fromVps.take n).foldl idealItem (toArray toVps)))
      ↔ BoundedAll (toArray toVps) fromVps)
    ∧ (BoundedAll (toArray toVps) fromVps →
      radiusPairmove toVps fromVps =
        some (rechain (fromVps.foldl idealItem (toArray toVps)))) := by
  refine ⟨?_, boundedAll_iff haccepts, fun h => ?_⟩
  · obtain ⟨st, hst, hsub⟩ := foldlM_moveItem (toArray toVps) haccepts
    rw [survivors_toArray] at hsub
    exact ⟨st, by rw [radiusPairmove, hst]; rfl, hst, hsub⟩
  · have hall := (boundedAll_iff haccepts).mpr h fromVps.length
    rw [List.take_length] at hall
    rw [radiusPairmove, hall]
    rfl

/-- A Session-Timeout of a reply. -/
def timeoutOf (seconds : UInt32) : ValuePair where
  attr := 27
  type := .integer
  length := 4
  lvalue := seconds

/-- The item `Session-Timeout <= 200`. -/
def atMost200 : ValuePair := { timeoutOf 200 with op := .opLe }

/-- A timeout within the bound gets a second one, and of two that are
beyond it the second stays. -/
theorem timeout_appended :
    updateAccepts atMost200 = true
      ∧ radiusPairmove [timeoutOf 100] [atMost200]
        = some [timeoutOf 100, timeoutOf 200]
      ∧ rechain (idealItem (toArray [timeoutOf 100]) atMost200)
        = [timeoutOf 100]
      ∧ radiusPairmove [timeoutOf 300, timeoutOf 400] [atMost200]
        = some [timeoutOf 200, timeoutOf 400] := by
  decide

/-- One timeout beyond the bound is replaced. -/
theorem radiusPairmove_iff_timeout :
    BoundedAll (toArray [timeoutOf 300]) [atMost200]
      ∧ radiusPairmove [timeoutOf 300] [atMost200]
        = some (rechain (idealItem (toArray [timeoutOf 300]) atMost200)) := by
  have hbounded : BoundedAll (toArray [timeoutOf 300]) [atMost200] := by
    refine ⟨fun _ => Or.inr ?_, trivial⟩
    exact ⟨[], ⟨some (timeoutOf 300), false⟩, [], rfl, by decide,
      by simp, by simp⟩
  exact ⟨hbounded, (radiusPairmove_iff [timeoutOf 300] [atMost200]
    (by decide)).2.2 hbounded⟩

end WinRadius
