/-
What a check list is taken to mean by `paircompare`.

An item is satisfied by one instance of the attribute it is compared with
(`Satisfied`). The search with its jump back finds such an instance
(`tryAgain_spec`; the induction is on the rest of the request), so the
result says whether every item that is compared is satisfied, and reads no
instance behind the first that satisfies an item.

Numbers of attributes are kept in an `int`: those from 2^31 on, and only
those where no comparison is registered with a negative one, turn up
negative, and then the search is not made. The results here are about lists
without such items.
-/
import WinRadius.Model.Compare
import WinRadius.Lib.Run

namespace WinRadius

open Lib

variable {cmp : List Cmp} {xlat : ValuePair → ValuePair} {other : Int}
  {request : List ValuePair} {item : CheckItem} {check : List CheckItem}

-- ======== satisfaction

/-- The instances in the request an item is compared with. -/
def instances (cmp : List Cmp) (request : List ValuePair)
    (item : CheckItem) : List ValuePair :=
  request.filter fun vp =>
    attrInt vp.attr = otherattr cmp item.vp.attr
      ∨ otherattr cmp item.vp.attr = 0

/-- The comparison with an instance comes out as the operator asks. -/
def satisfiedBy (cmp : List Cmp) (xlat : ValuePair → ValuePair)
    (item : CheckItem) (vp : ValuePair) : Bool :=
  opAsks item.vp.op
    (radiusCallbackCompare cmp vp (item.expand xlat).vp)

/-- `=*` asks for an instance, `!*` for none, any other operator for one
that it is satisfied by. -/
def Satisfied (cmp : List Cmp) (xlat : ValuePair → ValuePair)
    (request : List ValuePair) (item : CheckItem) : Prop :=
  match item.vp.op with
  | .opCmpTrue => instances cmp request item ≠ []
  | .opCmpFalse => instances cmp request item = []
  | _ => ∃ vp ∈ instances cmp request item, satisfiedBy cmp xlat item vp

/-- The instances up to the first that satisfies the item. -/
def seenInstances (cmp : List Cmp) (xlat : ValuePair → ValuePair)
    (request : List ValuePair) (item : CheckItem) : List ValuePair :=
  upToFirst (satisfiedBy cmp xlat item) (instances cmp request item)

-- ======== expansion

theorem expand_op : (item.expand xlat).vp.op = item.vp.op := by
  unfold CheckItem.expand
  split
  · rfl
  · rfl

/-- An item is expanded once. -/
theorem expand_expand : (item.expand xlat).expand xlat = item.expand xlat := by
  by_cases hx : item.doXlat = true
  · have hdone : (item.expand xlat).doXlat = false := by
      unfold CheckItem.expand
      rw [if_pos hx]
    rw [CheckItem.expand, if_neg (by rw [hdone]; exact Bool.false_ne_true)]
  · have hsame : item.expand xlat = item := by
      unfold CheckItem.expand
      rw [if_neg hx]
    rw [hsame, hsame]

-- ======== the search

/-- The search for an item that is not `!*`: it goes on to the next item
exactly when an instance satisfies this one. -/
theorem tryAgain_search (hother : 0 ≤ other)
    (hop : item.vp.op ≠ .opCmpFalse) :
    tryAgain cmp xlat other request item 0 =
      if ∃ vp ∈ request, (attrInt vp.attr = other ∨ other = 0)
          ∧ opAsks item.vp.op (radiusCallbackCompare cmp vp
            (item.expand xlat).vp) = true then .next 0
      else .fail := by
  induction request generalizing item with
  | nil =>
      rw [tryAgain, if_neg hop, if_neg]
      intro ⟨vp, hvp, _⟩
      cases hvp
  | cons vp rest ih =>
      rw [tryAgain]
      simp only [List.mem_cons, exists_eq_or_imp]
      by_cases hskip : 0 ≤ other ∧ attrInt vp.attr ≠ other ∧ other ≠ 0
      · -- not an instance
        have hnot : ¬ (attrInt vp.attr = other ∨ other = 0) := by
          intro h
          obtain h | h := h
          · exact hskip.2.1 h
          · exact hskip.2.2 h
        rw [if_pos hskip, ih hop]
        congr 1
        rw [eq_iff_iff]
        constructor
        · exact Or.inr
        · intro h
          obtain ⟨h, -⟩ | h := h
          · exact absurd h hnot
          · exact h
      · have hinst : attrInt vp.attr = other ∨ other = 0 := by
          by_contra h
          push Not at h
          exact hskip ⟨hother, h.1, h.2⟩
        rw [if_neg hskip, if_neg hop, expand_op]
        by_cases hasks : opAsks item.vp.op
            (radiusCallbackCompare cmp vp (item.expand xlat).vp) = true
        · rw [if_pos (Or.inl ⟨hinst, hasks⟩), if_pos hasks,
            if_neg fun h => h.1 rfl]
        · have hop' : (item.expand xlat).vp.op ≠ .opCmpFalse := by
            rw [expand_op]
            exact hop
          rw [if_neg hasks, if_pos ⟨by decide, hother⟩, ih hop', expand_op,
            expand_expand]
          congr 1
          rw [eq_iff_iff]
          constructor
          · exact Or.inr
          · intro h
            obtain ⟨-, h⟩ | h := h
            · exact absurd h hasks
            · exact h

/-- The search for a `!*` item. -/
theorem tryAgain_absent (hother : 0 ≤ other)
    (hop : item.vp.op = .opCmpFalse) :
    tryAgain cmp xlat other request item 0 =
      if ∃ vp ∈ request, attrInt vp.attr = other ∨ other = 0 then .fail
      else .next 0 := by
  induction request with
  | nil =>
      rw [tryAgain, if_pos hop, if_neg]
      intro ⟨vp, hvp, _⟩
      cases hvp
  | cons vp rest ih =>
      rw [tryAgain]
      simp only [List.mem_cons, exists_eq_or_imp]
      by_cases hskip : 0 ≤ other ∧ attrInt vp.attr ≠ other ∧ other ≠ 0
      · have hnot : ¬ (attrInt vp.attr = other ∨ other = 0) := by
          intro h
          obtain h | h := h
          · exact hskip.2.1 h
          · exact hskip.2.2 h
        rw [if_pos hskip, ih]
        congr 1
        rw [eq_iff_iff]
        constructor
        · exact Or.inr
        · intro h
          obtain h | h := h
          · exact absurd h hnot
          · exact h
      · have hinst : attrInt vp.attr = other ∨ other = 0 := by
          by_contra h
          push Not at h
          exact hskip ⟨hother, h.1, h.2⟩
        rw [if_neg hskip, if_pos hop, if_pos (Or.inl hinst)]

theorem exists_instance_iff {p : ValuePair → Prop} :
    (∃ vp ∈ instances cmp request item, p vp)
      ↔ ∃ vp ∈ request, (attrInt vp.attr = otherattr cmp item.vp.attr
          ∨ otherattr cmp item.vp.attr = 0) ∧ p vp := by
  unfold instances
  simp only [List.mem_filter, decide_eq_true_eq, and_assoc]

theorem instances_ne_nil :
    instances cmp request item ≠ []
      ↔ ∃ vp ∈ request, attrInt vp.attr = otherattr cmp item.vp.attr
          ∨ otherattr cmp item.vp.attr = 0 := by
  constructor
  · intro h
    obtain ⟨vp, hvp⟩ := List.exists_mem_of_ne_nil _ h
    unfold instances at hvp
    rw [List.mem_filter, decide_eq_true_eq] at hvp
    exact ⟨vp, hvp⟩
  · intro ⟨vp, hvp, hinst⟩
    apply List.ne_nil_of_mem (a := vp)
    unfold instances
    rw [List.mem_filter, decide_eq_true_eq]
    exact ⟨hvp, hinst⟩

/-- What an item comes to. -/
theorem tryAgain_spec (xlat : ValuePair → ValuePair)
    (hother : 0 ≤ otherattr cmp item.vp.attr) :
    (tryAgain cmp xlat (otherattr cmp item.vp.attr) request item 0 = .next 0
        ∧ Satisfied cmp xlat request item)
      ∨ (tryAgain cmp xlat (otherattr cmp item.vp.attr) request item 0
          = .fail ∧ ¬ Satisfied cmp xlat request item) := by
  by_cases hfalse : item.vp.op = .opCmpFalse
  · have hsat : Satisfied cmp xlat request item
        ↔ instances cmp request item = [] := by
      unfold Satisfied
      rw [hfalse]
    rw [tryAgain_absent hother hfalse, hsat]
    split
    · next h => exact Or.inr ⟨rfl, instances_ne_nil.mpr h⟩
    · next h => exact Or.inl ⟨rfl, not_not.mp (mt instances_ne_nil.mp h)⟩
  · have hsat : Satisfied cmp xlat request item
        ↔ ∃ vp ∈ instances cmp request item, satisfiedBy cmp xlat item vp := by
      by_cases htrue : item.vp.op = .opCmpTrue
      · -- the comparison for `=*` is always equal
        have hall : ∀ vp, satisfiedBy cmp xlat item vp = true := by
          intro vp
          unfold satisfiedBy radiusCallbackCompare
          rw [expand_op, if_pos htrue, htrue]
          rfl
        unfold Satisfied
        rw [htrue]
        dsimp only
        constructor
        · intro h
          obtain ⟨vp, hvp⟩ := List.exists_mem_of_ne_nil _ h
          exact ⟨vp, hvp, hall vp⟩
        · intro ⟨vp, hvp, _⟩
          exact List.ne_nil_of_mem hvp
      · unfold Satisfied
        split
        · next h => exact absurd h htrue
        · next h => exact absurd h hfalse
        · exact Iff.rfl
    rw [tryAgain_search hother hfalse, hsat, exists_instance_iff]
    unfold satisfiedBy
    split
    · next h => exact Or.inl ⟨rfl, h⟩
    · next h => exact Or.inr ⟨rfl, h⟩

-- ======== the list

/-- The items that are compared have numbers that are not negative. -/
def Searched (cmp : List Cmp) (request : List ValuePair)
    (check : List CheckItem) : Prop :=
  ∀ item ∈ check, skipItem request item = false →
    0 ≤ otherattr cmp item.vp.attr

/-- The items that are compared are satisfied. -/
def AllSatisfied (cmp : List Cmp) (xlat : ValuePair → ValuePair)
    (request : List ValuePair) (check : List CheckItem) : Prop :=
  ∀ item ∈ check, skipItem request item = false →
    Satisfied cmp xlat request item

/-- The loop: 0 and all are satisfied, or -1 and one is not. -/
theorem paircompareLoop_spec (xlat : ValuePair → ValuePair)
    (h : Searched cmp request check) :
    (paircompareLoop cmp xlat request check 0 = 0
        ∧ AllSatisfied cmp xlat request check)
      ∨ (paircompareLoop cmp xlat request check 0 = -1
        ∧ ¬ AllSatisfied cmp xlat request check) := by
  unfold AllSatisfied
  induction check with
  | nil =>
      refine Or.inl ⟨rfl, fun item hitem => ?_⟩
      cases hitem
  | cons item check ih =>
      have hrest : Searched cmp request check := fun x hx =>
        h x (List.mem_cons_of_mem item hx)
      rw [paircompareLoop]
      simp only [List.forall_mem_cons]
      by_cases hskip : skipItem request item = true
      · rw [if_pos hskip, hskip]
        simp only [Bool.true_eq_false, false_imp_iff, true_and]
        exact ih hrest
      · have hskip' : skipItem request item = false :=
          Bool.eq_false_iff.mpr hskip
        rw [if_neg hskip]
        obtain ⟨hnext, hsat⟩ | ⟨hfail, hsat⟩ :=
          tryAgain_spec xlat (h item List.mem_cons_self hskip')
        · rw [hnext]
          obtain ⟨hzero, hall⟩ | ⟨hone, hall⟩ := ih hrest
          · exact Or.inl ⟨hzero, fun _ => hsat, hall⟩
          · exact Or.inr ⟨hone, fun hboth => hall hboth.2⟩
        · rw [hfail]
          exact Or.inr ⟨rfl, fun hboth => hsat (hboth.1 hskip')⟩

/-- Whether an item is satisfied is seen at the instances up to the first
that satisfies it. -/
theorem satisfied_congr {request' : List ValuePair}
    (h : seenInstances cmp xlat request item
      = seenInstances cmp xlat request' item) :
    Satisfied cmp xlat request item ↔ Satisfied cmp xlat request' item := by
  have hseen : ∀ r, seenInstances cmp xlat r item = []
      ↔ instances cmp r item = [] := fun _ => upToFirst_eq_nil
  have hnil : instances cmp request item = []
      ↔ instances cmp request' item = [] := by
    rw [← hseen, ← hseen, h]
  have hany : ∀ r, (∃ vp ∈ instances cmp r item, satisfiedBy cmp xlat item vp)
      ↔ (seenInstances cmp xlat r item).any (satisfiedBy cmp xlat item)
        = true := by
    intro r
    unfold seenInstances
    rw [any_upToFirst, List.any_eq_true]
  unfold Satisfied
  split
  · exact not_congr hnil
  · exact hnil
  · rw [hany, hany, h]

/-- For every request and every check list whose compared items have
numbers that are not negative: `paircompare` returns 0 if every item that
is compared is satisfied and else -1, and the same for every request that
has the same instances of each item up to the first that satisfies it. -/
theorem paircompare_iff (cmp : List Cmp) (xlat : ValuePair → ValuePair)
    (request : List ValuePair) (check : List CheckItem)
    (h : Searched cmp request check) :
    (paircompare cmp xlat request check = 0
        ↔ AllSatisfied cmp xlat request check)
      ∧ (paircompare cmp xlat request check = 0
        ∨ paircompare cmp xlat request check = -1)
      ∧ ∀ request' : List ValuePair,
          (∀ item ∈ check, skipItem request' item = skipItem request item
            ∧ seenInstances cmp xlat request' item
              = seenInstances cmp xlat request item) →
          paircompare cmp xlat request' check
            = paircompare cmp xlat request check := by
  have hspec := paircompareLoop_spec xlat h
  unfold paircompare
  refine ⟨?_, ?_, fun request' hsame => ?_⟩
  · obtain ⟨hzero, hall⟩ | ⟨hone, hall⟩ := hspec
    · exact iff_of_true hzero hall
    · exact iff_of_false (by rw [hone]; decide) hall
  · obtain ⟨hzero, -⟩ | ⟨hone, -⟩ := hspec
    · exact Or.inl hzero
    · exact Or.inr hone
  · have h' : Searched cmp request' check := by
      intro item hitem hskip
      rw [(hsame item hitem).1] at hskip
      exact h item hitem hskip
    have hiff : AllSatisfied cmp xlat request' check
        ↔ AllSatisfied cmp xlat request check := by
      apply forall₂_congr
      intro item hitem
      rw [(hsame item hitem).1, satisfied_congr (hsame item hitem).2]
    obtain ⟨hzero, hall⟩ | ⟨hone, hall⟩ := hspec
    · obtain ⟨hzero', -⟩ | ⟨-, hall'⟩ := paircompareLoop_spec xlat h'
      · rw [hzero, hzero']
      · exact absurd (hiff.mpr hall) hall'
    · obtain ⟨-, hall'⟩ | ⟨hone', -⟩ := paircompareLoop_spec xlat h'
      · exact absurd (hiff.mp hall') hall
      · rw [hone, hone']

/-- A password to be compared with that of a request. -/
def passwordItem : CheckItem where
  vp := { attr := pwUserPassword, type := .string, length := 1
          op := .opCmpEq, data := [120] }

/-- A request without a password passes: the item is not compared, though
no instance satisfies it. -/
theorem paircompare_no_password :
    paircompare [] id [] [passwordItem] = 0
      ∧ serverAttr passwordItem.vp.attr = false
      ∧ ¬ Satisfied [] id [] passwordItem := by
  refine ⟨by decide, by decide, ?_⟩
  intro ⟨vp, hvp, _⟩
  cases hvp

/-- The NAS of a request. -/
def nasItem : CheckItem where
  vp := { attr := 5, type := .integer, length := 4, op := .opCmpEq
          lvalue := 7 }

/-- One item, on a request with two instances. -/
theorem paircompare_iff_nas :
    (paircompare [] id [{ nasItem.vp with lvalue := 1 }, nasItem.vp]
          [nasItem] = 0
        ↔ AllSatisfied [] id [{ nasItem.vp with lvalue := 1 }, nasItem.vp]
          [nasItem])
      ∧ Searched [] [{ nasItem.vp with lvalue := 1 }, nasItem.vp]
        [nasItem] := by
  have h : Searched [] [{ nasItem.vp with lvalue := 1 }, nasItem.vp]
      [nasItem] := by
    intro item hitem _
    rw [List.mem_singleton.mp hitem]
    decide
  exact ⟨(paircompare_iff [] id _ [nasItem] h).1, h⟩

end WinRadius
