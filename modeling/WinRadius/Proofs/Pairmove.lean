/-
What `pairmove` promises of each item of `from`, and when it keeps it.

`Follows` is the promise, item by item, in terms of the two lists alone.
Two things break it, and a third when a password is looked for in the
list as it is now: `-=` compares only the first pair of its number and
then deletes all of them, the comparisons by regular expressions are not
among those that stay, and the password is looked for once, before the
loop. `StepFine` says when an item meets none of these; `itemStep_follows`
that this is exact.

That no item is lost (`stayed_sublist`) holds always.
-/
import WinRadius.Proofs.PairmoveRun

namespace WinRadius

open Lib

-- ======== the promise

/-- The operators that compare. -/
def isComparison (op : FrToken) : Bool :=
  staysInCheckList op || op == .opRegEq || op == .opRegNe

/-- The string of a pair is that of an item. -/
def sameString (item c : PairCell) : Bool :=
  cString c.2.data == cString item.2.data

/-- A pair that `-=` is to remove: of the number, with the value of the
item, if it has one. -/
def isSubtracted (item c : PairCell) : Bool :=
  hasAttr item.2.attr c
    && ((cString item.2.data).isEmpty || sameString item c)

/-- What is to become of an item and of `to`; `held` tells whether a
password is held back. Of other operators nothing is said. -/
def Follows (held : Bool) (T : List PairCell) (item : PairCell)
    (after : List PairCell × Fate) : Prop :=
  let vp := item.2
  if isComparison vp.op ∨ (isPassword vp.attr ∧ held) then
    after = (T, .stays)
  else if vp.op = .opAdd ∨ isRepeated vp.attr then
    after = (T ++ [item], .moved)
  else match vp.op with
    | .opEq =>
        if T.any (hasAttr vp.attr) then after = (T, .stays)
        else after = (T ++ [item], .moved)
    | .opSet =>
        if T.any (hasAttr vp.attr) then
          after = (setFirst vp T, .overwrites)
        else after = (T ++ [item], .moved)
    | .opSub => after = (T.filter fun c => !isSubtracted item c, .stays)
    | _ => True

/-- The pairs of the number are all to be subtracted, or none of them. -/
def Uniform (T : List PairCell) (item : PairCell) : Prop :=
  (∀ c ∈ T, hasAttr item.2.attr c → isSubtracted item c)
    ∨ ∀ c ∈ T, isSubtracted item c = false

/-- The first pair of the number is to be subtracted. -/
def Subtracts (T : List PairCell) (item : PairCell) : Prop :=
  ∃ c, T.find? (hasAttr item.2.attr) = some c ∧ isSubtracted item c

/-- An item, and `to` before it, for which the promise is kept. -/
def StepFine (hasPassword held : Bool) (T : List PairCell)
    (item : PairCell) : Prop :=
  let vp := item.2
  if hasPassword ∧ isPassword vp.attr then True
  else if staysInCheckList vp.op then True
  else if vp.op = .opRegEq ∨ vp.op = .opRegNe then False
  else if isPassword vp.attr ∧ held then
    (vp.op = .opEq ∧ T.any (hasAttr vp.attr))
      ∨ (vp.op = .opSub ∧ ¬ Subtracts T item)
  else if vp.op = .opSub ∧ ¬ isRepeated vp.attr then Uniform T item
  else True

-- ======== one item

section item

variable {hasPassword held : Bool} {T : List PairCell} {item old : PairCell}

theorem find_none_iff {attr : Nat} :
    T.find? (hasAttr attr) = none ↔ T.any (hasAttr attr) = false := by
  rw [List.find?_eq_none, List.any_eq_false]

theorem any_of_find {attr : Nat}
    (h : T.find? (hasAttr attr) = some old) :
    T.any (hasAttr attr) = true := by
  rw [List.any_eq_true]
  exact ⟨old, List.mem_of_find?_eq_some h, List.find?_some h⟩

/-- The test `pairmove` makes of the first pair it finds. -/
theorem isSubtracted_found
    (h : T.find? (hasAttr item.2.attr) = some old) :
    isSubtracted item old = true ↔ cString item.2.data = []
      ∨ cString old.2.data = cString item.2.data := by
  have hattr := List.find?_some h
  simp [isSubtracted, sameString, hattr, List.isEmpty_iff]

/-- Deleting all pairs of the number is right when all of them are to be
subtracted. -/
theorem deleteAll_iff :
    T.filter (fun c => decide (c.2.attr ≠ item.2.attr))
        = T.filter (fun c => !isSubtracted item c)
      ↔ ∀ c ∈ T, hasAttr item.2.attr c → isSubtracted item c := by
  constructor
  · intro h c hc hattr
    by_contra hnot
    have hmem : c ∈ T.filter (fun c => !isSubtracted item c) :=
      List.mem_filter.mpr ⟨hc, by simpa using hnot⟩
    rw [← h, List.mem_filter] at hmem
    simp [hasAttr] at hattr hmem
    exact hmem.2 hattr
  · intro h
    apply List.filter_congr
    intro c hc
    by_cases hattr : c.2.attr = item.2.attr
    · have hsub := h c hc (by simpa [hasAttr] using hattr)
      simp [hsub, hattr]
    · simp [isSubtracted, hasAttr, hattr]

/-- Deleting none is right when none is to be subtracted. -/
theorem deleteNone_iff :
    T = T.filter (fun c => !isSubtracted item c)
      ↔ ∀ c ∈ T, isSubtracted item c = false := by
  rw [eq_comm, List.filter_eq_self]
  simp

/-- `-=` of an item, where it is not held back. -/
theorem sub_follows (h : T.find? (hasAttr item.2.attr) = some old) :
    ((if cString item.2.data = []
          ∨ cString old.2.data = cString item.2.data then
        (T.filter (·.2.attr ≠ item.2.attr), Fate.stays)
      else (T, Fate.stays))
        = (T.filter fun c => !isSubtracted item c, Fate.stays))
      ↔ Uniform T item := by
  have hmem := List.mem_of_find?_eq_some h
  have hattr := List.find?_some h
  by_cases hfirst : isSubtracted item old = true
  · rw [if_pos ((isSubtracted_found h).mp hfirst), Prod.mk.injEq,
      deleteAll_iff]
    constructor
    · intro hall
      exact Or.inl hall.1
    · intro hunif
      refine ⟨?_, rfl⟩
      rcases hunif with hall | hnone
      · exact hall
      · rw [hnone old hmem] at hfirst
        cases hfirst
  · rw [if_neg (fun hcond => hfirst ((isSubtracted_found h).mpr hcond)),
      Prod.mk.injEq, deleteNone_iff]
    constructor
    · intro hnone
      exact Or.inr hnone.1
    · intro hunif
      refine ⟨?_, rfl⟩
      rcases hunif with hall | hnone
      · exact absurd (hall old hmem hattr) hfirst
      · exact hnone

theorem uniform_of_none (h : T.find? (hasAttr item.2.attr) = none) :
    ∀ c ∈ T, isSubtracted item c = false := by
  intro c hc
  have hnot := List.find?_eq_none.mp h c hc
  simp [isSubtracted, hnot]

theorem isRepeated_password {attr : Nat} (h : isPassword attr = true) :
    isRepeated attr = false := by
  simp only [isPassword, Bool.or_eq_true, beq_iff_eq] at h
  rcases h with rfl | rfl
  · rfl
  · rfl

theorem isComparison_false {op : FrToken}
    (h : isComparison op = false) : staysInCheckList op = false := by
  cases op <;> first | rfl | cases h

/-- A password that is not held back stays, with `to` as it is, for two
operators. -/
theorem held_follows (hcmp : isComparison item.2.op = false)
    (hrep : isRepeated item.2.attr = false)
    (hpw : ¬ (hasPassword = true ∧ isPassword item.2.attr = true)) :
    itemStep hasPassword T item = (T, .stays)
      ↔ (item.2.op = .opEq ∧ T.any (hasAttr item.2.attr) = true)
        ∨ (item.2.op = .opSub ∧ ¬ Subtracts T item) := by
  have hstays := isComparison_false hcmp
  unfold itemStep
  dsimp only
  rw [if_neg hpw, if_neg (by simp [hstays]), if_neg (by simp [hrep])]
  cases hfound : T.find? (hasAttr item.2.attr) with
  | none =>
      have hany := find_none_iff.mp hfound
      have hnot : ¬ Subtracts T item := by
        intro ⟨c, hc, _⟩
        rw [hfound] at hc
        cases hc
      cases item.2.op <;> simp [hany, hnot]
  | some old =>
      have hany := any_of_find hfound
      have hsub : Subtracts T item ↔ cString item.2.data = []
          ∨ cString old.2.data = cString item.2.data := by
        rw [← isSubtracted_found hfound, Subtracts, hfound]
        simp
      have hmem := List.mem_of_find?_eq_some hfound
      have hattr := List.find?_some hfound
      have hne : T.filter (fun c => decide (c.2.attr ≠ item.2.attr))
          ≠ T := by
        intro heq
        have hold := List.filter_eq_self.mp heq old hmem
        simp [hasAttr] at hattr hold
        exact hold hattr
      cases hop : item.2.op with
      | opSub =>
          simp only [reduceCtorEq, false_and, true_and, false_or]
          rw [hsub]
          split
          · next hsame => simpa [hsame] using hne
          · next hsame => simp [hsame]
      | opEq => simp [hany]
      | opSet => simp
      | _ => simp

/-- An item that is neither held back nor a comparison. -/
theorem free_follows (hcmp : isComparison item.2.op = false)
    (hpw : ¬ (hasPassword = true ∧ isPassword item.2.attr = true))
    (hheld : ¬ (isPassword item.2.attr = true ∧ held = true)) :
    Follows held T item (itemStep hasPassword T item)
      ↔ (item.2.op = .opSub ∧ ¬ isRepeated item.2.attr = true →
          Uniform T item) := by
  have hstays : ¬ staysInCheckList item.2.op = true := by
    simp [isComparison_false hcmp]
  have hfirst : ¬ (isComparison item.2.op = true
      ∨ (isPassword item.2.attr = true ∧ held = true)) := by
    simpa [hcmp] using hheld
  unfold Follows itemStep
  dsimp only
  rw [if_neg hfirst, if_neg hpw, if_neg hstays]
  by_cases hrep : isRepeated item.2.attr = true
  · rw [if_pos hrep, if_pos (Or.inr hrep)]
    simp [hrep]
  rw [if_neg hrep]
  cases hfound : T.find? (hasAttr item.2.attr) with
  | none =>
      have hany := find_none_iff.mp hfound
      have hnone := uniform_of_none hfound
      have hself : T.filter (fun c => !isSubtracted item c) = T :=
        (deleteNone_iff.mpr hnone).symm
      have hunif : Uniform T item := Or.inr hnone
      cases hop : item.2.op <;> simp [hany, hrep, hself, hunif]
  | some old =>
      have hany := any_of_find hfound
      cases hop : item.2.op with
      | opSub =>
          simp only [reduceCtorEq, false_or, if_neg hrep]
          rw [sub_follows hfound]
          simp [hrep]
      | _ => simp [hany, hrep]

/-- The promise is kept by an item exactly where `StepFine` says. -/
theorem itemStep_follows (hflag : hasPassword = true → held = true) :
    Follows held T item (itemStep hasPassword T item)
      ↔ StepFine hasPassword held T item := by
  by_cases hpw : hasPassword = true ∧ isPassword item.2.attr = true
  · have hheld : isComparison item.2.op = true
        ∨ (isPassword item.2.attr = true ∧ held = true) :=
      Or.inr ⟨hpw.2, hflag hpw.1⟩
    unfold Follows StepFine itemStep
    dsimp only
    rw [if_pos hheld, if_pos hpw, if_pos hpw]
    simp
  by_cases hstays : staysInCheckList item.2.op = true
  · have hcmp : isComparison item.2.op = true := by
      simp [isComparison, hstays]
    unfold Follows StepFine itemStep
    dsimp only
    rw [if_pos (Or.inl hcmp), if_neg hpw, if_pos hstays, if_neg hpw,
      if_pos hstays]
    simp
  by_cases hreg : item.2.op = .opRegEq ∨ item.2.op = .opRegNe
  · -- such an item is moved over, and there is no `to` that this leaves
    have hcmp : isComparison item.2.op = true := by
      simp only [isComparison, Bool.or_eq_true, beq_iff_eq]
      tauto
    have hmoved : itemStep hasPassword T item = (T ++ [item], .moved) := by
      unfold itemStep
      dsimp only
      rw [if_neg hpw, if_neg hstays]
      split
      · rfl
      · rcases hreg with hop | hop <;> simp [hop]
    unfold Follows StepFine
    dsimp only
    rw [if_pos (Or.inl hcmp), if_neg hpw, if_neg hstays, if_pos hreg,
      hmoved]
    simp
  have hcmp : isComparison item.2.op = false := by
    simp only [isComparison, Bool.or_eq_false_iff, beq_eq_false_iff_ne]
    exact ⟨⟨by simpa using hstays, fun h => hreg (Or.inl h)⟩,
      fun h => hreg (Or.inr h)⟩
  by_cases hheld : isPassword item.2.attr = true ∧ held = true
  · have hrep := isRepeated_password hheld.1
    unfold Follows StepFine
    dsimp only
    rw [if_pos (Or.inr hheld), if_neg hpw, if_neg hstays, if_neg hreg,
      if_pos hheld]
    exact held_follows hcmp hrep hpw
  · rw [free_follows hcmp hpw hheld]
    unfold StepFine
    dsimp only
    rw [if_neg hpw, if_neg hstays, if_neg hreg, if_neg hheld]
    by_cases hsub : item.2.op = .opSub ∧ ¬ isRepeated item.2.attr = true
    · rw [if_pos hsub]
      simp [hsub]
    · rw [if_neg hsub]
      exact ⟨fun _ => trivial, fun _ h => absurd h hsub⟩

end item

-- ======== the run

section run

variable {s : PairStore} {L : MoveLists} {T F R : List PairCell}
  {item c : PairCell} {n : Nat} {b : Bool}

theorem step_dest (b : Bool) (L : MoveLists) (item : PairCell) :
    (L.step b item).dest = (itemStep b L.dest item).1 := by
  unfold MoveLists.step
  generalize itemStep b L.dest item = r
  obtain ⟨T, fate⟩ := r
  cases fate <;> rfl

theorem mem_setFirst {vp : ValuePair} (hc : c ∈ T)
    (hne : c.2.attr ≠ vp.attr) : c ∈ setFirst vp T := by
  induction T with
  | nil => cases hc
  | cons d T ih =>
      rw [setFirst]
      rcases List.mem_cons.mp hc with rfl | hc
      · rw [if_neg hne]
        exact List.mem_cons_self
      · split
        · apply List.mem_cons_of_mem
          exact List.mem_filter.mpr ⟨hc, by simpa using hne⟩
        · exact List.mem_cons_of_mem d (ih hc)

/-- While passwords are held back, none of `to` is lost. -/
theorem holdsPassword_step (h : holdsPassword T = true)
    (item : PairCell) : holdsPassword (itemStep true T item).1 = true := by
  obtain ⟨c, hc, hpw⟩ := List.any_eq_true.mp h
  have hkeep : ∀ T', c ∈ T' → holdsPassword T' = true :=
    fun T' hin => List.any_eq_true.mpr ⟨c, hin, hpw⟩
  unfold itemStep
  dsimp only
  by_cases hitem : isPassword item.2.attr = true
  · rw [if_pos ⟨rfl, hitem⟩]
    exact h
  have hne : c.2.attr ≠ item.2.attr := by
    intro heq
    rw [heq] at hpw
    exact hitem hpw
  rw [if_neg (fun hcond => hitem hcond.2)]
  repeat' split
  all_goals
    apply hkeep
    first
      | exact hc
      | exact List.mem_append_left _ hc
      | exact mem_setFirst hc hne
      | exact List.mem_filter.mpr ⟨hc, by simpa using hne⟩

/-- A password that holds others back is there to the end. -/
theorem holdsPassword_run (h : holdsPassword L.dest = true)
    (R : List PairCell) :
    holdsPassword (L.run true R).dest = true := by
  induction R generalizing L with
  | nil => exact h
  | cons item R ih =>
      apply ih
      rw [step_dest]
      exact holdsPassword_step h item

/-- The items that stay, in their order. -/
def stayed (b : Bool) : MoveLists → List PairCell → List PairCell
  | _, [] => []
  | L, item :: R =>
      if (itemStep b L.dest item).2 = .stays then
        item :: stayed b (L.step b item) R
      else stayed b (L.step b item) R

/-- Every item that stays is still in `from`, in its order. -/
theorem stayed_sublist (b : Bool) (L : MoveLists) (R : List PairCell) :
    (L.kept ++ stayed b L R).Sublist
      ((L.run b R).kept ++ (L.run b R).copied) := by
  induction R generalizing L with
  | nil =>
      rw [stayed, List.append_nil]
      exact List.sublist_append_left _ _
  | cons item R ih =>
      refine List.Sublist.trans ?_ (ih (L.step b item))
      rw [stayed]
      unfold MoveLists.step
      cases hstep : itemStep b L.dest item with
      | mk T fate =>
          cases fate with
          | stays =>
              simp only [if_true]
              have hcons : L.kept ++ item :: stayed b
                  ⟨T, L.kept ++ L.copied ++ [item], []⟩ R
                    = (L.kept ++ [item]) ++ stayed b
                      ⟨T, L.kept ++ L.copied ++ [item], []⟩ R := by
                simp
              rw [hcons]
              apply List.Sublist.append _ (List.Sublist.refl _)
              exact (List.sublist_append_left _ _).append
                (List.Sublist.refl _)
          | moved => simp
          | overwrites => simp

/-- The list a password is looked for in: `to` as it was given, or as it is
before the item. -/
inductive PasswordRule where
  | given
  | current
deriving Repr, DecidableEq

/-- Whether passwords are held back before an item. -/
def PasswordRule.held (rule : PasswordRule) (given current : List PairCell) :
    Bool :=
  match rule with
  | .given => holdsPassword given
  | .current => holdsPassword current

/-- The lists before the item number `k` of `from`. -/
def listsAt (T F : List PairCell) (k : Nat) : MoveLists :=
  (⟨T, [], []⟩ : MoveLists).run (holdsPassword T) (F.take k)

/-- `to` and what became of the item number `k`. -/
def afterItem (T F : List PairCell) (k : Nat) (item : PairCell) :
    List PairCell × Fate :=
  itemStep (holdsPassword T) (listsAt T F k).dest item

/-- On lists with no pair in common, `pairmove` comes to an end with both
of them well formed. Before every item the memory holds the lists that the
items before it left; every item that stays is still in `from` in the end,
in its order; and each item is treated as promised just where it is one of
the fine ones. -/
theorem pairmove_iff (h : Lists s T F) (hn : T.length + F.length ≤ n) :
    (∀ k ≤ F.length, ∃ st,
      loopAfter n (holdsPassword T) k
          ⟨s, endRef .toHead (addresses T), none⟩ s.fromHead
        = some (st, (addresses (F.drop k)).head?)
      ∧ Lists st.store (listsAt T F k).dest
        ((listsAt T F k).kept ++ (listsAt T F k).copied ++ F.drop k))
    ∧ (∃ s' rest, pairmove n s = some s'
      ∧ Lists s' (listsAt T F F.length).dest rest
      ∧ (stayed (holdsPassword T) ⟨T, [], []⟩ F).Sublist rest)
    ∧ ∀ rule : PasswordRule,
      (∀ k item, F[k]? = some item →
        Follows (rule.held T (listsAt T F k).dest) (listsAt T F k).dest item
          (afterItem T F k item))
      ↔ ∀ k item, F[k]? = some item →
        StepFine (holdsPassword T) (rule.held T (listsAt T F k).dest)
          (listsAt T F k).dest item := by
  refine ⟨?_, ?_, ?_⟩
  · intro k hk
    obtain ⟨st, hst, hmoving⟩ := loopAfter_eq (n := n) (holdsPassword T)
      h.moving hk (by
        show T.length + k ≤ n
        omega)
    rw [show s.fromHead = (addresses F).head?
      from segment_head h.fromLeads]
    exact ⟨st, hst, hmoving.lists⟩
  · obtain ⟨s', hs', hlists⟩ := pairmove_eq h hn
    have hall : listsAt T F F.length
        = (⟨T, [], []⟩ : MoveLists).run (holdsPassword T) F := by
      rw [listsAt, List.take_length]
    rw [hall]
    refine ⟨s', _, hs', hlists, ?_⟩
    simpa using stayed_sublist (holdsPassword T) ⟨T, [], []⟩ F
  · intro rule
    have hstep : ∀ k item,
        Follows (rule.held T (listsAt T F k).dest) (listsAt T F k).dest item
          (afterItem T F k item)
        ↔ StepFine (holdsPassword T)
          (rule.held T (listsAt T F k).dest) (listsAt T F k).dest item := by
      intro k item
      apply itemStep_follows
      intro hpw
      cases rule with
      | given => exact hpw
      | current =>
          show holdsPassword (listsAt T F k).dest = true
          unfold listsAt
          rw [hpw]
          exact holdsPassword_run hpw _
    constructor
    · intro hall k item hitem
      exact (hstep k item).mp (hall k item hitem)
    · intro hall k item hitem
      exact (hstep k item).mpr (hall k item hitem)

end run

-- ======== an example

/-- `Reply-Message` with a text of one letter. -/
def replyMessage (op : FrToken) (letter : UInt8) : ValuePair where
  attr := 18
  type := .string
  length := 1
  op := op
  data := [letter]

/-- `Reply-Message = "a"` and `Reply-Message = "b"`. -/
def replies : List PairCell :=
  [(1, replyMessage .opEq 97), (2, replyMessage .opEq 98)]

/-- `Reply-Message -= "a"`. -/
def lessA : PairCell := (3, replyMessage .opSub 97)

/-- The two replies in `to`, and the item in `from`. -/
def replyStore : PairStore where
  vps a := ((replies ++ [lessA]).find? (·.1 == a)).map Prod.snd
  next a := if a = 1 then some 2 else none
  toHead := some 1
  fromHead := some 3

theorem replyStore_lists : Lists replyStore replies [lessA] := by
  refine ⟨⟨rfl, rfl, rfl⟩, ⟨rfl, rfl⟩, ?_, by decide⟩
  decide

theorem pairmove_iff_reply :
    ∃ s' rest, pairmove 3 replyStore = some s'
      ∧ Lists s' (listsAt replies [lessA] 1).dest rest
      ∧ (stayed (holdsPassword replies) ⟨replies, [], []⟩ [lessA]).Sublist
        rest :=
  (pairmove_iff replyStore_lists (by decide)).2.1

/-- The reply with another text is deleted with the one that was to be
removed. -/
theorem pairmove_subtracts_all :
    (pairmove 3 replyStore).map (·.toHead) = some none
      ∧ ((replies.filter fun c => !isSubtracted lessA c)
        = [(2, replyMessage .opEq 98)])
      ∧ ¬ Follows false replies lessA (afterItem replies [lessA] 0 lessA)
      := by
  refine ⟨by decide, by decide, ?_⟩
  intro h
  have hafter := congrArg Prod.fst h
  exact absurd hafter (by decide)

end WinRadius
