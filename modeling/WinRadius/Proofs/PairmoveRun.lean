/-
`pairmove` on lists: what one item does to them, and that the loop over
linked pairs does just that.

`Moving` is the invariant of the loop. `from` is in two parts in front of
the current item: what `tailfrom` points to the end of, and behind it the
items that were copied over a pair of `to`, which the loop passes without
making them the tail. The next item that is moved takes these out of
`from` with it; the next that stays puts them in front of itself.
-/
import WinRadius.Proofs.PairLists

namespace WinRadius

open Lib

-- ======== one item

/-- What becomes of an item of `from`. -/
inductive Fate where
  | stays
  | moved
  | overwrites
deriving Repr, DecidableEq

/-- A pair with a number. -/
def hasAttr (attr : Nat) (c : PairCell) : Bool := c.2.attr == attr

/-- The first pair of the number holds another value, and the others are
gone. -/
def setFirst (vp : ValuePair) : List PairCell → List PairCell
  | [] => []
  | c :: T =>
      if c.2.attr = vp.attr then
        (c.1, vp) :: T.filter (·.2.attr ≠ vp.attr)
      else c :: setFirst vp T

/-- The attributes that may appear several times. -/
def isRepeated (attr : Nat) : Bool :=
  attr == pwHint || attr == pwFramedRoute

/-- One item: `to` after it, and what becomes of it. -/
def itemStep (hasPassword : Bool) (T : List PairCell) (item : PairCell) :
    List PairCell × Fate :=
  let vp := item.2
  if hasPassword ∧ isPassword vp.attr then (T, .stays)
  else if staysInCheckList vp.op then (T, .stays)
  else if isRepeated vp.attr then (T ++ [item], .moved)
  else match vp.op, T.find? (hasAttr vp.attr) with
    | .opSub, none => (T, .stays)
    | .opSub, some old =>
        if cString vp.data = [] ∨ cString old.2.data = cString vp.data then
          (T.filter (·.2.attr ≠ vp.attr), .stays)
        else (T, .stays)
    | .opEq, some _ => (T, .stays)
    | .opSet, some _ => (setFirst vp T, .overwrites)
    | _, _ => (T ++ [item], .moved)

/-- The lists in the loop: `to`, `from` up to `tailfrom`, and the items
behind it that were copied. -/
structure MoveLists where
  dest : List PairCell
  kept : List PairCell := []
  copied : List PairCell := []

/-- The lists after an item. -/
def MoveLists.step (hasPassword : Bool) (L : MoveLists)
    (item : PairCell) : MoveLists :=
  let (dest, fate) := itemStep hasPassword L.dest item
  match fate with
  | .stays => { dest := dest, kept := L.kept ++ L.copied ++ [item] }
  | .moved => { dest := dest, kept := L.kept }
  | .overwrites =>
      { dest := dest, kept := L.kept, copied := L.copied ++ [item] }

-- ======== the invariant

/-- The local variables belong to the lists; `R` is the rest of `from`. -/
structure Moving (st : PairMover) (L : MoveLists) (R : List PairCell) :
    Prop where
  lists : Lists st.store L.dest (L.kept ++ L.copied ++ R)
  tailto : st.tailto = endRef .toHead (addresses L.dest)
  tailfrom : st.tailfrom = (addresses L.kept).getLast?

section moving

variable {st : PairMover} {L : MoveLists} {R : List PairCell}
  {item : PairCell} {n : Nat}

/-- The pointer `next`. -/
theorem next_eq (st : PairMover) (L : MoveLists) (item : PairCell) :
    st.store.next item.1
      = st.store.load (endRef .fromHead
        (addresses (L.kept ++ (L.copied ++ [item])))) := by
  simp only [addresses_append, addresses_cons, addresses_nil, ← List.append_assoc,
    endRef_append]
  rfl

theorem segment_head {s : PairStore} {p : Option Nat} {as : List Nat}
    (h : Segment id s.next p as none) : p = as.head? := by
  cases as with
  | nil => exact h
  | cons a as => exact h.1

/-- `next` is the item behind. -/
theorem Moving.next_head (h : Moving st L (item :: R)) :
    st.store.next item.1 = (addresses R).head? := by
  have hfrom := h.lists.fromLeads
  rw [addresses_append, leads_append] at hfrom
  exact segment_head hfrom.2.2

/-- An item stays in `from`. -/
theorem Moving.stay {s : PairStore} {T : List PairCell} {tailto : PairRef}
    (h : Lists s T (L.kept ++ L.copied ++ item :: R))
    (hto : tailto = endRef .toHead (addresses T)) :
    Moving ⟨s, tailto, some item.1⟩
      ⟨T, L.kept ++ L.copied ++ [item], []⟩ R := by
  refine ⟨?_, hto, ?_⟩
  · simpa using h
  · simp

/-- An item is moved. -/
theorem Moving.moveOver (h : Moving st L (item :: R)) :
    ∃ st', moveOver st item.1 (st.store.next item.1) = some st'
      ∧ Moving st' ⟨L.dest ++ [item], L.kept, []⟩ R := by
  have hlists : Lists st.store L.dest (L.kept ++ (L.copied ++ [item]) ++ R) := by
    simpa using h.lists
  obtain ⟨s₁, hs₁, hlists₁, hvps₁⟩ := hlists.cutFrom
  rw [← next_eq] at hs₁
  have hlive : s₁.vps item.1 = some item.2 := by
    rw [hvps₁]
    exact h.lists.liveFrom item (by simp)
  have hnot : item.1 ∉ addresses (L.dest ++ (L.kept ++ R)) := by
    have hnd : (addresses (L.dest ++ L.kept ++ L.copied)
        ++ item.1 :: addresses R).Nodup := by
      simpa using h.lists.nodup
    have hout := (List.nodup_cons.mp
      (List.perm_middle.nodup_iff.mp hnd)).1
    simp only [addresses_append, List.mem_append] at hout ⊢
    tauto
  obtain ⟨s₂, s₃, hs₂, hs₃, hlists₃⟩ := hlists₁.append hlive hnot
  have hfrom : (st.tailfrom.map PairRef.nextOf).getD .fromHead
      = endRef .fromHead (addresses L.kept) := by
    rw [h.tailfrom]
    rfl
  have hto : (if s₁.toHead = none then PairRef.toHead else st.tailto)
      = endRef .toHead (addresses L.dest) := by
    have hhead : s₁.toHead = (addresses L.dest).head? :=
      segment_head hlists₁.toLeads
    rw [h.tailto, hhead]
    cases addresses L.dest with
    | nil => rfl
    | cons a as => rfl
  refine ⟨⟨s₃, .nextOf item.1, st.tailfrom⟩, ?_,
    ⟨by simpa using hlists₃, ?_, h.tailfrom⟩⟩
  · unfold WinRadius.moveOver
    dsimp only
    rw [hfrom, hs₁]
    simp only [Option.bind_eq_bind, Option.bind_some]
    rw [hto, hs₂]
    simp only [Option.bind_some, hs₃]
    rfl
  · simp

/-- `-=` of an item that finds a pair. -/
theorem Moving.sub (h : Moving st L (item :: R))
    (hn : L.dest.length ≤ n) {old : PairCell}
    (hfound : L.dest.find? (hasAttr item.2.attr) = some old) :
    ∃ st', moveSub n st item.1 item.2 (some old.1) = some st'
      ∧ Moving st'
        ⟨if cString item.2.data = []
            ∨ cString old.2.data = cString item.2.data then
            L.dest.filter (·.2.attr ≠ item.2.attr)
          else L.dest, L.kept ++ L.copied ++ [item], []⟩ R := by
  have hmem := List.mem_of_find?_eq_some hfound
  have hattr : old.2.attr = item.2.attr := by
    simpa [hasAttr] using List.find?_some hfound
  have hlive := h.lists.liveTo old hmem
  unfold moveSub
  simp only [hlive]
  by_cases hsame : cString item.2.data = []
      ∨ cString old.2.data = cString item.2.data
  · obtain ⟨s', hdelete, hlists⟩ :=
      deleteAll_eq item.2.attr h.lists hn
    have hlen := List.length_filter_le (fun c : PairCell =>
      decide (c.2.attr ≠ item.2.attr)) L.dest
    have htail := tail_eq .toHead hlists.toLeads hlists.liveTo
      (le_trans hlen hn)
    rw [if_pos hsame, if_pos hsame, hattr, hdelete]
    refine ⟨⟨s', endRef .toHead (addresses (L.dest.filter
      (·.2.attr ≠ item.2.attr))), some item.1⟩, ?_,
      Moving.stay hlists rfl⟩
    simp only [Option.bind_eq_bind, Option.bind_some]
    rw [show s'.toHead = s'.load .toHead from rfl, htail]
    rfl
  · rw [if_neg hsame, if_neg hsame]
    exact ⟨_, rfl, Moving.stay h.lists h.tailto⟩

/-- The list around the first pair of a number. -/
theorem setFirst_eq {T : List PairCell} {vp : ValuePair}
    {old : PairCell} (h : T.find? (hasAttr vp.attr) = some old) :
    ∃ P Q, T = P ++ old :: Q ∧ setFirst vp T
      = P ++ (old.1, vp) :: Q.filter (·.2.attr ≠ vp.attr) := by
  induction T with
  | nil => cases h
  | cons c T ih =>
      by_cases hattr : c.2.attr = vp.attr
      · rw [List.find?_cons_of_pos (by simpa [hasAttr] using hattr)] at h
        cases h
        refine ⟨[], T, rfl, ?_⟩
        rw [setFirst, if_pos hattr]
        rfl
      · rw [List.find?_cons_of_neg (by simpa [hasAttr] using hattr)] at h
        obtain ⟨P, Q, rfl, hover⟩ := ih h
        refine ⟨c :: P, Q, rfl, ?_⟩
        rw [setFirst, if_neg hattr, hover]
        rfl

/-- `:=` of an item that finds a pair. -/
theorem Moving.set (h : Moving st L (item :: R))
    (hn : L.dest.length ≤ n) {old : PairCell}
    (hfound : L.dest.find? (hasAttr item.2.attr) = some old) :
    ∃ st', moveSet n st item.2 old.1 = some st'
      ∧ Moving st' ⟨setFirst item.2 L.dest, L.kept,
        L.copied ++ [item]⟩ R := by
  obtain ⟨P, Q, hdest, hover⟩ := setFirst_eq hfound
  have hlists := h.lists
  rw [hdest] at hlists hn
  have hlists₁ : Lists (st.store.overwrite old.1 item.2)
      (P ++ [(old.1, item.2)] ++ Q) (L.kept ++ L.copied ++ item :: R) := by
    simpa using hlists.overwrite item.2
  have hlenQ : Q.length ≤ n := by
    simp only [List.length_append, List.length_cons] at hn
    omega
  obtain ⟨s', hdelete, hlists₂⟩ :=
    delete_eq item.2.attr hlists₁ hlenQ
  have hfound₂ := hlists₂.leadsRest
  have hdest₂ : Lists s' (P ++ (old.1, item.2)
      :: Q.filter (·.2.attr ≠ item.2.attr))
      (L.kept ++ L.copied ++ item :: R) := by
    simpa using hlists₂
  have hlenF := List.length_filter_le (fun c : PairCell =>
    decide (c.2.attr ≠ item.2.attr)) Q
  obtain ⟨-, hsegment⟩ := hdest₂.leadsRest
  have htail := tail_eq (n := n) st.tailto
    (Q := (old.1, item.2) :: Q.filter (·.2.attr ≠ item.2.attr))
    (p := some old.1) ⟨rfl, hsegment⟩
    (fun c hc => hdest₂.liveTo c (List.mem_append_right P hc)) (by
      simp only [List.length_cons, List.length_append] at hn ⊢
      omega)
  rw [hover]
  refine ⟨⟨s', endRef st.tailto (addresses ((old.1, item.2)
    :: Q.filter (·.2.attr ≠ item.2.attr))), st.tailfrom⟩, ?_, ?_⟩
  · unfold moveSet
    simp only [addresses_append, addresses_cons, addresses_nil, endRef_append]
      at hdelete
    simp only [Option.bind_eq_bind]
    rw [show (st.store.overwrite old.1 item.2).next old.1
      = (st.store.overwrite old.1 item.2).load (.nextOf old.1) from rfl,
      hdelete]
    simp only [Option.bind_some, htail]
    rfl
  · refine ⟨by simpa using hdest₂, ?_, h.tailfrom⟩
    simp [endRef, List.getLast?_append, List.getLast?_cons]

theorem isRepeated_iff (attr : Nat) :
    (attr = pwFallThrough ∨ (attr ≠ pwHint ∧ attr ≠ pwFramedRoute))
      ↔ isRepeated attr = false := by
  simp only [isRepeated, Bool.or_eq_false_iff, beq_eq_false_iff_ne,
    pwFallThrough, pwHint, pwFramedRoute]
  omega

/-- One round of the loop is one item on the lists. -/
theorem Moving.step (hasPassword : Bool) (h : Moving st L (item :: R))
    (hn : L.dest.length ≤ n) :
    ∃ st', movePair n hasPassword st item.1 (st.store.next item.1)
        = some st' ∧ Moving st' (L.step hasPassword item) R := by
  have hlive := h.lists.liveFrom item (by simp)
  have hkeep : Moving { st with tailfrom := some item.1 }
      ⟨L.dest, L.kept ++ L.copied ++ [item], []⟩ R :=
    Moving.stay h.lists h.tailto
  unfold movePair MoveLists.step itemStep
  simp only [hlive]
  by_cases hpw : hasPassword = true ∧ isPassword item.2.attr = true
  · rw [if_pos hpw, if_pos hpw]
    exact ⟨_, rfl, hkeep⟩
  rw [if_neg hpw, if_neg hpw]
  by_cases hcmp : staysInCheckList item.2.op = true
  · rw [if_pos hcmp, if_pos hcmp]
    exact ⟨_, rfl, hkeep⟩
  rw [if_neg hcmp, if_neg hcmp]
  by_cases hrep : isRepeated item.2.attr = true
  · have hcond : ¬ (item.2.attr = pwFallThrough
        ∨ (item.2.attr ≠ pwHint ∧ item.2.attr ≠ pwFramedRoute)) := by
      rw [isRepeated_iff, hrep]
      simp
    rw [if_neg hcond, if_pos hrep]
    exact h.moveOver
  have hcond : item.2.attr = pwFallThrough
      ∨ (item.2.attr ≠ pwHint ∧ item.2.attr ≠ pwFramedRoute) := by
    rw [isRepeated_iff]
    simpa using hrep
  have hfind := find_eq (n := n) item.2.attr h.lists.toLeads
    h.lists.liveTo hn
  rw [if_pos hcond, if_neg hrep,
    show st.store.toHead = st.store.load .toHead from rfl, hfind]
  simp only [Option.bind_eq_bind, Option.bind_some]
  have hfold : L.dest.find? (fun c => c.2.attr == item.2.attr)
      = L.dest.find? (hasAttr item.2.attr) := rfl
  rw [hfold]
  cases hfound : L.dest.find? (hasAttr item.2.attr) with
  | none =>
      cases hop : item.2.op with
      | opSub => exact ⟨_, rfl, hkeep⟩
      | _ => exact h.moveOver
  | some old =>
      cases hop : item.2.op with
      | opSub =>
          obtain ⟨st', hst', hmoving⟩ := h.sub hn hfound
          refine ⟨st', hst', ?_⟩
          by_cases hsame : cString item.2.data = []
              ∨ cString old.2.data = cString item.2.data
          · rw [if_pos hsame] at hmoving
            simp only [if_pos hsame]
            exact hmoving
          · rw [if_neg hsame] at hmoving
            simp only [if_neg hsame]
            exact hmoving
      | opEq => exact ⟨_, rfl, hkeep⟩
      | opSet => exact h.set hn hfound
      | _ => exact h.moveOver

end moving

-- ======== the loop

section run

variable {s : PairStore} {st : PairMover} {L : MoveLists}
  {T F R : List PairCell} {item : PairCell} {n k : Nat} {b : Bool}

theorem setFirst_length (vp : ValuePair) (T : List PairCell) :
    (setFirst vp T).length ≤ T.length := by
  induction T with
  | nil => simp [setFirst]
  | cons c T ih =>
      rw [setFirst]
      split
      · have := List.length_filter_le
          (fun c : PairCell => decide (c.2.attr ≠ vp.attr)) T
        simp only [List.length_cons]
        omega
      · simp only [List.length_cons]
        omega

/-- An item adds one pair to `to`, or none. -/
theorem step_length (b : Bool) (L : MoveLists) (item : PairCell) :
    (L.step b item).dest.length ≤ L.dest.length + 1 := by
  have hset := setFirst_length item.2 L.dest
  have hfilter := List.length_filter_le
    (fun c : PairCell => decide (c.2.attr ≠ item.2.attr)) L.dest
  have hstep : (L.step b item).dest = (itemStep b L.dest item).1 := by
    unfold MoveLists.step
    generalize itemStep b L.dest item = r
    obtain ⟨T, fate⟩ := r
    cases fate <;> rfl
  rw [hstep]
  unfold itemStep
  dsimp only
  repeat' split
  all_goals
    simp only [List.length_append, List.length_singleton]
    omega

/-- The lists after the items of `R`. -/
def MoveLists.run (b : Bool) (L : MoveLists) (R : List PairCell) :
    MoveLists :=
  R.foldl (MoveLists.step b) L

/-- The loop over `from`, stopped after `k` rounds: the variables, and the
item that is next. -/
def loopAfter (n : Nat) (b : Bool) :
    Nat → PairMover → Option Nat → Option (PairMover × Option Nat)
  | 0, st, p => some (st, p)
  | _ + 1, st, none => some (st, none)
  | k + 1, st, some i =>
      (movePair n b st i (st.store.next i)).bind fun st' =>
        loopAfter n b k st' (st.store.next i)

/-- After `k` rounds the memory holds the lists after `k` items. -/
theorem loopAfter_eq (b : Bool) (h : Moving st L R) (hk : k ≤ R.length)
    (hn : L.dest.length + k ≤ n) :
    ∃ st', loopAfter n b k st (addresses R).head?
        = some (st', (addresses (R.drop k)).head?)
      ∧ Moving st' (L.run b (R.take k)) (R.drop k) := by
  induction k generalizing st L R with
  | zero => exact ⟨st, rfl, h⟩
  | succ k ih =>
      cases R with
      | nil => simp at hk
      | cons item R =>
          obtain ⟨st₁, hst₁, hmoving⟩ := h.step (n := n) b (by omega)
          have hlen := step_length b L item
          obtain ⟨st₂, hst₂, hmoving₂⟩ := ih hmoving (by simpa using hk)
            (by omega)
          refine ⟨st₂, ?_, hmoving₂⟩
          rw [addresses_cons, List.head?_cons, loopAfter, hst₁,
            Option.bind_some, h.next_head, hst₂]
          rfl

/-- The loop stops when the items are used up. -/
theorem movePairs_eq (b : Bool) (h : Moving st L R)
    (hn : L.dest.length + R.length ≤ n) {rounds : Nat}
    (hrounds : R.length ≤ rounds) :
    ∃ st', movePairs n b rounds st (addresses R).head? = some st'
      ∧ Moving st' (L.run b R) [] := by
  induction R generalizing st L rounds with
  | nil =>
      refine ⟨st, ?_, h⟩
      cases rounds with
      | zero => rfl
      | succ rounds => rfl
  | cons item R ih =>
      obtain ⟨rounds, rfl⟩ := Nat.exists_eq_add_one_of_ne_zero
        (show rounds ≠ 0 by rintro rfl; simp at hrounds)
      simp only [List.length_cons] at hn hrounds
      obtain ⟨st₁, hst₁, hmoving⟩ := h.step (n := n) b (by omega)
      have hlen := step_length b L item
      obtain ⟨st₂, hst₂, hmoving₂⟩ := ih hmoving (by omega)
        (show R.length ≤ rounds by omega)
      refine ⟨st₂, ?_, hmoving₂⟩
      rw [addresses_cons, List.head?_cons, movePairs, hst₁]
      simp only [Option.bind_eq_bind, Option.bind_some]
      rw [h.next_head, hst₂]

/-- There is a password among pairs. -/
def holdsPassword (T : List PairCell) : Bool :=
  T.any (isPassword ·.2.attr)

/-- The variables where the loop starts. -/
theorem Lists.moving (h : Lists s T F) :
    Moving ⟨s, endRef .toHead (addresses T), none⟩ ⟨T, [], []⟩ F :=
  ⟨h, rfl, rfl⟩

/-- `pairmove` leaves the lists after all of `from`. -/
theorem pairmove_eq (h : Lists s T F) (hn : T.length + F.length ≤ n) :
    ∃ s', pairmove n s = some s'
      ∧ Lists s' ((⟨T, [], []⟩ : MoveLists).run (holdsPassword T) F).dest
        (((⟨T, [], []⟩ : MoveLists).run (holdsPassword T) F).kept
          ++ ((⟨T, [], []⟩ : MoveLists).run (holdsPassword T) F).copied) := by
  have hscan := scanTo_eq (n := n) false .toHead h.toLeads h.liveTo
    (by omega)
  obtain ⟨st', hst', hmoving⟩ := movePairs_eq (n := n) (holdsPassword T)
    h.moving (by simpa using hn) (show F.length ≤ n by omega)
  refine ⟨st'.store, ?_, by simpa using hmoving.lists⟩
  unfold pairmove
  rw [show s.toHead = s.load .toHead from rfl, hscan]
  have hhead : s.fromHead = (addresses F).head? := segment_head h.fromLeads
  simp only [Option.bind_eq_bind, Option.bind_some, Bool.false_or]
  rw [hhead]
  unfold holdsPassword at hst'
  rw [hst']
  rfl

end run

end WinRadius
