/-
The table of readers under insertions and deletions.

A deletion leaves a hole, and an insertion stops at the first hole it
comes to. So a descriptor behind a hole (`Hidden`) is not seen by an
insertion, which puts it into the hole as well; this is the only way to a
second slot. What holds otherwise is `Orderly`: one slot for a descriptor,
and all slots below `max_readers`.
-/
import WinRadius.Lib.Run
import WinRadius.Model.EventFds

namespace WinRadius

open Lib

namespace FrEventFds

variable {el el' : FrEventFds} {ef : FrEventFd} {type fd : Int}
  {handler ctx maxReaders i j n : Nat}

-- ======== slots

theorem reader_setReader (hi : i < frEvMaxFds) (j : Nat) :
    (el.setReader i ef maxReaders).reader j
      = if j = i then ef else el.reader j := by
  rw [reader, reader, setReader]
  dsimp only
  rw [List.getD_eq_getElem?_getD, List.getD_eq_getElem?_getD,
    List.getElem?_set]
  by_cases hj : i = j
  · rw [if_pos hj, if_pos (by rw [el.size]; omega), if_pos hj.symm]
    rfl
  · rw [if_neg hj, if_neg (Ne.symm hj)]

/-- A search from the first slot on. -/
theorem findIdx?_take (p : FrEventFd → Bool)
    (h : (el.readers.take n).findIdx? p = some i) :
    i < n ∧ p (el.reader i) = true ∧ ∀ j < i, p (el.reader j) = false := by
  obtain ⟨hi, hp, hbefore⟩ := List.findIdx?_eq_some_iff_getElem.mp h
  have hreader (j : Nat) (hj : j < (el.readers.take n).length) :
      (el.readers.take n)[j] = el.reader j := by
    rw [List.length_take] at hj
    rw [List.getElem_take, reader, List.getD_eq_getElem?_getD,
      List.getElem?_eq_getElem (by omega)]
    rfl
  rw [hreader i hi] at hp
  refine ⟨?_, hp, ?_⟩
  · rw [List.length_take] at hi
    omega
  · intro j hj
    have hno := hbefore j hj
    rw [hreader j (Nat.lt_trans hj hi)] at hno
    simpa using hno

/-- All that an insertion can do: nothing, or the first slot that is free,
in front of which there is neither a free one nor the descriptor. -/
theorem fdInsert_cases :
    (el.fdInsert type fd handler ctx).1 = el ∨
      ∃ i, 0 ≤ fd ∧ i ≤ el.maxReaders ∧ el.maxReaders < frEvMaxFds ∧
        (el.reader i).fd < 0 ∧
        (∀ j < i, (el.reader j).fd ≠ fd ∧ 0 ≤ (el.reader j).fd) ∧
        (el.fdInsert type fd handler ctx).1
          = el.setReader i ⟨fd, handler, ctx⟩
            (if i = el.maxReaders then i + 1 else el.maxReaders) := by
  rw [fdInsert]
  split
  · exact .inl rfl
  · next hvalid =>
      split
      · exact .inl rfl
      · split
        · exact .inl rfl
        · next hfull =>
            split
            · exact .inl rfl
            · next i hfind =>
                obtain ⟨hi, hp, hbefore⟩ := findIdx?_take _ hfind
                dsimp only
                split
                · exact .inl rfl
                · next hfd =>
                    refine .inr ⟨i, by omega, by omega, by omega, ?_, ?_, rfl⟩
                    · have hor := of_decide_eq_true hp
                      exact hor.resolve_left hfd
                    · intro j hj
                      have hnor := of_decide_eq_false (hbefore j hj)
                      rw [not_or] at hnor
                      exact ⟨hnor.1, by omega⟩

/-- All that a deletion can do: nothing, or the first slot of the
descriptor is freed. -/
theorem fdDelete_cases :
    el.fdDelete type fd = (el, false) ∨
      ∃ i, 0 ≤ fd ∧ i < el.maxReaders ∧ (el.reader i).fd = fd ∧
        el.fdDelete type fd
          = (el.setReader i { el.reader i with fd := -1 }
              (if i + 1 = el.maxReaders then i else el.maxReaders), true) := by
  rw [fdDelete]
  split
  · exact .inl rfl
  · next hfd =>
      split
      · exact .inl rfl
      · split
        · exact .inl rfl
        · next i hfind =>
            obtain ⟨hi, hp, _⟩ := findIdx?_take _ hfind
            exact .inr ⟨i, by omega, hi, of_decide_eq_true hp, rfl⟩

-- ======== the table

/-- One slot for a descriptor, and all of them where the select loop looks
for them. -/
structure Orderly (el : FrEventFds) : Prop where
  single : ∀ i j, 0 ≤ (el.reader i).fd →
    (el.reader i).fd = (el.reader j).fd → i = j
  below : ∀ i, 0 ≤ (el.reader i).fd → i < el.maxReaders
  bound : el.maxReaders ≤ frEvMaxFds

/-- The descriptor is in a slot behind a hole. -/
def Hidden (el : FrEventFds) (fd : Int) : Prop :=
  ∃ i j, i < j ∧ (el.reader i).fd < 0 ∧ (el.reader j).fd = fd

theorem create_reader (i : Nat) : (frEventFdsCreate.reader i).fd = -1 := by
  rw [reader, frEventFdsCreate, List.getD_eq_getElem?_getD,
    List.getElem?_replicate]
  split
  · rfl
  · rfl

theorem create_orderly : frEventFdsCreate.Orderly := by
  refine ⟨?_, ?_, Nat.zero_le _⟩
  · intro i j hi
    rw [create_reader i] at hi
    omega
  · intro i hi
    rw [create_reader i] at hi
    omega

/-- A slot that takes a descriptor which is in no slot. -/
theorem Orderly.fill (h : el.Orderly) (hi : i ≤ el.maxReaders)
    (hmax : el.maxReaders < frEvMaxFds)
    (hfresh : ∀ j, j ≠ i → (el.reader j).fd ≠ fd) :
    (el.setReader i ⟨fd, handler, ctx⟩
      (if i = el.maxReaders then i + 1 else el.maxReaders)).Orderly := by
  have hslot (j : Nat) : (el.setReader i ⟨fd, handler, ctx⟩
      (if i = el.maxReaders then i + 1 else el.maxReaders)).reader j
        = if j = i then ⟨fd, handler, ctx⟩ else el.reader j :=
    reader_setReader (Nat.lt_of_le_of_lt hi hmax) j
  refine ⟨?_, ?_, ?_⟩
  · intro j k hj hjk
    rw [hslot j] at hj hjk
    rw [hslot k] at hjk
    by_cases hji : j = i
    · rw [if_pos hji] at hjk
      by_cases hki : k = i
      · exact hji.trans hki.symm
      · rw [if_neg hki] at hjk
        exact absurd hjk.symm (hfresh k hki)
    · rw [if_neg hji] at hj hjk
      by_cases hki : k = i
      · rw [if_pos hki] at hjk
        exact absurd hjk (hfresh j hji)
      · rw [if_neg hki] at hjk
        exact h.single j k hj hjk
  · intro j hj
    rw [hslot j] at hj
    show j < if i = el.maxReaders then i + 1 else el.maxReaders
    by_cases hji : j = i
    · split
      · omega
      · omega
    · rw [if_neg hji] at hj
      have hbelow := h.below j hj
      split
      · omega
      · exact hbelow
  · show (if i = el.maxReaders then i + 1 else el.maxReaders) ≤ frEvMaxFds
    split
    · omega
    · omega

/-- A slot that is freed, and `max_readers` where it was the last. -/
theorem Orderly.free (h : el.Orderly) (hi : i < el.maxReaders) :
    (el.setReader i { el.reader i with fd := -1 }
      (if i + 1 = el.maxReaders then i else el.maxReaders)).Orderly := by
  have hmax := h.bound
  have hslot (j : Nat) : (el.setReader i { el.reader i with fd := -1 }
      (if i + 1 = el.maxReaders then i else el.maxReaders)).reader j
        = if j = i then { el.reader i with fd := -1 } else el.reader j :=
    reader_setReader (Nat.lt_of_lt_of_le hi hmax) j
  have hother {j : Nat} (hj : 0 ≤ ((el.setReader i
      { el.reader i with fd := -1 }
      (if i + 1 = el.maxReaders then i else el.maxReaders)).reader j).fd) :
      j ≠ i ∧ 0 ≤ (el.reader j).fd := by
    rw [hslot j] at hj
    by_cases hji : j = i
    · rw [if_pos hji] at hj
      dsimp only at hj
      omega
    · rw [if_neg hji] at hj
      exact ⟨hji, hj⟩
  refine ⟨?_, ?_, ?_⟩
  · intro j k hj hjk
    obtain ⟨hji, hjreg⟩ := hother hj
    have hk := hother (hjk ▸ hj)
    rw [hslot j, hslot k, if_neg hji, if_neg hk.1] at hjk
    exact h.single j k hjreg hjk
  · intro j hj
    obtain ⟨hji, hjreg⟩ := hother hj
    have hbelow := h.below j hjreg
    show j < if i + 1 = el.maxReaders then i else el.maxReaders
    split
    · omega
    · exact hbelow
  · show (if i + 1 = el.maxReaders then i else el.maxReaders) ≤ frEvMaxFds
    split
    · omega
    · exact hmax

/-- An insertion of a descriptor that is not hidden. -/
theorem Orderly.insert (h : el.Orderly) (hhidden : ¬ el.Hidden fd) :
    (el.fdInsert type fd handler ctx).1.Orderly := by
  rcases fdInsert_cases with
    heq | ⟨i, _, hi, hmax, hfree, hbefore, heq⟩
  · rw [heq]
    exact h
  · rw [heq]
    apply h.fill hi hmax
    intro j hj hsame
    rcases Nat.lt_or_gt_of_ne hj with hlt | hgt
    · exact (hbefore j hlt).1 hsame
    · exact hhidden ⟨i, j, hgt, hfree, hsame⟩

theorem Orderly.delete (h : el.Orderly) :
    (el.fdDelete type fd).1.Orderly := by
  rcases fdDelete_cases with heq | ⟨i, _, hi, _, heq⟩
  · rw [heq]
    exact h
  · rw [heq]
    exact h.free hi

/-- A descriptor that has been deleted is in no slot. -/
theorem Orderly.deleted (h : el.Orderly)
    (hdelete : el.fdDelete type fd = (el', true)) :
    ∀ j, (el'.reader j).fd ≠ fd := by
  intro j hsame
  rcases fdDelete_cases with heq | ⟨i, hfd, hi, hslot, heq⟩
  · rw [hdelete] at heq
    cases heq
  · rw [hdelete] at heq
    injection heq with heq
    have hmax := h.bound
    rw [heq, reader_setReader (by omega)] at hsame
    by_cases hji : j = i
    · rw [if_pos hji] at hsame
      dsimp only at hsame
      omega
    · rw [if_neg hji] at hsame
      exact hji (h.single j i (by omega) (hsame.trans hslot.symm))

/-- The loop comes to a free slot or to the descriptor, where there is a
free slot below `max_readers`. -/
theorem fdInsert_stops {hole : Nat} (hfd : 0 ≤ fd) (hhandler : handler ≠ 0)
    (hctx : ctx ≠ 0) (hmax : el.maxReaders < frEvMaxFds)
    (hhole : hole < el.maxReaders) (hfree : (el.reader hole).fd < 0) :
    ∃ i, i ≤ hole ∧ ((el.reader i).fd = fd ∨
      (el.fdInsert 0 fd handler ctx).1
        = el.setReader i ⟨fd, handler, ctx⟩
          (if i = el.maxReaders then i + 1 else el.maxReaders)) := by
  rw [fdInsert, if_neg (by omega), if_neg (by omega), if_neg (by omega)]
  have hmem : el.reader hole ∈ el.readers.take (el.maxReaders + 1) := by
    have hsize := el.size
    apply List.mem_of_getElem? (i := hole)
    rw [List.getElem?_take_of_lt (by omega), reader,
      List.getD_eq_getElem?_getD, List.getElem?_eq_getElem (by omega)]
    rfl
  split
  · next hnone =>
      have hno := List.findIdx?_eq_none_iff.mp hnone _ hmem
      exact absurd (.inr hfree) (of_decide_eq_false hno)
  · next i hfind =>
      obtain ⟨_, _, hbefore⟩ := findIdx?_take _ hfind
      refine ⟨i, ?_, ?_⟩
      · by_contra hgt
        have hno := hbefore hole (by omega)
        exact absurd (.inr hfree) (of_decide_eq_false hno)
      · dsimp only
        split
        · next hsame => exact .inl hsame
        · exact .inr rfl

/-- Where an insertion keeps the table: the descriptor is not hidden. -/
theorem Orderly.insert_iff (h : el.Orderly) (hfd : 0 ≤ fd)
    (hhandler : handler ≠ 0) (hctx : ctx ≠ 0)
    (hmax : el.maxReaders < frEvMaxFds) :
    (el.fdInsert 0 fd handler ctx).1.Orderly ↔ ¬ el.Hidden fd := by
  refine ⟨?_, h.insert⟩
  intro hnew hhidden
  obtain ⟨hole, slot, hlt, hfree, hslot⟩ := hhidden
  have hbelow := h.below slot (by omega)
  obtain ⟨i, hi, hcase⟩ :=
    fdInsert_stops hfd hhandler hctx hmax (by omega) hfree
  rcases hcase with hsame | hset
  · have heq := h.single slot i (by omega) (hslot.trans hsame.symm)
    omega
  · rw [hset] at hnew
    have hread (j : Nat) : (el.setReader i ⟨fd, handler, ctx⟩
        (if i = el.maxReaders then i + 1 else el.maxReaders)).reader j
          = if j = i then ⟨fd, handler, ctx⟩ else el.reader j :=
      reader_setReader (by omega) j
    have heq := hnew.single slot i
      (by rw [hread, if_neg (by omega)]; omega)
      (by rw [hread, hread, if_neg (by omega), if_pos rfl]; exact hslot)
    omega

end FrEventFds

-- ======== results

/-- A call that does not insert a hidden descriptor. -/
def FdOp.Careful (el : FrEventFds) : FdOp → Prop
  | .insert _ fd _ _ => ¬ el.Hidden fd
  | .delete _ _ => True

/-- A step of a run. -/
def FdStep (el el' : FrEventFds) : Prop :=
  ∃ op : FdOp, op.Careful el ∧ el' = (op.run el).1

theorem FdStep.orderly {el el' : FrEventFds} (hstep : FdStep el el')
    (h : el.Orderly) : el'.Orderly := by
  obtain ⟨op, hop, rfl⟩ := hstep
  cases op with
  | insert type fd handler ctx => exact h.insert hop
  | delete type fd => exact h.delete

/-- In every run that does not insert a hidden descriptor. -/
theorem eventFds_in_every_run {el : FrEventFds}
    (h : Reaches FdStep frEventFdsCreate el) :
    (∀ i j, 0 ≤ (el.reader i).fd →
      (el.reader i).fd = (el.reader j).fd → i = j) ∧
    (∀ i, 0 ≤ (el.reader i).fd → i < el.maxReaders) ∧
    ∀ type fd el', el.fdDelete type fd = (el', true) →
      ∀ i, (el'.reader i).fd ≠ fd := by
  have horderly := h.invariant FrEventFds.Orderly FrEventFds.create_orderly
    fun _ _ ha hstep => hstep.orderly ha
  exact ⟨horderly.single, horderly.below,
    fun _ _ _ hdelete => horderly.deleted hdelete⟩

/-- A descriptor in the first slot. -/
def oneReader : FrEventFds := (frEventFdsCreate.fdInsert 0 5 1 1).1

/-- Two descriptors are inserted. -/
theorem eventFds_in_every_run_two :
    (∀ i j, 0 ≤ ((oneReader.fdInsert 0 6 1 1).1.reader i).fd →
      ((oneReader.fdInsert 0 6 1 1).1.reader i).fd
        = ((oneReader.fdInsert 0 6 1 1).1.reader j).fd → i = j) ∧
    (∀ i, 0 ≤ ((oneReader.fdInsert 0 6 1 1).1.reader i).fd →
      i < (oneReader.fdInsert 0 6 1 1).1.maxReaders) ∧
    ∀ type fd el', (oneReader.fdInsert 0 6 1 1).1.fdDelete type fd
      = (el', true) → ∀ i, (el'.reader i).fd ≠ fd := by
  have hfirst : FdStep frEventFdsCreate oneReader := by
    refine ⟨.insert 0 5 1 1, ?_, rfl⟩
    intro h
    obtain ⟨i, j, _, _, hj⟩ := h
    rw [FrEventFds.create_reader j] at hj
    omega
  have hone (j : Nat) : oneReader.reader j
      = if j = 0 then ⟨5, 1, 1⟩ else frEventFdsCreate.reader j :=
    FrEventFds.reader_setReader (by decide) j
  have hsecond : FdStep oneReader (oneReader.fdInsert 0 6 1 1).1 := by
    refine ⟨.insert 0 6 1 1, ?_, rfl⟩
    intro h
    obtain ⟨i, j, _, _, hj⟩ := h
    rw [hone j] at hj
    split at hj
    · cases hj
    · rw [FrEventFds.create_reader j] at hj
      omega
  exact eventFds_in_every_run ((Reaches.refl.step hfirst).step hsecond)

/-- A descriptor behind a hole. -/
def behindHole : FrEventFds :=
  ((oneReader.fdInsert 0 6 1 1).1.fdDelete 0 5).1

/-- It is put into the hole, too, and one deletion leaves it there. -/
theorem insert_twice :
    ((behindHole.fdInsert 0 6 1 1).1.reader 0).fd = 6 ∧
      ((behindHole.fdInsert 0 6 1 1).1.reader 1).fd = 6 ∧
      ((behindHole.fdInsert 0 6 1 1).1.fdDelete 0 6).2 = true ∧
      (((behindHole.fdInsert 0 6 1 1).1.fdDelete 0 6).1.reader 1).fd = 6 := by
  decide

end WinRadius
