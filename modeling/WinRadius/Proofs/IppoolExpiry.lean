/-
What becomes of an entry whose time is over.

The search for a free entry looks at entries that have expired, but takes
one only when the count of its address is zero, and the count of an active
entry's address is at least one. So where nothing is inactive, post-auth
gives an address only to a caller it takes for another link of whoever is
active, which is the caller `"0"` that every entry keeps
(`IppoolDb.Unnamed`), or where a count was lost.
-/
import WinRadius.Proofs.IppoolRun

namespace WinRadius

open Lib Lib.FiniteMap

-- ======== the callers

/-- Every entry has the caller it was initialised with. -/
def IppoolDb.Unnamed (db : IppoolDb) : Prop :=
  ∀ k e, db.gdbm.lookup k = some e → e.cli = [48]

namespace IppoolDb

variable {db : IppoolDb}

theorem Unnamed.deallocate (h : db.Unnamed) {key : IppoolKey}
    {entry : IppoolInfo} (hl : db.gdbm.lookup key = some entry) :
    (db.deallocate key entry).Unnamed := by
  intro k e he
  have hinsert : ∀ k e, (db.gdbm.insert key
      { entry with active := false, timestamp := 0, timeout := 0 }).lookup k
        = some e → e.cli = [48] := by
    intro k e he
    rw [lookup_insert] at he
    split at he
    · cases he
      exact h key entry hl
    · exact h k e he
  obtain hg | hg := (deallocate_cases db key entry).1
  · rw [hg] at he
    exact hinsert k e he
  · rw [hg, lookup_erase] at he
    split at he
    · cases he
    · exact hinsert k e he

theorem Unnamed.freshen (h : db.Unnamed) (key : IppoolKey) :
    (db.freshen key).Unnamed := by
  unfold IppoolDb.freshen
  cases hl : db.gdbm.lookup key with
  | none => exact h
  | some entry =>
      dsimp only
      split
      · exact h.deallocate hl
      · exact h

theorem Unnamed.allocate (h : db.Unnamed) {request : IppoolRequest}
    {found mppp : Bool} {key taken : IppoolKey} {entry : IppoolInfo}
    (hl : db.gdbm.lookup taken = some entry) :
    (db.allocate request found mppp key taken entry).Unnamed := by
  intro k e he
  obtain ⟨-, rfl⟩ | ⟨-, he | he⟩ := allocate_lookup he
  · exact h taken entry hl
  · exact h k e he
  · exact h key e he

end IppoolDb

theorem initLoop_unnamed {data : RlmIppool} (fuel : Nat) : ∀ i j gdbm gdbm',
    (∀ k e, gdbm.lookup k = some e → e.cli = [48]) →
    initLoop data fuel i j gdbm = some gdbm' →
    ∀ k e, gdbm'.lookup k = some e → e.cli = [48] := by
  induction fuel with
  | zero => intro i j gdbm gdbm' _ h; cases h
  | succ fuel ih =>
      intro i j gdbm gdbm' hg h
      unfold initLoop at h
      split at h
      · refine ih (i + 1) (j - 1) _ gdbm' ?_ h
        intro k e he
        split at he
        · exact hg k e he
        · rw [lookup_insert] at he
          split at he
          · cases he
            rfl
          · exact hg k e he
      · cases h
        exact hg

theorem ippoolInstantiate_unnamed {data : RlmIppool} {db : IppoolDb}
    (h : ippoolInstantiate data = some db) : db.Unnamed := by
  unfold ippoolInstantiate at h
  split at h
  · cases h
  · obtain ⟨gdbm, hg, rfl⟩ := Option.map_eq_some_iff.mp h
    exact initLoop_unnamed _ _ _ _ _ (fun k e he => by cases he) hg

open IppoolRun

theorem IppoolRun.unnamed_call {data : RlmIppool} {s : IppoolRun}
    (h : s.db.Unnamed) (c : IppoolCall) : (s.call data c).db.Unnamed := by
  obtain heq | ⟨request, key, entry, rfl, hk, hl, heq⟩
    | ⟨request, order, key, rfl, hk, heq⟩
    | ⟨request, order, key, mppp, taken, entry, rfl, hk, hs, hf, ht, heq⟩ :=
      call_cases data s c
  · rw [heq]
    exact h
  · rw [heq]
    exact h.deallocate hl
  · rw [heq]
    exact h.freshen key
  · rw [heq]
    exact (h.freshen key).allocate ht.taken

/-- No request ever writes a caller. -/
theorem unnamed_of_reaches {data : RlmIppool} {s t : IppoolRun}
    {p : IppoolRun → IppoolCall → Prop} (hinit : s.Initial data)
    (h : Reaches (Step data p) s t) : t.db.Unnamed := by
  apply h.invariant (fun s => s.db.Unnamed)
  · exact ippoolInstantiate_unnamed hinit.1
  · intro a b ha ⟨c, _, _, hb⟩
    rw [hb]
    exact unnamed_call ha c

-- ======== the search

/-- A walk over all keys finds an entry with the property if there is
one. -/
theorem IppoolDb.walk_isSome_iff {db : IppoolDb} {p : IppoolInfo → Bool}
    {order : List IppoolKey} (horder : order.Perm db.gdbm.keys) :
    (db.walk p order).isSome = true
      ↔ ∃ k e, db.gdbm.lookup k = some e ∧ p e = true := by
  have hlist : ∀ ks : List IppoolKey, (db.walk p ks).isSome = true
      ↔ ∃ k ∈ ks, ∃ e, db.gdbm.lookup k = some e ∧ p e = true := by
    intro ks
    induction ks with
    | nil => simp [IppoolDb.walk]
    | cons k ks ih =>
        rw [IppoolDb.walk]
        cases hl : db.gdbm.lookup k with
        | none => simp [ih, hl]
        | some e =>
            dsimp only
            by_cases hp : p e = true
            · simp [hp, hl]
            · simp [hp, hl, ih]
  rw [hlist order]
  constructor
  · intro ⟨k, _, h⟩
    exact ⟨k, h⟩
  · intro ⟨k, e, hl, hp⟩
    refine ⟨k, horder.mem_iff.mpr ?_, e, hl, hp⟩
    exact AList.mem_keys.mp (AList.lookup_isSome.mp (by rw [hl]; rfl))

/-- An address is given exactly when the search finds an entry. -/
theorem ippoolPostauth_ok_iff {data : RlmIppool} {db : IppoolDb}
    {request : IppoolRequest} {order : List IppoolKey} {key : IppoolKey}
    (hkey : data.authKey request = some key)
    (hsettled : data.isSettled request = false) :
    ((ippoolPostauth data db request order).2.2 = .ok
        ∧ ∃ a, (ippoolPostauth data db request order).2.1.framedIpAddress
          = some a)
      ↔ ((db.freshen key).search data request order).isSome = true := by
  unfold ippoolPostauth
  rw [hkey]
  dsimp only
  rw [hsettled, if_neg (by simp)]
  cases (db.freshen key).search data request order with
  | none => simp
  | some hit => simp [IppoolReply.give]

/-- The entry has been active for longer than it was given, or than any
may be. -/
def IppoolInfo.Expired (data : RlmIppool) (now : Nat) (entry : IppoolInfo) :
    Prop :=
  (entry.timeout ≠ 0 ∧ entry.timestamp + entry.timeout ≤ now)
    ∨ (data.maxTimeout ≠ 0 ∧ entry.timestamp + data.maxTimeout ≤ now)

/-- An active entry that has expired, alone with its address. -/
def IppoolDb.HasExpired (db : IppoolDb) (data : RlmIppool) (now : Nat) :
    Prop :=
  ∃ k e, db.gdbm.lookup k = some e ∧ e.active = true ∧ e.Expired data now
    ∧ ∀ k' e', db.gdbm.lookup k' = some e' → e'.active = true →
      e'.ipaddr = e.ipaddr → k' = k

/-- No entry that is inactive can be found. -/
def IppoolDb.NoneFree (db : IppoolDb) : Prop :=
  ∀ k e, db.gdbm.lookup k = some e → e.active = false → db.num e.ipaddr ≠ 0

/-- An active entry is over by the clock, and its address counts as
unused. -/
def IppoolDb.CountLost (db : IppoolDb) (data : RlmIppool) (now : Nat) :
    Prop :=
  ∃ k e, db.gdbm.lookup k = some e ∧ e.active = true
    ∧ data.isOver now e = true ∧ db.num e.ipaddr = 0

/-- Where the counts are right, no count is lost. -/
theorem not_countLost {db : IppoolDb} (hc : db.Counted) (data : RlmIppool)
    (now : Nat) : ¬ db.CountLost data now := by
  intro ⟨k, e, hl, hactive, _, hnum⟩
  have hpos := IppoolDb.users_pos hl hactive
  rw [hc] at hnum
  omega

/-- The caller of a request is the one that all entries keep. -/
def IppoolRequest.CallerZero (request : IppoolRequest) : Prop :=
  ∃ cli, request.callingStationId = some cli ∧ cString cli = [48]

/-- In every state that can be reached, a request that finds no inactive
entry, though an entry has expired, is given an address exactly when its
caller is `"0"` or the count of an active entry's address was lost. -/
theorem ippool_reclaims_iff {data : RlmIppool} {s t : IppoolRun}
    (hinit : s.Initial data) (h : Reaches (Step data fun _ _ => True) s t)
    {request : IppoolRequest} {order : List IppoolKey} {key : IppoolKey}
    (hadmits : t.Admits data (.postauth request order))
    (hkey : data.authKey request = some key)
    (hsettled : data.isSettled request = false)
    (hfree : (t.db.freshen key).NoneFree)
    (hexpired : (t.db.freshen key).HasExpired data request.timestamp) :
    ((ippoolPostauth data t.db request order).2.2 = .ok
        ∧ ∃ a, (ippoolPostauth data t.db request order).2.1.framedIpAddress
          = some a)
      ↔ request.CallerZero
        ∨ (t.db.freshen key).CountLost data request.timestamp := by
  have horder := hadmits key hkey
  have hcli := (unnamed_of_reaches hinit h).freshen key
  obtain ⟨db, hdb⟩ : ∃ db, db = t.db.freshen key := ⟨_, rfl⟩
  rw [ippoolPostauth_ok_iff hkey hsettled, ← hdb]
  rw [← hdb] at horder hcli hfree hexpired
  -- the first walk finds what is active, for the one caller
  have hmppp : (db.findMppp request order).isSome = true
      ↔ request.CallerZero := by
    unfold IppoolDb.findMppp IppoolRequest.CallerZero
    cases request.callingStationId with
    | none => simp
    | some cli =>
        rw [IppoolDb.walk_isSome_iff horder]
        constructor
        · intro ⟨k, e, hl, hp⟩
          rw [IppoolInfo.isMppp, Bool.and_eq_true, beq_iff_eq,
            hcli k e hl] at hp
          exact ⟨cli, rfl, hp.1.symm⟩
        · intro ⟨_, hsome, hzero⟩
          cases hsome
          obtain ⟨k, e, hl, hactive, -⟩ := hexpired
          refine ⟨k, e, hl, ?_⟩
          rw [IppoolInfo.isMppp, hcli k e hl, hzero, hactive]
          rfl
  -- the second finds what is active, where a count was lost
  have hlost : (db.findFree data request.timestamp order).isSome = true
      ↔ db.CountLost data request.timestamp := by
    unfold IppoolDb.findFree IppoolDb.CountLost
    rw [IppoolDb.walk_isSome_iff horder]
    simp only [Bool.and_eq_true, beq_iff_eq]
    constructor
    · intro ⟨k, e, hl, hover, hnum⟩
      refine ⟨k, e, hl, ?_, hover, hnum⟩
      by_contra hactive
      exact hfree k e hl (eq_false_of_ne_true hactive) hnum
    · intro ⟨k, e, hl, _, hover, hnum⟩
      exact ⟨k, e, hl, hover, hnum⟩
  rw [← hmppp, ← hlost, IppoolDb.search]
  cases db.findMppp request order with
  | some hit => simp
  | none => simp

-- ======== two addresses

/-- The pool 10.0.0.1 to 10.0.0.2, where nobody may stay for longer than
ten minutes. -/
def timedPool : RlmIppool :=
  { smallPool with rangeStop := 0x0a000002, maxTimeout := 600 }

def timedRequest (n : UInt8) (cli : List UInt8) (now : Nat) :
    IppoolRequest :=
  { poolRequest n (some cli) none with timestamp := now }

namespace IppoolRun

def timedStart : IppoolRun where
  db := (ippoolInstantiate timedPool).getD ⟨∅, ∅⟩
  caller := fun _ => none
  handed := []

/-- The call for a request, with its walk. -/
def timedCall (s : IppoolRun) (n : UInt8) (cli : List UInt8)
    (now : Nat) : IppoolCall :=
  .postauth (timedRequest n cli now) (s.db.freshen (linkKey n)).gdbm.keys

/-- Both addresses given, to two callers. -/
def timedFull : IppoolRun :=
  let s := timedStart.call timedPool (timedStart.timedCall 1 [97] 1000)
  s.call timedPool (s.timedCall 2 [98] 1000)

theorem timedStart_initial : timedStart.Initial timedPool := by
  obtain ⟨db, hdb⟩ : ∃ db, ippoolInstantiate timedPool = some db :=
    Option.isSome_iff_exists.mp (by decide)
  refine ⟨?_, rfl⟩
  unfold timedStart
  rw [hdb]
  rfl

theorem timedCall_admits (s : IppoolRun) (n : UInt8)
    (cli : List UInt8) (now : Nat) :
    s.Admits timedPool (s.timedCall n cli now) := by
  intro k hk
  cases hk
  exact List.Perm.refl _

theorem timedFull_reached :
    Reaches (Step timedPool fun _ _ => True) timedStart timedFull := by
  have hstep : ∀ s n cli now, Step timedPool (fun _ _ => True) s
      (s.call timedPool (s.timedCall n cli now)) :=
    fun s n cli now => ⟨_, timedCall_admits s n cli now, trivial, rfl⟩
  exact (Reaches.refl.step (hstep timedStart 1 [97] 1000)).step
    (hstep _ 2 [98] 1000)

end IppoolRun

/-- Both sessions are over when a third caller comes. -/
theorem timedFull_expired : (timedFull.db.freshen (linkKey 3)).NoneFree
    ∧ (timedFull.db.freshen (linkKey 3)).HasExpired timedPool 2000 := by
  obtain ⟨db, hdb⟩ : ∃ db, db = timedFull.db.freshen (linkKey 3) :=
    ⟨_, rfl⟩
  have hall : ∀ p ∈ db.gdbm.entries, p.2.active = true
      ∧ (p.2.ipaddr = 0x0a000002 → p.1 = (linkKey 1)) := by
    rw [hdb]
    decide
  have hone : ((db.gdbm.lookup (linkKey 1)).map fun e =>
      (e.active, e.timestamp, e.ipaddr)) = some (true, 1000, 0x0a000002) := by
    rw [hdb]
    decide
  rw [← hdb]
  have hentry : ∀ k e, db.gdbm.lookup k = some e → e.active = true
      ∧ (e.ipaddr = 0x0a000002 → k = (linkKey 1)) := by
    intro k e hl
    exact hall ⟨k, e⟩ (AList.mem_lookup_iff.mp hl)
  constructor
  · intro k e hl hoff
    rw [(hentry k e hl).1] at hoff
    cases hoff
  · obtain ⟨e, hl, he⟩ := Option.map_eq_some_iff.mp hone
    simp only [Prod.mk.injEq] at he
    refine ⟨(linkKey 1), e, hl, he.1, Or.inr ⟨by decide, ?_⟩, ?_⟩
    · rw [he.2.1]
      decide
    · intro k' e' hl' _ hip
      exact (hentry k' e' hl').2 (hip.trans he.2.2)

/-- The third caller is given nothing: no entry that has expired is
reclaimed. -/
theorem ippool_never_reclaimed :
    ¬ ∀ (data : RlmIppool) (s t : IppoolRun), s.Initial data →
      Reaches (Step data fun _ _ => True) s t →
      ∀ (request : IppoolRequest) (order : List IppoolKey) (key : IppoolKey),
        t.Admits data (.postauth request order) →
        data.authKey request = some key → data.isSettled request = false →
        (t.db.freshen key).NoneFree →
        (t.db.freshen key).HasExpired data request.timestamp →
        (ippoolPostauth data t.db request order).2.2 = .ok := by
  intro hall
  have h := hall timedPool _ _ timedStart_initial timedFull_reached
    (timedRequest 3 [99] 2000) _ (linkKey 3)
    (timedCall_admits _ 3 [99] 2000) rfl
    rfl timedFull_expired.1 timedFull_expired.2
  revert h
  decide

/-- The caller `"0"` is given an address. -/
theorem ippool_reclaims_iff_zero :
    (timedRequest 3 [48] 2000).CallerZero
      ∧ (ippoolPostauth timedPool timedFull.db (timedRequest 3 [48] 2000)
          (timedFull.db.freshen (linkKey 3)).gdbm.keys).2.2 = .ok
      ∧ ∃ a, (ippoolPostauth timedPool timedFull.db
          (timedRequest 3 [48] 2000) (timedFull.db.freshen
            (linkKey 3)).gdbm.keys).2.1.framedIpAddress = some a := by
  have hzero : (timedRequest 3 [48] 2000).CallerZero :=
    ⟨[48], rfl, by decide⟩
  exact ⟨hzero, (ippool_reclaims_iff timedStart_initial timedFull_reached
    (timedCall_admits _ 3 [48] 2000) rfl rfl timedFull_expired.1
    timedFull_expired.2).mpr (.inl hzero)⟩

end WinRadius
