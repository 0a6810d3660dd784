/-
What each request does to the address pool of rlm_ippool.cpp: to the
entries, read by key, and to the count of each address.

# The counts

`users db a` is the number of entries that are active with address `a`,
`db.num a` the count in the ip index. A deallocation decreases both where
the entry was active; where it was not, the count goes down alone unless
it is zero already. An allocation increases both, if what it takes away
was not active. That is so for a free entry because its address has the
count zero.
-/
import WinRadius.Lib.FiniteMap
import WinRadius.Model.Ippool

namespace WinRadius

open Lib.FiniteMap

/-- An entry is active with an address. -/
def IppoolInfo.uses (a : UInt32) (entry : IppoolInfo) : Bool :=
  entry.active && entry.ipaddr == a

theorem IppoolInfo.uses_iff {a : UInt32} {entry : IppoolInfo} :
    entry.uses a = true ↔ entry.active = true ∧ entry.ipaddr = a := by
  unfold uses
  rw [Bool.and_eq_true, beq_iff_eq]

theorem IppoolInfo.uses_of_inactive {a : UInt32} {entry : IppoolInfo}
    (h : entry.active = false) : entry.uses a = false := by
  unfold uses
  rw [h, Bool.false_and]

namespace IppoolDb

variable {db : IppoolDb}

/-- The number of entries that are active with an address. -/
def users (db : IppoolDb) (a : UInt32) : Nat :=
  count (·.uses a) db.gdbm

/-- Every count is right. -/
def Counted (db : IppoolDb) : Prop := ∀ a, db.num a = db.users a

/-- A count that was written, read. -/
theorem num_insert (gdbm : AList fun _ : IppoolKey => IppoolInfo)
    (a b : UInt32) (n : Nat) :
    (IppoolDb.mk gdbm (db.ip.insert a n)).num b
      = if b = a then n else db.num b := by
  unfold num
  rw [lookup_insert]
  split <;> rfl

/-- An active entry is among the users of its address. -/
theorem users_pos {key : IppoolKey} {entry : IppoolInfo}
    (h : db.gdbm.lookup key = some entry) (ha : entry.active = true) :
    0 < db.users entry.ipaddr := by
  have hw := weight_le_count (·.uses entry.ipaddr) db.gdbm key
  have huses : entry.uses entry.ipaddr = true :=
    IppoolInfo.uses_iff.mpr ⟨ha, rfl⟩
  rw [h, weight_some huses] at hw
  exact hw

-- ======== deallocation

/-- The entry stays, inactive, or goes; and its address counts one
less. -/
theorem deallocate_cases (db : IppoolDb) (key : IppoolKey)
    (entry : IppoolInfo) :
    ((db.deallocate key entry).gdbm = db.gdbm.insert key
        { entry with active := false, timestamp := 0, timeout := 0 }
      ∨ (db.deallocate key entry).gdbm = (db.gdbm.insert key
        { entry with active := false, timestamp := 0
                     timeout := 0 }).erase key)
    ∧ ∀ a, (db.deallocate key entry).num a
        = if a = entry.ipaddr then db.num a - 1 else db.num a := by
  have hnum : db.num entry.ipaddr = (db.ip.lookup entry.ipaddr).getD 0 :=
    rfl
  cases hl : db.ip.lookup entry.ipaddr with
  | none =>
      rw [hl] at hnum
      have hd : db.deallocate key entry = ⟨db.gdbm.insert key
          { entry with active := false, timestamp := 0, timeout := 0 },
          db.ip⟩ := by
        unfold deallocate
        rw [hl]
      rw [hd]
      refine ⟨Or.inl rfl, fun a => ?_⟩
      show db.num a = _
      split
      next h => rw [h, hnum, Option.getD_none]
      next => rfl
  | some num =>
      rw [hl] at hnum
      by_cases hpos : 0 < num
      · by_cases hx : 0 < num - 1 ∧ entry.extra = true
        · have hd : db.deallocate key entry = ⟨(db.gdbm.insert key
              { entry with active := false, timestamp := 0
                           timeout := 0 }).erase key,
              db.ip.insert entry.ipaddr (num - 1)⟩ := by
            unfold deallocate
            simp only [hl, if_pos hpos, if_pos hx]
          rw [hd]
          refine ⟨Or.inr rfl, fun a => ?_⟩
          rw [num_insert]
          split
          next h => rw [h, hnum, Option.getD_some]
          next => rfl
        · have hd : db.deallocate key entry = ⟨db.gdbm.insert key
              { entry with active := false, timestamp := 0, timeout := 0 },
              db.ip.insert entry.ipaddr (num - 1)⟩ := by
            unfold deallocate
            simp only [hl, if_pos hpos, if_neg hx]
          rw [hd]
          refine ⟨Or.inl rfl, fun a => ?_⟩
          rw [num_insert]
          split
          next h => rw [h, hnum, Option.getD_some]
          next => rfl
      · have hd : db.deallocate key entry = ⟨db.gdbm.insert key
            { entry with active := false, timestamp := 0, timeout := 0 },
            db.ip⟩ := by
          unfold deallocate
          simp only [hl, if_neg hpos]
        rw [hd]
        refine ⟨Or.inl rfl, fun a => ?_⟩
        show db.num a = _
        split
        next h =>
          rw [h, hnum, Option.getD_some]
          omega
        next => rfl

/-- The entries after a deallocation. -/
theorem deallocate_lookup {key k : IppoolKey} {entry e : IppoolInfo}
    (h : (db.deallocate key entry).gdbm.lookup k = some e) :
    (k ≠ key ∧ db.gdbm.lookup k = some e)
      ∨ (k = key ∧ e.active = false ∧ e.ipaddr = entry.ipaddr) := by
  rcases (deallocate_cases db key entry).1 with hg | hg
  · rw [hg, lookup_insert] at h
    split at h
    next hk =>
      cases h
      exact Or.inr ⟨hk, rfl, rfl⟩
    next hk => exact Or.inl ⟨hk, h⟩
  · rw [hg, lookup_erase] at h
    split at h
    next => cases h
    next hk =>
      rw [lookup_insert, if_neg hk] at h
      exact Or.inl ⟨hk, h⟩

/-- The users after a deallocation. -/
theorem deallocate_users {key : IppoolKey} {entry : IppoolInfo}
    (h : db.gdbm.lookup key = some entry) (a : UInt32) :
    (db.deallocate key entry).users a
      + weight (·.uses a) (some entry) = db.users a := by
  have hoff : IppoolInfo.uses a { entry with
      active := false, timestamp := 0, timeout := 0 } = false :=
    IppoolInfo.uses_of_inactive rfl
  have hi := count_insert (·.uses a) db.gdbm key
    { entry with active := false, timestamp := 0, timeout := 0 }
  rw [h, weight_some_not hoff] at hi
  unfold users
  rcases (deallocate_cases db key entry).1 with hg | hg
  · rw [hg]
    omega
  · have he := count_erase (·.uses a) (db.gdbm.insert key
      { entry with active := false, timestamp := 0, timeout := 0 }) key
    rw [AList.lookup_insert, weight_some_not hoff] at he
    rw [hg]
    omega

/-- The counts stay right if the entry was active, or its address had no
users. -/
theorem Counted.deallocate (hc : Counted db) {key : IppoolKey}
    {entry : IppoolInfo} (h : db.gdbm.lookup key = some entry)
    (hok : entry.active = true ∨ db.users entry.ipaddr = 0) :
    Counted (db.deallocate key entry) := by
  intro a
  have hu := deallocate_users h a
  have hn := (deallocate_cases db key entry).2 a
  have ha := hc a
  by_cases he : a = entry.ipaddr
  · rw [if_pos he] at hn
    rcases hok with hact | hzero
    · rw [weight_some (IppoolInfo.uses_iff.mpr ⟨hact, he.symm⟩)] at hu
      omega
    · rw [← he] at hzero
      omega
  · rw [if_neg he] at hn
    have hnot : entry.uses a = false := by
      rw [Bool.eq_false_iff]
      intro hu
      exact he (IppoolInfo.uses_iff.mp hu).2.symm
    rw [weight_some_not hnot] at hu
    omega

-- ======== a stale entry

/-- The counts stay right when a stale entry is deallocated. -/
theorem Counted.freshen (hc : Counted db) (key : IppoolKey) :
    Counted (db.freshen key) := by
  unfold IppoolDb.freshen
  cases h : db.gdbm.lookup key with
  | none => exact hc
  | some entry =>
      by_cases ha : entry.active = true
      · simp only [if_pos ha]
        exact hc.deallocate h (Or.inl ha)
      · simp only [if_neg ha]
        exact hc

/-- The entries after the key's own is fresh. -/
theorem freshen_lookup {key k : IppoolKey} {e : IppoolInfo}
    (h : (db.freshen key).gdbm.lookup k = some e) :
    (k ≠ key ∧ db.gdbm.lookup k = some e)
      ∨ (k = key ∧ e.active = false
        ∧ ∃ e₀, db.gdbm.lookup key = some e₀ ∧ e.ipaddr = e₀.ipaddr) := by
  unfold freshen at h
  cases hl : db.gdbm.lookup key with
  | none =>
      simp only [hl] at h
      refine Or.inl ⟨fun e => ?_, h⟩
      rw [e, hl] at h
      cases h
  | some entry =>
      simp only [hl] at h
      split at h
      next ha =>
        rcases deallocate_lookup h with h | ⟨hk, hoff, hip⟩
        · exact Or.inl h
        · exact Or.inr ⟨hk, hoff, entry, rfl, hip⟩
      next ha =>
        by_cases hk : k = key
        · rw [hk, hl] at h
          cases h
          exact Or.inr ⟨hk, Bool.eq_false_iff.mpr ha, _, rfl, rfl⟩
        · exact Or.inl ⟨hk, h⟩

theorem freshen_own {key : IppoolKey} {e : IppoolInfo}
    (h : (db.freshen key).gdbm.lookup key = some e) :
    e.active = false := by
  rcases freshen_lookup h with ⟨hk, -⟩ | ⟨-, hoff, -⟩
  · exact absurd rfl hk
  · exact hoff

/-- A key without an entry has none afterwards. -/
theorem freshen_lookup_none {key : IppoolKey}
    (h : db.gdbm.lookup key = none) : db.freshen key = db := by
  unfold freshen
  rw [h]

-- ======== the search

/-- What a walk finds is an entry with the property. -/
theorem walk_spec {p : IppoolInfo → Bool} {order : List IppoolKey}
    {k : IppoolKey} {e : IppoolInfo}
    (h : db.walk p order = some (k, e)) :
    db.gdbm.lookup k = some e ∧ p e = true := by
  induction order with
  | nil => cases h
  | cons key order ih =>
      unfold walk at h
      split at h
      next entry hl =>
        split at h
        next hp =>
          cases h
          exact ⟨hl, hp⟩
        next => exact ih h
      next => exact ih h

/-- What the search finds is in the database. For multilink it is active;
else its address has the count zero. -/
theorem search_spec {data : RlmIppool} {request : IppoolRequest}
    {order : List IppoolKey} {mppp : Bool} {k : IppoolKey} {e : IppoolInfo}
    (h : db.search data request order = some (mppp, k, e)) :
    db.gdbm.lookup k = some e
      ∧ (mppp = true ∧ e.active = true
          ∧ db.findMppp request order = some (k, e)
        ∨ mppp = false ∧ db.num e.ipaddr = 0) := by
  unfold search at h
  cases hm : db.findMppp request order with
  | some hit =>
      simp only [hm] at h
      cases h
      have hf := hm
      unfold findMppp at hf
      split at hf
      next => cases hf
      next cli _ =>
        obtain ⟨hl, hp⟩ := walk_spec hf
        unfold IppoolInfo.isMppp at hp
        exact ⟨hl, Or.inl ⟨rfl, (Bool.and_eq_true _ _ ▸ hp).2, rfl⟩⟩
  | none =>
      simp only [hm] at h
      obtain ⟨hit, hf, heq⟩ := Option.map_eq_some_iff.mp h
      cases heq
      obtain ⟨hl, hp⟩ := walk_spec hf
      rw [Bool.and_eq_true, beq_iff_eq] at hp
      exact ⟨hl, Or.inr ⟨rfl, hp.2⟩⟩

-- ======== allocation

/-- The state in which an entry is taken for a key: the key's own entry is
not active, and there is none where none was found. -/
structure Taking (db : IppoolDb) (found : Bool) (key taken : IppoolKey)
    (entry : IppoolInfo) : Prop where
  own : ∀ e, db.gdbm.lookup key = some e → e.active = false
  notFound : found = false → db.gdbm.lookup key = none
  taken : db.gdbm.lookup taken = some entry

/-- The entries once there is room: those of before, but the one that is
taken may have been replaced by the key's own. -/
theorem makeRoom_lookup {found mppp : Bool} {key taken k : IppoolKey}
    {e : IppoolInfo}
    (h : (db.makeRoom found mppp key taken).lookup k = some e) :
    db.gdbm.lookup k = some e ∨ db.gdbm.lookup key = some e := by
  unfold makeRoom at h
  split at h
  next => exact Or.inl h
  next =>
    split at h
    next =>
      split at h
      next own hl =>
        rw [lookup_insert] at h
        split at h
        next =>
          cases h
          exact Or.inr hl
        next => exact Or.inl h
      next => exact Or.inl h
    next =>
      rw [lookup_erase] at h
      split at h
      next => cases h
      next => exact Or.inl h

/-- Room is made without a change of users, unless an active entry is
taken. -/
theorem makeRoom_users {found mppp : Bool} {key taken : IppoolKey}
    {entry : IppoolInfo} (ht : Taking db found key taken entry)
    (hoff : mppp = false → entry.active = false) (a : UInt32) :
    count (·.uses a) (db.makeRoom found mppp key taken) = db.users a := by
  unfold makeRoom users
  split
  next => rfl
  next hm =>
    have hentry : entry.uses a = false :=
      IppoolInfo.uses_of_inactive (hoff (Bool.eq_false_iff.mpr hm))
    split
    next =>
      split
      next own hl =>
        have hi := count_insert (·.uses a) db.gdbm taken own
        rw [ht.taken, weight_some_not hentry,
          weight_some_not (IppoolInfo.uses_of_inactive (ht.own own hl))] at hi
        omega
      next => rfl
    next =>
      have he := count_erase (·.uses a) db.gdbm taken
      rw [ht.taken, weight_some_not hentry] at he
      omega

/-- The entries after an allocation: the key has the address of the entry
that was taken, and is active. -/
theorem allocate_lookup {request : IppoolRequest} {found mppp : Bool}
    {key taken k : IppoolKey} {entry e : IppoolInfo}
    (h : (db.allocate request found mppp key taken entry).gdbm.lookup k
      = some e) :
    (k = key ∧ e = entry.activate request mppp)
      ∨ (k ≠ key ∧ (db.gdbm.lookup k = some e
        ∨ db.gdbm.lookup key = some e)) := by
  unfold allocate at h
  rw [lookup_insert] at h
  split at h
  next hk =>
    cases h
    exact Or.inl ⟨hk, rfl⟩
  next hk => exact Or.inr ⟨hk, makeRoom_lookup h⟩

/-- What the key had counted for nothing. -/
theorem Taking.own_weight {found : Bool} {key taken : IppoolKey}
    {entry : IppoolInfo} (ht : Taking db found key taken entry)
    (mppp : Bool) (a : UInt32) : weight (·.uses a)
      ((db.makeRoom found mppp key taken).lookup key) = 0 := by
  cases hl : (db.makeRoom found mppp key taken).lookup key with
  | none => rfl
  | some e =>
      refine weight_some_not (IppoolInfo.uses_of_inactive ?_)
      rcases makeRoom_lookup hl with h | h
      · exact ht.own e h
      · exact ht.own e h

/-- The counts stay right. -/
theorem Counted.allocate (hc : Counted db) {request : IppoolRequest}
    {found mppp : Bool} {key taken : IppoolKey} {entry : IppoolInfo}
    (ht : Taking db found key taken entry)
    (hoff : mppp = false → entry.active = false) :
    Counted (db.allocate request found mppp key taken entry) := by
  intro a
  have hroom := makeRoom_users ht hoff a
  have hi := count_insert (·.uses a) (db.makeRoom found mppp key taken) key
    (entry.activate request mppp)
  have hown := ht.own_weight mppp a
  have hn : (db.allocate request found mppp key taken entry).num a
      = if a = entry.ipaddr then db.num entry.ipaddr + 1 else db.num a :=
    num_insert _ _ _ _
  have hu : (db.allocate request found mppp key taken entry).users a
      = count (·.uses a) ((db.makeRoom found mppp key taken).insert key
        (entry.activate request mppp)) := rfl
  have ha := hc a
  by_cases he : a = entry.ipaddr
  · have huses : (entry.activate request mppp).uses a = true :=
      IppoolInfo.uses_iff.mpr ⟨rfl, he.symm⟩
    rw [weight_some huses] at hi
    rw [if_pos he, ← he] at hn
    omega
  · have hnot : (entry.activate request mppp).uses a = false := by
      rw [Bool.eq_false_iff]
      intro h
      exact he (IppoolInfo.uses_iff.mp h).2.symm
    rw [weight_some_not hnot] at hi
    rw [if_neg he] at hn
    omega

end IppoolDb

-- ======== requests

open IppoolDb

/-- What post-auth does: nothing, deallocate a stale entry, or after that
take an entry. -/
theorem ippoolPostauth_cases (data : RlmIppool) (db : IppoolDb)
    (request : IppoolRequest) (order : List IppoolKey) :
    (∃ reply, ippoolPostauth data db request order = (db, reply, .noop))
    ∨ ∃ key, data.authKey request = some key
      ∧ ((∃ reply code, code ≠ .ok
          ∧ ippoolPostauth data db request order
            = (db.freshen key, reply, code))
        ∨ ∃ mppp taken entry, data.isSettled request = false
          ∧ (db.freshen key).search data request order
            = some (mppp, taken, entry)
          ∧ Taking (db.freshen key) (db.gdbm.lookup key).isSome key taken
            entry
          ∧ ippoolPostauth data db request order
            = ((db.freshen key).allocate request
                (db.gdbm.lookup key).isSome mppp key taken entry,
              request.reply.give data entry.ipaddr, .ok)) := by
  cases hk : data.authKey request with
  | none =>
      left
      refine ⟨request.reply, ?_⟩
      unfold ippoolPostauth
      rw [hk]
  | some key =>
      right
      refine ⟨key, rfl, ?_⟩
      by_cases hs : data.isSettled request = true
      · left
        refine ⟨request.reply, .noop, nofun, ?_⟩
        unfold ippoolPostauth
        simp only [hk, if_pos hs]
      · cases hf : (db.freshen key).search data request order with
        | none =>
            left
            refine ⟨{ request.reply with framedIpAddress := none },
              .notfound, nofun, ?_⟩
            unfold ippoolPostauth
            simp only [hk, if_neg hs, hf]
        | some hit =>
            obtain ⟨mppp, taken, entry⟩ := hit
            right
            refine ⟨mppp, taken, entry, Bool.eq_false_iff.mpr hs, rfl, ?_, ?_⟩
            · refine ⟨fun e he => freshen_own he, fun hnf => ?_,
                (search_spec hf).1⟩
              rw [Option.isSome_eq_false_iff, Option.isNone_iff_eq_none] at hnf
              rw [freshen_lookup_none hnf]
              exact hnf
            · unfold ippoolPostauth
              simp only [hk, if_neg hs, hf]

/-- With right counts, a free entry is not active. -/
theorem IppoolDb.Counted.free_inactive {db : IppoolDb} (hc : db.Counted)
    {k : IppoolKey} {e : IppoolInfo} (h : db.gdbm.lookup k = some e)
    (hnum : db.num e.ipaddr = 0) : e.active = false := by
  by_contra ha
  have hpos := users_pos h (Bool.not_eq_false _ ▸ ha)
  rw [hc] at hnum
  omega

end WinRadius
