/-
Whether an address of the pool of rlm_ippool.cpp stays in the session
database.

# The one way out

Every request that writes an entry keeps the address that it displaces,
but for one. A post-auth that shares an active entry (multilink) stores
that entry's address under its own key. Where the key had an entry of its
own, "we create an extra not needed entry" is not what happens: the
entry is overwritten, and its address with it. `KeepsOwn` is that no such
request comes for a key whose entry is the last one with its address.

# The counts

An entry that was only made for multilink is deleted when its session is
stopped, if the count of its address is still positive. That is safe
because no count is ever above the number of the active entries with the
address, in whatever order requests come.
-/
import WinRadius.Proofs.IppoolRun

namespace WinRadius

open Lib Lib.FiniteMap IppoolDb

-- ======== the keys of a new file

/-- What decimal digits stand for. -/
def readDigits (bs : List UInt8) : Nat :=
  bs.foldl (fun n b => 10 * n + (b.toNat - 48)) 0

theorem readDigits_paddedDigits (width n : Nat) :
    readDigits (paddedDigits width n) = n := by
  have hzeros (k : Nat) : (List.replicate k (48 : UInt8)).foldl
      (fun n b => 10 * n + (b.toNat - 48)) 0 = 0 := by
    induction k with
    | zero => rfl
    | succ k ih => exact ih
  have hdigits (cs : List Char) (hd : ∀ c ∈ cs, c.isDigit = true)
      (init : Nat) : (cs.map fun c => c.toNat.toUInt8).foldl
        (fun n b => 10 * n + (b.toNat - 48)) init
      = Nat.ofDigitChars 10 cs init := by
    induction cs generalizing init with
    | nil => rfl
    | cons c cs ih =>
        have hc : c.toNat.toUInt8.toNat = c.toNat := by
          have h := hd c List.mem_cons_self
          rw [Char.isDigit_iff_toNat] at h
          have h9 : '9'.toNat = 57 := rfl
          show c.toNat % 256 = c.toNat
          omega
        rw [List.map_cons, List.foldl_cons, hc, Nat.ofDigitChars_cons]
        exact ih (fun c hc => hd c (List.mem_cons_of_mem _ hc)) _
  unfold readDigits paddedDigits
  rw [List.foldl_append, hzeros, hdigits]
  · exact Nat.ofDigitChars_ten_toDigits
  · intro c hc
    exact Nat.isDigit_of_mem_toDigits (by decide) (by decide) hc

/-- The digits have no minus sign among them. -/
theorem minus_notMem_paddedDigits (width n : Nat) :
    (45 : UInt8) ∉ paddedDigits width n := by
  unfold paddedDigits
  intro h
  rcases List.mem_append.mp h with h | h
  · cases List.eq_of_mem_replicate h
  · obtain ⟨c, hc, h⟩ := List.mem_map.mp h
    have hd := Nat.isDigit_of_mem_toDigits (by decide) (by decide) hc
    rw [Char.isDigit_iff_toNat] at hd
    have h0 : '0'.toNat = 48 := rfl
    have h9 : '9'.toNat = 57 := rfl
    have hn : c.toNat % 256 = 45 := congrArg UInt8.toNat h
    omega

/-- No two numbers make one key. -/
theorem initStr_injective {i j : UInt32} (h : initStr i = initStr j) :
    i = j := by
  have hint : i.toBitVec.toInt = j.toBitVec.toInt := by
    unfold initStr at h
    simp only at h
    split at h
    next hi =>
      split at h
      next hj =>
        have habs := congrArg readDigits (List.cons.inj h).2
        rw [readDigits_paddedDigits, readDigits_paddedDigits] at habs
        omega
      next =>
        refine absurd ?_ (minus_notMem_paddedDigits 16 j.toBitVec.toInt.natAbs)
        rw [← h]
        exact List.mem_cons_self
    next hi =>
      split at h
      next =>
        refine absurd ?_ (minus_notMem_paddedDigits 16 i.toBitVec.toInt.natAbs)
        rw [h]
        exact List.mem_cons_self
      next hj =>
        have habs := congrArg readDigits h
        rw [readDigits_paddedDigits, readDigits_paddedDigits] at habs
        omega
  exact UInt32.toBitVec_inj.mp (BitVec.toInt_inj.mp hint)

/-- A key that is not among those to come stays as it is. -/
theorem initLoop_frame {data : RlmIppool} (fuel : Nat) : ∀ i j gdbm gdbm'
    (k : IppoolKey),
    (∀ m : Nat, m < 2 ^ 32 - i.toNat → k ≠ initStr (j - m.toUInt32)) →
    initLoop data fuel i j gdbm = some gdbm' →
    gdbm'.lookup k = gdbm.lookup k := by
  induction fuel with
  | zero => intro i j gdbm gdbm' k _ h; cases h
  | succ fuel ih =>
      intro i j gdbm gdbm' k hk h
      have hstop : data.rangeStop.toNat ≠ 2 ^ 32 - 1 := by
        intro he
        rw [initLoop_endless he] at h
        cases h
      unfold initLoop at h
      split at h
      next hle =>
        have hi : (i + 1).toNat = i.toNat + 1 := by
          rw [UInt32.le_iff_toNat_le] at hle
          have := data.rangeStop.toNat_lt
          rw [UInt32.toNat_add, UInt32.toNat_one,
            Nat.mod_eq_of_lt (by omega)]
        have hnext := ih (i + 1) (j - 1) _ gdbm' k ?_ h
        · rw [hnext]
          split
          next => rfl
          next =>
            have := i.toNat_lt
            have hne := hk 0 (by omega)
            rw [lookup_insert, if_neg]
            intro he
            apply hne
            rw [he]
            congr 1
            exact (UInt32.sub_zero j).symm
        · intro m hm
          have hne := hk (m + 1) (by omega)
          have hj : j - 1 - m.toUInt32 = j - (m + 1).toUInt32 := by
            show _ = j - UInt32.ofNat (m + 1)
            rw [UInt32.ofNat_add]
            show j - 1 - UInt32.ofNat m = j - (UInt32.ofNat m + 1)
            grind
          rw [hj]
          exact hne
      next =>
        cases h
        rfl

/-- Every address from the next one on gets an entry. -/
theorem initLoop_covers {data : RlmIppool} (fuel : Nat) : ∀ i j gdbm gdbm',
    initLoop data fuel i j gdbm = some gdbm' →
    ∀ a, i ≤ a → a ≤ data.rangeStop → ¬ data.excluded a →
      ∃ k e, gdbm'.lookup k = some e ∧ e.ipaddr = a := by
  induction fuel with
  | zero => intro i j gdbm gdbm' h; cases h
  | succ fuel ih =>
      intro i j gdbm gdbm' h a hia hstop hx
      have hend : data.rangeStop.toNat ≠ 2 ^ 32 - 1 := by
        intro he
        rw [initLoop_endless he] at h
        cases h
      rw [UInt32.le_iff_toNat_le] at hia hstop
      have hlt := data.rangeStop.toNat_lt
      have hi : (i + 1).toNat = i.toNat + 1 := by
        rw [UInt32.toNat_add, UInt32.toNat_one, Nat.mod_eq_of_lt (by omega)]
      unfold initLoop at h
      split at h
      next =>
        by_cases ha : a = i
        · -- its entry is not overwritten
          subst ha
          refine ⟨initStr j, initEntry a, ?_, rfl⟩
          rw [initLoop_frame fuel (a + 1) (j - 1) _ gdbm' (initStr j) ?_ h,
            if_neg hx, lookup_insert, if_pos rfl]
          intro m hm he
          have hj := initStr_injective he
          have hm' : (1 + m.toUInt32).toNat = 1 + m := by
            show (1 + UInt32.ofNat m).toNat = 1 + m
            rw [UInt32.toNat_add, UInt32.toNat_one, UInt32.toNat_ofNat']
            omega
          have hz : 1 + m.toUInt32 = 0 := by
            have : j - 1 - m.toUInt32 = j - (1 + m.toUInt32) := by grind
            rw [this] at hj
            grind
          rw [hz] at hm'
          have : (0 : UInt32).toNat = 0 := rfl
          omega
        · refine ih (i + 1) (j - 1) _ gdbm' h a ?_ ?_ hx
          · have : a.toNat ≠ i.toNat := fun he => ha (UInt32.toNat_inj.mp he)
            rw [UInt32.le_iff_toNat_le, hi]
            omega
          · rw [UInt32.le_iff_toNat_le]
            exact hstop
      next hgt =>
        refine absurd ?_ hgt
        rw [UInt32.le_iff_toNat_le]
        omega

-- ======== occurrences

/-- An address is that of some entry. -/
def IppoolDb.Occurs (db : IppoolDb) (a : UInt32) : Prop :=
  ∃ k e, db.gdbm.lookup k = some e ∧ e.ipaddr = a

/-- No count is too high. -/
def IppoolDb.Bounded (db : IppoolDb) : Prop := ∀ a, db.num a ≤ db.users a

namespace IppoolDb

variable {db : IppoolDb}

/-- An address with users is that of some entry. -/
theorem occurs_of_users {a : UInt32} (h : 0 < db.users a) : db.Occurs a := by
  obtain ⟨e, he, huses⟩ := List.countP_pos_iff.mp h
  exact ⟨e.1, e.2, AList.mem_lookup_iff.mpr he,
    (IppoolInfo.uses_iff.mp huses).2⟩

-- ======== deallocation

theorem Bounded.deallocate (hb : Bounded db) {key : IppoolKey}
    {entry : IppoolInfo} (h : db.gdbm.lookup key = some entry) :
    Bounded (db.deallocate key entry) := by
  intro a
  have hu := deallocate_users h a
  have hn := (deallocate_cases db key entry).2 a
  have ha := hb a
  by_cases huses : entry.uses a = true
  · rw [if_pos (IppoolInfo.uses_iff.mp huses).2.symm] at hn
    rw [weight_some huses] at hu
    omega
  · rw [weight_some_not (Bool.eq_false_iff.mpr huses)] at hu
    split at hn <;> omega

/-- The entry is deleted only if its address still counts. -/
theorem deallocate_erased (key : IppoolKey) (entry : IppoolInfo) :
    (db.deallocate key entry).gdbm = db.gdbm.insert key
        { entry with active := false, timestamp := 0, timeout := 0 }
      ∨ 0 < (db.deallocate key entry).num entry.ipaddr := by
  cases hl : db.ip.lookup entry.ipaddr with
  | none =>
      left
      unfold deallocate
      simp only [hl]
  | some num =>
      by_cases hpos : 0 < num
      · by_cases hx : 0 < num - 1 ∧ entry.extra = true
        · right
          rw [(deallocate_cases db key entry).2, if_pos rfl]
          unfold IppoolDb.num
          rw [hl]
          exact hx.1
        · left
          unfold deallocate
          simp only [hl, if_pos hpos, if_neg hx]
      · left
        unfold deallocate
        simp only [hl, if_neg hpos]

/-- No address is lost by a deallocation. -/
theorem Occurs.deallocate {a : UInt32} (ho : Occurs db a) (hb : Bounded db)
    {key : IppoolKey} {entry : IppoolInfo}
    (h : db.gdbm.lookup key = some entry) :
    Occurs (db.deallocate key entry) a := by
  obtain ⟨k, e, he, hip⟩ := ho
  -- another entry than that of the key
  have hother (hk : k ≠ key) : Occurs (db.deallocate key entry) a := by
    refine ⟨k, e, ?_, hip⟩
    rcases (deallocate_cases db key entry).1 with hg | hg
    · rw [hg, lookup_insert, if_neg hk]
      exact he
    · rw [hg, lookup_erase, if_neg hk, lookup_insert, if_neg hk]
      exact he
  by_cases hk : k = key
  · subst hk
    cases h.symm.trans he
    rcases deallocate_erased k entry with hg | hpos
    · refine ⟨k, { entry with active := false, timestamp := 0, timeout := 0 },
        ?_, hip⟩
      rw [hg, lookup_insert, if_pos rfl]
    · have hle := hb.deallocate h entry.ipaddr
      rw [← hip]
      exact occurs_of_users (by omega)
  · exact hother hk

theorem Bounded.freshen (hb : Bounded db) (key : IppoolKey) :
    Bounded (db.freshen key) := by
  unfold IppoolDb.freshen
  cases h : db.gdbm.lookup key with
  | none => exact hb
  | some entry =>
      by_cases ha : entry.active = true
      · simp only [if_pos ha]
        exact hb.deallocate h
      · simp only [if_neg ha]
        exact hb

theorem Occurs.freshen {a : UInt32} (ho : Occurs db a) (hb : Bounded db)
    (key : IppoolKey) : Occurs (db.freshen key) a := by
  unfold IppoolDb.freshen
  cases h : db.gdbm.lookup key with
  | none => exact ho
  | some entry =>
      by_cases ha : entry.active = true
      · simp only [if_pos ha]
        exact ho.deallocate hb h
      · simp only [if_neg ha]
        exact ho

-- ======== allocation

/-- What is counted once there is room: not the entry that was taken. -/
theorem makeRoom_users_le {found mppp : Bool} {key taken : IppoolKey}
    {entry : IppoolInfo} (ht : Taking db found key taken entry)
    (a : UInt32) :
    db.users a ≤ count (·.uses a) (db.makeRoom found mppp key taken)
        + (if mppp = true then 0 else weight (·.uses a) (some entry)) := by
  unfold makeRoom users
  split
  next => exact Nat.le_add_right _ _
  next =>
    split
    next =>
      split
      next own hl =>
        have hi := count_insert (·.uses a) db.gdbm taken own
        rw [ht.taken, weight_some_not
          (IppoolInfo.uses_of_inactive (ht.own own hl))] at hi
        omega
      next => exact Nat.le_add_right _ _
    next =>
      have he := count_erase (·.uses a) db.gdbm taken
      rw [ht.taken] at he
      omega

theorem Bounded.allocate (hb : Bounded db) {request : IppoolRequest}
    {found mppp : Bool} {key taken : IppoolKey} {entry : IppoolInfo}
    (ht : Taking db found key taken entry)
    (hfree : mppp = false → db.num entry.ipaddr = 0) :
    Bounded (db.allocate request found mppp key taken entry) := by
  intro a
  have hroom : db.users a
      ≤ count (·.uses a) (db.makeRoom found mppp key taken)
        + (if mppp = true then 0 else weight (·.uses a) (some entry)) :=
    makeRoom_users_le ht a
  have hi := count_insert (·.uses a) (db.makeRoom found mppp key taken) key
    (entry.activate request mppp)
  have hown := ht.own_weight mppp a
  have hn : (db.allocate request found mppp key taken entry).num a
      = if a = entry.ipaddr then db.num entry.ipaddr + 1 else db.num a :=
    num_insert _ _ _ _
  have hu : (db.allocate request found mppp key taken entry).users a
      = count (·.uses a) ((db.makeRoom found mppp key taken).insert key
        (entry.activate request mppp)) := rfl
  have ha := hb a
  by_cases he : a = entry.ipaddr
  · have huses : (entry.activate request mppp).uses a = true :=
      IppoolInfo.uses_iff.mpr ⟨rfl, he.symm⟩
    rw [weight_some huses] at hi
    rw [if_pos he, ← he] at hn
    cases mppp with
    | true =>
        rw [if_pos rfl] at hroom
        omega
    | false =>
        have hz := hfree rfl
        rw [← he] at hz
        omega
  · have hnot : entry.uses a = false := by
      rw [Bool.eq_false_iff]
      intro h
      exact he (IppoolInfo.uses_iff.mp h).2.symm
    rw [if_neg he] at hn
    rw [weight_some_not hnot, ite_self] at hroom
    omega

/-- The address of the key's own entry has another entry, or is the one
that is shared. -/
def OwnKept (db : IppoolDb) (key : IppoolKey) (entry : IppoolInfo) : Prop :=
  ∀ own, db.gdbm.lookup key = some own → own.ipaddr ≠ entry.ipaddr →
    ∃ k e, k ≠ key ∧ db.gdbm.lookup k = some e ∧ e.ipaddr = own.ipaddr

/-- No address is lost by an allocation. -/
theorem Occurs.allocate {a : UInt32} (ho : Occurs db a)
    {request : IppoolRequest} {found mppp : Bool} {key taken : IppoolKey}
    {entry : IppoolInfo} (ht : Taking db found key taken entry)
    (hkept : mppp = true → OwnKept db key entry) :
    Occurs (db.allocate request found mppp key taken entry) a := by
  -- the entry that is stored
  have hnew : (db.allocate request found mppp key taken entry).gdbm.lookup
      key = some (entry.activate request mppp) := by
    unfold IppoolDb.allocate
    simp only
    rw [lookup_insert, if_pos rfl]
  -- the others are those that there is room with
  have hold {k : IppoolKey} {e : IppoolInfo} (hk : k ≠ key)
      (he : (db.makeRoom found mppp key taken).lookup k = some e) :
      (db.allocate request found mppp key taken entry).gdbm.lookup k
        = some e := by
    unfold IppoolDb.allocate
    simp only
    rw [lookup_insert, if_neg hk]
    exact he
  by_cases ha : a = entry.ipaddr
  · exact ⟨key, _, hnew, ha.symm⟩
  obtain ⟨k, e, he, hip⟩ := ho
  cases mppp with
  | true =>
      by_cases hk : k = key
      · subst hk
        obtain ⟨k', e', hk', he', hip'⟩ := hkept rfl e he (by rwa [hip])
        exact ⟨k', e', hold hk' he', hip'.trans hip⟩
      · exact ⟨k, e, hold hk he, hip⟩
  | false =>
      -- the entry that is taken has another address
      have htaken : k ≠ taken := by
        intro hk
        rw [hk, ht.taken] at he
        cases he
        exact ha hip.symm
      cases found with
      | false =>
          have hk : k ≠ key := by
            intro hk
            rw [hk, ht.notFound rfl] at he
            cases he
          refine ⟨k, e, hold hk ?_, hip⟩
          show (db.gdbm.erase taken).lookup k = some e
          rw [lookup_erase, if_neg htaken]
          exact he
      | true =>
          cases hl : db.gdbm.lookup key with
          | none =>
              have hroom : db.makeRoom true false key taken = db.gdbm := by
                unfold makeRoom
                simp only [Bool.false_eq_true, if_false, if_true, hl]
              have hk : k ≠ key := by
                intro hk
                rw [hk, hl] at he
                cases he
              exact ⟨k, e, hold hk (by rw [hroom]; exact he), hip⟩
          | some own =>
              have hroom : db.makeRoom true false key taken
                  = db.gdbm.insert taken own := by
                unfold makeRoom
                simp only [Bool.false_eq_true, if_false, if_true, hl]
              by_cases hk : k = key
              · -- the key's own address moves to the entry that is taken
                subst hk
                cases hl.symm.trans he
                refine ⟨taken, e, hold htaken.symm ?_, hip⟩
                rw [hroom, lookup_insert, if_pos rfl]
              · refine ⟨k, e, hold hk ?_, hip⟩
                rw [hroom, lookup_insert, if_neg htaken]
                exact he

/-- It is lost where the key's own entry was the last one with it. -/
theorem lost_of_not_ownKept {request : IppoolRequest} {found : Bool}
    {key taken : IppoolKey} {entry : IppoolInfo}
    (h : ¬ OwnKept db key entry) : ∃ own, db.gdbm.lookup key = some own
      ∧ ¬ Occurs (db.allocate request found true key taken entry)
        own.ipaddr := by
  unfold OwnKept at h
  push Not at h
  obtain ⟨own, hown, hne, hlast⟩ := h
  refine ⟨own, hown, ?_⟩
  rintro ⟨k, e, he, hip⟩
  unfold IppoolDb.allocate at he
  simp only at he
  rw [lookup_insert] at he
  split at he
  next =>
    cases he
    exact hne hip.symm
  next hk => exact hlast k e hk he hip

end IppoolDb

-- ======== runs

/-- A request that shares an active entry leaves another entry with the
address of the key's own. -/
def IppoolRun.KeepsOwn (data : RlmIppool) (s : IppoolRun) :
    IppoolCall → Prop
  | .postauth request order => ∀ key k entry,
      data.authKey request = some key → data.isSettled request = false →
      (s.db.freshen key).findMppp request order = some (k, entry) →
      (s.db.freshen key).OwnKept key entry
  | .accounting _ => True

/-- All addresses of the pool are in the database. -/
structure IppoolRun.Kept (data : RlmIppool) (s : IppoolRun) : Prop where
  bounded : s.db.Bounded
  occurs : ∀ a, data.InRange a → s.db.Occurs a

namespace IppoolRun

variable {data : RlmIppool} {s : IppoolRun}

theorem Initial.kept (h : Initial data s) : Kept data s := by
  have hcounted := (ippoolInstantiate_spec h.1).1
  refine ⟨fun a => (hcounted a).le, ?_⟩
  rintro a ⟨hstart, hstop, hx⟩
  have hinit := h.1
  unfold ippoolInstantiate at hinit
  split at hinit
  next => cases hinit
  next =>
    obtain ⟨gdbm, hg, hdb⟩ := Option.map_eq_some_iff.mp hinit
    rw [← hdb]
    exact initLoop_covers _ _ _ _ _ hg a hstart hstop hx

theorem Kept.call (h : Kept data s) (c : IppoolCall)
    (hown : s.KeepsOwn data c) : Kept data (s.call data c) := by
  rcases call_cases data s c with heq | ⟨request, key, entry, rfl, hk, hl,
    heq⟩ | ⟨request, order, key, rfl, hk, heq⟩ | ⟨request, order, key, mppp,
    taken, entry, rfl, hk, hs, hf, ht, heq⟩
  · rw [heq]
    exact h
  · rw [heq]
    exact ⟨h.bounded.deallocate hl,
      fun a ha => (h.occurs a ha).deallocate h.bounded hl⟩
  · rw [heq]
    exact ⟨h.bounded.freshen key,
      fun a ha => (h.occurs a ha).freshen h.bounded key⟩
  · rw [heq]
    have hspec := (search_spec hf).2
    refine ⟨(h.bounded.freshen key).allocate ht ?_, fun a ha => ?_⟩
    · intro hm
      rcases hspec with ⟨hm', -⟩ | ⟨-, hnum⟩
      · rw [hm] at hm'
        cases hm'
      · exact hnum
    · refine ((h.occurs a ha).freshen h.bounded key).allocate ht ?_
      intro hm
      rcases hspec with ⟨-, -, hfound⟩ | ⟨hm', -⟩
      · exact hown key taken entry hk hs hfound
      · rw [hm] at hm'
        cases hm'

/-- Where a request shares an entry otherwise, an address of the pool is
lost. -/
theorem lost_of_not_keepsOwn (hr : Ranged data s) {c : IppoolCall}
    (h : ¬ s.KeepsOwn data c) :
    ∃ a, data.InRange a ∧ ¬ (s.call data c).db.Occurs a := by
  cases c with
  | accounting request => exact absurd trivial h
  | postauth request order =>
      simp only [KeepsOwn, not_forall] at h
      obtain ⟨key, k, entry, hk, hs, hf, hlast⟩ := h
      obtain ⟨own, hown, hlost⟩ : ∃ own,
          (s.db.freshen key).gdbm.lookup key = some own
            ∧ ¬ Occurs ((s.db.freshen key).allocate request
                (s.db.gdbm.lookup key).isSome true key k entry)
              own.ipaddr := lost_of_not_ownKept hlast
      refine ⟨own.ipaddr, hr.freshen hown, ?_⟩
      have hcall : (s.call data (.postauth request order)).db
          = (s.db.freshen key).allocate request
            (s.db.gdbm.lookup key).isSome true key k entry := by
        unfold call ippoolPostauth
        simp only [hk, hs, search, hf, Bool.false_eq_true, if_false]
      rw [hcall]
      exact hlost

end IppoolRun

open IppoolRun

/-- In every run in which no request shares an entry while its key has the
last entry with another address, every address of the range that is not
excluded stays that of an entry. -/
theorem ippool_keeps_addresses {data : RlmIppool} {s t : IppoolRun}
    (hinit : s.Initial data)
    (h : Reaches (Step data fun s c => s.KeepsOwn data c) s t)
    (a : UInt32) (hstart : data.rangeStart ≤ a) (hstop : a ≤ data.rangeStop)
    (hx : ¬ data.excluded a) :
    ∃ k e, t.db.gdbm.lookup k = some e ∧ e.ipaddr = a := by
  have hkept : t.Kept data := h.invariant (fun s => s.Kept data)
    hinit.kept (by
      rintro s t hs ⟨c, -, hown, rfl⟩
      exact hs.call c hown)
  exact hkept.occurs a ⟨hstart, hstop, hx⟩

namespace IppoolRun

/-- No entry is shared where none is found. -/
theorem keepsOwn_of_notFound {s : IppoolRun} {n : UInt8} :
    s.KeepsOwn smallPool (.postauth (poolRequest n none none)
      (s.db.freshen (linkKey n)).gdbm.keys) := by
  intro key' k entry _ _ hf
  cases hf

end IppoolRun

/-- A session that comes back, and the address of another entry. -/
theorem ippool_keeps_addresses_of_return :
    (((smallStart.auth 1 none).stop 1).auth 1 none).handed
      = [0x0a000003, 0x0a000003]
    ∧ ∃ k e, (((smallStart.auth 1 none).stop 1).auth 1
        none).db.gdbm.lookup k = some e ∧ e.ipaddr = 0x0a000002 := by
  have h₀ : Reaches (Step smallPool fun s c => s.KeepsOwn smallPool c)
      smallStart smallStart := .refl
  have h₁ := h₀.step (step_auth 1 none keepsOwn_of_notFound)
  have h₂ := h₁.step (step_stop 1 trivial)
  have h₃ := h₂.step (step_auth 1 none keepsOwn_of_notFound)
  exact ⟨by decide, ippool_keeps_addresses smallStart_initial h₃
    0x0a000002 (by decide) (by decide) (by decide)⟩

/-- A session that comes back to share another's address: its own is
lost. -/
theorem ippool_address_lost :
    ¬ ∀ (data : RlmIppool) (s t : IppoolRun), s.Initial data →
      Reaches (Step data fun _ _ => True) s t → ∀ a,
        data.rangeStart ≤ a → a ≤ data.rangeStop → ¬ data.excluded a →
        ∃ k e, t.db.gdbm.lookup k = some e ∧ e.ipaddr = a := by
  intro hall
  have h₀ : Reaches (Step smallPool fun _ _ => True) smallStart
      smallStart := .refl
  have h₁ := h₀.step (step_auth 1 none trivial)
  have h₂ := h₁.step (step_auth 2 none trivial)
  have h₃ := h₂.step (step_stop 1 trivial)
  have h₄ := h₃.step (step_auth 1 (some [48]) trivial)
  obtain ⟨k, e, he, hip⟩ := hall smallPool _ _ smallStart_initial h₄
    0x0a000003 (by decide) (by decide) (by decide)
  have hnone : ((((smallStart.auth 1 none).auth 2 none).stop 1).auth
      1 (some [48])).db.gdbm.entries.all
        (fun e => e.2.ipaddr != 0x0a000003) = true := by decide
  have hne := List.all_eq_true.mp hnone _ (AList.mem_lookup_iff.mp he)
  rw [bne_iff_ne] at hne
  exact hne hip

end WinRadius
