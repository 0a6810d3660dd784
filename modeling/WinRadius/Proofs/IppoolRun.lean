/-
Runs of requests on an address pool: when the counts of the addresses are
right, and when no two callers have one address.

# Two ways to go wrong

An accounting stop for an entry that is not active decreases the count of
its address once more. Where another entry is active with that address
(multilink), the count is then too low, and the address looks free while
it is in use. `StopsOnce` is that no such stop comes.

The caller that an entry is compared with is never stored, so every entry
has the caller it was initialised with, `"0"`. A request with that
`Calling-Station-Id` is taken for another link of whoever is active.
`SameCaller` is that the entry which is found for multilink was activated
by the caller of the request.

# What holds of every run

All addresses in the database are those of the range that are not
excluded, so nothing else is handed out.
-/
import WinRadius.Proofs.Ippool

namespace WinRadius

open Lib Lib.FiniteMap IppoolDb

/-- The addresses of a pool. -/
def RlmIppool.InRange (data : RlmIppool) (a : UInt32) : Prop :=
  data.rangeStart ≤ a ∧ a ≤ data.rangeStop ∧ ¬ data.excluded a

-- ======== initialisation

/-- The loop does not end where it would pass the last address. -/
theorem initLoop_endless {data : RlmIppool}
    (h : data.rangeStop.toNat = 2 ^ 32 - 1) (fuel : Nat) : ∀ i j gdbm,
    initLoop data fuel i j gdbm = none := by
  induction fuel with
  | zero => intro i j gdbm; rfl
  | succ fuel ih =>
      intro i j gdbm
      have hi : i ≤ data.rangeStop := by
        rw [UInt32.le_iff_toNat_le, h]
        have := i.toNat_lt
        omega
      unfold initLoop
      rw [if_pos hi]
      exact ih _ _ _

/-- All entries are made inactive, with addresses of the range. -/
theorem initLoop_spec {data : RlmIppool} (fuel : Nat) : ∀ i j gdbm gdbm',
    data.rangeStart ≤ i →
    (∀ k e, gdbm.lookup k = some e →
      e.active = false ∧ data.InRange e.ipaddr) →
    initLoop data fuel i j gdbm = some gdbm' →
    ∀ k e, gdbm'.lookup k = some e →
      e.active = false ∧ data.InRange e.ipaddr := by
  induction fuel with
  | zero => intro i j gdbm gdbm' _ _ h; cases h
  | succ fuel ih =>
      intro i j gdbm gdbm' hi hg h
      have hstop : data.rangeStop.toNat ≠ 2 ^ 32 - 1 := by
        intro he
        rw [initLoop_endless he] at h
        cases h
      unfold initLoop at h
      split at h
      next hle =>
        refine ih (i + 1) (j - 1) _ gdbm' ?_ ?_ h
        · -- no wrap around before the end of the range
          rw [UInt32.le_iff_toNat_le] at *
          have := data.rangeStop.toNat_lt
          rw [UInt32.toNat_add, UInt32.toNat_one, Nat.mod_eq_of_lt (by omega)]
          omega
        · intro k e he
          split at he
          next => exact hg k e he
          next hx =>
            rw [lookup_insert] at he
            split at he
            next =>
              cases he
              exact ⟨rfl, hi, hle, hx⟩
            next => exact hg k e he
      next =>
        cases h
        exact hg

/-- A pool whose files are new. -/
theorem ippoolInstantiate_spec {data : RlmIppool} {db : IppoolDb}
    (h : ippoolInstantiate data = some db) :
    db.Counted ∧ ∀ k e, db.gdbm.lookup k = some e →
      e.active = false ∧ data.InRange e.ipaddr := by
  unfold ippoolInstantiate at h
  split at h
  next => cases h
  next =>
    obtain ⟨gdbm, hg, rfl⟩ := Option.map_eq_some_iff.mp h
    have hspec := initLoop_spec _ _ _ _ _ (UInt32.le_refl _)
      (fun k e he => by cases he) hg
    refine ⟨fun a => ?_, hspec⟩
    -- no entry is active
    have hz : count (·.uses a) gdbm = 0 := by
      unfold count
      rw [List.countP_eq_zero]
      intro e he
      have := hspec e.1 e.2 (AList.mem_lookup_iff.mpr he)
      exact Bool.eq_false_iff.mp (IppoolInfo.uses_of_inactive this.1)
    exact hz.symm

namespace IppoolRun

variable {data : RlmIppool} {s t : IppoolRun}

-- ======== one step

/-- What one request does. -/
theorem call_cases (data : RlmIppool) (s : IppoolRun) (c : IppoolCall) :
    s.call data c = s
    ∨ (∃ request key entry, c = .accounting request
        ∧ request.stopKey = some key
        ∧ s.db.gdbm.lookup key = some entry
        ∧ s.call data c = { s with db := s.db.deallocate key entry })
    ∨ (∃ request order key, c = .postauth request order
        ∧ data.authKey request = some key
        ∧ s.call data c = { s with db := s.db.freshen key })
    ∨ ∃ request order key mppp taken entry, c = .postauth request order
        ∧ data.authKey request = some key
        ∧ data.isSettled request = false
        ∧ (s.db.freshen key).search data request order
          = some (mppp, taken, entry)
        ∧ Taking (s.db.freshen key) (s.db.gdbm.lookup key).isSome key taken
          entry
        ∧ s.call data c =
          { db := (s.db.freshen key).allocate request
              (s.db.gdbm.lookup key).isSome mppp key taken entry
            caller := fun k => if k = key then request.callingStationId
              else s.caller k
            handed := entry.ipaddr :: s.handed } := by
  cases c with
  | accounting request =>
      cases hk : request.stopKey with
      | none =>
          left
          unfold call ippoolAccounting
          simp only [hk]
      | some key =>
          cases hl : s.db.gdbm.lookup key with
          | none =>
              left
              unfold call ippoolAccounting
              simp only [hk, hl]
          | some entry =>
              right; left
              refine ⟨request, key, entry, rfl, hk, hl, ?_⟩
              unfold call ippoolAccounting
              simp only [hk, hl]
  | postauth request order =>
      rcases ippoolPostauth_cases data s.db request order with
        ⟨reply, heq⟩ | ⟨key, hk, ⟨reply, code, hcode, heq⟩ |
          ⟨mppp, taken, entry, hs, hf, ht, heq⟩⟩
      · left
        unfold call
        simp only [heq]
      · right; right; left
        refine ⟨request, order, key, rfl, hk, ?_⟩
        cases code with
        | ok => exact absurd rfl hcode
        | _ => simp only [call, heq]
      · right; right; right
        refine ⟨request, order, key, mppp, taken, entry, rfl, hk, hs, hf, ht,
          ?_⟩
        unfold call
        simp only [heq, hk, Option.some.injEq, eq_comm]
        rfl

/-- No stop is for an entry that is not active while its address is in
use. -/
def StopsOnce (s : IppoolRun) : IppoolCall → Prop
  | .accounting request => ∀ key entry, request.stopKey = some key →
      s.db.gdbm.lookup key = some entry → entry.active = false →
      ∀ k e, s.db.gdbm.lookup k = some e → e.active = true →
        e.ipaddr ≠ entry.ipaddr
  | .postauth _ _ => True

/-- The active entry that a request is to share was activated by its
caller. -/
def SameCaller (data : RlmIppool) (s : IppoolRun) : IppoolCall → Prop
  | .postauth request order => ∀ key k e,
      data.authKey request = some key → data.isSettled request = false →
      (s.db.freshen key).findMppp request order = some (k, e) →
      s.caller k = request.callingStationId
  | .accounting _ => True

/-- Where no entry is active with an address, it has no users. -/
theorem users_eq_zero {db : IppoolDb} {a : UInt32}
    (h : ∀ k e, db.gdbm.lookup k = some e → e.active = true →
      e.ipaddr ≠ a) : db.users a = 0 := by
  unfold users count
  rw [List.countP_eq_zero]
  intro e he hu
  obtain ⟨hact, hip⟩ := IppoolInfo.uses_iff.mp hu
  exact h e.1 e.2 (AList.mem_lookup_iff.mpr he) hact hip

/-- The counts stay right over a step that stops no session twice. -/
theorem counted_call (hc : s.db.Counted) (c : IppoolCall)
    (hstop : s.StopsOnce c) : (s.call data c).db.Counted := by
  rcases call_cases data s c with heq | ⟨request, key, entry, rfl, hk, hl,
    heq⟩ | ⟨request, order, key, rfl, hk, heq⟩ | ⟨request, order, key, mppp,
    taken, entry, rfl, hk, hs, hf, ht, heq⟩
  · rw [heq]
    exact hc
  · rw [heq]
    refine IppoolDb.Counted.deallocate hc hl ?_
    cases ha : entry.active with
    | true => exact Or.inl rfl
    | false => exact Or.inr (users_eq_zero (hstop key entry hk hl ha))
  · rw [heq]
    exact IppoolDb.Counted.freshen hc key
  · rw [heq]
    have hfresh := IppoolDb.Counted.freshen hc key
    refine IppoolDb.Counted.allocate hfresh ht ?_
    intro hm
    rcases (search_spec hf).2 with ⟨hm', -⟩ | ⟨-, hnum⟩
    · rw [hm] at hm'
      cases hm'
    · exact hfresh.free_inactive ht.taken hnum

/-- All entries have addresses of the pool, and no other is handed out. -/
structure Ranged (data : RlmIppool) (s : IppoolRun) : Prop where
  entries : ∀ k e, s.db.gdbm.lookup k = some e → data.InRange e.ipaddr
  handed : ∀ a ∈ s.handed, data.InRange a

/-- A deallocated entry keeps its address. -/
theorem Ranged.freshen (h : Ranged data s) {key k : IppoolKey}
    {e : IppoolInfo}
    (he : (s.db.freshen key).gdbm.lookup k = some e) :
    data.InRange e.ipaddr := by
  rcases freshen_lookup he with ⟨-, he⟩ | ⟨-, -, e₀, he₀, hip⟩
  · exact h.entries k e he
  · rw [hip]
    exact h.entries key e₀ he₀

theorem Ranged.call (h : Ranged data s) (c : IppoolCall) :
    Ranged data (s.call data c) := by
  rcases call_cases data s c with heq | ⟨request, key, entry, rfl, hk, hl,
    heq⟩ | ⟨request, order, key, rfl, hk, heq⟩ | ⟨request, order, key, mppp,
    taken, entry, rfl, hk, hs, hf, ht, heq⟩
  · rw [heq]
    exact h
  · rw [heq]
    refine ⟨fun k e he => ?_, h.handed⟩
    rcases deallocate_lookup he with ⟨-, he⟩ | ⟨-, -, hip⟩
    · exact h.entries k e he
    · rw [hip]
      exact h.entries key entry hl
  · rw [heq]
    exact ⟨fun k e he => h.freshen he, h.handed⟩
  · rw [heq]
    have htaken : data.InRange entry.ipaddr := h.freshen ht.taken
    constructor
    · intro k e he
      rcases allocate_lookup he with ⟨-, rfl⟩ | ⟨-, he | he⟩
      · exact htaken
      · exact h.freshen he
      · exact h.freshen he
    · intro a ha
      rcases List.mem_cons.mp ha with rfl | ha
      · exact htaken
      · exact h.handed a ha

/-- Entries that are active with one address have one caller. -/
def Exclusive (s : IppoolRun) : Prop :=
  ∀ k k' e e', s.db.gdbm.lookup k = some e → s.db.gdbm.lookup k' = some e' →
    e.active = true → e'.active = true → e.ipaddr = e'.ipaddr →
    s.caller k = s.caller k'

/-- Where the active entries are among those of before, so are the
callers. -/
theorem Exclusive.mono (h : Exclusive s) {db : IppoolDb}
    (hsub : ∀ k e, db.gdbm.lookup k = some e → e.active = true →
      s.db.gdbm.lookup k = some e) : Exclusive { s with db := db } := by
  intro k k' e e' he he' ha ha' hip
  exact h k k' e e' (hsub k e he ha) (hsub k' e' he' ha') ha ha' hip

/-- An active entry after the key's own is fresh was active before. -/
theorem active_of_freshen {db : IppoolDb} {key k : IppoolKey}
    {e : IppoolInfo} (he : (db.freshen key).gdbm.lookup k = some e)
    (ha : e.active = true) : k ≠ key ∧ db.gdbm.lookup k = some e := by
  rcases freshen_lookup he with h | ⟨-, hoff, -⟩
  · exact h
  · rw [ha] at hoff
    cases hoff

/-- An address is shared by one caller's entries only, over a step that
shares it with that caller. -/
theorem Exclusive.call (h : Exclusive s) (hc : s.db.Counted)
    (c : IppoolCall) (hsame : SameCaller data s c) :
    Exclusive (s.call data c) := by
  rcases call_cases data s c with heq | ⟨request, key, entry, rfl, hk, hl,
    heq⟩ | ⟨request, order, key, rfl, hk, heq⟩ | ⟨request, order, key, mppp,
    taken, entry, rfl, hk, hs, hf, ht, heq⟩
  · rw [heq]
    exact h
  · rw [heq]
    refine h.mono fun k e he ha => ?_
    rcases deallocate_lookup he with ⟨-, he⟩ | ⟨-, hoff, -⟩
    · exact he
    · rw [ha] at hoff
      cases hoff
  · rw [heq]
    exact h.mono fun k e he ha => (active_of_freshen he ha).2
  · rw [heq]
    -- an entry of another key is active now if it was before
    have hother {k : IppoolKey} {e : IppoolInfo}
        (he : ((s.db.freshen key).allocate request
          (s.db.gdbm.lookup key).isSome mppp key taken entry).gdbm.lookup k
          = some e) (hne : k ≠ key) (ha : e.active = true) :
        (s.db.freshen key).gdbm.lookup k = some e := by
      rcases allocate_lookup he with ⟨hk', -⟩ | ⟨-, he | he⟩
      · exact absurd hk' hne
      · exact he
      · rw [ht.own e he] at ha
        cases ha
    -- and has the caller of the request if it has the address
    have hcaller {k : IppoolKey} {e : IppoolInfo}
        (he : (s.db.freshen key).gdbm.lookup k = some e)
        (ha : e.active = true) (hip : e.ipaddr = entry.ipaddr) :
        s.caller k = request.callingStationId := by
      rcases (search_spec hf).2 with ⟨-, hact, hm⟩ | ⟨-, hnum⟩
      · rw [← hsame key taken entry hk hs hm]
        exact h k taken e entry (active_of_freshen he ha).2
          (active_of_freshen ht.taken hact).2 ha hact hip
      · have hpos := users_pos he ha
        have hz := IppoolDb.Counted.freshen hc key entry.ipaddr
        rw [hip] at hpos
        omega
    intro k k' e e' he he' ha ha' hip
    show (if k = key then _ else _) = if k' = key then _ else _
    by_cases hkk : k = key <;> by_cases hkk' : k' = key
    · rw [if_pos hkk, if_pos hkk']
    · rw [if_pos hkk, if_neg hkk']
      rcases allocate_lookup he with ⟨-, rfl⟩ | ⟨hne, -⟩
      · exact (hcaller (hother he' hkk' ha') ha' hip.symm).symm
      · exact absurd hkk hne
    · rw [if_neg hkk, if_pos hkk']
      rcases allocate_lookup he' with ⟨-, rfl⟩ | ⟨hne, -⟩
      · exact hcaller (hother he hkk ha) ha hip
      · exact absurd hkk' hne
    · rw [if_neg hkk, if_neg hkk']
      exact h k k' e e' (active_of_freshen (hother he hkk ha) ha).2
        (active_of_freshen (hother he' hkk' ha') ha').2 ha ha' hip

-- ======== runs

/-- A request, under a condition. -/
def Step (data : RlmIppool) (p : IppoolRun → IppoolCall → Prop)
    (s t : IppoolRun) : Prop :=
  ∃ c, s.Admits data c ∧ p s c ∧ t = s.call data c

theorem Initial.ranged (h : Initial data s) : Ranged data s := by
  refine ⟨fun k e he => ((ippoolInstantiate_spec h.1).2 k e he).2, ?_⟩
  rw [h.2]
  nofun

end IppoolRun

open IppoolRun

/-- In every run in which no session is stopped again while its address is
in use, the ip index has the number of the entries that are active with
each address. -/
theorem ippool_counts {data : RlmIppool} {s t : IppoolRun}
    (hinit : s.Initial data)
    (h : Reaches (Step data fun s c => s.StopsOnce c) s t) (a : UInt32) :
    t.db.num a = (t.db.gdbm.entries.filter fun e =>
      e.2.active && e.2.ipaddr == a).length := by
  have hc : t.db.Counted := h.invariant (fun s => s.db.Counted)
    (ippoolInstantiate_spec hinit.1).1 (by
      rintro s t hc ⟨c, -, hstop, rfl⟩
      exact counted_call hc c hstop)
  rw [hc a, ← List.countP_eq_length_filter]
  rfl

/-- In every run in which, besides, an active entry is shared with its own
caller only, entries that are active with one address have one caller; and
what is handed out is in the range and not excluded. -/
theorem ippool_exclusive {data : RlmIppool} {s t : IppoolRun}
    (hinit : s.Initial data)
    (h : Reaches (Step data fun s c =>
      s.StopsOnce c ∧ s.SameCaller data c) s t) :
    (∀ k k' e e', k ≠ k' → t.db.gdbm.lookup k = some e →
      t.db.gdbm.lookup k' = some e' → e.active = true →
      e'.active = true → e.ipaddr = e'.ipaddr →
      t.caller k = t.caller k')
    ∧ ∀ a ∈ t.handed, data.rangeStart ≤ a ∧ a ≤ data.rangeStop
      ∧ ¬ data.excluded a := by
  have hspec := ippoolInstantiate_spec hinit.1
  obtain ⟨hc, hx, hr⟩ : t.db.Counted ∧ t.Exclusive ∧ t.Ranged data :=
    h.invariant (fun s => s.db.Counted ∧ s.Exclusive ∧ s.Ranged data)
      ⟨hspec.1, (by
        intro k k' e e' he _ ha
        rw [(hspec.2 k e he).1] at ha
        cases ha), hinit.ranged⟩ (by
      rintro s t ⟨hc, hx, hr⟩ ⟨c, -, ⟨hstop, hsame⟩, rfl⟩
      exact ⟨counted_call hc c hstop, hx.call hc c hsame, hr.call c⟩)
  exact ⟨fun k k' e e' _ => hx k k' e e', hr.handed⟩

-- ======== three addresses

/-- The pool 10.0.0.1 to 10.0.0.3. -/
def smallPool : RlmIppool where
  name := some [112]
  rangeStart := 0x0a000001
  rangeStop := 0x0a000003
  netmask := 0xffffff00
  maxTimeout := 0
  override := false

/-- A key of sixteen bytes, as a digest is. -/
def linkKey (n : UInt8) : IppoolKey := List.replicate 15 0xa5 ++ [n]

/-- A request for the small pool. -/
def poolRequest (n : UInt8) (cli : Option (List UInt8))
    (status : Option Nat) : IppoolRequest where
  acctStatusType := status
  poolName := some [112]
  callingStationId := cli
  key := some (linkKey n)
  timestamp := 1000
  reply := ⟨none, none, none⟩

namespace IppoolRun

/-- The small pool, new. -/
def smallStart : IppoolRun where
  db := (ippoolInstantiate smallPool).getD ⟨∅, ∅⟩
  caller := fun _ => none
  handed := []

/-- A post-auth request for the small pool. -/
def auth (s : IppoolRun) (n : UInt8) (cli : Option (List UInt8)) :
    IppoolRun :=
  s.call smallPool (.postauth (poolRequest n cli none)
    (s.db.freshen (linkKey n)).gdbm.keys)

/-- An accounting stop for the small pool. -/
def stop (s : IppoolRun) (n : UInt8) : IppoolRun :=
  s.call smallPool (.accounting (poolRequest n none (some 2)))

theorem smallStart_initial : smallStart.Initial smallPool := by
  obtain ⟨db, hdb⟩ : ∃ db, ippoolInstantiate smallPool = some db :=
    Option.isSome_iff_exists.mp (by decide)
  refine ⟨?_, rfl⟩
  unfold smallStart
  rw [hdb]
  rfl

variable {p : IppoolRun → IppoolCall → Prop} {s : IppoolRun}

theorem step_auth (n : UInt8) (cli : Option (List UInt8))
    (h : p s (.postauth (poolRequest n cli none)
      (s.db.freshen (linkKey n)).gdbm.keys)) :
    Step smallPool p s (s.auth n cli) := by
  refine ⟨.postauth (poolRequest n cli none)
    (s.db.freshen (linkKey n)).gdbm.keys, ?_, h, rfl⟩
  intro k hk
  cases hk
  exact List.Perm.refl _

theorem step_stop (n : UInt8)
    (h : p s (.accounting (poolRequest n none (some 2)))) :
    Step smallPool p s (s.stop n) :=
  ⟨.accounting (poolRequest n none (some 2)), trivial, h, rfl⟩

/-- A session that is active may be stopped. -/
theorem stopsOnce_of_active {n : UInt8}
    (h : (s.db.gdbm.lookup (linkKey n)).map (·.active) = some true) :
    s.StopsOnce (.accounting (poolRequest n none (some 2))) := by
  intro k entry hk hl hoff
  cases hk
  rw [hl, Option.map_some, hoff] at h
  cases h

/-- An address may be shared with its caller. -/
theorem sameCaller_of_found {n : UInt8} {cli : Option (List UInt8)}
    (h : ∀ c ∈ (((s.db.freshen (linkKey n)).findMppp
        (poolRequest n cli none) (s.db.freshen (linkKey n)).gdbm.keys).map
          fun hit => s.caller hit.1), c = cli) :
    s.SameCaller smallPool (.postauth (poolRequest n cli none)
      (s.db.freshen (linkKey n)).gdbm.keys) := by
  intro k taken e hk _ hf
  cases hk
  exact h _ (by rw [hf]; rfl)

end IppoolRun

/-- Two links of one caller, and the first one stopped. -/
theorem ippool_counts_of_two_links :
    (((smallStart.auth 1 (some [48])).auth 2 (some [48])).stop
      1).db.num 0x0a000003 = 1
    ∧ (((smallStart.auth 1 (some [48])).auth 2 (some [48])).stop
      1).db.num 0x0a000003
      = ((((smallStart.auth 1 (some [48])).auth 2 (some [48])).stop
        1).db.gdbm.entries.filter fun e =>
          e.2.active && e.2.ipaddr == 0x0a000003).length := by
  have h₀ : Reaches (Step smallPool fun s c => s.StopsOnce c) smallStart
      smallStart := .refl
  have h₁ := h₀.step (step_auth 1 (some [48]) trivial)
  have h₂ := h₁.step (step_auth 2 (some [48]) trivial)
  have h₃ := h₂.step (step_stop 1
    (stopsOnce_of_active (by decide)))
  exact ⟨by decide,
    ippool_counts smallStart_initial h₃ 0x0a000003⟩

/-- Stopped once more, the address counts as free while it is in use. -/
theorem ippool_count_lost :
    ¬ ∀ (data : RlmIppool) (s t : IppoolRun), s.Initial data →
      Reaches (Step data fun _ _ => True) s t → ∀ a,
        t.db.num a = (t.db.gdbm.entries.filter fun e =>
          e.2.active && e.2.ipaddr == a).length := by
  intro hall
  have h₀ : Reaches (Step smallPool fun _ _ => True) smallStart
      smallStart := .refl
  have h₁ := h₀.step (step_auth 1 (some [48]) trivial)
  have h₂ := h₁.step (step_auth 2 (some [48]) trivial)
  have h₃ := h₂.step (step_stop 1 trivial)
  have h₄ := h₃.step (step_stop 1 trivial)
  have h := hall smallPool _ _ smallStart_initial h₄ 0x0a000003
  revert h
  decide

/-- One caller's two links, on one address. -/
theorem ippool_exclusive_of_two_links :
    ((smallStart.auth 1 (some [48])).auth 2 (some [48])).handed
      = [0x0a000003, 0x0a000003]
    ∧ ∀ k k' e e', k ≠ k' →
      ((smallStart.auth 1 (some [48])).auth 2
        (some [48])).db.gdbm.lookup k = some e →
      ((smallStart.auth 1 (some [48])).auth 2
        (some [48])).db.gdbm.lookup k' = some e' →
      e.active = true → e'.active = true → e.ipaddr = e'.ipaddr →
      ((smallStart.auth 1 (some [48])).auth 2 (some [48])).caller k
        = ((smallStart.auth 1 (some [48])).auth 2
          (some [48])).caller k' := by
  have h₀ : Reaches (Step smallPool fun s c =>
      s.StopsOnce c ∧ s.SameCaller smallPool c) smallStart smallStart := .refl
  have h₁ := h₀.step (step_auth 1 (some [48])
    ⟨trivial, sameCaller_of_found (by decide)⟩)
  have h₂ := h₁.step (step_auth 2 (some [48])
    ⟨trivial, sameCaller_of_found (by decide)⟩)
  exact ⟨by decide, (ippool_exclusive smallStart_initial h₂).1⟩

/-- A caller `"0"` is given the address of another one. -/
theorem ippool_shared_with_stranger :
    ¬ ∀ (data : RlmIppool) (s t : IppoolRun), s.Initial data →
      Reaches (Step data fun _ _ => True) s t →
      (∀ k k' e e', k ≠ k' → t.db.gdbm.lookup k = some e →
        t.db.gdbm.lookup k' = some e' → e.active = true →
        e'.active = true → e.ipaddr = e'.ipaddr →
        t.caller k = t.caller k')
      ∧ ∀ a ∈ t.handed, data.rangeStart ≤ a ∧ a ≤ data.rangeStop
        ∧ ¬ data.excluded a := by
  intro hall
  have h₀ : Reaches (Step smallPool fun _ _ => True) smallStart
      smallStart := .refl
  have h₁ := h₀.step (step_auth 1 (some [97]) trivial)
  have h₂ := h₁.step (step_auth 2 (some [48]) trivial)
  obtain ⟨t, ht⟩ : ∃ t, t = (smallStart.auth 1 (some [97])).auth 2
      (some [48]) := ⟨_, rfl⟩
  rw [← ht] at h₂
  have hsee : ((t.db.gdbm.lookup (linkKey 1)).map fun e => (e.active, e.ipaddr))
        = some (true, 0x0a000003)
      ∧ ((t.db.gdbm.lookup (linkKey 2)).map fun e => (e.active, e.ipaddr))
        = some (true, 0x0a000003)
      ∧ t.caller (linkKey 1) ≠ t.caller (linkKey 2) := by
    rw [ht]
    decide
  obtain ⟨hsee₁, hsee₂, hne⟩ := hsee
  obtain ⟨e₁, hl₁, he₁⟩ := Option.map_eq_some_iff.mp hsee₁
  obtain ⟨e₂, hl₂, he₂⟩ := Option.map_eq_some_iff.mp hsee₂
  obtain ⟨ha₁, hip₁⟩ := Prod.ext_iff.mp he₁
  obtain ⟨ha₂, hip₂⟩ := Prod.ext_iff.mp he₂
  exact hne ((hall smallPool _ _ smallStart_initial h₂).1 (linkKey 1)
    (linkKey 2) e₁ e₂ (by decide) hl₁ hl₂ ha₁ ha₂ (hip₁.trans hip₂.symm))

end WinRadius
