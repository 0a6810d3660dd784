/-
Which home server `home_server_ldb` returns.

`HomePool.Right` is the choice in one pool: a live server, the least busy
or the first from the start, else a zombie, else the fallback; and
`LdbRight` is the choice of a call, with the servers that are revived and
the pool of the DEFAULT realm. The loop keeps it (`ldbLoop_balance` and
`ldbLoop_first`, by induction on the servers that are left), so what a call
returns is right when it returns. It does so unless nothing is to be had
in the pool or in that of the DEFAULT realm, and the name of that realm is
not in capitals (`Circular`): realms are found without regard to case, and
the test that is to end the recursion has it.
-/
import WinRadius.Model.Realms

namespace WinRadius

variable {cfg : RealmConfig} {env : LdbEnv} {homes : LdbServers}
  {request : LdbRequest} {pool : HomePool} {rand : Nat → UInt32}
  {type : PoolType}

-- ======== what is right

/-- Below its limit, and not where the packet came from. -/
def fits (homes : LdbServers) (request : LdbRequest) (id : HomeId) : Bool :=
  decide ((homes id).currentlyOutstanding < (homes id).maxOutstanding)
    && !request.cameFrom (homes id)

def isLive (homes : LdbServers) (request : LdbRequest) (id : HomeId) : Bool :=
  (homes id).state == .alive && fits homes request id

def isZombie (homes : LdbServers) (request : LdbRequest) (id : HomeId) :
    Bool :=
  (homes id).state == .zombie && fits homes request id

/-- The servers of a pool from a start on. -/
def HomePool.order (pool : HomePool) (start : Nat) : List HomeId :=
  (pool.servers.rotate start).filterMap id

/-- The server is a live one that the pool's type asks for. -/
structure HomePool.Chosen (pool : HomePool) (homes : LdbServers)
    (request : LdbRequest) (id : HomeId) : Prop where
  member : some id ∈ pool.servers
  live : isLive homes request id = true
  least : pool.type = .loadBalance → ∀ other, some other ∈ pool.servers →
    isLive homes request other = true →
    (homes id).currentlyOutstanding ≤ (homes other).currentlyOutstanding
  first : pool.type ≠ .loadBalance →
    (pool.order (pool.start request)).find? (isLive homes request) = some id

/-- The choice in one pool. -/
structure HomePool.Right (pool : HomePool) (homes : LdbServers)
    (request : LdbRequest) (found : Option HomeId) : Prop where
  live : (∃ id, some id ∈ pool.servers ∧ isLive homes request id = true) →
    ∃ id, found = some id ∧ pool.Chosen homes request id
  zombie : (∀ id, some id ∈ pool.servers → isLive homes request id = false) →
    (∃ id, some id ∈ pool.servers ∧ isZombie homes request id = true) →
    ∃ id, found = some id ∧ some id ∈ pool.servers
      ∧ isZombie homes request id = true
  fallback :
    (∀ id, some id ∈ pool.servers → isLive homes request id = false) →
    (∀ id, some id ∈ pool.servers → isZombie homes request id = false) →
    found = pool.fallback

/-- Dead, and not found alive by pings. -/
def Revivable (homes : LdbServers) (id : HomeId) : Prop :=
  (homes id).state = .isDead ∧ (homes id).pingCheck = .none

/-- The pool of the DEFAULT realm, for a request of another realm. -/
def RealmConfig.defaultPool (cfg : RealmConfig)
    (realmname : Option (List UInt8)) (request : LdbRequest) :
    Option HomePool :=
  match realmname with
  | none => none
  | some name =>
      if cString name ≠ ascii "NULL" ∧ cString name ≠ ascii "DEFAULT" then
        (realmFind cfg (ascii "DEFAULT")).bind fun rd => rd.pool request
      else none

/-- What there is where the pool has nothing. -/
def LastResort (cfg : RealmConfig) (homes : LdbServers)
    (request : LdbRequest) (realmname : Option (List UInt8))
    (pool : HomePool) (found : Option HomeId) : Prop :=
  if cfg.fallback = true then
    match cfg.defaultPool realmname request with
    | some other => other.Right homes request found
    | none => found = none
  else if cfg.wakeAllIfAllDead = true then
    (∃ id, found = some id ∧ some id ∈ pool.servers ∧ Revivable homes id)
      ∨ (found = none
        ∧ ∀ id, some id ∈ pool.servers → ¬ Revivable homes id)
  else found = none

/-- The choice of a call. -/
def LdbRight (cfg : RealmConfig) (homes : LdbServers) (request : LdbRequest)
    (realmname : Option (List UInt8)) (pool : HomePool)
    (found : Option HomeId) : Prop :=
  (∃ id, found = some id ∧ pool.Right homes request (some id))
    ∨ (pool.Right homes request none
      ∧ LastResort cfg homes request realmname pool found)

/-- Nothing in the pool, nothing in that of the DEFAULT realm, and the
name of that realm is not `DEFAULT` to the letter. -/
def Circular (cfg : RealmConfig) (homes : LdbServers) (request : LdbRequest)
    (realmname : Option (List UInt8)) (pool : HomePool) : Prop :=
  cfg.fallback = true ∧ pool.Right homes request none
    ∧ (∃ other, cfg.defaultPool realmname request = some other
      ∧ other.Right homes request none)
    ∧ ∃ rd, realmFind cfg (ascii "DEFAULT") = some rd
      ∧ cString rd.name ≠ ascii "DEFAULT"

-- ======== the loop

/-- The servers in a part of the cycle. -/
def idsOf (xs : List (Nat × Option HomeId)) : List HomeId :=
  (xs.map Prod.snd).filterMap id

theorem idsOf_none (count : Nat) (xs : List (Nat × Option HomeId)) :
    idsOf ((count, none) :: xs) = idsOf xs := by
  rfl

theorem idsOf_some (count : Nat) (id : HomeId)
    (xs : List (Nat × Option HomeId)) :
    idsOf ((count, some id) :: xs) = id :: idsOf xs := by
  rfl

theorem idsOf_cycle (pool : HomePool) (start : Nat) :
    idsOf (pool.cycle start) = pool.order start := by
  unfold idsOf HomePool.cycle HomePool.order
  congr 1
  apply List.ext_getElem
  · simp
  · intro i h₁ h₂
    have hn := pool.nonempty
    rw [List.getElem_rotate]
    simp only [List.map_map, List.getElem_map, List.getElem_range,
      Function.comp_apply]
    rw [List.getD_eq_getElem?_getD, List.getElem?_eq_getElem
      (Nat.mod_lt _ hn), Option.getD_some]
    congr 1
    rw [Nat.add_comm]

theorem mem_order {start : Nat} {id : HomeId} :
    id ∈ pool.order start ↔ some id ∈ pool.servers := by
  rw [HomePool.order, List.mem_filterMap]
  simp only [List.mem_rotate, id_eq, exists_eq_right]

/-- A server is passed over, remembered as a zombie, or live. -/
theorem ldbLoop_some (homes : LdbServers) (request : LdbRequest)
    (type : PoolType) (rand : Nat → UInt32) (count : Nat) (id : HomeId)
    (rest : List (Nat × Option HomeId)) (found zombie : Option HomeId) :
    (isLive homes request id = false ∧ isZombie homes request id = false
      ∧ ldbLoop homes request type rand ((count, some id) :: rest) found zombie
        = ldbLoop homes request type rand rest found zombie)
    ∨ (isLive homes request id = false ∧ isZombie homes request id = true
      ∧ ldbLoop homes request type rand ((count, some id) :: rest) found zombie
        = ldbLoop homes request type rand rest found (zombie.or (some id)))
    ∨ (isLive homes request id = true ∧ isZombie homes request id = false
      ∧ (type ≠ .loadBalance →
        ldbLoop homes request type rand ((count, some id) :: rest) found zombie
          = (some id, zombie))
      ∧ (type = .loadBalance →
        (ldbLoop homes request type rand ((count, some id) :: rest) found
            zombie
          = ldbLoop homes request type rand rest (some id) zombie
          ∧ ∀ best, found = some best → (homes id).currentlyOutstanding
            ≤ (homes best).currentlyOutstanding)
        ∨ ∃ best, found = some best
          ∧ (homes best).currentlyOutstanding
            ≤ (homes id).currentlyOutstanding
          ∧ ldbLoop homes request type rand ((count, some id) :: rest) found
              zombie
            = ldbLoop homes request type rand rest (some best) zombie)) := by
  rw [ldbLoop.eq_def homes request type rand ((count, some id) :: rest) found
    zombie]
  dsimp only
  by_cases hdead : (homes id).state = .isDead
  · left
    rw [if_pos hdead]
    exact ⟨by simp [isLive, hdead], by simp [isZombie, hdead], rfl⟩
  rw [if_neg hdead]
  by_cases hbusy : (homes id).maxOutstanding ≤ (homes id).currentlyOutstanding
  · left
    rw [if_pos hbusy]
    have hfits : fits homes request id = false := by
      simp [fits, hbusy]
    exact ⟨by simp [isLive, hfits], by simp [isZombie, hfits], rfl⟩
  rw [if_neg hbusy]
  by_cases hcame : request.cameFrom (homes id) = true
  · left
    rw [if_pos hcame]
    have hfits : fits homes request id = false := by
      simp [fits, hcame]
    exact ⟨by simp [isLive, hfits], by simp [isZombie, hfits], rfl⟩
  rw [if_neg hcame]
  have hfits : fits homes request id = true := by
    simp only [fits, Bool.and_eq_true, decide_eq_true_eq, Bool.not_eq_true']
    exact ⟨not_le.mp hbusy, eq_false_of_ne_true hcame⟩
  by_cases hz : (homes id).state = .zombie
  · right; left
    rw [if_pos hz]
    exact ⟨by simp [isLive, hz], by simp [isZombie, hz, hfits], rfl⟩
  rw [if_neg hz]
  have halive : (homes id).state = .alive := by
    cases h : (homes id).state with
    | alive => rfl
    | zombie => exact absurd h hz
    | isDead => exact absurd h hdead
  right; right
  refine ⟨by simp [isLive, halive, hfits], by simp [isZombie, halive], ?_, ?_⟩
  · intro htype
    rw [if_pos htype]
  · intro htype
    rw [if_neg (not_not.mpr htype)]
    cases found with
    | none =>
        left
        exact ⟨rfl, by simp⟩
    | some best =>
        dsimp only
        by_cases hless : (homes id).currentlyOutstanding
            < (homes best).currentlyOutstanding
        · left
          rw [if_pos hless]
          refine ⟨rfl, fun b hb => ?_⟩
          cases hb
          exact Int.le_of_lt hless
        rw [if_neg hless]
        by_cases hmore : (homes best).currentlyOutstanding
            < (homes id).currentlyOutstanding
        · right
          rw [if_pos hmore]
          exact ⟨best, rfl, Int.le_of_lt hmore, rfl⟩
        rw [if_neg hmore]
        -- equally busy: either of the two
        split
        · left
          refine ⟨rfl, fun b hb => ?_⟩
          cases hb
          exact Int.not_lt.mp hmore
        · right
          exact ⟨best, rfl, Int.not_lt.mp hless, rfl⟩

/-- A pool that does not balance the load: the first live server. -/
theorem ldbLoop_first (homes : LdbServers) (request : LdbRequest)
    (rand : Nat → UInt32) (htype : type ≠ .loadBalance)
    (xs : List (Nat × Option HomeId)) (zombie : Option HomeId) :
    (ldbLoop homes request type rand xs none zombie).1
        = (idsOf xs).find? (isLive homes request)
      ∧ ((idsOf xs).find? (isLive homes request) = none →
        (ldbLoop homes request type rand xs none zombie).2
          = zombie.or ((idsOf xs).find? (isZombie homes request))) := by
  induction xs generalizing zombie with
  | nil => simp [ldbLoop, idsOf]
  | cons x rest ih =>
      obtain ⟨count, _ | id⟩ := x
      · rw [ldbLoop, idsOf_none]
        exact ih zombie
      · rw [idsOf_some, List.find?_cons, List.find?_cons]
        obtain ⟨hl, hz, h⟩ | ⟨hl, hz, h⟩ | ⟨hl, hz, h, -⟩ :=
          ldbLoop_some homes request type rand count id rest none zombie
        · rw [h, hl, hz]
          exact ih zombie
        · rw [h, hl, hz]
          obtain ⟨hfound, hzombie⟩ := ih (zombie.or (some id))
          refine ⟨hfound, fun hnone => ?_⟩
          rw [hzombie hnone]
          cases zombie with
          | none => rfl
          | some z => rfl
        · rw [h htype, hl]
          exact ⟨rfl, fun hnone => by cases hnone⟩

/-- `found` is the least busy of those that were live, and of what was
found before. -/
structure Least (homes : LdbServers) (request : LdbRequest)
    (ids : List HomeId) (before found : Option HomeId) : Prop where
  source : ∀ id, found = some id → before = some id
    ∨ (id ∈ ids ∧ isLive homes request id = true)
  none : found = none → before = none
    ∧ ∀ id ∈ ids, isLive homes request id = false
  least : ∀ id, found = some id →
    (∀ best, before = some best → (homes id).currentlyOutstanding
      ≤ (homes best).currentlyOutstanding)
    ∧ ∀ other ∈ ids, isLive homes request other = true →
      (homes id).currentlyOutstanding ≤ (homes other).currentlyOutstanding

/-- A server that is not live changes nothing. -/
theorem Least.skip {ids : List HomeId} {before found : Option HomeId}
    {id : HomeId} (h : Least homes request ids before found)
    (hid : isLive homes request id = false) :
    Least homes request (id :: ids) before found := by
  refine ⟨fun b hb => ?_, fun hb => ?_, fun b hb => ?_⟩
  · exact (h.source b hb).imp_right fun ⟨hmem, hl⟩ =>
      ⟨List.mem_cons_of_mem _ hmem, hl⟩
  · refine ⟨(h.none hb).1, fun other hmem => ?_⟩
    obtain rfl | hmem := List.mem_cons.mp hmem
    · exact hid
    · exact (h.none hb).2 other hmem
  · refine ⟨(h.least b hb).1, fun other hmem hl => ?_⟩
    obtain rfl | hmem := List.mem_cons.mp hmem
    · rw [hid] at hl
      cases hl
    · exact (h.least b hb).2 other hmem hl

/-- One that is takes the place of a busier one. -/
theorem Least.take {ids : List HomeId} {before found : Option HomeId}
    {id : HomeId} (h : Least homes request ids (some id) found)
    (hid : isLive homes request id = true)
    (hbefore : ∀ best, before = some best → (homes id).currentlyOutstanding
      ≤ (homes best).currentlyOutstanding) :
    Least homes request (id :: ids) before found := by
  refine ⟨fun b hb => ?_, fun hb => ?_, fun b hb => ?_⟩
  · right
    obtain heq | ⟨hmem, hl⟩ := h.source b hb
    · cases heq
      exact ⟨List.mem_cons_self, hid⟩
    · exact ⟨List.mem_cons_of_mem _ hmem, hl⟩
  · cases (h.none hb).1
  · have hfirst := (h.least b hb).1 id rfl
    refine ⟨fun best hbest => hfirst.trans (hbefore best hbest), ?_⟩
    intro other hmem hl
    obtain rfl | hmem := List.mem_cons.mp hmem
    · exact hfirst
    · exact (h.least b hb).2 other hmem hl

/-- One that is busier, or as busy, may be left. -/
theorem Least.keep {ids : List HomeId} {best id : HomeId}
    {found : Option HomeId} (h : Least homes request ids (some best) found)
    (hid : (homes best).currentlyOutstanding
      ≤ (homes id).currentlyOutstanding) :
    Least homes request (id :: ids) (some best) found := by
  refine ⟨fun b hb => ?_, fun hb => ?_, fun b hb => ?_⟩
  · exact (h.source b hb).imp_right fun ⟨hmem, hl⟩ =>
      ⟨List.mem_cons_of_mem _ hmem, hl⟩
  · cases (h.none hb).1
  · refine ⟨(h.least b hb).1, fun other hmem hl => ?_⟩
    obtain rfl | hmem := List.mem_cons.mp hmem
    · exact ((h.least b hb).1 best rfl).trans hid
    · exact (h.least b hb).2 other hmem hl

/-- A pool that balances the load: the least busy live server. -/
theorem ldbLoop_balance (homes : LdbServers) (request : LdbRequest)
    (rand : Nat → UInt32) (xs : List (Nat × Option HomeId))
    (found zombie : Option HomeId) :
    Least homes request (idsOf xs) found
        (ldbLoop homes request .loadBalance rand xs found zombie).1
      ∧ (ldbLoop homes request .loadBalance rand xs found zombie).2
        = zombie.or ((idsOf xs).find? (isZombie homes request)) := by
  induction xs generalizing found zombie with
  | nil =>
      refine ⟨⟨fun id h => Or.inl h, fun h => ⟨h, by simp [idsOf]⟩, ?_⟩,
        by simp [ldbLoop, idsOf]⟩
      intro id h
      refine ⟨fun best hbest => ?_, by simp [idsOf]⟩
      rw [show found = some id from h] at hbest
      cases hbest
      exact Int.le_refl _
  | cons x rest ih =>
      obtain ⟨count, _ | id⟩ := x
      · rw [ldbLoop, idsOf_none]
        exact ih found zombie
      · rw [idsOf_some, List.find?_cons]
        obtain ⟨hl, hz, h⟩ | ⟨hl, hz, h⟩ | ⟨hl, hz, -, h⟩ :=
          ldbLoop_some homes request .loadBalance rand count id rest found
            zombie
        · rw [h, hz]
          exact ⟨(ih found zombie).1.skip hl, (ih found zombie).2⟩
        · rw [h, hz]
          obtain ⟨hleast, hzombie⟩ := ih found (zombie.or (some id))
          refine ⟨hleast.skip hl, ?_⟩
          rw [hzombie]
          cases zombie with
          | none => rfl
          | some z => rfl
        · rw [hz]
          obtain ⟨h, hbefore⟩ | ⟨best, rfl, hbusier, h⟩ := h rfl
          · rw [h]
            exact ⟨(ih (some id) zombie).1.take hl hbefore,
              (ih (some id) zombie).2⟩
          · rw [h]
            exact ⟨(ih (some best) zombie).1.keep hbusier,
              (ih (some best) zombie).2⟩

-- ======== one pool

/-- What the loop of a pool comes to: `found` is chosen, or nothing is live
and the zombie is the first. -/
theorem HomePool.loop_spec (pool : HomePool) (homes : LdbServers)
    (request : LdbRequest) (rand : Nat → UInt32) {found zombie : Option HomeId}
    (h : ldbLoop homes request pool.type rand
      (pool.cycle (pool.start request)) none none = (found, zombie)) :
    (∃ id, found = some id ∧ pool.Chosen homes request id)
      ∨ (found = none
        ∧ (∀ id, some id ∈ pool.servers → isLive homes request id = false)
        ∧ zombie = (pool.order (pool.start request)).find?
          (isZombie homes request)) := by
  by_cases htype : pool.type = .loadBalance
  · have hspec := ldbLoop_balance homes request rand (pool.cycle (pool.start request)) none none
    rw [← htype, h, idsOf_cycle] at hspec
    obtain ⟨hleast, hzombie⟩ := hspec
    cases hfound : found with
    | some id =>
        left
        refine ⟨id, rfl, ?_⟩
        obtain heq | ⟨hmem, hl⟩ := hleast.source id hfound
        · cases heq
        · exact ⟨mem_order.mp hmem, hl,
            fun _ other hother => (hleast.least id hfound).2 other
              (mem_order.mpr hother), fun hne => absurd htype hne⟩
    | none =>
        right
        exact ⟨rfl, fun id hid => (hleast.none hfound).2 id
          (mem_order.mpr hid), by simpa using hzombie⟩
  · have hspec := ldbLoop_first homes request rand htype (pool.cycle (pool.start request)) none
    rw [h, idsOf_cycle] at hspec
    obtain ⟨hfirst, hzombie⟩ := hspec
    cases hfound : found with
    | some id =>
        left
        have hfind : (pool.order (pool.start request)).find?
            (isLive homes request) = some id := by
          rw [← hfirst]
          exact hfound
        exact ⟨id, rfl, mem_order.mp (List.mem_of_find?_eq_some hfind),
          List.find?_some hfind, fun heq => absurd heq htype,
          fun _ => hfind⟩
    | none =>
        right
        have hnone : (pool.order (pool.start request)).find?
            (isLive homes request) = none := by
          rw [← hfirst]
          exact hfound
        refine ⟨rfl, fun id hid => ?_, by simpa using hzombie hnone⟩
        exact eq_false_of_ne_true
          (List.find?_eq_none.mp hnone id (mem_order.mpr hid))

/-- The choice in one pool is right. -/
theorem HomePool.choose_right (pool : HomePool) (homes : LdbServers)
    (request : LdbRequest) (rand : Nat → UInt32) :
    pool.Right homes request (pool.choose homes request rand) := by
  obtain ⟨⟨found, zombie⟩, h⟩ : ∃ r, ldbLoop homes request pool.type rand
    (pool.cycle (pool.start request)) none none = r := ⟨_, rfl⟩
  have hchoose : pool.choose homes request rand
      = (found.or zombie).or pool.fallback := by
    rw [HomePool.choose, h]
  rw [hchoose]
  obtain ⟨id, rfl, hchosen⟩ | ⟨rfl, hdead, hzombie⟩ :=
    pool.loop_spec homes request rand h
  · refine ⟨fun _ => ⟨id, rfl, hchosen⟩, fun hno => ?_, fun hno => ?_⟩
    · exact absurd (hno id hchosen.member) (by rw [hchosen.live]; simp)
    · exact absurd (hno id hchosen.member) (by rw [hchosen.live]; simp)
  · refine ⟨fun ⟨id, hid, hl⟩ => ?_, fun _ ⟨id, hid, hz⟩ => ?_, fun _ hno => ?_⟩
    · rw [hdead id hid] at hl
      cases hl
    · cases hfind : (pool.order (pool.start request)).find?
          (isZombie homes request) with
      | none =>
          exact absurd hz (List.find?_eq_none.mp hfind id (mem_order.mpr hid))
      | some z =>
          rw [hfind] at hzombie
          rw [hzombie]
          exact ⟨z, rfl, mem_order.mp (List.mem_of_find?_eq_some hfind),
            List.find?_some hfind⟩
    · have hnone : (pool.order (pool.start request)).find?
          (isZombie homes request) = none := by
        rw [List.find?_eq_none]
        intro id hid
        rw [hno id (mem_order.mp hid)]
        exact Bool.false_ne_true
      rw [hzombie, hnone]
      rfl

/-- Whether there is a choice does not depend on the random numbers. -/
theorem HomePool.right_none_iff {found : Option HomeId}
    (h : pool.Right homes request found) :
    pool.Right homes request none ↔ found = none := by
  constructor
  · intro hnone
    by_cases hlive : ∃ id, some id ∈ pool.servers
        ∧ isLive homes request id = true
    · obtain ⟨id, heq, -⟩ := hnone.live hlive
      cases heq
    have hdead : ∀ id, some id ∈ pool.servers →
        isLive homes request id = false := by
      intro id hid
      exact eq_false_of_ne_true fun hl => hlive ⟨id, hid, hl⟩
    by_cases hzombie : ∃ id, some id ∈ pool.servers
        ∧ isZombie homes request id = true
    · obtain ⟨id, heq, -⟩ := hnone.zombie hdead hzombie
      cases heq
    have hno : ∀ id, some id ∈ pool.servers →
        isZombie homes request id = false := by
      intro id hid
      exact eq_false_of_ne_true fun hz => hzombie ⟨id, hid, hz⟩
    rw [h.fallback hdead hno, hnone.fallback hdead hno]
  · intro hfound
    rwa [hfound] at h

-- ======== waking

/-- Servers that are not pinged are marked as alive, and the first of them
is found. -/
theorem wakeLoop_spec (servers : List (Option HomeId)) (homes : LdbServers)
    (found : Option HomeId) :
    (∀ id, (wakeLoop servers homes found).2 = some id →
        found = some id ∨ (some id ∈ servers ∧ Revivable homes id))
      ∧ ((wakeLoop servers homes found).2 = none → found = none
        ∧ ∀ id, some id ∈ servers → ¬ Revivable homes id) := by
  induction servers generalizing homes found with
  | nil =>
      refine ⟨fun id h => Or.inl h, fun h => ⟨h, fun id hid => ?_⟩⟩
      cases hid
  | cons server rest ih =>
      cases server with
      | none =>
          rw [wakeLoop]
          obtain ⟨hsome, hnone⟩ := ih homes found
          constructor
          · intro id h
            exact (hsome id h).imp_right fun ⟨hmem, hr⟩ =>
              ⟨List.mem_cons_of_mem _ hmem, hr⟩
          · intro h
            refine ⟨(hnone h).1, fun id hid => ?_⟩
            obtain hid | hid := List.mem_cons.mp hid
            · cases hid
            · exact (hnone h).2 id hid
      | some first =>
          rw [wakeLoop]
          by_cases hfirst : (homes first).state = .isDead
              ∧ (homes first).pingCheck = .none
          · rw [if_pos hfirst]
            obtain ⟨hsome, hnone⟩ := ih (Function.update homes first
              { homes first with state := .alive }) (found.or (some first))
            constructor
            · intro id h
              obtain h | ⟨hmem, hr⟩ := hsome id h
              · cases found with
                | none =>
                    cases h
                    exact Or.inr ⟨List.mem_cons_self, hfirst⟩
                | some b => exact Or.inl h
              · right
                refine ⟨List.mem_cons_of_mem _ hmem, ?_⟩
                by_cases hid : id = first
                · rw [hid]
                  exact hfirst
                · unfold Revivable at hr
                  rwa [Function.update_of_ne hid] at hr
            · intro h
              have := (hnone h).1
              cases found with
              | none => cases this
              | some b => cases this
          · rw [if_neg hfirst]
            obtain ⟨hsome, hnone⟩ := ih homes found
            constructor
            · intro id h
              exact (hsome id h).imp_right fun ⟨hmem, hr⟩ =>
                ⟨List.mem_cons_of_mem _ hmem, hr⟩
            · intro h
              refine ⟨(hnone h).1, fun id hid => ?_⟩
              obtain hid | hid := List.mem_cons.mp hid
              · cases hid
                exact hfirst
              · exact (hnone h).2 id hid

-- ======== one call

/-- What is found in the pool is returned. -/
theorem homeServerLdb_found (cfg : RealmConfig) {fuel : Nat}
    (realmname : Option (List UInt8)) {id : HomeId}
    (h : pool.choose homes request (env.rand fuel) = some id) :
    ∃ res, homeServerLdb cfg env request (fuel + 1) homes realmname pool
      = some res ∧ res.found = some id := by
  rw [homeServerLdb, h]
  exact ⟨_, rfl, rfl⟩

/-- Without the DEFAULT realm, the call ends. -/
theorem homeServerLdb_last {fuel : Nat} {realmname : Option (List UInt8)}
    (h : pool.choose homes request (env.rand fuel) = none)
    (hdefault : cfg.fallback = true →
      cfg.defaultPool realmname request = none) :
    ∃ res, homeServerLdb cfg env request (fuel + 1) homes realmname pool
      = some res ∧ LastResort cfg homes request realmname pool res.found := by
  rw [homeServerLdb, h]
  dsimp only
  cases hfallback : cfg.fallback with
  | true =>
      have hpool := hdefault hfallback
      have hright : LastResort cfg homes request realmname pool none := by
        rw [LastResort, if_pos hfallback, hpool]
      rw [if_neg (by simp)]
      dsimp only
      cases realmname with
      | none => exact ⟨_, rfl, hright⟩
      | some name =>
          dsimp only
          rw [RealmConfig.defaultPool] at hpool
          split
          · next hname =>
              rw [if_pos hname.2] at hpool
              cases hrd : realmFind cfg (ascii "DEFAULT") with
              | none => exact ⟨_, rfl, hright⟩
              | some rd =>
                  rw [hrd] at hpool
                  dsimp only
                  rw [show rd.pool request = none from hpool]
                  exact ⟨_, rfl, hright⟩
          · exact ⟨_, rfl, hright⟩
  | false =>
      have hresort : ∀ found, LastResort cfg homes request realmname pool found
          ↔ if cfg.wakeAllIfAllDead = true then
            (∃ id, found = some id ∧ some id ∈ pool.servers
              ∧ Revivable homes id)
            ∨ (found = none
              ∧ ∀ id, some id ∈ pool.servers → ¬ Revivable homes id)
          else found = none := by
        intro found
        rw [LastResort, if_neg (by rw [hfallback]; simp)]
      simp only [hresort]
      cases hwake : cfg.wakeAllIfAllDead with
      | false =>
          rw [if_neg (by simp)]
          dsimp only
          cases realmname with
          | none => exact ⟨_, rfl, rfl⟩
          | some name =>
              dsimp only
              rw [if_neg (by simp)]
              exact ⟨_, rfl, rfl⟩
      | true =>
          rw [if_pos (by simp)]
          obtain ⟨hsome, hnone⟩ := wakeLoop_spec pool.servers homes none
          obtain ⟨⟨homes', woken⟩, hw⟩ : ∃ r,
            wakeLoop pool.servers homes none = r := ⟨_, rfl⟩
          rw [hw] at hsome hnone ⊢
          dsimp only
          cases hwoken : woken with
          | some id =>
              obtain heq | hrevived := hsome id hwoken
              · cases heq
              · exact ⟨_, rfl, Or.inl ⟨id, rfl, hrevived⟩⟩
          | none =>
              have hdead := (hnone hwoken).2
              cases realmname with
              | none => exact ⟨_, rfl, Or.inr ⟨rfl, hdead⟩⟩
              | some name =>
                  dsimp only
                  rw [if_neg (by simp)]
                  exact ⟨_, rfl, Or.inr ⟨rfl, hdead⟩⟩

/-- The pool of the DEFAULT realm comes from that realm. -/
theorem defaultPool_some {realmname : Option (List UInt8)} {other : HomePool}
    (h : cfg.defaultPool realmname request = some other) :
    ∃ name rd, realmname = some name
      ∧ (cString name ≠ ascii "NULL" ∧ cString name ≠ ascii "DEFAULT")
      ∧ realmFind cfg (ascii "DEFAULT") = some rd
      ∧ rd.pool request = some other := by
  unfold RealmConfig.defaultPool at h
  cases realmname with
  | none => cases h
  | some name =>
      dsimp only at h
      split at h
      · next hname =>
          obtain ⟨rd, hrd, hpool⟩ := Option.bind_eq_some_iff.mp h
          exact ⟨name, rd, rfl, hname, hrd, hpool⟩
      · cases h

/-- With it, the call is made again. -/
theorem homeServerLdb_again {fuel : Nat} {name : List UInt8} {rd : Realm}
    {other : HomePool} (hfallback : cfg.fallback = true)
    (h : pool.choose homes request (env.rand fuel) = none)
    (hname : cString name ≠ ascii "NULL" ∧ cString name ≠ ascii "DEFAULT")
    (hrd : realmFind cfg (ascii "DEFAULT") = some rd)
    (hpool : rd.pool request = some other) :
    homeServerLdb cfg env request (fuel + 1) homes (some name) pool
      = homeServerLdb cfg env request fuel homes (some rd.name) other := by
  rw [homeServerLdb, h]
  dsimp only
  rw [if_neg (by simp [hfallback])]
  dsimp only
  rw [if_pos ⟨hfallback, hname⟩, hrd]
  dsimp only
  rw [hpool]

-- ======== the recursion

/-- The DEFAULT realm is not the NULL realm. -/
theorem realmFind_default_name {rd : Realm}
    (h : realmFind cfg (ascii "DEFAULT") = some rd) :
    cString rd.name ≠ ascii "NULL" := by
  have hsame : sameNoCase rd.name (ascii "DEFAULT") = true := by
    unfold realmFind at h
    rw [Option.or_self] at h
    have := List.find?_some h
    exact this
  intro hnull
  rw [sameNoCase, hnull, beq_iff_eq] at hsame
  have hlen := congrArg List.length hsame
  rw [List.length_map, List.length_map] at hlen
  revert hlen
  decide

/-- The name of the DEFAULT realm ends the recursion when it is in
capitals. -/
theorem defaultPool_default (cfg : RealmConfig) (request : LdbRequest)
    {rd : Realm}
    (hname : cString rd.name = ascii "DEFAULT") :
    cfg.defaultPool (some rd.name) request = none := by
  rw [RealmConfig.defaultPool, if_neg fun h => h.2 hname]

/-- Else nothing does. -/
theorem homeServerLdb_circular (env : LdbEnv) {rd : Realm} {other : HomePool}
    (hfallback : cfg.fallback = true)
    (hrd : realmFind cfg (ascii "DEFAULT") = some rd)
    (hname : cString rd.name ≠ ascii "DEFAULT")
    (hpool : rd.pool request = some other)
    (hother : other.Right homes request none) (fuel : Nat) :
    ∀ name pool, (cString name ≠ ascii "NULL"
        ∧ cString name ≠ ascii "DEFAULT") →
      pool.Right homes request none →
      homeServerLdb cfg env request fuel homes (some name) pool = none := by
  induction fuel with
  | zero => intro name pool _ _; rfl
  | succ fuel ih =>
      intro name pool hnames hright
      have hchoose := (HomePool.right_none_iff
        (pool.choose_right homes request (env.rand fuel))).mp hright
      rw [homeServerLdb_again hfallback hchoose hnames hrd hpool]
      exact ih rd.name other ⟨realmFind_default_name hrd, hname⟩ hother

/-- For every pool, request and state of the home servers: the call ends,
with a server that is right, exactly when it is not circular. -/
theorem homeServerLdb_iff (cfg : RealmConfig) (env : LdbEnv)
    (request : LdbRequest) (homes : LdbServers)
    (realmname : Option (List UInt8)) (pool : HomePool) :
    (∃ n, ∀ fuel, n ≤ fuel → ∃ res,
        homeServerLdb cfg env request fuel homes realmname pool = some res
          ∧ LdbRight cfg homes request realmname pool res.found)
      ↔ ¬ Circular cfg homes request realmname pool := by
  constructor
  · intro ⟨n, hall⟩ ⟨hfallback, hright, ⟨other, hdefault, hother⟩, rd, hrd,
      hname⟩
    obtain ⟨name, rd', rfl, hnames, hrd', hpool⟩ := defaultPool_some hdefault
    rw [hrd] at hrd'
    cases hrd'
    obtain ⟨res, hres, -⟩ := hall n (Nat.le_refl n)
    rw [homeServerLdb_circular env hfallback hrd hname hpool hother n name
      pool hnames hright] at hres
    cases hres
  · intro hcircular
    refine ⟨2, fun fuel hfuel => ?_⟩
    obtain ⟨fuel, rfl⟩ : ∃ k, fuel = k + 2 := ⟨fuel - 2, by omega⟩
    have hright := pool.choose_right homes request (env.rand (fuel + 1))
    cases hchoose : pool.choose homes request (env.rand (fuel + 1)) with
    | some id =>
        rw [hchoose] at hright
        obtain ⟨res, hres, hfound⟩ := homeServerLdb_found cfg realmname
          hchoose
        exact ⟨res, hres, Or.inl ⟨id, hfound, hright⟩⟩
    | none =>
        rw [hchoose] at hright
        by_cases hdefault : cfg.fallback = true →
            cfg.defaultPool realmname request = none
        · obtain ⟨res, hres, hlast⟩ := homeServerLdb_last hchoose hdefault
          exact ⟨res, hres, Or.inr ⟨hright, hlast⟩⟩
        push Not at hdefault
        obtain ⟨hfallback, hsome⟩ := hdefault
        obtain ⟨other, hother⟩ := Option.ne_none_iff_exists'.mp hsome
        obtain ⟨name, rd, rfl, hnames, hrd, hpool⟩ := defaultPool_some hother
        have hresort : ∀ found, other.Right homes request found →
            LastResort cfg homes request (some name) pool found := by
          intro found h
          rw [LastResort, if_pos hfallback, hother]
          exact h
        rw [homeServerLdb_again hfallback hchoose hnames hrd hpool]
        have hright' := other.choose_right homes request (env.rand fuel)
        cases hchoose' : other.choose homes request (env.rand fuel) with
        | some id =>
            rw [hchoose'] at hright'
            obtain ⟨res, hres, hfound⟩ := homeServerLdb_found cfg
              (some rd.name) hchoose'
            refine ⟨res, hres, Or.inr ⟨hright, hresort _ ?_⟩⟩
            rw [hfound]
            exact hright'
        | none =>
            rw [hchoose'] at hright'
            have hcapitals : cString rd.name = ascii "DEFAULT" := by
              by_contra hne
              exact hcircular ⟨hfallback, hright, ⟨other, hother, hright'⟩, rd,
                hrd, hne⟩
            obtain ⟨res, hres, hlast⟩ := homeServerLdb_last hchoose'
              fun _ => defaultPool_default cfg request hcapitals
            rw [LastResort, if_pos hfallback,
              defaultPool_default cfg request hcapitals] at hlast
            refine ⟨res, hres, Or.inr ⟨hright, hresort _ ?_⟩⟩
            rw [hlast]
            exact hright'

/-- One home server, dead. -/
def deadPool : HomePool where
  type := .failOver
  servers := [some 0]
  nonempty := by decide

def deadHomes : LdbServers := fun _ =>
  { ipaddr := {}, port := 1812, state := .isDead }

/-- A DEFAULT realm, written in small letters. -/
def smallRealm : Realm where
  name := ascii "default"
  authPool := some deadPool

def smallDefault : RealmConfig where
  fallback := true
  realms := [smallRealm]

/-- An authentication request. -/
def authRequest : LdbRequest where
  packet := { code := pwAuthenticationRequest }

/-- With one dead server in each of the two pools, the call does not end. -/
theorem homeServerLdb_endless : ¬ ∃ (env : LdbEnv) (fuel : Nat),
    homeServerLdb smallDefault env authRequest fuel deadHomes
      (some (ascii "example")) deadPool ≠ none := by
  rintro ⟨env, fuel, hends⟩
  apply hends
  have hright : deadPool.Right deadHomes authRequest none :=
    deadPool.choose_right deadHomes authRequest fun _ => 0
  have hsame : sameNoCase smallRealm.name (ascii "DEFAULT") = true := by
    decide
  have hrd : realmFind smallDefault (ascii "DEFAULT") = some smallRealm := by
    rw [realmFind, Option.or_self]
    exact List.find?_cons_of_pos hsame
  apply homeServerLdb_circular env rfl hrd
  · decide
  · rfl
  · exact hright
  · decide
  · exact hright

end WinRadius
