/-
Runs of the detail file reader over files of well-formed records: when no
record is lost.

# Numbers

The records of all files that the reader takes are numbered in order. Of
these, the last ones are unread (they end after the position in the work
file), the one before them is held if the reader has pairs, and the
request that is made for it carries its number.

# Completions

`detail_send` does not look at which record a request carries. A reply to
an old attempt, which came too late, is taken for the reply to the record
that is held now; and the news that there was no reply, which comes when
no file is open, removes a work file that waits for its lock. `Timely` is
that no completion does either.
-/
import WinRadius.Proofs.DetailMoves

namespace WinRadius

open Lib DetailRecord

-- ======== events

/-- The reader with the records of all files it has taken, and its
requests. -/
structure DetailRun where
  data : ListenDetail
  /-- the records of the work file -/
  records : List DetailRecord
  /-- the records of all files so far -/
  taken : List DetailRecord
  /-- what is outstanding: the number of a record, and its packet -/
  requests : List (Nat × RadiusPacket)
  /-- the numbers of the records that some reply was for -/
  answered : List Nat

/-- A poll, which may find a detail file, and the completion of one of the
requests with or without a reply. -/
inductive DetailEvent where
  | poll (env : DetailEnv) (found : Option (List DetailRecord))
  | complete (i : Nat) (code : Nat) (now received : Timeval)

/-- How many records are not read. -/
def DetailRun.unread (s : DetailRun) : Nat := s.data.unread s.records

/-- How many records are held. -/
def DetailRun.held (s : DetailRun) : Nat :=
  if s.data.vps = [] then 0 else 1

/-- The number of the record that is held. -/
def DetailRun.current (s : DetailRun) : Option Nat :=
  if s.data.vps = [] then none
  else some (s.taken.length - s.unread - 1)

/-- A poll has taken what it found, and moved on. -/
def DetailRun.moved (s : DetailRun) (found : Option (List DetailRecord))
    (data : ListenDetail) : DetailRun :=
  { s with
    data := data
    records := (s.data.taken found).getD s.records
    taken := s.taken ++ (s.data.taken found).getD [] }

/-- A poll has made a request. -/
def DetailRun.requested (s : DetailRun) (packet : Option RadiusPacket) :
    DetailRun :=
  match packet, s.current with
  | some p, some n => { s with requests := (n, p) :: s.requests }
  | _, _ => s

/-- The reader starts, with the work file that was left. -/
def DetailRun.start (left : Option (List DetailRecord))
    (loadFactor pollInterval retryInterval : Nat) : DetailRun where
  data := detailParse (left.map fileOf) loadFactor pollInterval retryInterval
  records := left.getD []
  taken := left.getD []
  requests := []
  answered := []

section run

variable (userparse : List UInt8 → Bool × List ValuePair)

/-- What an event does. -/
def DetailRun.step (s : DetailRun) : DetailEvent → Option DetailRun
  | .poll env found =>
      match eventPollDetail userparse
        { env with detail := found.map fileOf } s.data with
      | .ok (data, packet) => some ((s.moved found data).requested packet)
      | .error _ => none
  | .complete i code now received =>
      match s.requests[i]? with
      | some (n, _) => some { s with
          data := detailSend s.data code now received
          requests := s.requests.eraseIdx i
          answered := if code = 0 then s.answered else n :: s.answered }
      | none => none

/-- The files are files of well-formed records. -/
def DetailEvent.Proper : DetailEvent → Prop
  | .poll _ found => ∀ rs, found = some rs → ∀ r ∈ rs, r.WellFormed userparse
  | .complete _ _ _ _ => True

/-- A reply is for the record that is held, if any is that has none yet;
and when there is none, no file waits that is not open. -/
def DetailEvent.Timely (s : DetailRun) : DetailEvent → Prop
  | .poll _ _ => True
  | .complete i code _ _ =>
      (code ≠ 0 → ∀ n ∈ s.current, n ∈ s.answered
        ∨ s.requests[i]?.map Prod.fst = some n)
      ∧ (code = 0 → s.current ≠ none ∨ s.data.work = none)

/-- No record is lost: each one that the reader took is answered, or is
held, or is still to be read; and each request carries its record. -/
structure DetailRun.Kept (s : DetailRun) : Prop where
  records : ∀ n (h : n < s.taken.length), n ∈ s.answered
    ∨ s.current = some n ∧ s.data.vps = s.taken[n].pairs userparse
    ∨ s.taken.length ≤ n + s.unread
  requests : ∀ n p, (n, p) ∈ s.requests →
    ∃ h : n < s.taken.length, Carried (s.taken[n].pairs userparse) p

end run

-- ======== invariant

section inv

variable {userparse : List UInt8 → Bool × List ValuePair}
variable {s t : DetailRun}

/-- What every timely step preserves. -/
structure DetailRun.Inv (userparse : List UInt8 → Bool × List ValuePair)
    (s : DetailRun) : Prop where
  onRecords : s.data.OnRecords userparse s.records
  suffix : s.records <:+ s.taken
  past : ∀ m, m + s.held + s.unread < s.taken.length → m ∈ s.answered
  replied : s.data.state = .replied → ∀ n ∈ s.current, n ∈ s.answered
  requests : ∀ n p, (n, p) ∈ s.requests →
    ∃ h : n < s.taken.length, Carried (s.taken[n].pairs userparse) p

theorem DetailRun.held_nil (h : s.data.vps = []) : s.held = 0 :=
  if_pos h

theorem DetailRun.held_cons (h : s.data.vps ≠ []) : s.held = 1 :=
  if_neg h

theorem DetailRun.current_nil (h : s.data.vps = []) : s.current = none :=
  if_pos h

theorem DetailRun.current_cons (h : s.data.vps ≠ []) :
    s.current = some (s.taken.length - s.unread - 1) :=
  if_neg h

/-- The record that is held is where its number says. -/
theorem DetailRun.current_pairs
    (hrec : s.data.OnRecords userparse s.records)
    (hsuf : s.records <:+ s.taken) {n : Nat} (hn : s.current = some n) :
    n + 1 + s.unread = s.taken.length
      ∧ ∃ h : n < s.taken.length,
        s.data.vps = s.taken[n].pairs userparse := by
  have hv : s.data.vps ≠ [] := by
    intro hv
    rw [current_nil hv] at hn
    cases hn
  rw [current_cons hv] at hn
  cases hn
  cases hfp : s.data.fp with
  | none => exact absurd (hrec.good.closed hfp).2 hv
  | some fp =>
      obtain ⟨hw, k, hk, rfl, hvps⟩ := hrec.stream fp hfp
      have hun : s.unread = s.records.length - (k + 1) :=
        ListenDetail.unread_at hw hfp hk
      obtain ⟨before, hb⟩ := hsuf
      have hlen : s.taken.length = before.length + s.records.length := by
        rw [← hb, List.length_append]
      have hat : s.taken.length - s.unread - 1 = before.length + k := by
        omega
      have hget : s.taken[s.taken.length - s.unread - 1]?
          = some s.records[k] := by
        rw [hat, ← hb, List.getElem?_append_right (Nat.le_add_right _ _),
          Nat.add_sub_cancel_left, List.getElem?_eq_getElem hk]
      obtain ⟨hlt, he⟩ := List.getElem?_eq_some_iff.mp hget
      refine ⟨by omega, hlt, ?_⟩
      rw [hvps, he]

theorem DetailRun.unread_le (hrec : s.data.OnRecords userparse s.records)
    (hsuf : s.records <:+ s.taken) :
    s.held + s.unread ≤ s.taken.length := by
  by_cases hv : s.data.vps = []
  · rw [held_nil hv]
    have hle : s.unread ≤ s.records.length := by
      unfold unread ListenDetail.unread
      cases hw : s.data.work with
      | none => exact Nat.zero_le _
      | some file =>
          cases hfp : s.data.fp with
          | none => exact Nat.le_refl _
          | some fp =>
              obtain ⟨-, k, hk, rfl, -⟩ := hrec.stream fp hfp
              exact (unreadAt_offset s.records hk).le.trans (Nat.sub_le _ _)
    have := hsuf.length_le
    omega
  · rw [held_cons hv]
    have := (current_pairs hrec hsuf (current_cons hv)).1
    omega

theorem DetailRun.Inv.kept (h : s.Inv userparse) : s.Kept userparse := by
  constructor
  · intro n hn
    by_cases hpast : n + s.held + s.unread < s.taken.length
    · exact Or.inl (h.past n hpast)
    · by_cases hun : s.taken.length ≤ n + s.unread
      · exact Or.inr (Or.inr hun)
      · have hheld : s.held ≠ 0 := by omega
        have hv : s.data.vps ≠ [] := fun e => hheld (held_nil e)
        rw [held_cons hv] at hpast
        have hat : s.taken.length - s.unread - 1 = n := by omega
        have hc : s.current = some n := by
          rw [current_cons hv, hat]
        obtain ⟨-, _, hp⟩ := current_pairs h.onRecords h.suffix hc
        exact Or.inr (Or.inl ⟨hc, hp⟩)
  · exact h.requests

-- ======== steps

/-- A poll, before its request is noted. -/
theorem DetailRun.Inv.moved (h : s.Inv userparse)
    {found : Option (List DetailRecord)} {d : ListenDetail}
    (hd : d.OnRecords userparse ((s.data.taken found).getD s.records))
    (hm : PollMoves s.data s.unread ((s.data.taken found).getD []).length d
      (d.unread ((s.data.taken found).getD s.records))) :
    (s.moved found d).Inv userparse := by
  have hsuf : (s.moved found d).records <:+ (s.moved found d).taken := by
    unfold DetailRun.moved
    cases s.data.taken found with
    | none => simpa using h.suffix
    | some rs => exact List.suffix_append _ _
  have hlen : (s.moved found d).taken.length
      = s.taken.length + ((s.data.taken found).getD []).length :=
    List.length_append
  obtain ⟨more, hmore⟩ : ∃ more,
      more = ((s.data.taken found).getD []).length := ⟨_, rfl⟩
  rw [← hmore] at hm hlen
  have hbound := unread_le h.onRecords h.suffix
  have hdata : (s.moved found d).data = d := rfl
  have hans : (s.moved found d).answered = s.answered := rfl
  have hnew : (s.moved found d).unread
      = d.unread ((s.data.taken found).getD s.records) := rfl
  rw [← hnew] at hm
  constructor
  · exact hd
  · exact hsuf
  · intro m hlt
    rw [hans]
    rw [hlen] at hlt
    rcases hm with ⟨hv, hun, -⟩ | ⟨-, ⟨hv, hv', hun⟩ |
      ⟨hst, hv, hz, ⟨hv', hun⟩ | ⟨hv', hun, hun'⟩⟩⟩
    · have hheld : (s.moved found d).held = s.held := by
        unfold held
        rw [hdata, hv]
      rw [hheld] at hlt
      exact h.past m (by omega)
    · rw [held_cons hv'] at hlt
      exact h.past m (by rw [held_nil hv]; omega)
    · -- the record that was held has its answer
      rw [held_cons hv'] at hlt
      rw [held_cons hv] at hbound
      by_cases hm' : m + 1 + s.unread < s.taken.length
      · exact h.past m (by rw [held_cons hv]; exact hm')
      · refine h.replied hst m ?_
        have hat : s.taken.length - s.unread - 1 = m := by omega
        rw [current_cons hv, hat]
        rfl
    · rw [held_nil hv'] at hlt
      rw [held_cons hv] at hbound
      by_cases hm' : m + 1 + s.unread < s.taken.length
      · exact h.past m (by rw [held_cons hv]; exact hm')
      · refine h.replied hst m ?_
        have hat : s.taken.length - s.unread - 1 = m := by omega
        rw [current_cons hv, hat]
        rfl
  · intro hst n hn
    rcases hm with ⟨hv, hun, hst'⟩ | ⟨hne, -⟩
    · refine h.replied (hst' hst) n ?_
      have hc : (s.moved found d).current = s.current := by
        unfold current
        rw [hdata, hv, hlen, hun]
        have : s.taken.length + more - (s.unread + more) - 1
            = s.taken.length - s.unread - 1 := by omega
        rw [this]
      rw [← hc]
      exact hn
    · exact absurd hst hne
  · intro n p hp
    obtain ⟨hn, hc⟩ := h.requests n p hp
    have hlt : n < (s.moved found d).taken.length := by
      rw [hlen]
      omega
    refine ⟨hlt, ?_⟩
    have hget : (s.moved found d).taken[n] = s.taken[n] :=
      List.getElem_append_left hn
    rw [hget]
    exact hc

/-- A request is for the record that is held. -/
theorem DetailRun.Inv.requested (h : s.Inv userparse)
    {packet : Option RadiusPacket}
    (hp : ∀ p, packet = some p → Carried s.data.vps p) :
    (s.requested packet).Inv userparse := by
  unfold DetailRun.requested
  split
  next p n hc =>
    refine ⟨h.onRecords, h.suffix, h.past, h.replied, ?_⟩
    intro m q hq
    rcases List.mem_cons.mp hq with hq | hq
    · cases hq
      obtain ⟨-, hlt, hv⟩ := current_pairs h.onRecords h.suffix hc
      refine ⟨hlt, ?_⟩
      rw [← hv]
      exact hp _ rfl
    · exact h.requests m q hq
  next => exact h

theorem ListenDetail.OnRecords.encode {data : ListenDetail}
    {records : List DetailRecord}
    (h : data.OnRecords userparse records) :
    (detailEncode data).OnRecords userparse records :=
  ⟨h.good.encode, h.wellFormed, h.work, h.stream, h.header, h.running,
    h.idle⟩

/-- A completion, when none comes for a file that waits. -/
theorem ListenDetail.OnRecords.send {data : ListenDetail}
    {records : List DetailRecord} (h : data.OnRecords userparse records)
    (code : Nat) (now received : Timeval)
    (hidle : code = 0 → data.fp = none → data.work = none) :
    (detailSend data code now received).OnRecords userparse records := by
  have hgood := h.good.send code now received
  unfold detailSend at hgood ⊢
  split
  next hc =>
    rw [if_pos hc] at hgood
    exact ⟨hgood, h.wellFormed, h.work, h.stream, nofun, nofun,
      fun hfp _ => hidle hc hfp⟩
  next hc =>
    rw [if_neg hc] at hgood
    exact ⟨hgood, h.wellFormed, h.work, h.stream, nofun, nofun, nofun⟩

section send

variable (code : Nat) (now received : Timeval)
variable {requests : List (Nat × RadiusPacket)} {answered : List Nat}

/-- A completion reads nothing. -/
theorem detailSend_keeps (data : ListenDetail) :
    (detailSend data code now received).vps = data.vps
      ∧ (detailSend data code now received).fp = data.fp
      ∧ (detailSend data code now received).work = data.work := by
  unfold detailSend
  split
  next => exact ⟨rfl, rfl, rfl⟩
  next => exact ⟨rfl, rfl, rfl⟩

theorem DetailRun.held_send : DetailRun.held { s with
      data := detailSend s.data code now received
      requests := requests, answered := answered } = s.held := by
  unfold held
  simp only [(detailSend_keeps code now received s.data).1]

theorem DetailRun.unread_send : DetailRun.unread { s with
      data := detailSend s.data code now received
      requests := requests, answered := answered } = s.unread := by
  unfold unread ListenDetail.unread
  obtain ⟨-, hfp, hw⟩ := detailSend_keeps code now received s.data
  simp only [hfp, hw]

theorem DetailRun.current_send : DetailRun.current { s with
      data := detailSend s.data code now received
      requests := requests, answered := answered } = s.current := by
  unfold current
  rw [unread_send]
  simp only [(detailSend_keeps code now received s.data).1]

end send

/-- Every timely step preserves the invariant. -/
theorem DetailRun.Inv.step (h : s.Inv userparse) {e : DetailEvent}
    (hproper : e.Proper userparse) (htimely : e.Timely s)
    (hs : s.step userparse e = some t) : t.Inv userparse := by
  cases e with
  | poll env found =>
      obtain ⟨d, packet, hr, hd, hm⟩ := detailRecv_moves
        { env with detail := found.map fileOf } h.onRecords rfl hproper
      have hpoll : eventPollDetail userparse
          { env with detail := found.map fileOf } s.data
            = .ok (detailEncode d, packet) := by
        unfold eventPollDetail
        rw [hr]
        rfl
      simp only [DetailRun.step, hpoll] at hs
      cases hs
      refine (h.moved hd.encode hm).requested ?_
      intro p hp
      subst hp
      exact (detailRecv_gives userparse _ _ _ _ hr).2
  | complete i code now received =>
      obtain ⟨hreply, hnone⟩ := htimely
      cases hi : s.requests[i]? with
      | none =>
          simp only [DetailRun.step, hi] at hs
          cases hs
      | some q =>
          obtain ⟨n, p⟩ := q
          simp only [DetailRun.step, hi] at hs
          rw [hi] at hreply
          cases hs
          have hidle : code = 0 → s.data.fp = none →
              s.data.work = none := by
            intro hc hfp
            rcases hnone hc with hcur | hw
            · exact absurd (current_nil (h.onRecords.good.closed hfp).2) hcur
            · exact hw
          have hsub : ∀ m ∈ s.answered,
              m ∈ (if code = 0 then s.answered else n :: s.answered) := by
            intro m hm
            split
            next => exact hm
            next => exact List.mem_cons_of_mem _ hm
          refine ⟨h.onRecords.send code now received hidle, h.suffix, ?_, ?_,
            ?_⟩
          · intro m hlt
            refine hsub m (h.past m ?_)
            rw [← held_send code now received, ← unread_send code now received]
            exact hlt
          · intro hst m hm
            have hm' : m ∈ s.current := by
              rw [← current_send code now received]
              exact hm
            have hc : code ≠ 0 := by
              intro hc
              unfold detailSend at hst
              rw [if_pos hc] at hst
              cases hst
            rcases hreply hc m hm' with hin | hin
            · exact hsub m hin
            · cases hin
              rw [if_neg hc]
              exact List.mem_cons_self
          · intro m q hq
            exact h.requests m q (List.mem_of_mem_eraseIdx hq)

/-- The start, whatever file was left. -/
theorem DetailRun.Inv.start {left : Option (List DetailRecord)}
    (hleft : ∀ rs, left = some rs → ∀ r ∈ rs, r.WellFormed userparse)
    (loadFactor pollInterval retryInterval : Nat) :
    (DetailRun.start left loadFactor pollInterval retryInterval).Inv
      userparse := by
  have hclosed : (detailParse (left.map fileOf) loadFactor pollInterval
      retryInterval).Closed (left.map fileOf) :=
    ⟨rfl, rfl, Int.negSucc_lt_zero 0, rfl, rfl⟩
  have hunread : (DetailRun.start left loadFactor pollInterval
      retryInterval).unread = (left.getD []).length := by
    cases left with
    | none => rfl
    | some rs => rfl
  constructor
  · apply hclosed.onRecords
    · cases left with
      | none => exact Or.inl rfl
      | some rs => exact Or.inr rfl
    · cases left with
      | none => exact nofun
      | some rs => exact hleft rs rfl
  · exact List.suffix_rfl
  · intro m hlt
    rw [hunread] at hlt
    exact absurd hlt (Nat.not_lt.mpr (Nat.le_add_left _ _))
  · exact nofun
  · exact nofun

end inv

section result

variable {userparse : List UInt8 → Bool × List ValuePair}

/-- In every run on files of well-formed records whose completions are all
timely: no record is lost, each request carries its record, and every poll
returns. -/
theorem detail_records_kept {left : Option (List DetailRecord)}
    (hleft : ∀ rs, left = some rs → ∀ r ∈ rs, r.WellFormed userparse)
    {loadFactor pollInterval retryInterval : Nat} {s : DetailRun}
    (h : Reaches (fun a b => ∃ e : DetailEvent, e.Proper userparse
        ∧ e.Timely a ∧ a.step userparse e = some b)
      (.start left loadFactor pollInterval retryInterval) s) :
    s.Kept userparse
      ∧ ∀ env found, (DetailEvent.poll env found).Proper userparse →
        ∃ t, s.step userparse (.poll env found) = some t := by
  have hinv : s.Inv userparse := by
    refine h.invariant (DetailRun.Inv userparse)
      (.start hleft loadFactor pollInterval retryInterval) ?_
    rintro a b ha ⟨e, hproper, htimely, hs⟩
    exact ha.step hproper htimely hs
  refine ⟨hinv.kept, ?_⟩
  intro env found hproper
  obtain ⟨d, packet, hr, -⟩ := detailRecv_moves
    { env with detail := found.map fileOf } hinv.onRecords rfl hproper
  have hpoll : eventPollDetail userparse
      { env with detail := found.map fileOf } s.data
        = .ok (detailEncode d, packet) := by
    unfold eventPollDetail
    rw [hr]
    rfl
  simp only [DetailRun.step, hpoll]
  exact ⟨_, rfl⟩

end result

-- ======== two files

/-- No line gives a pair but the time. -/
def noPairs : List UInt8 → Bool × List ValuePair := fun _ => (false, [])

/-- A record of one packet. -/
def oneRecord : DetailRecord where
  header := ascii "Sat Oct  9 10:00:00 2010\n"
  body := [ascii "\tTimestamp = 1286611100\n"]

theorem oneRecord_wellFormed : oneRecord.WellFormed noPairs := by
  constructor
  · exact ⟨ascii "Sat Oct  9 10:00:00 2010", by decide, by decide, by decide,
      by decide⟩
  · decide
  · intro line hline
    cases List.mem_singleton.mp hline
    exact ⟨⟨ascii "\tTimestamp = 1286611100", by decide, by decide,
      by decide, by decide⟩, by decide⟩
  · decide
  · decide

theorem oneRecord_proper (env : DetailEnv) (n : Nat) :
    (DetailEvent.poll env (some (List.replicate n oneRecord))).Proper
      noPairs := by
  intro rs hrs r hr
  cases hrs
  rw [List.eq_of_mem_replicate hr]
  exact oneRecord_wellFormed

/-- The answers to a poll at a time. -/
def pollEnv (now : Nat) : DetailEnv where
  detail := none
  fd := 3
  locked := true
  now := now
  ipHton := fun _ => none
  received := true

instance (s : DetailRun) (e : DetailEvent) : Decidable (e.Timely s) :=
  match e with
  | .poll _ _ => inferInstanceAs (Decidable True)
  | .complete _ _ _ _ => inferInstanceAs (Decidable (_ ∧ _))

/-- A step that is timely. -/
def DetailRun.stepTimely (s : DetailRun) (e : DetailEvent) :
    Option DetailRun :=
  if e.Timely s then s.step noPairs e else none

/-- Two records are read. The first one is sent twice; the reply to the
first request comes late, but while the record is held, and the other one
before the next record is read. -/
def replyLate : List DetailEvent :=
  [.poll (pollEnv 0) none, .poll (pollEnv 0) (some [oneRecord, oneRecord]),
    .poll (pollEnv 30) none, .complete 1 5 ⟨30, 1⟩ ⟨0, 0⟩,
    .complete 0 5 ⟨30, 2⟩ ⟨30, 0⟩,
    .poll (pollEnv 31) none, .poll (pollEnv 31) none,
    .complete 0 5 ⟨31, 1⟩ ⟨31, 0⟩,
    .poll (pollEnv 32) none, .poll (pollEnv 32) none]

/-- The reply to the first request comes when the second record has been
read. -/
def replyTwice : List DetailEvent :=
  [.poll (pollEnv 0) none, .poll (pollEnv 0) (some [oneRecord, oneRecord]),
    .poll (pollEnv 30) none, .complete 0 5 ⟨30, 1⟩ ⟨30, 0⟩,
    .poll (pollEnv 31) none, .poll (pollEnv 31) none,
    .complete 1 5 ⟨31, 1⟩ ⟨0, 0⟩,
    .poll (pollEnv 32) none, .poll (pollEnv 32) none]

theorem replies_proper :
    (∀ e ∈ replyLate, e.Proper noPairs)
      ∧ ∀ e ∈ replyTwice, e.Proper noPairs := by
  constructor
  · intro e he
    fin_cases he
    exacts [nofun, oneRecord_proper _ 2, nofun, trivial, trivial, nofun,
      nofun, trivial, nofun, nofun]
  · intro e he
    fin_cases he
    exacts [nofun, oneRecord_proper _ 2, nofun, trivial, nofun, nofun,
      trivial, nofun, nofun]

/-- The run with the timely late reply: both records are answered. -/
theorem detail_records_kept_of_two : ∃ s : DetailRun,
    s.taken.length = 2 ∧ s.unread = 0 ∧ s.current = none
      ∧ s.answered = [1, 0, 0] ∧ s.Kept noPairs := by
  obtain ⟨s, hs, hsee⟩ := (Option.any_eq_true
    (fun s : DetailRun => decide (s.taken.length = 2 ∧ s.unread = 0
      ∧ s.current = none ∧ s.answered = [1, 0, 0]))
    (replyLate.foldlM DetailRun.stepTimely (.start none 10 1 30))).mp
    (by decide)
  obtain ⟨hlen, hun, hcur, hans⟩ := of_decide_eq_true hsee
  have hleft : ∀ rs : List DetailRecord, none = some rs →
      ∀ r ∈ rs, r.WellFormed noPairs := nofun
  refine ⟨s, hlen, hun, hcur, hans, (detail_records_kept hleft
    (Reaches.of_foldlM ?_ hs)).1⟩
  intro a b e he hstep
  unfold DetailRun.stepTimely at hstep
  split at hstep
  next ht => exact ⟨e, replies_proper.1 e he, ht, hstep⟩
  next => cases hstep

/-- A late reply to the first record is taken for one to the second, which
is read and never answered. -/
theorem detail_record_lost :
    ¬ ∀ (userparse : List UInt8 → Bool × List ValuePair)
      (left : Option (List DetailRecord)),
      (∀ rs, left = some rs → ∀ r ∈ rs, r.WellFormed userparse) →
      ∀ (loadFactor pollInterval retryInterval : Nat) (s : DetailRun),
      Reaches (fun a b => ∃ e : DetailEvent, e.Proper userparse
          ∧ a.step userparse e = some b)
        (.start left loadFactor pollInterval retryInterval) s →
      s.Kept userparse := by
  intro hall
  obtain ⟨s, hs, hsee⟩ := (Option.any_eq_true
    (fun s : DetailRun => decide (s.taken.length = 2 ∧ s.unread = 0
      ∧ s.current = none ∧ 1 ∉ s.answered))
    (replyTwice.foldlM (DetailRun.step noPairs) (.start none 10 1 30))).mp
    (by decide)
  obtain ⟨hlen, hun, hcur, hans⟩ := of_decide_eq_true hsee
  have hkept := hall noPairs none nofun 10 1 30 s (Reaches.of_foldlM
    (fun a b e he hstep => ⟨e, replies_proper.2 e he, hstep⟩) hs)
  rcases hkept.records 1 (by omega) with h | ⟨h, -⟩ | h
  · exact hans h
  · rw [hcur] at h
    cases h
  · omega

end WinRadius
