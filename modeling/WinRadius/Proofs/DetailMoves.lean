/-
What one poll of the detail file reader does to a work file of well-formed
records: it stays where it is, reads the first record or the next one, or
finds the end of the file.

The requests it makes carry the pairs that are held.
-/
import WinRadius.Proofs.DetailRecords

namespace WinRadius

open Lib DetailRecord

section file

variable {userparse : List UInt8 → Bool × List ValuePair} {env : DetailEnv}
variable {data : ListenDetail} {records : List DetailRecord}

-- ======== the file

/-- The stream at the end of the first `k` records. -/
def streamAt (records : List DetailRecord) (k : Nat) : DetailStream where
  file := fileOf records
  pos := offset records k

/-- The reader has no file open. -/
structure ListenDetail.Closed (data : ListenDetail)
    (work : Option DetailFile) : Prop where
  fp : data.fp = none
  vps : data.vps = []
  fd : data.fd < 0
  state : data.state = .unopened
  work : data.work = work

/-- What holds between two calls, for the records of the work file. -/
structure ListenDetail.OnRecords
    (userparse : List UInt8 → Bool × List ValuePair) (data : ListenDetail)
    (records : List DetailRecord) : Prop where
  good : data.Good
  wellFormed : ∀ r ∈ records, r.WellFormed userparse
  work : ∀ file, data.work = some file → file = fileOf records
  stream : ∀ fp, data.fp = some fp → data.work = some (fileOf records)
    ∧ ∃ (k : Nat) (hk : k < records.length), fp = streamAt records (k + 1)
      ∧ data.vps = records[k].pairs userparse
  header : data.state ≠ .header
  running : data.state = .running → data.fp ≠ none
  idle : data.fp = none → data.state = .noReply → data.work = none

/-- The records of the work file that are not read. -/
def ListenDetail.unread (data : ListenDetail)
    (records : List DetailRecord) : Nat :=
  match data.work, data.fp with
  | none, _ => 0
  | some _, none => records.length
  | some _, some fp => unreadAt fp.pos records

theorem ListenDetail.unread_work_none (h : data.work = none) :
    data.unread records = 0 := by
  unfold unread
  rw [h]

theorem ListenDetail.unread_closed {file : DetailFile}
    (h : data.work = some file) (hfp : data.fp = none) :
    data.unread records = records.length := by
  unfold unread
  rw [h, hfp]

theorem ListenDetail.unread_at {file : DetailFile} {k : Nat}
    (h : data.work = some file) (hfp : data.fp = some (streamAt records k))
    (hk : k ≤ records.length) :
    data.unread records = records.length - k := by
  unfold unread
  rw [h, hfp]
  exact unreadAt_offset records hk

/-- A closed reader, whatever waits in the work file. -/
theorem ListenDetail.Closed.onRecords {work : Option DetailFile}
    (h : data.Closed work) (hw : work = none ∨ work = some (fileOf records))
    (hwf : ∀ r ∈ records, r.WellFormed userparse) :
    data.OnRecords userparse records := by
  constructor
  · refine ⟨Or.inl h.state, fun _ => ⟨h.fd, h.vps⟩, fun _ => h.fp,
      fun e => ?_, fun fp e => ?_⟩
    · rw [h.state] at e
      cases e
    · rw [h.fp] at e
      cases e
  · exact hwf
  · intro file hf
    rw [h.work] at hf
    rcases hw with hw | hw <;> rw [hw] at hf <;> cases hf
    rfl
  · intro fp hfp
    rw [h.fp] at hfp
    cases hfp
  · rw [h.state]
    exact nofun
  · intro e
    rw [h.state] at e
    cases e
  · intro _ e
    rw [h.state] at e
    cases e

/-- A reader that holds a record. -/
theorem ListenDetail.Holds.onRecords {k : Nat} (hk : k < records.length)
    (h : data.Holds (records[k].pairs userparse) (streamAt records (k + 1))
      (some (fileOf records)))
    (hwf : ∀ r ∈ records, r.WellFormed userparse) :
    data.OnRecords userparse records := by
  obtain ⟨hv, hfp, hw, hst⟩ := h
  have hopen : data.fp ≠ none := by
    rw [hfp]
    exact nofun
  have hnot : data.state ≠ .unopened ∧ data.state ≠ .header := by
    rcases hst with hst | hst <;> rw [hst] <;> exact ⟨nofun, nofun⟩
  constructor
  · refine ⟨?_, fun e => absurd e hopen, fun e => absurd e hnot.1,
      fun e => absurd e hnot.2, fun fp e => ?_⟩
    · rcases hst with hst | hst
      · exact Or.inr (Or.inr (Or.inl hst))
      · exact Or.inr (Or.inr (Or.inr (Or.inl hst)))
    · rw [hfp] at e
      cases e
      exact ⟨rfl, nofun⟩
  · exact hwf
  · intro file hf
    rw [hw] at hf
    cases hf
    rfl
  · intro fp e
    rw [hfp] at e
    cases e
    exact ⟨hw, k, hk, rfl, hv⟩
  · exact hnot.2
  · intro _
    exact hopen
  · intro e
    exact absurd e hopen

-- ======== a call

variable (env data) in
/-- `do_header` at the end of `k` records: the next one, or the end. -/
theorem atHeader_records {k : Nat} (hk : k ≤ records.length)
    (hwf : ∀ r ∈ records, r.WellFormed userparse)
    (hfp : data.fp = some (streamAt records k)) (hst : data.state = .header)
    (hv : data.vps = []) :
    ∃ d packet, atHeader userparse env data (streamAt records k)
        = .ok (d, packet)
      ∧ (k = records.length ∧ d.Closed none
        ∨ ∃ hk' : k < records.length,
          d.Holds (records[k].pairs userparse) (streamAt records (k + 1))
            data.work) := by
  rcases Nat.lt_or_ge k records.length with hlt | hge
  · obtain ⟨hrest, hnext⟩ := drop_offset records hlt
    have hsize : ¬ offset records k = (fileOf records).size :=
      Nat.ne_of_lt (offset_lt records hlt)
    obtain ⟨d, packet, hread, hd⟩ := readRecord_holds env
      { data with tries := 0 }
      (hwf _ (List.getElem_mem hlt)) hst hv hfp rfl hrest
    refine ⟨d, packet, ?_, Or.inr ⟨hlt, ?_⟩⟩
    · unfold atHeader streamAt
      simp only [if_neg hsize, Bool.false_eq_true, if_false]
      exact hread
    · have hs : ({ streamAt records k with
            pos := (streamAt records k).pos + records[k].bytes.length }
            : DetailStream) = streamAt records (k + 1) := by
        unfold streamAt
        rw [hnext]
      rw [hs] at hd
      exact hd
  · have hend : k = records.length := Nat.le_antisymm hk hge
    refine ⟨{ data with tries := 0 }.cleaned, none, ?_, Or.inl ⟨hend, ?_⟩⟩
    · unfold atHeader streamAt
      rw [hend, offset_length, if_pos rfl, detailCleanup_eq]
      exact if_pos hv
    · exact ⟨rfl, hv, Int.negSucc_lt_zero 0, rfl, rfl⟩

variable (env) in
/-- `open_file`: no file, a file that is locked, an empty one, or the
first record. -/
theorem openFile_records (hst : data.state = .unopened)
    (hfp : data.fp = none) (hfd : data.fd < 0) (hv : data.vps = [])
    (hfile : ∀ file, data.work.or env.detail = some file →
      file = fileOf records)
    (hwf : ∀ r ∈ records, r.WellFormed userparse) :
    ∃ d packet, openFile userparse env data = .ok (d, packet)
      ∧ (data.work.or env.detail = none ∧ d.Closed none
        ∨ data.work.or env.detail = some (fileOf records)
          ∧ (d.Closed (some (fileOf records))
            ∨ records = [] ∧ d.Closed none
            ∨ ∃ hk : 0 < records.length,
              d.Holds (records[0].pairs userparse) (streamAt records 1)
                (some (fileOf records)))) := by
  cases hf : data.work.or env.detail with
  | none =>
      have hw : data.work = none := by
        cases hw : data.work with
        | none => rfl
        | some f =>
            rw [hw] at hf
            cases hf
      refine ⟨{ data with delayTime := 1000000 }, none, ?_,
        Or.inl ⟨rfl, hfp, hv, hfd, hst, hw⟩⟩
      unfold openFile detailOpen radAssert
      simp only [if_pos hfd, if_pos hst, hf, ok_bind]
  | some file =>
      have he := hfile file hf
      subst he
      by_cases hl : env.locked = false
      · obtain ⟨d, heq, hd⟩ : ∃ d,
            openFile userparse env data = .ok (d, none)
              ∧ d.Closed (some (fileOf records)) := by
          unfold openFile detailOpen radAssert
          simp only [if_pos hfd, if_pos hst, hf, if_pos hv, if_pos hfp,
            if_pos hl, ok_bind, if_true, Int.natCast_nonneg]
          exact ⟨_, rfl, hfp, hv, Int.negSucc_lt_zero 0, rfl, rfl⟩
        exact ⟨d, none, heq, Or.inr ⟨rfl, Or.inl hd⟩⟩
      · obtain ⟨d, heq, hdfp, hdst, hdv, hdw⟩ : ∃ d,
            openFile userparse env data
              = atHeader userparse env d (streamAt records 0)
            ∧ d.fp = some (streamAt records 0) ∧ d.state = .header
            ∧ d.vps = [] ∧ d.work = some (fileOf records) := by
          unfold openFile detailOpen radAssert
          simp only [if_pos hfd, if_pos hst, hf, if_pos hv, if_pos hfp,
            if_neg hl, ok_bind, if_true, Int.natCast_nonneg]
          exact ⟨_, rfl, rfl, rfl, rfl, rfl⟩
        obtain ⟨d', packet, hat, hcase⟩ := atHeader_records env d
          (Nat.zero_le _) hwf hdfp hdst hdv
        refine ⟨d', packet, heq.trans hat, Or.inr ⟨rfl, ?_⟩⟩
        rcases hcase with ⟨h0, hd⟩ | ⟨hk, hd⟩
        · exact Or.inr (Or.inl ⟨List.length_eq_zero_iff.mp h0.symm, hd⟩)
        · rw [hdw] at hd
          exact Or.inr (Or.inr ⟨hk, hd⟩)

/-- What a poll does with the records: nothing, or it reads the first one,
the next one, or finds the end. `more` is the number of records in a file
that it takes. -/
def PollMoves (data : ListenDetail) (unread more : Nat) (d : ListenDetail)
    (unread' : Nat) : Prop :=
  (d.vps = data.vps ∧ unread' = unread + more
      ∧ (d.state = .replied → data.state = .replied))
  ∨ (d.state ≠ .replied
    ∧ ((data.vps = [] ∧ d.vps ≠ [] ∧ unread' + 1 = unread + more)
      ∨ (data.state = .replied ∧ data.vps ≠ [] ∧ more = 0
        ∧ (d.vps ≠ [] ∧ unread' + 1 = unread
          ∨ d.vps = [] ∧ unread = 0 ∧ unread' = 0))))

/-- The call can take a file. -/
def ListenDetail.takes (data : ListenDetail) : Bool :=
  !data.signal && data.fp.isNone && data.work.isNone
    && (data.state == .unopened || data.state == .replied)

/-- The records that the call takes, where a file with some is there. -/
def ListenDetail.taken (data : ListenDetail)
    (found : Option (List DetailRecord)) : Option (List DetailRecord) :=
  if data.takes = true then found else none

variable (env) in
/-- A call that opens a file. -/
theorem openFile_moves (data₀ : ListenDetail) {found : Option (List DetailRecord)}
    (hrec : data₀.OnRecords userparse records)
    (henv : env.detail = found.map fileOf)
    (hfound : ∀ rs, found = some rs → ∀ r ∈ rs, r.WellFormed userparse)
    (htakes : data₀.taken found = if data₀.work.isNone then found else none)
    (hfp₀ : data₀.fp = none)
    (hst : data.state = .unopened) (hfp : data.fp = none)
    (hfd : data.fd < 0) (hv : data.vps = []) (hw : data.work = data₀.work) :
    ∃ d packet, openFile userparse env data = .ok (d, packet)
      ∧ d.OnRecords userparse ((data₀.taken found).getD records)
      ∧ PollMoves data₀ (data₀.unread records)
        ((data₀.taken found).getD []).length d
        (d.unread ((data₀.taken found).getD records)) := by
  have hv₀ : data₀.vps = [] := (hrec.good.closed hfp₀).2
  -- the records that are read from, and the numbers of before
  obtain ⟨rs, hrs⟩ : ∃ rs, rs = (data₀.taken found).getD records := ⟨_, rfl⟩
  have hfile : ∀ file, data.work.or env.detail = some file →
      file = fileOf rs := by
    intro file hf
    rw [hw] at hf
    cases hw₀ : data₀.work with
    | none =>
        rw [hw₀, Option.none_or, henv] at hf
        obtain ⟨rs', hrs', rfl⟩ := Option.map_eq_some_iff.mp hf
        rw [hrs, htakes, hw₀, hrs']
        rfl
    | some f =>
        rw [hw₀, Option.some_or] at hf
        cases hf
        rw [hrs, htakes, hw₀]
        exact hrec.work _ hw₀
  have hwf : ∀ r ∈ rs, r.WellFormed userparse := by
    rw [hrs]
    cases ht : data₀.taken found with
    | none => exact hrec.wellFormed
    | some rs' =>
        refine hfound rs' ?_
        unfold ListenDetail.taken at ht
        split at ht
        next => exact ht
        next => cases ht
  obtain ⟨d, packet, heq, hcase⟩ :=
    openFile_records env hst hfp hfd hv hfile hwf
  have hnum : data.work.or env.detail = some (fileOf rs) →
      data₀.unread records + ((data₀.taken found).getD []).length
        = rs.length := by
    intro hf
    rw [hw] at hf
    cases hw₀ : data₀.work with
    | none =>
        rw [hw₀, Option.none_or, henv] at hf
        obtain ⟨rs', hrs', -⟩ := Option.map_eq_some_iff.mp hf
        rw [ListenDetail.unread_work_none hw₀, hrs, htakes, hw₀, hrs']
        exact Nat.zero_add _
    | some f =>
        rw [ListenDetail.unread_closed hw₀ hfp₀, hrs, htakes, hw₀]
        rfl
  refine ⟨d, packet, heq, ?_⟩
  rw [← hrs]
  rcases hcase with ⟨hnone, hd⟩ | ⟨hsome, hd | ⟨hnil, hd⟩ | ⟨hk, hd⟩⟩
  · -- no file is there
    refine ⟨hd.onRecords (Or.inl rfl) hwf, Or.inl ⟨hd.vps.trans hv₀.symm,
      ?_, fun e => ?_⟩⟩
    · rw [hw, Option.or_eq_none_iff] at hnone
      have hf : found = none := by
        rw [henv] at hnone
        exact Option.map_eq_none_iff.mp hnone.2
      rw [ListenDetail.unread_work_none hd.work,
        ListenDetail.unread_work_none hnone.1, htakes, hf]
      simp
    · rw [hd.state] at e
      cases e
  · refine ⟨hd.onRecords (Or.inr rfl) hwf, Or.inl ⟨hd.vps.trans hv₀.symm,
      ?_, fun e => ?_⟩⟩
    · rw [ListenDetail.unread_closed hd.work hd.fp, hnum hsome]
    · rw [hd.state] at e
      cases e
  · refine ⟨hd.onRecords (Or.inl rfl) hwf, Or.inl ⟨hd.vps.trans hv₀.symm,
      ?_, fun e => ?_⟩⟩
    · rw [ListenDetail.unread_work_none hd.work, hnum hsome, hnil]
      rfl
    · rw [hd.state] at e
      cases e
  · refine ⟨hd.onRecords hk hwf, Or.inr ⟨?_, Or.inl ⟨hv₀, ?_, ?_⟩⟩⟩
    · rcases hd.2.2.2 with e | e <;> rw [e] <;> exact nofun
    · rw [hd.1]
      exact (hwf _ (List.getElem_mem hk)).pairs
    · rw [ListenDetail.unread_at hd.2.2.1 hd.2.1 hk, hnum hsome]
      omega

/-- A call with a record at hand makes a request for it, goes on to the next
one, or is through with the file. -/
theorem detailRecv_running {fp : DetailStream}
    (hrec : data.OnRecords userparse records) (hsig : data.signal = false)
    (hfp : data.fp = some fp) :
    ∃ d packet, detailRecv userparse env data = .ok (d, packet)
      ∧ d.OnRecords userparse records
      ∧ PollMoves data (data.unread records) 0 d (d.unread records) := by
  obtain ⟨hw, k, hk, hfp', hv⟩ := hrec.stream fp hfp
  have hvne : data.vps ≠ [] := by
    rw [hv]
    exact (hrec.wellFormed _ (List.getElem_mem hk)).pairs
  rw [hfp'] at hfp
  have hun := ListenDetail.unread_at hw hfp hk
  -- a request is made for it again
  have hagain : ∃ d packet, allocPacket env { data with
        state := .queued } = .ok (d, packet)
      ∧ d.OnRecords userparse records
      ∧ PollMoves data (data.unread records) 0 d (d.unread records) := by
    obtain ⟨d, packet, heq, hd⟩ := allocPacket_holds env
      { data with state := .queued } rfl hvne hfp
    rw [show ({ data with state := .queued } : ListenDetail).vps
        = records[k].pairs userparse from hv,
      show ({ data with state := .queued } : ListenDetail).work
        = some (fileOf records) from hw] at hd
    refine ⟨d, packet, heq, hd.onRecords hk hrec.wellFormed,
      Or.inl ⟨hd.1.trans hv.symm, ?_, fun e => ?_⟩⟩
    · rw [ListenDetail.unread_at hd.2.2.1 hd.2.1 hk, hun]
      rfl
    · rcases hd.2.2.2 with e' | e' <;> rw [e'] at e <;> cases e
  rcases hrec.good.state with hst | hst | hst | hst | hst
  · have := hrec.good.unopened hst
    rw [hfp] at this
    cases this
  · exact absurd hst hrec.header
  · by_cases hnow : env.now < data.running + data.retryInterval
    · refine ⟨data, none, ?_, hrec, Or.inl ⟨rfl, rfl, id⟩⟩
      unfold detailRecv
      rw [if_neg (by simp [hsig]), hst]
      exact if_pos hnow
    · have heq : detailRecv userparse env data
          = allocPacket env { data with state := .queued } := by
        unfold detailRecv
        rw [if_neg (by simp [hsig]), hst]
        exact if_neg hnow
      rw [heq]
      exact hagain
  · have heq : detailRecv userparse env data
        = allocPacket env { data with state := .queued } := by
      unfold detailRecv
      rw [if_neg (by simp [hsig]), hst]
    rw [heq]
    exact hagain
  · -- on to the next one
    have heq : detailRecv userparse env data
        = atHeader userparse env { data with
          vps := [], state := .header } (streamAt records (k + 1)) := by
      unfold detailRecv
      rw [if_neg (by simp [hsig])]
      simp only [hst, doHeader, hfp]
    rw [heq]
    obtain ⟨d, packet, hat, hcase⟩ := atHeader_records env
      { data with vps := [], state := .header } hk
      hrec.wellFormed hfp rfl rfl
    refine ⟨d, packet, hat, ?_⟩
    rcases hcase with ⟨hend, hd⟩ | ⟨hk', hd⟩
    · refine ⟨hd.onRecords (Or.inl rfl) hrec.wellFormed,
        Or.inr ⟨?_, Or.inr ⟨hst, hvne, rfl,
          Or.inr ⟨hd.vps, ?_, ListenDetail.unread_work_none hd.work⟩⟩⟩⟩
      · intro e
        rw [hd.state] at e
        cases e
      · rw [hun]
        omega
    · rw [show ({ data with vps := [], state := .header }
          : ListenDetail).work = some (fileOf records) from hw] at hd
      refine ⟨hd.onRecords hk' hrec.wellFormed,
        Or.inr ⟨?_, Or.inr ⟨hst, hvne, rfl, Or.inl ⟨?_, ?_⟩⟩⟩⟩
      · intro e
        rcases hd.2.2.2 with e' | e' <;> rw [e'] at e <;> cases e
      · rw [hd.1]
        exact (hrec.wellFormed _ (List.getElem_mem hk')).pairs
      · rw [ListenDetail.unread_at hd.2.2.1 hd.2.1 hk', hun]
        omega

variable (env) in
/-- A call of `detail_recv` on files of records. -/
theorem detailRecv_moves {found : Option (List DetailRecord)}
    (hrec : data.OnRecords userparse records)
    (henv : env.detail = found.map fileOf)
    (hfound : ∀ rs, found = some rs → ∀ r ∈ rs, r.WellFormed userparse) :
    ∃ d packet, detailRecv userparse env data = .ok (d, packet)
      ∧ d.OnRecords userparse ((data.taken found).getD records)
      ∧ PollMoves data (data.unread records)
        ((data.taken found).getD []).length d
        (d.unread ((data.taken found).getD records)) := by
  -- a call that takes no file
  have hstay (ht : data.takes = false) : data.taken found = none := by
    unfold ListenDetail.taken
    rw [ht]
    rfl
  by_cases hsig : data.signal = true
  · have ht := hstay (by unfold ListenDetail.takes; rw [hsig]; rfl)
    refine ⟨data, none, ?_, ?_, ?_⟩
    · unfold detailRecv
      rw [if_pos hsig]
    · rw [ht]
      exact hrec
    · rw [ht]
      exact Or.inl ⟨rfl, rfl, id⟩
  · have hsig' : data.signal = false := by simpa using hsig
    rcases Option.eq_none_or_eq_some data.fp with hfp | ⟨fp, hfp⟩
    · -- no file is open
      obtain ⟨hfd, hv⟩ := hrec.good.closed hfp
      rcases hrec.good.state with hst | hst | hst | hst | hst
      · have htk : data.taken found
            = if data.work.isNone then found else none := by
          unfold ListenDetail.taken ListenDetail.takes
          rw [hsig', hfp, hst]
          simp
        have heq : detailRecv userparse env data
            = openFile userparse env data := by
          unfold detailRecv
          rw [if_neg hsig, hst]
        rw [heq]
        exact openFile_moves env data hrec henv hfound htk hfp hst hfp hfd hv
          rfl
      · exact absurd hst hrec.header
      · exact absurd hfp (hrec.running hst)
      · -- there is nothing to send again
        have hw := hrec.idle hfp hst
        have ht := hstay (by
          unfold ListenDetail.takes
          rw [hst]
          simp)
        have heq : detailRecv userparse env data = .ok
            (({ data with tries := data.tries + 1, state := .header }
              : ListenDetail).cleaned, none) := by
          unfold detailRecv allocPacket
          simp only [hsig', hst, hv, hfp, detailCleanup_eq, ne_eq,
            not_true_eq_false, Bool.false_eq_true, if_false, if_true]
        have hd : (({ data with tries := data.tries + 1, state := .header }
            : ListenDetail).cleaned).Closed none :=
          ⟨rfl, hv, Int.negSucc_lt_zero 0, rfl, rfl⟩
        refine ⟨_, none, heq, ?_, ?_⟩
        · rw [ht]
          exact hd.onRecords (Or.inl rfl) hrec.wellFormed
        · rw [ht]
          refine Or.inl ⟨hd.vps.trans hv.symm, ?_, fun e => ?_⟩
          · rw [ListenDetail.unread_work_none hd.work,
              ListenDetail.unread_work_none hw]
            rfl
          · rw [hd.state] at e
            cases e
      · have htk : data.taken found
            = if data.work.isNone then found else none := by
          unfold ListenDetail.taken ListenDetail.takes
          rw [hsig', hfp, hst]
          simp
        have heq : detailRecv userparse env data
            = openFile userparse env { data with
              vps := [], tries := 0, state := .unopened } := by
          unfold detailRecv
          rw [if_neg hsig]
          simp only [hst, doHeader, hfp]
        rw [heq]
        exact openFile_moves env data hrec henv hfound htk hfp rfl hfp hfd
          rfl rfl
    · have ht := hstay (by
        unfold ListenDetail.takes
        rw [hfp]
        simp)
      rw [ht]
      exact detailRecv_running hrec hsig' hfp

-- ======== packets

/-- The pairs are those that are held, with a delay and a counter. -/
def Carried (vps : List ValuePair) (packet : RadiusPacket) : Prop :=
  ∃ late tries : UInt32, packet.vps
    = pairUpdate (pairUpdate vps pwAcctDelayTime (· + late))
        pwPacketTransmitCounter fun _ => tries

/-- What a call gives: a packet of the pairs that it leaves. -/
def Gives (result : Except DetailFault
    (ListenDetail × Option RadiusPacket)) : Prop :=
  ∀ d p, result = .ok (d, some p) → d.vps ≠ [] ∧ Carried d.vps p

theorem Gives.none (d : ListenDetail) : Gives (.ok (d, none)) := by
  intro d' p h
  cases h

theorem Gives.error (e : DetailFault) : Gives (.error e) := by
  intro d p h
  cases h

theorem Gives.bind {α : Type} (x : Except DetailFault α)
    {f : α → Except DetailFault (ListenDetail × Option RadiusPacket)}
    (h : ∀ a, Gives (f a)) : Gives (x >>= f) := by
  cases x with
  | error e => exact Gives.error e
  | ok a => exact h a

theorem detailCleanup_gives (data : ListenDetail) :
    Gives (detailCleanup data) := by
  unfold detailCleanup
  apply Gives.bind
  intro _
  exact Gives.none _

variable (env) in
theorem detailPacket_carried (data : ListenDetail) :
    (detailPacket env data).2.vps = data.vps
      ∧ Carried data.vps (detailPacket env data).1 := by
  unfold detailPacket Carried
  exact ⟨rfl, _, _, rfl⟩

variable (env) in
theorem allocPacket_gives (data : ListenDetail) :
    Gives (allocPacket env data) := by
  unfold allocPacket
  simp only
  split
  next => exact detailCleanup_gives _
  next =>
    split
    next =>
      cases data.fp with
      | none => exact detailCleanup_gives _
      | some fp =>
          simp only
          split
          next => exact detailCleanup_gives _
          next => exact Gives.none _
    next hv =>
      split
      next => exact Gives.none _
      next =>
        obtain ⟨hvps, hc⟩ := detailPacket_carried env
          { data with tries := data.tries + 1 }
        generalize detailPacket env { data with tries := data.tries + 1 } = q
          at hvps hc ⊢
        obtain ⟨packet, d⟩ := q
        rw [← hvps] at hc
        intro d' p h
        cases h
        exact ⟨fun e => hv (hvps.symm.trans e), hc⟩

variable (userparse env)

theorem readRecord_gives (data : ListenDetail) :
    Gives (readRecord userparse env data) := by
  unfold readRecord
  apply Gives.bind
  rintro ⟨how, d⟩
  have hrest : Gives (if (d.fp.map (·.ferror)) = some true then
      detailCleanup d else allocPacket env { d with
        tries := 0, packets := d.packets + 1 }) := by
    split
    next => exact detailCleanup_gives _
    next => exact allocPacket_gives env _
  cases how with
  | malformed => exact detailCleanup_gives _
  | blank => exact hrest
  | exhausted => exact hrest

theorem atHeader_gives (data : ListenDetail) (fp : DetailStream) :
    Gives (atHeader userparse env data fp) := by
  unfold atHeader
  simp only
  split
  next => exact detailCleanup_gives _
  next =>
    split
    next => exact detailCleanup_gives _
    next => exact readRecord_gives userparse env _

theorem openFile_gives (data : ListenDetail) :
    Gives (openFile userparse env data) := by
  unfold openFile
  apply Gives.bind
  intro _
  apply Gives.bind
  intro o
  cases o with
  | none => exact Gives.none _
  | some q =>
      obtain ⟨d, file⟩ := q
      apply Gives.bind
      intro _
      apply Gives.bind
      intro _
      simp only
      split
      next => exact Gives.none _
      next => exact atHeader_gives userparse env _ _

theorem doHeader_gives (data : ListenDetail) :
    Gives (doHeader userparse env data) := by
  unfold doHeader
  cases data.fp with
  | none => exact openFile_gives userparse env _
  | some fp => exact atHeader_gives userparse env _ _

theorem lockAgain_gives (data : ListenDetail) :
    Gives (lockAgain userparse env data) := by
  unfold lockAgain
  split
  next => exact Gives.none _
  next =>
    cases data.work with
    | none => exact Gives.error _
    | some file => exact atHeader_gives userparse env _ _

/-- A packet that `detail_recv` gives is made of the pairs that the reader
then holds. -/
theorem detailRecv_gives (data : ListenDetail) :
    Gives (detailRecv userparse env data) := by
  unfold detailRecv
  split
  next => exact Gives.none _
  next =>
    cases data.state with
    | unopened => exact openFile_gives userparse env _
    | unlocked => exact lockAgain_gives userparse env _
    | header => exact doHeader_gives userparse env _
    | reading =>
        cases data.fp with
        | none => exact allocPacket_gives env _
        | some fp =>
            simp only
            split
            next => exact allocPacket_gives env _
            next => exact readRecord_gives userparse env _
    | queued => exact allocPacket_gives env _
    | running =>
        simp only
        split
        next => exact Gives.none _
        next => exact allocPacket_gives env _
    | noReply => exact allocPacket_gives env _
    | replied => exact doHeader_gives userparse env _

end file

end WinRadius
