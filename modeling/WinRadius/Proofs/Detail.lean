/-
The detail file reader, call by call: an assertion of detail.cpp fails
exactly when the reading of a record is cut short, and a buffer overflows
exactly when a line of a record has too long an operator.

# What goes wrong in a record

The reader takes the lines that follow its position: it looks for a
header, and then collects pairs up to a blank line. `headerFault` and
`bodyFault` say what these lines do. They may end (at the end of the file,
or because the rest cannot be read) after some line of a record has given a
pair, and before a blank line or a line that is not terminated; and one of
them may have an operator of eight characters or more before that.

# What a call leaves

`Good` is what holds of a listener between two calls: without a stream
there are no pairs, and the reader is where it was closed or where a
completed request has put it. `Ends fails r` says of a result that it is a
fault that `fails` holds of, and where there is none leaves a good listener.
-/
import WinRadius.Lib.Run
import WinRadius.Model.Detail

namespace WinRadius

open Lib

-- ======== lines

/-- What `fgets` gives, one call after the other. -/
def DetailStream.lines : Nat → DetailStream → List (List UInt8)
  | 0, _ => []
  | fuel + 1, fp =>
      match fp.fgets with
      | (some line, fp) => line :: DetailStream.lines fuel fp
      | (none, _) => []

/-- The bytes that are left to be read. -/
def DetailStream.left (fp : DetailStream) : Nat :=
  fp.file.bytes.length - fp.pos

/-- The second word of a line has eight characters or more; a first word of
more than 255 goes on as the second. -/
def longOperator (buffer : List UInt8) : Bool :=
  match scanWord 255 (cString buffer) with
  | .found _ rest =>
      8 ≤ ((rest.dropWhile isSpace).takeWhile (!isSpace ·)).length
  | .eof | .mismatch => false

/-- Such a word does not fit into `op`. -/
theorem scanPair_error_iff (buffer : List UInt8) (f : DetailFault) :
    scanPair buffer = .error f
      ↔ longOperator buffer = true ∧ f = .overflow := by
  unfold scanPair longOperator
  cases scanWord 255 (cString buffer) with
  | eof => exact iff_of_false nofun (fun h => nomatch h.1)
  | mismatch => exact iff_of_false nofun (fun h => nomatch h.1)
  | found key rest =>
      unfold scanWord
      simp only
      by_cases hnil : rest.dropWhile isSpace = []
      · rw [if_pos hnil, hnil]
        exact iff_of_false nofun (fun h => nomatch h.1)
      · simp only [if_neg hnil, List.length_take, decide_eq_true_eq]
        by_cases hlong :
            8 ≤ ((rest.dropWhile isSpace).takeWhile (!isSpace ·)).length
        · rw [if_pos (Nat.min_eq_left hlong), Except.error.injEq]
          exact ⟨fun h => ⟨hlong, h.symm⟩, fun h => h.2.symm⟩
        · rw [if_neg (by omega)]
          refine iff_of_false ?_ fun h => hlong h.1
          split <;> exact nofun

/-- Nor does anything else go wrong with a line. -/
theorem detailLine_fault_iff (userparse : List UInt8 → Bool × List ValuePair)
    (buffer : List UInt8) (f : DetailFault) :
    detailLine userparse buffer = .fault f
      ↔ longOperator buffer = true ∧ f = .overflow := by
  rw [← scanPair_error_iff]
  unfold detailLine
  cases scanPair buffer with
  | error g =>
      rw [DetailLine.fault.injEq, Except.error.injEq]
  | ok found =>
      refine iff_of_false ?_ nofun
      cases found with
      | none => exact nofun
      | some words =>
          dsimp only
          repeat' split
          all_goals exact nofun

section fault

variable (userparse : List UInt8 → Bool × List ValuePair)

/-- The line gives a pair. -/
def yields (buffer : List UInt8) : Bool :=
  match detailLine userparse buffer with
  | .fault _ | .skip | .clientIp _ => false
  | .timestamp _ | .pairs _ _ => true

/-- What goes wrong in the lines of a record, by whether it has given a
pair. -/
def bodyFault : Bool → List (List UInt8) → Option DetailFault
  | given, [] => if given = true then some .assertion else none
  | given, line :: lines =>
      if hasNewline line = false ∨ line.head? = some 10 then none
      else if longOperator line = true then some .overflow
      else bodyFault (given || yields userparse line) lines

/-- What goes wrong in the lines, from where a header is looked for on. -/
def headerFault : List (List UInt8) → Option DetailFault
  | [] => none
  | line :: lines =>
      if hasNewline line = false then none
      else if scanHeader line ≠ 0 then bodyFault userparse false lines
      else headerFault lines

/-- The record that follows the position fails. -/
def DetailStream.Fails (fp : DetailStream) (f : DetailFault) : Prop :=
  headerFault userparse (DetailStream.lines (fp.left + 1) fp) = some f

end fault

namespace DetailStream

variable {fp fp' : DetailStream}

theorem lineOf_length_le (n : Nat) (bs : List UInt8) :
    (lineOf n bs).length ≤ bs.length := by
  induction n generalizing bs with
  | zero => exact Nat.zero_le _
  | succ n ih =>
      cases bs with
      | nil => exact Nat.le_refl _
      | cons b bs =>
          unfold lineOf
          split
          next => simp
          next =>
            have := ih bs
            simp only [List.length_cons]
            omega

/-- A line that is neither full nor terminated is all there is. -/
theorem lineOf_eq_self (n : Nat) (bs : List UInt8)
    (hfull : (lineOf n bs).length ≠ n)
    (hlast : (lineOf n bs).getLast? ≠ some 10) : lineOf n bs = bs := by
  induction n generalizing bs with
  | zero => exact absurd rfl hfull
  | succ n ih =>
      cases bs with
      | nil => rfl
      | cons b bs =>
          unfold lineOf at hfull hlast ⊢
          split at hfull
          next hb =>
            rw [if_pos hb, hb] at hlast
            exact absurd rfl hlast
          next hb =>
            rw [if_neg hb] at hlast ⊢
            congr 1
            refine ih bs (fun e => hfull ?_) fun e => hlast ?_
            · rw [List.length_cons, e]
            · rw [List.getLast?_cons, e]
              rfl

/-- A stream that is fit to be read: no error, and at the end if it says
so. -/
structure Fit (fp : DetailStream) : Prop where
  ferror : fp.ferror = false
  feof : fp.feof = true → fp.left = 0

/-- What a read does. -/
theorem fgets_cases (h : fp.Fit) :
    (∃ line fp', fp.fgets = (some line, fp') ∧ fp'.Fit
      ∧ fp'.left < fp.left)
    ∨ ∃ fp', fp.fgets = (none, fp') := by
  obtain ⟨line, hline⟩ : ∃ l, l = lineOf 2047 (fp.file.bytes.drop fp.pos) :=
    ⟨_, rfl⟩
  have hle := lineOf_length_le 2047 (fp.file.bytes.drop fp.pos)
  rw [← hline, List.length_drop] at hle
  by_cases hfull : line.length = 2047 ∨ line.getLast? = some 10
  · left
    have hpos : 0 < line.length := by
      rcases hfull with h | h
      · omega
      · cases line with
        | nil => cases h
        | cons => exact Nat.succ_pos _
    refine ⟨line, { fp with pos := fp.pos + line.length }, ?_, ⟨h.ferror, ?_⟩,
      ?_⟩
    · unfold fgets
      rw [← hline]
      simp only [if_pos hfull]
    · intro he
      have := h.feof he
      unfold left at *
      simp only at this ⊢
      omega
    · unfold left
      simp only
      omega
  · by_cases hlost : 0 < fp.file.lost
    · right
      unfold fgets
      rw [← hline]
      simp only [if_neg hfull, if_pos hlost]
      exact ⟨_, rfl⟩
    · by_cases hnil : line = []
      · right
        unfold fgets
        rw [← hline]
        simp only [if_neg hfull, if_neg hlost, if_pos hnil]
        exact ⟨_, rfl⟩
      · left
        have hpos : 0 < line.length := List.length_pos_iff.mpr hnil
        refine ⟨line, { fp with pos := fp.pos + line.length, feof := true },
          ?_, ⟨h.ferror, fun _ => ?_⟩, ?_⟩
        · unfold fgets
          rw [← hline]
          simp only [if_neg hfull, if_neg hlost, if_neg hnil]
        · -- the line ended where the bytes do
          have hall : line = fp.file.bytes.drop fp.pos := by
            rw [hline] at hfull ⊢
            exact lineOf_eq_self _ _ (fun e => hfull (Or.inl e))
              (fun e => hfull (Or.inr e))
          have := congrArg List.length hall
          rw [List.length_drop] at this
          unfold left
          simp only
          omega
        · unfold left
          simp only
          omega

end DetailStream

section reader

variable {userparse : List UInt8 → Bool × List ValuePair} {env : DetailEnv}
variable {data : ListenDetail}

-- ======== the loop

/-- What goes wrong for a reader that is in a record, or before one. -/
def faultFrom (userparse : List UInt8 → Bool × List ValuePair)
    (state : DetailState) (given : Bool) (lines : List (List UInt8)) :
    Option DetailFault :=
  if state = .reading then bodyFault userparse given lines
  else headerFault userparse lines

/-- How the loop over the lines can end, by what goes wrong in them. -/
def ReadEnds (fault : Option DetailFault) (data : ListenDetail)
    (how : DetailRead) (data' : ListenDetail) : Prop :=
  data'.fd = data.fd ∧ ∃ fp, data'.fp = some fp
    ∧ ((how = .malformed ∧ data'.vps = [] ∧ fault = none)
      ∨ (how = .blank ∧ data'.state = .queued ∧ fp.Fit ∧ fault = none)
      ∨ (how = .exhausted ∧ data'.state ≠ .queued
        ∧ fault = if data'.vps = [] then none else some .assertion))

/-- The pairs so far. -/
def given (vps others : List ValuePair) : Bool := !(vps ++ others).isEmpty

theorem given_append (vps others : List ValuePair) (vp : ValuePair) :
    given (vps ++ [vp]) others = true := by
  unfold given
  simp

variable (userparse env) in
/-- The loop comes to an end. It leaves pairs at the end of the lines
exactly when these are cut short, and fails where a line does. -/
theorem readLines_spec (fuel : Nat) : ∀ (data : ListenDetail)
    (fp : DetailStream) (vps others : List ValuePair),
    data.fp = some fp → fp.Fit → fp.left < fuel →
    (data.state = .reading
      ∨ data.state = .header ∧ vps = [] ∧ others = []) →
    (∃ how data', readLines userparse env fuel data vps others
        = .ok (how, data')
      ∧ ReadEnds (faultFrom userparse data.state (given vps others)
        (DetailStream.lines fuel fp)) data how data')
    ∨ ∃ f, faultFrom userparse data.state (given vps others)
        (DetailStream.lines fuel fp) = some f
      ∧ readLines userparse env fuel data vps others = .error f := by
  induction fuel with
  | zero =>
      intro data fp vps others _ _ hf
      omega
  | succ fuel ih =>
      intro data fp vps others hfp hfit hf hst
      rcases DetailStream.fgets_cases hfit with
        ⟨line, fp', hget, hfit', hleft⟩ | ⟨fp', hget⟩
      · have hlines : DetailStream.lines (fuel + 1) fp
            = line :: DetailStream.lines fuel fp' := by
          rw [DetailStream.lines, hget]
        have hfuel : fp'.left < fuel := by omega
        unfold readLines
        simp only [hfp, hget]
        by_cases hnl : hasNewline line = false
        · -- the line is not terminated
          rw [if_pos hnl]
          refine Or.inl ⟨_, _, rfl, rfl, fp', rfl, Or.inl ⟨rfl, rfl, ?_⟩⟩
          rw [hlines]
          unfold faultFrom bodyFault headerFault
          rw [if_pos (Or.inl hnl), if_pos hnl, ite_self]
        · rw [if_neg hnl]
          rcases hst with hst | ⟨hst, rfl, rfl⟩
          · by_cases hblank : line.head? = some 10
            · rw [if_pos ⟨hst, hblank⟩]
              refine Or.inl ⟨_, _, rfl, rfl, fp', rfl,
                Or.inr (Or.inl ⟨rfl, rfl, hfit', ?_⟩)⟩
              rw [hlines]
              unfold faultFrom bodyFault
              rw [if_pos hst, if_pos (Or.inr hblank)]
            · -- a line of the record
              have hfault : faultFrom userparse data.state (given vps others)
                  (DetailStream.lines (fuel + 1) fp)
                  = if longOperator line = true then some .overflow
                    else faultFrom userparse data.state
                      (given vps others || yields userparse line)
                      (DetailStream.lines fuel fp') := by
                unfold faultFrom
                rw [hlines, hst, if_pos rfl, if_pos rfl, bodyFault,
                  if_neg (not_or.mpr ⟨hnl, hblank⟩)]
              rw [if_neg (fun h => hblank h.2),
                if_neg (by rw [hst]; exact nofun), hfault]
              by_cases hlong : longOperator line = true
              · rw [if_pos hlong,
                  (detailLine_fault_iff userparse line _).mpr ⟨hlong, rfl⟩]
                exact Or.inr ⟨_, rfl, rfl⟩
              rw [if_neg hlong]
              unfold yields
              cases hline : detailLine userparse line with
              | fault f =>
                  exact absurd
                    ((detailLine_fault_iff userparse line f).mp hline).1 hlong
              | skip =>
                  dsimp only
                  rw [Bool.or_false]
                  exact ih { data with fp := some fp', offset := fp'.pos }
                    fp' vps others rfl hfit' hfuel (Or.inl hst)
              | clientIp value =>
                  dsimp only
                  rw [Bool.or_false]
                  exact ih { data with
                    fp := some fp', offset := fp'.pos
                    clientIp := (env.ipHton value).getD
                      { data.clientIp with af := afInet } }
                    fp' vps others rfl hfit' hfuel (Or.inl hst)
              | timestamp value =>
                  dsimp only
                  rw [Bool.or_true,
                    ← given_append vps [] (originalTimestamp value)]
                  exact ih { data with
                    fp := some fp', offset := fp'.pos, timestamp := value }
                    fp' _ [] rfl hfit' hfuel (Or.inl hst)
              | pairs vp vps' =>
                  dsimp only
                  rw [Bool.or_true, ← given_append vps vps' vp]
                  exact ih { data with fp := some fp', offset := fp'.pos }
                    fp' _ vps' rfl hfit' hfuel (Or.inl hst)
          · -- a line before the record
            have hfault : faultFrom userparse data.state (given [] [])
                (DetailStream.lines (fuel + 1) fp)
                = if scanHeader line ≠ 0 then
                    faultFrom userparse .reading (given [] [])
                      (DetailStream.lines fuel fp')
                  else faultFrom userparse .header (given [] [])
                    (DetailStream.lines fuel fp') := by
              have hne : ¬ DetailState.header = .reading := nofun
              unfold faultFrom
              rw [hlines, hst, if_neg hne, if_pos rfl, if_neg hne, headerFault,
                if_neg hnl]
              rfl
            rw [if_neg (by rw [hst]; exact fun h => nomatch h.1),
              if_pos hst, hfault]
            by_cases hh : scanHeader line ≠ 0
            · rw [if_pos hh, if_pos hh]
              exact ih { data with
                fp := some fp', offset := fp'.pos, state := .reading }
                fp' [] [] rfl hfit' hfuel (Or.inl rfl)
            · rw [if_neg hh, if_neg hh]
              exact ih { data with
                fp := some fp', offset := fp'.pos, state := .header }
                fp' [] [] rfl hfit' hfuel (Or.inr ⟨rfl, rfl, rfl⟩)
      · -- no line is left
        have hlines : DetailStream.lines (fuel + 1) fp = [] := by
          rw [DetailStream.lines, hget]
        unfold readLines
        simp only [hfp, hget]
        refine Or.inl ⟨_, _, rfl, rfl, fp', rfl,
          Or.inr (Or.inr ⟨rfl, ?_, ?_⟩)⟩
        · rcases hst with hst | ⟨hst, -⟩ <;> (rw [hst]; exact nofun)
        · rw [hlines]
          unfold faultFrom
          rcases hst with hst | ⟨hst, rfl, rfl⟩
          · rw [if_pos hst, bodyFault]
            unfold given
            by_cases hv : vps ++ others = []
            · simp [hv]
            · simp [hv, List.isEmpty_eq_false_iff.mpr hv]
          · rw [hst, if_neg nofun, headerFault]
            simp

-- ======== one call

/-- What holds of the reader between two calls. -/
structure ListenDetail.Good (data : ListenDetail) : Prop where
  state : data.state = .unopened ∨ data.state = .header
    ∨ data.state = .running ∨ data.state = .noReply ∨ data.state = .replied
  closed : data.fp = none → data.fd < 0 ∧ data.vps = []
  unopened : data.state = .unopened → data.fp = none
  header : data.state = .header → data.fp ≠ none ∧ data.vps = []
  fit : ∀ fp, data.fp = some fp → fp.Fit

/-- A call ends in one of the faults, or returns where there is none. -/
def Ends (fails : DetailFault → Prop)
    (r : Except DetailFault (ListenDetail × Option RadiusPacket)) : Prop :=
  (∃ f, fails f ∧ r = .error f)
    ∨ ((¬ ∃ f, fails f) ∧ ∃ data packet, r = .ok (data, packet) ∧ data.Good)

theorem Ends.congr {fails fails' : DetailFault → Prop}
    {r : Except DetailFault (ListenDetail × Option RadiusPacket)}
    (h : Ends fails r) (hf : ∀ f, fails f ↔ fails' f) : Ends fails' r := by
  rcases h with ⟨f, h, hr⟩ | ⟨h, hr⟩
  · exact Or.inl ⟨f, (hf f).mp h, hr⟩
  · refine Or.inr ⟨?_, hr⟩
    rintro ⟨f, h'⟩
    exact h ⟨f, (hf f).mpr h'⟩

/-- A call that returns. -/
theorem Ends.ok {data : ListenDetail} {packet : Option RadiusPacket}
    (h : data.Good) : Ends (fun _ => False) (.ok (data, packet)) :=
  Or.inr ⟨fun ⟨_, h⟩ => h, data, packet, rfl, h⟩

/-- The reader once the work file is removed. -/
def ListenDetail.cleaned (data : ListenDetail) : ListenDetail :=
  { data with work := none, fp := none, fd := -1, state := .unopened }

theorem detailCleanup_eq (data : ListenDetail) :
    detailCleanup data
      = if data.vps = [] then .ok (data.cleaned, none)
        else .error .assertion := by
  unfold detailCleanup radAssert ListenDetail.cleaned
  by_cases h : data.vps = []
  · simp only [h, if_true, ok_bind]
  · simp only [h, if_false, error_bind]

/-- Cleaning up wants the pairs to be gone. -/
theorem detailCleanup_ends (data : ListenDetail) :
    Ends (fun f => data.vps ≠ [] ∧ f = .assertion)
      (detailCleanup data) := by
  rw [detailCleanup_eq]
  by_cases h : data.vps = []
  · rw [if_pos h]
    refine Or.inr ⟨fun ⟨_, hv, _⟩ => hv h, data.cleaned, none, rfl, ?_⟩
    exact ⟨Or.inl rfl, fun _ => ⟨Int.negSucc_lt_zero 0, h⟩, fun _ => rfl,
      nofun, nofun⟩
  · rw [if_neg h]
    exact Or.inl ⟨_, ⟨h, rfl⟩, rfl⟩

/-- `alloc_packet` in a state that is not `STATE_QUEUED`. -/
theorem allocPacket_truncated (data : ListenDetail)
    (hst : data.state ≠ .queued) :
    Ends (fun f => data.vps ≠ [] ∧ f = .assertion)
      (allocPacket env data) := by
  unfold allocPacket
  simp only [if_pos hst]
  exact detailCleanup_ends { data with tries := data.tries + 1 }

/-- `alloc_packet` with a record, or without one. -/
theorem allocPacket_ends (data : ListenDetail)
    (hst : data.state = .queued)
    (hclosed : data.fp = none → data.fd < 0 ∧ data.vps = [])
    (hfit : ∀ fp, data.fp = some fp → fp.Fit) :
    Ends (fun _ => False) (allocPacket env data) := by
  unfold allocPacket
  simp only [if_neg (not_not.mpr hst)]
  by_cases hv : data.vps = []
  · simp only [if_pos hv]
    cases hfp : data.fp with
    | none =>
        exact (detailCleanup_ends _).congr
          fun _ => iff_false_intro fun h => h.1 hv
    | some fp =>
        by_cases he : fp.feof = true
        · simp only [if_pos he]
          exact (detailCleanup_ends _).congr
            fun _ => iff_false_intro fun h => h.1 hv
        · simp only [if_neg he]
          exact .ok ⟨Or.inr (Or.inl rfl), nofun, nofun,
            fun _ => ⟨nofun, hv⟩, fun q hq => hfit q (hfp ▸ hq)⟩
  · simp only [if_neg hv]
    have hopen : data.fp ≠ none := fun e => hv (hclosed e).2
    split
    next =>
      exact .ok ⟨Or.inr (Or.inr (Or.inr (Or.inl rfl))),
        fun e => absurd e hopen, nofun, nofun, hfit⟩
    next =>
      exact .ok ⟨Or.inr (Or.inr (Or.inl rfl)), fun e => absurd e hopen,
        nofun, nofun, hfit⟩

/-- Reading a record. -/
theorem readRecord_ends {fp : DetailStream} (hfp : data.fp = some fp)
    (hfit : fp.Fit) (hst : data.state = .header) (hv : data.vps = []) :
    Ends (fp.Fails userparse) (readRecord userparse env data) := by
  obtain ⟨fault, hfault⟩ : ∃ o, o = faultFrom userparse data.state
      (given [] []) (fp.lines (fp.left + 1)) := ⟨_, rfl⟩
  have hfails (f : DetailFault) : fault = some f ↔ fp.Fails userparse f := by
    rw [hfault, faultFrom, hst, if_neg nofun]
    rfl
  have hread := readLines_spec userparse env (fp.left + 1) data fp [] [] hfp
    hfit (Nat.lt_succ_self _) (Or.inr ⟨hst, rfl, rfl⟩)
  rw [← hfault] at hread
  refine Ends.congr ?_ hfails
  unfold readRecord
  simp only [hfp, hv]
  rw [show fp.file.bytes.length - fp.pos + 1 = fp.left + 1 from rfl]
  rcases hread with
    ⟨how, data', hread, -, fp', hfp', hcase⟩ | ⟨f, hf, hread⟩
  · rw [hread, ok_bind]
    rcases hcase with ⟨rfl, hv', rfl⟩ | ⟨rfl, hst', hfit', rfl⟩ |
      ⟨rfl, hst', hf⟩
    · exact (detailCleanup_ends data').congr
        fun _ => iff_of_false (fun h => h.1 hv') nofun
    · have hferr : ¬ (data'.fp.map (·.ferror)) = some true := by
        rw [hfp', Option.map_some, hfit'.ferror]
        simp
      simp only [if_neg hferr]
      refine (allocPacket_ends { data' with
        tries := 0, packets := data'.packets + 1 } hst' ?_ ?_).congr
        fun _ => iff_of_false id nofun
      · intro e
        cases hfp'.symm.trans e
      · intro q hq
        cases hfp'.symm.trans hq
        exact hfit'
    · have hcut (f : DetailFault) :
          data'.vps ≠ [] ∧ f = .assertion ↔ fault = some f := by
        rw [hf]
        split
        next he => exact iff_of_false (fun h => h.1 he) nofun
        next he =>
          rw [Option.some.injEq]
          exact ⟨fun h => h.2.symm, fun h => ⟨he, h.symm⟩⟩
      refine Ends.congr ?_ hcut
      by_cases hferr : (data'.fp.map (·.ferror)) = some true
      · simp only [if_pos hferr]
        exact detailCleanup_ends data'
      · simp only [if_neg hferr]
        exact allocPacket_truncated { data' with
          tries := 0, packets := data'.packets + 1 } hst'
  · rw [hread, error_bind]
    exact Or.inl ⟨f, hf, rfl⟩

/-- Where nothing is left, nothing goes wrong. -/
theorem not_fails_of_left {fp : DetailStream}
    (h : fp.file.bytes.length ≤ fp.pos) (f : DetailFault) :
    ¬ fp.Fails userparse f := by
  have hget : fp.fgets.1 = none := by
    unfold DetailStream.fgets
    rw [List.drop_eq_nil_of_le h]
    simp only [lineOf]
    split
    next hl => simp at hl
    next => split <;> rfl
  unfold DetailStream.Fails
  rw [DetailStream.lines]
  split
  next line fp' hl =>
    rw [hl] at hget
    cases hget
  next => exact nofun

/-- `do_header` with a stream. -/
theorem atHeader_ends {fp : DetailStream} (hfp : data.fp = some fp)
    (hfit : fp.Fit) (hst : data.state = .header) (hv : data.vps = []) :
    Ends (fp.Fails userparse) (atHeader userparse env data fp) := by
  unfold atHeader
  have hclean (h : fp.file.bytes.length ≤ fp.pos) :
      Ends (fp.Fails userparse) (detailCleanup { data with tries := 0 }) :=
    (detailCleanup_ends _).congr
      fun f => iff_of_false (fun h => h.1 hv) (not_fails_of_left h f)
  by_cases hsize : fp.pos = fp.file.size
  · simp only [if_pos hsize]
    refine hclean ?_
    unfold DetailFile.size at hsize
    omega
  · by_cases he : fp.feof = true
    · simp only [if_neg hsize, if_pos he]
      refine hclean ?_
      have := hfit.feof he
      unfold DetailStream.left at this
      omega
    · simp only [if_neg hsize, if_neg he]
      exact readRecord_ends hfp hfit hst hv

/-- The file that a call opens and locks. -/
def ListenDetail.Opens (data : ListenDetail) (env : DetailEnv)
    (fp : DetailStream) : Prop :=
  env.locked = true ∧ ∃ file, data.work.or env.detail = some file
    ∧ fp = { file := file }

/-- A stream at the start of a file. -/
theorem DetailStream.Fit.start (file : DetailFile) :
    DetailStream.Fit { file := file } := ⟨rfl, nofun⟩

/-- `open_file`. -/
theorem openFile_ends (data : ListenDetail)
    (hst : data.state = .unopened) (hfp : data.fp = none)
    (hfd : data.fd < 0) (hv : data.vps = []) :
    Ends (fun f => ∃ fp, data.Opens env fp ∧ fp.Fails userparse f)
      (openFile userparse env data) := by
  have hgood : data.Good := by
    refine ⟨Or.inl hst, fun _ => ⟨hfd, hv⟩, fun _ => hfp, fun h => ?_,
      fun fp h => ?_⟩
    · rw [hst] at h
      cases h
    · rw [hfp] at h
      cases h
  cases hfile : data.work.or env.detail with
  | none =>
      -- there is no file
      have heq : openFile userparse env data
          = .ok ({ data with delayTime := 1000000 }, none) := by
        unfold openFile detailOpen radAssert
        rw [if_pos hfd, if_pos hst, hfile]
        rfl
      rw [heq]
      refine (Ends.ok ?_).congr fun f => iff_of_false id ?_
      · exact ⟨hgood.state, hgood.closed, hgood.unopened, hgood.header,
          hgood.fit⟩
      · rintro ⟨fp, ⟨-, file, hf, -⟩, -⟩
        rw [hfile] at hf
        cases hf
  | some file =>
      by_cases hl : env.locked = false
      · obtain ⟨d, heq, hdfd, hdst, hdfp, hdv⟩ : ∃ d,
            openFile userparse env data = .ok (d, none) ∧ d.fd = -1
              ∧ d.state = .unopened ∧ d.fp = data.fp
              ∧ d.vps = data.vps := by
          unfold openFile detailOpen radAssert
          simp only [if_pos hfd, if_pos hst, hfile, if_pos hv, if_pos hfp,
            if_pos hl, ok_bind, if_true, Int.natCast_nonneg]
          exact ⟨_, rfl, rfl, rfl, rfl, rfl⟩
        rw [heq]
        have hd : d.Good := by
          refine ⟨Or.inl hdst, fun _ => ⟨?_, hdv.trans hv⟩,
            fun _ => hdfp.trans hfp, fun h => ?_, fun fp h => ?_⟩
          · rw [hdfd]
            exact Int.negSucc_lt_zero 0
          · rw [hdst] at h
            cases h
          · rw [hdfp, hfp] at h
            cases h
        refine (Ends.ok hd).congr fun f => iff_of_false id ?_
        rintro ⟨fp, ⟨hl', -⟩, -⟩
        rw [hl] at hl'
        cases hl'
      · obtain ⟨d, heq, hdfp, hdst, hdv⟩ : ∃ d, openFile userparse env data
            = atHeader userparse env d { file := file }
            ∧ d.fp = some { file := file } ∧ d.state = .header
            ∧ d.vps = [] := by
          unfold openFile detailOpen radAssert
          simp only [if_pos hfd, if_pos hst, hfile, if_pos hv, if_pos hfp,
            if_neg hl, ok_bind, if_true, Int.natCast_nonneg]
          exact ⟨_, rfl, rfl, rfl, rfl⟩
        rw [heq]
        refine (atHeader_ends hdfp (.start file) hdst hdv).congr fun f => ?_
        constructor
        · intro hcut
          exact ⟨_, ⟨by simpa using hl, file, hfile, rfl⟩, hcut⟩
        · rintro ⟨fp, ⟨-, file', hf, rfl⟩, hcut⟩
          rw [hfile] at hf
          cases hf
          exact hcut

/-- The stream that a call reads from: the one that is open at a header,
or the one that it opens. -/
def ListenDetail.Reads (data : ListenDetail) (env : DetailEnv)
    (fp : DetailStream) : Prop :=
  data.signal = false
    ∧ ((data.state = .header ∨ data.state = .replied) ∧ data.fp = some fp
      ∨ (data.state = .unopened ∨ data.state = .replied) ∧ data.fp = none
        ∧ data.Opens env fp)

/-- `do_header`. -/
theorem doHeader_ends (data : ListenDetail) (hv : data.vps = [])
    (hst : data.state = .header)
    (hfd : data.fp = none → data.fd < 0)
    (hfit : ∀ fp, data.fp = some fp → fp.Fit) :
    Ends (fun f => ∃ fp, (data.fp = some fp
      ∨ data.fp = none ∧ data.Opens env fp) ∧ fp.Fails userparse f) (doHeader userparse env data) := by
  rcases Option.eq_none_or_eq_some data.fp with hfp | ⟨fp, hfp⟩
  · have heq : doHeader userparse env data = openFile userparse env
        { data with tries := 0, state := .unopened } := by
      simp only [doHeader, hfp]
    rw [heq]
    refine (openFile_ends { data with tries := 0, state := .unopened } rfl
      hfp (hfd hfp) hv).congr fun f => ?_
    constructor
    · rintro ⟨fp, ho, hc⟩
      exact ⟨fp, Or.inr ⟨hfp, ho⟩, hc⟩
    · rintro ⟨fp, h | ⟨-, ho⟩, hc⟩
      · rw [hfp] at h
        cases h
      · exact ⟨fp, ho, hc⟩
  · have heq : doHeader userparse env data
        = atHeader userparse env data fp := by
      simp only [doHeader, hfp]
    rw [heq]
    refine (atHeader_ends hfp (hfit fp hfp) hst hv).congr fun f => ?_
    constructor
    · intro hc
      exact ⟨fp, Or.inl hfp, hc⟩
    · rintro ⟨q, h | ⟨h, -⟩, hc⟩
      · cases hfp.symm.trans h
        exact hc
      · rw [hfp] at h
        cases h

variable (userparse env) in
/-- `detail_recv`, from where a call leaves the reader. -/
theorem ListenDetail.Good.recv (h : data.Good) :
    Ends (fun f => ∃ fp, data.Reads env fp ∧ fp.Fails userparse f)
      (detailRecv userparse env data) := by
  unfold detailRecv
  by_cases hsig : data.signal = true
  · rw [if_pos hsig]
    refine (Ends.ok h).congr fun f => iff_of_false id ?_
    rintro ⟨fp, ⟨hs, -⟩, -⟩
    rw [hsig] at hs
    cases hs
  · rw [if_neg hsig]
    have hsig' : data.signal = false := by simpa using hsig
    -- a request is made, or made again
    have hqueued (hst : data.state = .running ∨ data.state = .noReply) :
        Ends (fun f => ∃ fp, data.Reads env fp ∧ fp.Fails userparse f)
          (allocPacket env { data with state := .queued }) := by
      refine (allocPacket_ends { data with state := .queued } rfl h.closed
        h.fit).congr fun f => iff_of_false id ?_
      rintro ⟨fp, ⟨-, ⟨hr, -⟩ | ⟨hr, -⟩⟩, -⟩ <;>
        rcases hst with hst | hst <;> rw [hst] at hr <;>
        rcases hr with hr | hr <;> cases hr
    rcases h.state with hst | hst | hst | hst | hst <;> simp only [hst]
    · have hfp := h.unopened hst
      refine (openFile_ends data hst hfp (h.closed hfp).1
        (h.closed hfp).2).congr fun f => ?_
      constructor
      · rintro ⟨fp, ho, hc⟩
        exact ⟨fp, ⟨hsig', Or.inr ⟨Or.inl hst, hfp, ho⟩⟩, hc⟩
      · rintro ⟨fp, ⟨-, ⟨-, hr⟩ | ⟨-, -, ho⟩⟩, hc⟩
        · rw [hfp] at hr
          cases hr
        · exact ⟨fp, ho, hc⟩
    · obtain ⟨hopen, hv⟩ := h.header hst
      refine (doHeader_ends data hv hst (fun e => absurd e hopen)
        h.fit).congr fun f => ?_
      constructor
      · rintro ⟨fp, hr | ⟨hr, -⟩, hc⟩
        · exact ⟨fp, ⟨hsig', Or.inl ⟨Or.inl hst, hr⟩⟩, hc⟩
        · exact absurd hr hopen
      · rintro ⟨fp, ⟨-, ⟨-, hr⟩ | ⟨-, hr, -⟩⟩, hc⟩
        · exact ⟨fp, Or.inl hr, hc⟩
        · exact absurd hr hopen
    · split
      next =>
        refine (Ends.ok h).congr fun f => iff_of_false id ?_
        rintro ⟨fp, ⟨-, ⟨hr, -⟩ | ⟨hr, -⟩⟩, -⟩ <;> rw [hst] at hr <;>
          rcases hr with hr | hr <;> cases hr
      next => exact hqueued (Or.inl hst)
    · exact hqueued (Or.inr hst)
    · refine (doHeader_ends { data with vps := [], state := .header } rfl
        rfl (fun e => (h.closed e).1) h.fit).congr fun f => ?_
      constructor
      · rintro ⟨fp, hr | ⟨hr, ho⟩, hc⟩
        · exact ⟨fp, ⟨hsig', Or.inl ⟨Or.inr hst, hr⟩⟩, hc⟩
        · exact ⟨fp, ⟨hsig', Or.inr ⟨Or.inr hst, hr, ho⟩⟩, hc⟩
      · rintro ⟨fp, ⟨-, ⟨-, hr⟩ | ⟨-, hr, ho⟩⟩, hc⟩
        · exact ⟨fp, Or.inl hr, hc⟩
        · exact ⟨fp, Or.inr ⟨hr, ho⟩, hc⟩

/-- A completion, whenever it comes. -/
theorem ListenDetail.Good.send (h : data.Good) (code : Nat)
    (now received : Timeval) : (detailSend data code now received).Good := by
  unfold detailSend
  split
  next =>
    exact ⟨Or.inr (Or.inr (Or.inr (Or.inl rfl))), h.closed, nofun, nofun,
      h.fit⟩
  next =>
    exact ⟨Or.inr (Or.inr (Or.inr (Or.inr rfl))), h.closed, nofun, nofun,
      h.fit⟩

theorem ListenDetail.Good.encode (h : data.Good) :
    (detailEncode data).Good :=
  ⟨h.state, h.closed, h.unopened, h.header, h.fit⟩

-- ======== runs

/-- A poll that returns, or the completion of a request. -/
inductive DetailStep (userparse : List UInt8 → Bool × List ValuePair)
    (s : ListenDetail) : ListenDetail → Prop where
  | poll {t : ListenDetail} (env : DetailEnv)
      (packet : Option RadiusPacket) :
      eventPollDetail userparse env s = .ok (t, packet) →
      DetailStep userparse s t
  | send (code : Nat) (now received : Timeval) :
      DetailStep userparse s (detailSend s code now received)

theorem ListenDetail.Good.parse (work : Option DetailFile)
    (loadFactor pollInterval retryInterval : Nat) :
    (detailParse work loadFactor pollInterval retryInterval).Good :=
  ⟨Or.inl rfl, fun _ => ⟨Int.negSucc_lt_zero 0, rfl⟩, fun _ => rfl, nofun,
    nofun⟩

/-- Every step keeps what holds. -/
theorem ListenDetail.Good.step {s t : ListenDetail} (h : s.Good)
    (hst : DetailStep userparse s t) : t.Good := by
  cases hst with
  | poll env packet hpoll =>
      unfold eventPollDetail at hpoll
      rcases h.recv userparse env with
        ⟨f, -, hr⟩ | ⟨-, data, p, hr, hg⟩
      · rw [hr] at hpoll
        cases hpoll
      · rw [hr] at hpoll
        cases hpoll
        exact hg.encode
  | send code now received => exact h.send code now received

end reader

/-- A call reads from one stream. -/
theorem ListenDetail.Reads.unique {data : ListenDetail} {env : DetailEnv}
    {fp fp' : DetailStream} (h : data.Reads env fp)
    (h' : data.Reads env fp') : fp = fp' := by
  obtain ⟨-, ⟨-, h⟩ | ⟨-, h, -, file, hf, rfl⟩⟩ := h <;>
    obtain ⟨-, ⟨-, h'⟩ | ⟨-, h', -, file', hf', rfl⟩⟩ := h'
  · exact Option.some.inj (h.symm.trans h')
  · cases h.symm.trans h'
  · cases h.symm.trans h'
  · rw [Option.some.inj (hf.symm.trans hf')]

/-- In every run, whatever is in the files and whenever requests complete:
`detail_recv` returns unless something goes wrong in the lines it reads, and
fails with what goes wrong there. -/
theorem detail_assertions {userparse : List UInt8 → Bool × List ValuePair}
    {work : Option DetailFile} {loadFactor pollInterval retryInterval : Nat}
    {data : ListenDetail} (h : Reaches (DetailStep userparse)
      (detailParse work loadFactor pollInterval retryInterval) data)
    (env : DetailEnv) :
    ((∃ data' packet,
        detailRecv userparse env data = .ok (data', packet))
      ↔ ¬ ∃ f fp, data.Reads env fp ∧ fp.Fails userparse f)
    ∧ ∀ f, detailRecv userparse env data = .error f
      ↔ ∃ fp, data.Reads env fp ∧ fp.Fails userparse f := by
  have hg : data.Good := h.invariant ListenDetail.Good
    (ListenDetail.Good.parse _ _ _ _) fun _ _ hg hst => hg.step hst
  rcases hg.recv userparse env with
    ⟨f, ⟨fp, hreads, hf⟩, hr⟩ | ⟨hn, data', packet, hr, -⟩
  · refine ⟨iff_of_false ?_ fun hn => hn ⟨f, fp, hreads, hf⟩, fun g => ?_⟩
    · rintro ⟨data', packet, hok⟩
      cases hr.symm.trans hok
    · rw [hr]
      constructor
      · rintro ⟨⟩
        exact ⟨fp, hreads, hf⟩
      · rintro ⟨fp', hreads', hg⟩
        rw [hreads'.unique hreads] at hg
        rw [Option.some.inj (hf.symm.trans hg)]
  · refine ⟨iff_of_true ⟨data', packet, hr⟩ hn, fun g => ?_⟩
    rw [hr]
    exact iff_of_false nofun fun hg => hn ⟨g, hg⟩

-- ======== three files

/-- A poll that finds a detail file with these lines. -/
def fileEnv (text : String) : DetailEnv where
  detail := some { bytes := ascii text }
  fd := 3
  locked := true
  now := 1286611200
  ipHton := fun _ => none
  received := true

/-- A listener that was polled once. -/
def polledOnce : ListenDetail := detailEncode (detailParse none 10 1 30)

theorem polledOnce_reached (userparse : List UInt8 → Bool × List ValuePair) :
    Reaches (DetailStep userparse) (detailParse none 10 1 30) polledOnce :=
  Reaches.refl.step (.poll (fileEnv "") none rfl)

/-- Its next call reads the file. -/
theorem polledOnce_reads (text : String) (fp : DetailStream) :
    polledOnce.Reads (fileEnv text) fp
      ↔ fp = { file := { bytes := ascii text } } := by
  constructor
  · rintro ⟨-, ⟨-, hr⟩ | ⟨-, -, -, file, hf, rfl⟩⟩
    · cases hr
    · cases hf
      rfl
  · rintro rfl
    exact ⟨rfl, Or.inr ⟨Or.inl rfl, rfl, rfl, _, rfl, rfl⟩⟩

/-- A whole record is read; one with a long operator is not. -/
theorem detail_assertions_of_record :
    (∃ data' packet, detailRecv (fun _ => (false, []))
      (fileEnv "Sat Oct  9 10:00:00 2010\n\tTimestamp = 1286611100\n\n")
      polledOnce = .ok (data', packet))
    ∧ detailRecv (fun _ => (false, []))
      (fileEnv "Sat Oct  9 10:00:00 2010\n\tTimestamp ======== 1\n\n")
      polledOnce = .error .overflow := by
  constructor
  · refine (detail_assertions (polledOnce_reached _) _).1.mpr ?_
    rintro ⟨f, fp, hr, hf⟩
    rw [(polledOnce_reads _ fp).mp hr, DetailStream.Fails] at hf
    cases (show _ = none by decide).symm.trans hf
  · refine ((detail_assertions (polledOnce_reached _) _).2 _).mpr ?_
    refine ⟨_, (polledOnce_reads _ _).mpr rfl, ?_⟩
    unfold DetailStream.Fails
    decide

/-- A file that ends in the middle of a record. -/
theorem detail_assertion_fails :
    ¬ ∀ (userparse : List UInt8 → Bool × List ValuePair)
      (work : Option DetailFile) (loadFactor pollInterval retryInterval : Nat)
      (data : ListenDetail), Reaches (DetailStep userparse)
        (detailParse work loadFactor pollInterval retryInterval) data →
      ∀ env, detailRecv userparse env data ≠ .error .assertion := by
  intro hall
  have hne := hall (fun _ => (false, [])) none 10 1 30 polledOnce
    (polledOnce_reached _)
    (fileEnv "Sat Oct  9 10:00:00 2010\n\tTimestamp = 1286611100\n")
  have hcut : DetailStream.Fails (fun _ => (false, [])) { file :=
      { bytes := ascii
          "Sat Oct  9 10:00:00 2010\n\tTimestamp = 1286611100\n" } }
      .assertion := by
    unfold DetailStream.Fails
    decide
  rcases (ListenDetail.Good.parse none 10 1 30).encode.recv
      (fun _ => (false, [])) (fileEnv
        "Sat Oct  9 10:00:00 2010\n\tTimestamp = 1286611100\n") with
    ⟨f, ⟨fp, hreads, hf⟩, hr⟩ | ⟨hn, -⟩
  · rw [(polledOnce_reads _ fp).mp hreads] at hf
    rw [Option.some.inj (hf.symm.trans hcut)] at hr
    exact hne hr
  · exact hn ⟨_, _, (polledOnce_reads _ _).mpr rfl, hcut⟩

end WinRadius
