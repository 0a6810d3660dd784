/-
What the detail file reader makes of a well-formed record: it reads up to
the blank line after it, and holds its pairs.

A well-formed record is a header, lines that are not blank, and a blank
line; each line and its operator fit the buffers, and some line gives a
pair. A file of
records is these one after the other.
-/
import Mathlib.Data.List.TakeWhile
import WinRadius.Proofs.Detail

namespace WinRadius

open Lib

-- ======== lines

/-- A line that one `fgets` reads. -/
def IsLine (line : List UInt8) : Prop :=
  ∃ text, line = text ++ [10] ∧ 10 ∉ text ∧ 0 ∉ text ∧ text.length < 2047

theorem IsLine.length_pos {line : List UInt8} (h : IsLine line) :
    0 < line.length := by
  obtain ⟨text, rfl, -⟩ := h
  simp

theorem lineOf_text (text rest : List UInt8) (n : Nat) (h : 10 ∉ text)
    (hn : text.length < n) :
    lineOf n (text ++ 10 :: rest) = text ++ [10] := by
  induction text generalizing n with
  | nil =>
      cases n with
      | zero => cases hn
      | succ n => rfl
  | cons b text ih =>
      cases n with
      | zero => cases hn
      | succ n =>
          have hb : ¬ b = 10 := fun e => h (e ▸ List.mem_cons_self)
          show lineOf (n + 1) (b :: (text ++ 10 :: rest)) = _
          unfold lineOf
          rw [if_neg hb, ih n (fun e => h (List.mem_cons_of_mem _ e))
            (Nat.lt_of_succ_lt_succ hn)]
          rfl

theorem IsLine.hasNewline {line : List UInt8} (h : IsLine line) :
    hasNewline line = true := by
  obtain ⟨text, rfl, -, h0, -⟩ := h
  have hc : cString (text ++ [10]) = text ++ [10] := by
    unfold cString
    rw [List.takeWhile_eq_self_iff]
    intro b hb
    rcases List.mem_append.mp hb with hb | hb
    · exact decide_eq_true fun e => h0 (e ▸ hb)
    · rw [List.mem_singleton.mp hb]
      rfl
  unfold WinRadius.hasNewline
  rw [hc]
  simp

/-- A line with something on it does not look blank. -/
theorem IsLine.head_ne {line : List UInt8} (h : IsLine line)
    (hne : line ≠ [10]) : line.head? ≠ some 10 := by
  obtain ⟨text, rfl, h10, -⟩ := h
  cases text with
  | nil => exact absurd rfl hne
  | cons b text =>
      intro e
      exact h10 (Option.some.inj e ▸ List.mem_cons_self)

/-- A line is read. -/
theorem DetailStream.fgets_line {fp : DetailStream}
    {line rest : List UInt8} (h : IsLine line)
    (hrest : fp.file.bytes.drop fp.pos = line ++ rest) :
    fp.fgets = (some line, { fp with pos := fp.pos + line.length })
    ∧ fp.file.bytes.drop (fp.pos + line.length) = rest := by
  constructor
  · obtain ⟨text, rfl, h10, -, hlen⟩ := h
    have hline : lineOf 2047 (fp.file.bytes.drop fp.pos)
        = text ++ [10] := by
      rw [hrest, List.append_assoc]
      exact lineOf_text text rest 2047 h10 hlen
    unfold fgets
    rw [hline]
    simp only
    rw [if_pos (Or.inr List.getLast?_concat)]
  · rw [← List.drop_drop, hrest, List.drop_left]

-- ======== records

/-- A record: the header, and the lines up to the blank one. -/
structure DetailRecord where
  header : List UInt8
  body : List (List UInt8)

namespace DetailRecord

/-- The text of a record. -/
def bytes (r : DetailRecord) : List UInt8 :=
  r.header ++ (r.body.flatten ++ [10])

section pairs

variable (userparse : List UInt8 → Bool × List ValuePair)

/-- The pairs of the lines, as the reader collects them. -/
def pairsOf : List (List UInt8) → List ValuePair → List ValuePair →
    List ValuePair
  | [], vps, others => vps ++ others
  | line :: lines, vps, others =>
      match detailLine userparse line with
      | .fault _ | .skip | .clientIp _ => pairsOf lines vps others
      | .timestamp value =>
          pairsOf lines (vps ++ [originalTimestamp value]) []
      | .pairs vp vps' => pairsOf lines (vps ++ [vp]) vps'

/-- The address of the client after the lines. -/
def ipAfter (env : DetailEnv) : List (List UInt8) → FrIpaddr → FrIpaddr
  | [], ip => ip
  | line :: lines, ip =>
      match detailLine userparse line with
      | .clientIp value =>
          ipAfter env lines ((env.ipHton value).getD { ip with af := afInet })
      | .fault _ | .skip | .timestamp _ | .pairs _ _ =>
          ipAfter env lines ip

/-- The time of the record after the lines. -/
def timeAfter : List (List UInt8) → Int → Int
  | [], time => time
  | line :: lines, time =>
      match detailLine userparse line with
      | .timestamp value => timeAfter lines value
      | .fault _ | .skip | .clientIp _ | .pairs _ _ => timeAfter lines time

/-- The pairs of a record. -/
def pairs (r : DetailRecord) : List ValuePair :=
  pairsOf userparse r.body [] []

/-- A record that the reader takes for one. -/
structure WellFormed (r : DetailRecord) : Prop where
  header : IsLine r.header
  dated : scanHeader r.header ≠ 0
  body : ∀ line ∈ r.body, IsLine line ∧ line ≠ [10]
  fits : ∀ line ∈ r.body, longOperator line = false
  pairs : r.pairs userparse ≠ []

end pairs

theorem bytes_length_pos (r : DetailRecord) : 0 < r.bytes.length := by
  unfold bytes
  simp only [List.length_append, List.length_singleton]
  omega

/-- A file of records. -/
def fileOf (rs : List DetailRecord) : DetailFile where
  bytes := (rs.map bytes).flatten

/-- Where the first `k` records end. -/
def offset (rs : List DetailRecord) (k : Nat) : Nat :=
  ((rs.take k).map bytes).flatten.length

theorem offset_zero (rs : List DetailRecord) : offset rs 0 = 0 := rfl

theorem offset_length (rs : List DetailRecord) :
    offset rs rs.length = (fileOf rs).size := by
  unfold offset fileOf DetailFile.size
  rw [List.take_length]
  rfl

/-- The rest of the file starts with the next record. -/
theorem drop_offset (rs : List DetailRecord) {k : Nat}
    (hk : k < rs.length) :
    (fileOf rs).bytes.drop (offset rs k)
        = rs[k].bytes ++ ((rs.drop (k + 1)).map bytes).flatten
      ∧ offset rs (k + 1) = offset rs k + rs[k].bytes.length := by
  constructor
  · have h : (fileOf rs).bytes = ((rs.take k).map bytes).flatten
        ++ ((rs.drop k).map bytes).flatten := by
      unfold fileOf
      rw [← List.flatten_append, ← List.map_append, List.take_append_drop]
    rw [h]
    unfold offset
    rw [List.drop_left, List.drop_eq_getElem_cons hk, List.map_cons,
      List.flatten_cons]
  · unfold offset
    rw [List.take_succ_eq_append_getElem hk, List.map_append,
      List.flatten_append, List.length_append]
    simp

theorem offset_lt (rs : List DetailRecord) {k : Nat}
    (hk : k < rs.length) : offset rs k < (fileOf rs).size := by
  have h := congrArg List.length (drop_offset rs hk).1
  rw [List.length_drop, List.length_append] at h
  have := bytes_length_pos rs[k]
  unfold DetailFile.size
  omega

/-- How many records end after a position. -/
def unreadAt : Nat → List DetailRecord → Nat
  | _, [] => 0
  | pos, r :: rs =>
      if r.bytes.length ≤ pos then unreadAt (pos - r.bytes.length) rs
      else (r :: rs).length

theorem unreadAt_offset (rs : List DetailRecord) {k : Nat}
    (hk : k ≤ rs.length) : unreadAt (offset rs k) rs = rs.length - k := by
  induction rs generalizing k with
  | nil => simp [unreadAt]
  | cons r rs ih =>
      cases k with
      | zero =>
          have := bytes_length_pos r
          unfold unreadAt
          rw [offset_zero, if_neg (by omega)]
          rfl
      | succ k =>
          have ho : offset (r :: rs) (k + 1)
              = r.bytes.length + offset rs k := by
            unfold offset
            simp
          unfold unreadAt
          rw [ho, if_pos (by omega), Nat.add_sub_cancel_left,
            ih (by simpa using hk), List.length_cons]
          omega

end DetailRecord

-- ======== reading

section reader

variable {userparse : List UInt8 → Bool × List ValuePair} {env : DetailEnv}

open DetailRecord

variable (userparse env) in
/-- The lines of a record, up to the blank one. -/
theorem readLines_body (body : List (List UInt8)) : ∀ (fuel : Nat)
    (data : ListenDetail) (fp : DetailStream) (vps others : List ValuePair)
    (rest : List UInt8), data.fp = some fp → data.state = .reading →
    fp.file.bytes.drop fp.pos = body.flatten ++ [10] ++ rest →
    (∀ line ∈ body, IsLine line ∧ line ≠ [10]) →
    (∀ line ∈ body, longOperator line = false) → body.length < fuel →
    ∃ d, readLines userparse env fuel data vps others = .ok (.blank, d)
      ∧ d.state = .queued ∧ d.vps = pairsOf userparse body vps others
      ∧ d.clientIp = ipAfter userparse env body data.clientIp
      ∧ d.timestamp = timeAfter userparse body data.timestamp
      ∧ d.work = data.work
      ∧ d.fp = some { fp with
          pos := fp.pos + (body.flatten ++ [10]).length } := by
  induction body with
  | nil =>
      intro fuel data fp vps others rest hfp hst hrest _ _ hf
      cases fuel with
      | zero => cases hf
      | succ fuel =>
          have hline : IsLine [10] := ⟨[], rfl, nofun, nofun, Nat.succ_pos _⟩
          obtain ⟨hget, -⟩ := DetailStream.fgets_line hline hrest
          unfold readLines
          simp only [hfp, hget, hline.hasNewline, Bool.true_eq_false,
            if_false]
          rw [if_pos ⟨hst, rfl⟩]
          exact ⟨_, rfl, rfl, rfl, rfl, rfl, rfl, rfl⟩
  | cons line body ih =>
      intro fuel data fp vps others rest hfp hst hrest hbody hfits hf
      cases fuel with
      | zero => cases hf
      | succ fuel =>
          obtain ⟨hline, hne⟩ := hbody line List.mem_cons_self
          have hrest' : fp.file.bytes.drop fp.pos
              = line ++ (body.flatten ++ [10] ++ rest) := by
            rw [hrest]
            simp
          obtain ⟨hget, hdrop⟩ := DetailStream.fgets_line hline hrest'
          have hpos : ({ fp with pos := fp.pos + line.length
                + (body.flatten ++ [10]).length } : DetailStream)
              = { fp with pos := fp.pos
                + ((line :: body).flatten ++ [10]).length } := by
            congr 1
            simp only [List.flatten_cons, List.length_append]
            omega
          have hbody' : ∀ l ∈ body, IsLine l ∧ l ≠ [10] :=
            fun l hl => hbody l (List.mem_cons_of_mem _ hl)
          have hfits' : ∀ l ∈ body, longOperator l = false :=
            fun l hl => hfits l (List.mem_cons_of_mem _ hl)
          have hf' : body.length < fuel := by simpa using hf
          unfold readLines
          simp only [hfp, hget, hline.hasNewline, Bool.true_eq_false,
            if_false]
          rw [if_neg (fun h => hline.head_ne hne h.2),
            if_neg (by rw [hst]; exact nofun), ← hpos]
          unfold pairsOf ipAfter timeAfter
          cases hk : detailLine userparse line with
          | fault f =>
              have hlong := ((detailLine_fault_iff userparse line f).mp hk).1
              rw [hfits line List.mem_cons_self] at hlong
              cases hlong
          | skip =>
              exact ih fuel { data with
                fp := some { fp with pos := fp.pos + line.length }
                offset := fp.pos + line.length } _ vps others rest rfl hst
                hdrop hbody' hfits' hf'
          | clientIp value =>
              exact ih fuel { data with
                fp := some { fp with pos := fp.pos + line.length }
                offset := fp.pos + line.length
                clientIp := (env.ipHton value).getD
                  { data.clientIp with af := afInet } } _ vps others rest
                rfl hst hdrop hbody' hfits' hf'
          | timestamp value =>
              exact ih fuel { data with
                fp := some { fp with pos := fp.pos + line.length }
                offset := fp.pos + line.length
                timestamp := value } _ _ [] rest rfl hst hdrop hbody' hfits' hf'
          | pairs vp vps' =>
              exact ih fuel { data with
                fp := some { fp with pos := fp.pos + line.length }
                offset := fp.pos + line.length } _ _ vps' rest rfl hst
                hdrop hbody' hfits' hf'

/-- The reader holds a record: its pairs, at the end of it. -/
def ListenDetail.Holds (data : ListenDetail) (vps : List ValuePair)
    (fp : DetailStream) (work : Option DetailFile) : Prop :=
  data.vps = vps ∧ data.fp = some fp ∧ data.work = work
    ∧ (data.state = .running ∨ data.state = .noReply)

variable (env) in
/-- A request is made for the pairs that are held. -/
theorem allocPacket_holds (data : ListenDetail) (hst : data.state = .queued)
    (hv : data.vps ≠ []) {fp : DetailStream} (hfp : data.fp = some fp) :
    ∃ d packet, allocPacket env data = .ok (d, packet)
      ∧ d.Holds data.vps fp data.work := by
  unfold allocPacket
  simp only [if_neg (not_not.mpr hst), if_neg hv]
  split
  next => exact ⟨_, _, rfl, rfl, hfp, rfl, Or.inr rfl⟩
  next => exact ⟨_, _, rfl, rfl, hfp, rfl, Or.inl rfl⟩

/-- There are no more lines than bytes. -/
theorem length_le_flatten {lines : List (List UInt8)}
    (h : ∀ line ∈ lines, IsLine line) :
    lines.length ≤ lines.flatten.length := by
  induction lines with
  | nil => exact Nat.le_refl _
  | cons line lines ih =>
      have hl := (h line List.mem_cons_self).length_pos
      have := ih fun l hl => h l (List.mem_cons_of_mem _ hl)
      simp only [List.length_cons, List.flatten_cons, List.length_append]
      omega

/-- Lines that are no header are skipped in front of one. -/
def Skipped (line : List UInt8) : Prop :=
  IsLine line ∧ scanHeader line = 0

variable (userparse env) in
theorem readLines_skipped (skipped : List (List UInt8)) : ∀ (fuel : Nat)
    (data : ListenDetail) (fp : DetailStream) (vps others : List ValuePair)
    (rest : List UInt8), data.fp = some fp → data.state = .header →
    fp.file.bytes.drop fp.pos = skipped.flatten ++ rest →
    (∀ line ∈ skipped, Skipped line) →
    ∃ d, readLines userparse env (fuel + skipped.length) data vps others
        = readLines userparse env fuel d vps others
      ∧ d.state = .header ∧ d.clientIp = data.clientIp
      ∧ d.timestamp = data.timestamp ∧ d.work = data.work
      ∧ d.fp = some { fp with pos := fp.pos + skipped.flatten.length } := by
  induction skipped with
  | nil =>
      intro fuel data fp vps others rest hfp hst _ _
      exact ⟨data, rfl, hst, rfl, rfl, rfl, hfp⟩
  | cons line skipped ih =>
      intro fuel data fp vps others rest hfp hst hrest hskip
      obtain ⟨hline, hscan⟩ := hskip line List.mem_cons_self
      have hrest' : fp.file.bytes.drop fp.pos
          = line ++ (skipped.flatten ++ rest) := by
        rw [hrest]
        simp
      obtain ⟨hget, hdrop⟩ := DetailStream.fgets_line hline hrest'
      have hpos : fp.pos + line.length + skipped.flatten.length
          = fp.pos + (line :: skipped).flatten.length := by
        rw [List.flatten_cons, List.length_append, Nat.add_assoc]
      obtain ⟨d, hd, hdst, hip, ht, hw, hdfp⟩ := ih fuel
        { data with fp := some { fp with pos := fp.pos + line.length }
                    offset := fp.pos + line.length }
        { fp with pos := fp.pos + line.length } vps others rest rfl hst
        hdrop fun l hl => hskip l (List.mem_cons_of_mem _ hl)
      rw [hpos] at hdfp
      refine ⟨d, ?_, hdst, hip, ht, hw, hdfp⟩
      rw [List.length_cons, ← Nat.add_assoc, ← hd]
      conv_lhs => unfold readLines
      simp only [hfp, hget, hline.hasNewline, Bool.true_eq_false, if_false]
      rw [if_neg (by rw [hst]; exact fun h => nomatch h.1), if_pos hst,
        if_neg (not_not.mpr hscan), ← hst]

variable (env) in
/-- A well-formed record is read, and a packet is made of it. -/
theorem readRecord_reads (data : ListenDetail) {fp : DetailStream}
    {skipped : List (List UInt8)} {r : DetailRecord} {rest : List UInt8}
    (hskip : ∀ line ∈ skipped, Skipped line) (hr : r.WellFormed userparse)
    (hst : data.state = .header) (hv : data.vps = [])
    (hfp : data.fp = some fp) (hferr : fp.ferror = false)
    (hrest : fp.file.bytes.drop fp.pos
      = skipped.flatten ++ (r.bytes ++ rest)) :
    ∃ d, readRecord userparse env data = allocPacket env d
      ∧ d.state = .queued ∧ d.vps = r.pairs userparse
      ∧ d.clientIp = ipAfter userparse env r.body data.clientIp
      ∧ d.timestamp = timeAfter userparse r.body data.timestamp
      ∧ d.work = data.work
      ∧ d.fp = some { fp with
          pos := fp.pos + (skipped.flatten.length + r.bytes.length) } := by
  -- there are more bytes than lines
  obtain ⟨fuel, hfuel, hbody⟩ : ∃ fuel,
      fp.file.bytes.length - fp.pos + 1 = fuel + 1 + skipped.length
      ∧ r.body.length < fuel := by
    have hlen := congrArg List.length hrest
    have hskipped := length_le_flatten fun l hl => (hskip l hl).1
    have hlines := length_le_flatten fun l hl => (hr.body l hl).1
    have hheader := hr.header.length_pos
    simp only [List.length_drop, List.length_append, DetailRecord.bytes,
      List.length_singleton] at hlen
    exact ⟨fp.file.bytes.length - fp.pos - skipped.length, by omega,
      by omega⟩
  obtain ⟨d₀, hd₀, hst₀, hip₀, ht₀, hw₀, hfp₀⟩ := readLines_skipped
    userparse env skipped (fuel + 1) data fp [] [] _ hfp hst hrest hskip
  have hrest' : fp.file.bytes.drop (fp.pos + skipped.flatten.length)
      = r.header ++ (r.body.flatten ++ [10] ++ rest) := by
    rw [← List.drop_drop, hrest, List.drop_left]
    unfold DetailRecord.bytes
    simp
  obtain ⟨hget, hdrop⟩ := @DetailStream.fgets_line
    { fp with pos := fp.pos + skipped.flatten.length } _ _ hr.header hrest'
  obtain ⟨d, hread, hdst, hdv, hdip, hdt, hdw, hdfp⟩ := readLines_body
    userparse env r.body fuel
    { d₀ with
      fp := some { fp with
        pos := fp.pos + skipped.flatten.length + r.header.length }
      offset := fp.pos + skipped.flatten.length + r.header.length
      state := .reading }
    { fp with pos := fp.pos + skipped.flatten.length + r.header.length }
    [] [] rest rfl rfl hdrop hr.body hr.fits hbody
  have hpos : fp.pos + skipped.flatten.length + r.header.length
        + (r.body.flatten ++ [10]).length
      = fp.pos + (skipped.flatten.length + r.bytes.length) := by
    unfold DetailRecord.bytes
    simp only [List.length_append]
    omega
  rw [hpos] at hdfp
  have hfirst : readLines userparse env (fuel + 1) d₀ [] []
      = .ok (.blank, d) := by
    unfold readLines
    simp only [hfp₀, hget, hr.header.hasNewline, Bool.true_eq_false,
      if_false]
    rw [if_neg (by rw [hst₀]; exact fun h => nomatch h.1), if_pos hst₀,
      if_pos hr.dated]
    exact hread
  have hferr' : ¬ (d.fp.map (·.ferror)) = some true := by
    rw [hdfp, Option.map_some, hferr]
    simp
  refine ⟨{ d with tries := 0, packets := d.packets + 1 }, ?_, hdst, hdv,
    hdip.trans (by rw [← hip₀]), hdt.trans (by rw [← ht₀]),
    hdw.trans hw₀, hdfp⟩
  unfold readRecord
  simp only [hfp, hv, hfuel, hd₀, hfirst, ok_bind, if_neg hferr']

variable (env) in
/-- The reader holds a well-formed record. -/
theorem readRecord_holds (data : ListenDetail) {fp : DetailStream}
    {r : DetailRecord} {rest : List UInt8} (hr : r.WellFormed userparse)
    (hst : data.state = .header) (hv : data.vps = [])
    (hfp : data.fp = some fp) (hferr : fp.ferror = false)
    (hrest : fp.file.bytes.drop fp.pos = r.bytes ++ rest) :
    ∃ d packet, readRecord userparse env data = .ok (d, packet)
      ∧ d.Holds (r.pairs userparse)
        { fp with pos := fp.pos + r.bytes.length } data.work := by
  obtain ⟨d, hread, hdst, hdv, -, -, hdw, hdfp⟩ := @readRecord_reads
    userparse env data fp [] r rest nofun hr hst hv hfp hferr hrest
  rw [List.flatten_nil, List.length_nil, Nat.zero_add] at hdfp
  obtain ⟨d', packet, hall, hd'⟩ := allocPacket_holds env d hdst
    (by rw [hdv]; exact hr.pairs) hdfp
  rw [hdv, hdw] at hd'
  exact ⟨d', packet, hread.trans hall, hd'⟩

end reader

end WinRadius
