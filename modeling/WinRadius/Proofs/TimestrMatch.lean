/-
What `timestr_match` returns for a list of days and hours.

A time string is a list of `TimeItem`s: days, and hours on these days.
An item without days is meant for every day, and one without hours for the
whole day.

# The bitmap

Each filler adds the minutes of an arc to the bits that are set
(`Lib.Cyclic.Arc`): of a day's minutes, and of the week's days. The count
of `timestr_match` is then how long the bits last.

# Items without days

For these `day_fill` takes the days "Al", which no name matches, and fills
in nothing. So the bits are the minutes of the items that have days.
-/
import WinRadius.Lib.Cyclic
import WinRadius.Proofs.PrintScan
import WinRadius.Proofs.Timestr

namespace WinRadius

open Lib Lib.Cyclic

-- ======== items

/-- A time of the day. -/
structure ClockTime where
  hour : Fin 24
  min : Fin 60

def ClockTime.minute (t : ClockTime) : Nat := t.hour * 60 + t.min

/-- `hhmm`. -/
def ClockTime.text (t : ClockTime) : List UInt8 :=
  [digitByte (t.hour / 10), digitByte (t.hour % 10),
    digitByte (t.min / 10), digitByte (t.min % 10)]

/-- The name of a day, or of several. -/
def dayName (code : Nat) : List UInt8 := days.getD code []

inductive DaySpec where
  | day (d : Fin 7)
  | range (first last : Fin 7)
  | wk
  | any
  | al

def DaySpec.text : DaySpec → List UInt8
  | .day d => dayName d
  | .range first last => dayName first ++ 45 :: dayName last
  | .wk => dayName 7
  | .any => dayName 8
  | .al => dayName 9

/-- The first and the last day. -/
def DaySpec.ends : DaySpec → Nat × Nat
  | .day d => (d, d)
  | .range first last => (first, last)
  | .wk => (1, 5)
  | .any => (0, 6)
  | .al => (0, 6)

/-- The part of a time string between two commas or bars. -/
structure TimeItem where
  days : List DaySpec
  hours : Option (ClockTime × ClockTime)

def hoursText : Option (ClockTime × ClockTime) → List UInt8
  | none => []
  | some (start, end_) => start.text ++ 45 :: end_.text

def daysText (specs : List DaySpec) : List UInt8 :=
  specs.flatMap DaySpec.text

def TimeItem.text (item : TimeItem) : List UInt8 :=
  daysText item.days ++ hoursText item.hours

/-- A time string, in letters of either case. -/
def WritesTimes (text : List UInt8) (items : List TimeItem) : Prop :=
  (text.map toLower).splitOnP (fun c => c == 44 || c == 124)
    = items.map TimeItem.text

-- ======== minutes

/-- The first and the last minute of the day. -/
def hoursEnds : Option (ClockTime × ClockTime) → Nat × Nat
  | none => (0, 1439)
  | some (start, end_) => (start.minute, end_.minute)

/-- The minute is in the hours of one of the days. -/
def InDays (specs : List DaySpec) (hours : Option (ClockTime × ClockTime))
    (minute : Nat) : Prop :=
  (∃ spec ∈ specs, Arc spec.ends.1 spec.ends.2 (minute / dayMin))
    ∧ Arc (hoursEnds hours).1 (hoursEnds hours).2 (minute % dayMin)

/-- The minutes of the week that an item stands for. -/
def TimeItem.Covers (item : TimeItem) (minute : Nat) : Prop :=
  InDays (if item.days = [] then [.al] else item.days) item.hours minute

def Covered (items : List TimeItem) (minute : Nat) : Prop :=
  ∃ item ∈ items, item.Covers minute

/-- A minute of an item that has days. -/
def CoveredByDays (items : List TimeItem) (minute : Nat) : Prop :=
  ∃ item ∈ items, item.days ≠ [] ∧ item.Covers minute

/-- What `timestr_match` is to return: -1 outside the minutes, 0 when
they are the whole week, and otherwise the seconds to the first minute
that is not one of them. -/
structure TimeLeft (covered : Nat → Prop) (now : Nat) (r : Int) : Prop where
  outside : r = -1 ↔ ¬covered now
  unlimited : (∀ m, m < weekMin → covered m) → r = 0
  limited : covered now → (∃ m < weekMin, ¬covered m) →
    ∃ k : Nat, r = 60 * k ∧ ¬covered ((now + k) % weekMin)
      ∧ ∀ j < k, covered ((now + j) % weekMin)

def secondsLeft : Option Nat → Int
  | none => 0
  | some 0 => -1
  | some (k + 1) => 60 * (k + 1 : Nat)

theorem secondsLeft_inj {a b : Option Nat} :
    secondsLeft a = secondsLeft b ↔ a = b := by
  constructor
  · intro h
    rcases a with _ | _ | a
    · rcases b with _ | _ | b
      · rfl
      · cases h
      · simp only [secondsLeft] at h
        omega
    · rcases b with _ | _ | b
      · cases h
      · rfl
      · simp only [secondsLeft] at h
        omega
    · rcases b with _ | _ | b
      · simp only [secondsLeft] at h
        omega
      · simp only [secondsLeft] at h
        omega
      · simp only [secondsLeft] at h
        congr 1
        omega
  · rintro rfl
    rfl

/-- The seconds are those of as long as the minutes last. -/
theorem timeLeft_iff {covered : Nat → Prop} {now : Nat} {r : Int}
    {left : Option Nat} (hnow : now < weekMin)
    (h : Lasts weekMin covered now left) :
    TimeLeft covered now r ↔ r = secondsLeft left := by
  have hzero : (now + 0) % weekMin = now := by
    rw [Nat.add_zero, Nat.mod_eq_of_lt hnow]
  have hpos : 0 < weekMin := by omega
  cases h with
  | always hall =>
      constructor
      · intro ht
        exact ht.unlimited hall
      · rintro rfl
        refine ⟨?_, fun _ => rfl, ?_⟩
        · constructor
          · intro hminus
            cases hminus
          · exact fun hnot => (hnot (hall now hnow)).elim
        · rintro - ⟨m, hm, hnot⟩
          exact (hnot (hall m hm)).elim
  | @upTo k hbefore hend =>
      have hsome : ∃ m < weekMin, ¬covered m :=
        ⟨_, Nat.mod_lt _ hpos, hend⟩
      cases k with
      | zero =>
          rw [hzero] at hend
          constructor
          · intro ht
            exact ht.outside.mpr hend
          · rintro rfl
            refine ⟨⟨fun _ => hend, fun _ => rfl⟩, ?_, ?_⟩
            · exact fun hall => (hend (hall now hnow)).elim
            · exact fun hin => (hend hin).elim
      | succ k =>
          have hin : covered now := hzero ▸ hbefore 0 (Nat.succ_pos k)
          constructor
          · intro ht
            obtain ⟨k', hr, hend', hbefore'⟩ := ht.limited hin hsome
            have hsame : k' = k + 1 := by
              rcases Nat.lt_trichotomy k' (k + 1) with hlt | heq | hlt
              · exact (hend' (hbefore k' hlt)).elim
              · exact heq
              · exact (hend (hbefore' (k + 1) hlt)).elim
            rw [hr, hsame]
            rfl
          · rintro rfl
            refine ⟨?_, ?_, fun _ _ => ⟨k + 1, rfl, hend, hbefore⟩⟩
            · constructor
              · intro hminus
                simp only [secondsLeft] at hminus
                omega
              · exact fun hnot => (hnot hin).elim
            · exact fun hall => (hend (hall _ (Nat.mod_lt _ hpos))).elim

-- ======== bits

/-- The minute is set in the bitmap. -/
def bitSet (bitmap : List UInt8) (minute : Nat) : Prop :=
  bitmap.getD (minute / 8) 0 &&& (1 <<< UInt8.ofNat (minute % 8)) ≠ 0

theorem mask_and_mask : ∀ a < 8, ∀ b < 8,
    (1 <<< UInt8.ofNat a) &&& (1 <<< UInt8.ofNat b)
      = if a = b then (1 <<< UInt8.ofNat b : UInt8) else 0 := by
  decide

theorem mask_ne_zero : ∀ a < 8, (1 <<< UInt8.ofNat a : UInt8) ≠ 0 := by
  decide

theorem or_and_mask (x y z : UInt8) :
    (x ||| y) &&& z = (x &&& z) ||| (y &&& z) :=
  UInt8.toBitVec_inj.mp BitVec.and_or_distrib_right

/-- A bit of a byte in which one was set. -/
theorem and_mask_or {octet : UInt8} {a b : Nat} (ha : a < 8) (hb : b < 8) :
    (octet ||| (1 <<< UInt8.ofNat a)) &&& (1 <<< UInt8.ofNat b) ≠ 0
      ↔ b = a ∨ octet &&& (1 <<< UInt8.ofNat b) ≠ 0 := by
  rw [or_and_mask, mask_and_mask a ha b hb, ne_eq,
    UInt8.or_eq_zero_iff]
  by_cases hab : a = b
  · rw [if_pos hab]
    have := mask_ne_zero b hb
    tauto
  · rw [if_neg hab]
    tauto

theorem not_bitSet_zeros (minute : Nat) :
    ¬bitSet (List.replicate (weekMin / 8) 0) minute := by
  have hzero : (List.replicate (weekMin / 8) (0 : UInt8)).getD
      (minute / 8) 0 = 0 := by
    rw [List.getD_eq_getElem?_getD, List.getElem?_replicate]
    split
    · rfl
    · rfl
  unfold bitSet
  rw [hzero, UInt8.zero_and]
  exact fun h => h rfl

/-- One minute more. -/
theorem bitSet_set {bitmap : List UInt8} {a : Nat}
    (h : a / 8 < bitmap.length) (minute : Nat) :
    bitSet (bitmap.set (a / 8)
        (bitmap.getD (a / 8) 0 ||| (1 <<< UInt8.ofNat (a % 8)))) minute
      ↔ minute = a ∨ bitSet bitmap minute := by
  unfold bitSet
  by_cases hbyte : a / 8 = minute / 8
  · rw [← hbyte, List.getD_eq_getElem?_getD, List.getElem?_set_self h,
      Option.getD_some, and_mask_or (Nat.mod_lt _ (by omega))
        (Nat.mod_lt _ (by omega))]
    have hsame : minute % 8 = a % 8 ↔ minute = a := by omega
    rw [hsame]
  · have hne : minute ≠ a := by
      rintro rfl
      exact hbyte rfl
    rw [List.getD_eq_getElem?_getD, List.getElem?_set_ne hbyte,
      ← List.getD_eq_getElem?_getD]
    exact ⟨.inr, fun h => h.resolve_left hne⟩

/-- The run leaves a bitmap in which these minutes are set as well. -/
def FillsIn (run : Mem (List UInt8)) (bitmap : List UInt8)
    (more : Nat → Prop) : Prop :=
  ∃ bitmap', run = .ok bitmap' ∧ bitmap'.length = 1260
    ∧ ∀ m < weekMin, bitSet bitmap' m ↔ bitSet bitmap m ∨ more m

-- ======== hours

section hours

variable {n i end_ fuel : Nat} {bitmap : List UInt8}

theorem hourLoop_bits (hn : n < 7) (hi : i < 1440) (hend : end_ < 1440)
    (hlen : bitmap.length = 1260)
    (hfuel : (end_ + 1440 - i) % 1440 < fuel) :
    FillsIn (hourLoop (180 * n) end_ fuel i bitmap) bitmap fun m =>
      m / dayMin = n ∧ Arc i end_ (m % dayMin) := by
  have hday : dayMin = 1440 := rfl
  induction fuel generalizing i bitmap with
  | zero => omega
  | succ fuel ih =>
      have hbyte : 180 * n + i / 8 = (1440 * n + i) / 8 := by omega
      have hbit : i % 8 = (1440 * n + i) % 8 := by omega
      have hin : (1440 * n + i) / 8 < bitmap.length := by omega
      obtain ⟨bitmap₁, h₁⟩ : ∃ b, b = bitmap.set ((1440 * n + i) / 8)
          (bitmap.getD ((1440 * n + i) / 8) 0
            ||| (1 <<< UInt8.ofNat ((1440 * n + i) % 8))) := ⟨_, rfl⟩
      have hset := bitSet_set hin
      rw [← h₁] at hset
      have hlen₁ : bitmap₁.length = 1260 := by
        rw [h₁, List.length_set, hlen]
      have hone : ∀ m, m = 1440 * n + i
          ↔ m / dayMin = n ∧ m % dayMin = i := by
        intro m
        rw [hday]
        omega
      rw [hourLoop, hbyte, hbit, fetch_getD hin, ok_bind, store,
        if_pos hin, pure_eq_ok, ok_bind, ← h₁]
      by_cases hstop : i = end_
      · rw [if_pos hstop]
        refine ⟨bitmap₁, rfl, hlen₁, fun m _ => ?_⟩
        dsimp only
        rw [hset m, hone m, ← hstop, arc_self, or_comm]
      · rw [if_neg hstop]
        obtain ⟨bitmap', hrun, hl, hbits⟩ := @ih ((i + 1) % dayMin) bitmap₁
          (Nat.mod_lt _ (by omega)) hlen₁ (by
            rw [hday]
            omega)
        refine ⟨bitmap', hrun, hl, fun m hm => ?_⟩
        dsimp only
        rw [hbits m hm, hset m, hone m, hday, arc_step hi hend
          (Nat.mod_lt m (by omega)) hstop]
        tauto

/-- The bytes that are read at a digit. -/
theorem digitByte_reads : ∀ d < 10,
    digitByte d ≠ 45 ∧ isDigit (digitByte d) = true
      ∧ timeVal (digitByte d) = d := by
  decide

theorem strtol_twoDigits {x y : Nat} (hx : x < 10) (hy : y < 10)
    (rest : List UInt8) (hrest : rest.takeWhile (isDigitOf 10) = []) :
    strtol 10 (digitByte x :: digitByte y :: rest) = 10 * x + y := by
  have hge := digitByte_ge (show x < 16 by omega)
  have htake : (digitByte x :: digitByte y :: rest).takeWhile (isDigitOf 10)
      = [digitByte x, digitByte y] := by
    rw [List.takeWhile_cons_of_pos (isDigitOf_digitByte hx (by omega)),
      List.takeWhile_cons_of_pos (isDigitOf_digitByte hy (by omega)), hrest]
  have hvalue : ofNumeral 10 [digitByte x, digitByte y] = x * 10 + y := by
    simp only [ofNumeral, List.foldl_cons, List.foldl_nil,
      digitValue_digitByte hx (show 10 ≤ 16 by omega),
      digitValue_digitByte hy (show 10 ≤ 16 by omega), Option.getD_some]
    omega
  unfold strtol scanNumber
  rw [dropWhile_isSpace hge, scanSign_of_ge hge]
  simp only [Nat.reduceEqDiff, if_false, htake, hvalue, reduceCtorEq,
    Bool.false_eq_true]
  omega

theorem ClockTime.minute_lt (t : ClockTime) : t.minute < 1440 := by
  have hh := t.hour.isLt
  have hm := t.min.isLt
  unfold ClockTime.minute
  omega

/-- `hhmm` is read. -/
theorem minutes_text (t : ClockTime) (rest : List UInt8)
    (hrest : rest.takeWhile (isDigitOf 10) = []) :
    minutes (t.text ++ rest) = t.minute := by
  have hh := t.hour.isLt
  have hm := t.min.isLt
  have h1 := (digitByte_reads (t.hour / 10) (by omega)).2.2
  have h2 := (digitByte_reads (t.hour % 10) (by omega)).2.2
  have h3 := @strtol_twoDigits (t.min / 10) (t.min % 10) (by omega)
    (by omega) rest hrest
  simp only [minutes, ClockTime.text, List.cons_append, List.nil_append,
    List.getD_cons_zero, List.getD_cons_succ, List.drop_succ_cons,
    List.drop_zero, h1, h2, h3]
  unfold ClockTime.minute wrapInt
  rw [Int.bmod_eq_of_le (by omega) (by omega)]
  omega

theorem clampMinutes_minute (t : ClockTime) :
    clampMinutes t.minute = t.minute := by
  have hlt := t.minute_lt
  have hday : dayMin = 1440 := rfl
  unfold clampMinutes
  rw [hday, if_neg (by omega), if_neg (by omega), Int.toNat_natCast]

/-- The digits of a time. -/
theorem ClockTime.text_digits (t : ClockTime) :
    t.text.length = 4 ∧ isDigit (t.text.headD 0) = true
      ∧ ∀ c ∈ t.text, c ≠ 45 ∧ isDigit c = true := by
  have hh := t.hour.isLt
  have hm := t.min.isLt
  have h1 := digitByte_reads (t.hour / 10) (by omega)
  have h2 := digitByte_reads (t.hour % 10) (by omega)
  have h3 := digitByte_reads (t.min / 10) (by omega)
  have h4 := digitByte_reads (t.min % 10) (by omega)
  refine ⟨rfl, h1.2.1, ?_⟩
  simp only [ClockTime.text, List.mem_cons, List.not_mem_nil, or_false]
  rintro c (rfl | rfl | rfl | rfl)
  · exact ⟨h1.1, h1.2.1⟩
  · exact ⟨h2.1, h2.2.1⟩
  · exact ⟨h3.1, h3.2.1⟩
  · exact ⟨h4.1, h4.2.1⟩

/-- The hours are read. -/
theorem hourRange_text (hours : Option (ClockTime × ClockTime)) :
    hourRange (hoursText hours) = some (hoursEnds hours) := by
  rcases hours with _ | ⟨start, end_⟩
  · rfl
  · obtain ⟨hlen, hhead, hmem⟩ := start.text_digits
    obtain ⟨hlen', hhead', -⟩ := end_.text_digits
    have htake : (start.text ++ 45 :: end_.text).takeWhile (· ≠ 45)
        = start.text := by
      rw [List.takeWhile_append_of_pos fun c hc => by
        simpa using (hmem c hc).1]
      simp
    have hdrop : (start.text ++ 45 :: end_.text).dropWhile (· ≠ 45)
        = 45 :: end_.text := by
      rw [List.dropWhile_append_of_pos fun c hc => by
        simpa using (hmem c hc).1]
      simp
    have hstart := minutes_text start (45 :: end_.text) rfl
    have hend' := minutes_text end_ [] rfl
    rw [List.append_nil] at hend'
    have hend : hourEnd (start.text ++ 45 :: end_.text)
        = some (end_.minute : Int) := by
      unfold hourEnd
      rw [hdrop]
      dsimp only
      rw [htake, hlen, hlen', hhead', hend', if_neg (by simp)]
    unfold hourRange hoursText
    dsimp only
    rw [hend]
    dsimp only
    have hhead₂ : isDigit ((start.text ++ 45 :: end_.text).headD 0)
        = true := hhead
    rw [if_neg (by simp), hhead₂, if_neg (by
      rw [List.length_append, hlen]
      simp), hstart, if_neg (by omega), clampMinutes_minute,
      clampMinutes_minute]
    rfl

theorem hoursEnds_lt (hours : Option (ClockTime × ClockTime)) :
    (hoursEnds hours).1 < 1440 ∧ (hoursEnds hours).2 < 1440 := by
  rcases hours with _ | ⟨start, end_⟩
  · exact ⟨Nat.lt_succ_of_lt (Nat.succ_pos _), Nat.lt_succ_self _⟩
  · exact ⟨start.minute_lt, end_.minute_lt⟩

/-- The hours of one day are filled in. -/
theorem hourFill_bits (hours : Option (ClockTime × ClockTime)) (hn : n < 7)
    (hlen : bitmap.length = 1260) (hfuel : 1440 ≤ fuel) :
    FillsIn (hourFill fuel (180 * n) (hoursText hours) bitmap) bitmap
      fun m => m / dayMin = n
        ∧ Arc (hoursEnds hours).1 (hoursEnds hours).2 (m % dayMin) := by
  obtain ⟨hs, he⟩ := hoursEnds_lt hours
  unfold hourFill
  rw [hourRange_text]
  exact hourLoop_bits hn hs he hlen (by omega)

end hours

-- ======== days

section daysOfWeek

variable {n end_ fuel : Nat} {bitmap : List UInt8}
  {hours : Option (ClockTime × ClockTime)}

/-- The days from `n` to the end are filled in. -/
theorem dayLoop_bits (hn : n < 7) (hend : end_ < 7)
    (hlen : bitmap.length = 1260)
    (hfuel : 1440 + (end_ + 7 - n) % 7 < fuel) :
    FillsIn (dayLoop (hoursText hours) end_ fuel n bitmap) bitmap fun m =>
      Arc n end_ (m / dayMin)
        ∧ Arc (hoursEnds hours).1 (hoursEnds hours).2 (m % dayMin) := by
  have hday : dayMin = 1440 := rfl
  have hweek : weekMin = 10080 := rfl
  induction fuel generalizing n bitmap with
  | zero => omega
  | succ fuel ih =>
      obtain ⟨bitmap₁, hrun₁, hl₁, hbits₁⟩ := hourFill_bits hours hn hlen
        (show 1440 ≤ fuel by omega)
      rw [dayLoop, hrun₁, ok_bind]
      by_cases hstop : n = end_
      · rw [if_pos hstop]
        refine ⟨bitmap₁, rfl, hl₁, fun m hm => ?_⟩
        dsimp only
        rw [hbits₁ m hm, ← hstop, arc_self]
      · rw [if_neg hstop]
        obtain ⟨bitmap', hrun, hl, hbits⟩ := @ih ((n + 1) % 7) bitmap₁
          (Nat.mod_lt _ (by omega)) hl₁ (by omega)
        refine ⟨bitmap', hrun, hl, fun m hm => ?_⟩
        dsimp only
        rw [hbits m hm, hbits₁ m hm, arc_step hn hend
          (show m / dayMin < 7 by rw [hday]; omega) hstop]
        tauto

/-- A name is read. -/
theorem strcode_name (rest : List UInt8) : ∀ code < 10,
    strcode (dayName code ++ rest) = some (code, rest) := by
  intro code hcode
  interval_cases code
  · rfl
  · rfl
  · rfl
  · rfl
  · rfl
  · rfl
  · rfl
  · rfl
  · rfl
  · rfl

/-- No name starts with a digit. -/
theorem strcode_digit (rest : List UInt8) : ∀ d < 10,
    strcode (digitByte d :: rest) = none := by
  intro d hd
  interval_cases d
  · rfl
  · rfl
  · rfl
  · rfl
  · rfl
  · rfl
  · rfl
  · rfl
  · rfl
  · rfl

/-- The days end where the hours begin. -/
theorem nextRange_hours (hours : Option (ClockTime × ClockTime)) :
    nextRange (hoursText hours) = none := by
  rcases hours with _ | ⟨start, end_⟩
  · rfl
  · have hh := start.hour.isLt
    obtain ⟨tail, htail⟩ : ∃ tail, hoursText (some (start, end_))
        = digitByte (start.hour / 10) :: tail := ⟨_, rfl⟩
    rw [nextRange, htail, strcode_digit _ _ (by omega)]
    rfl

/-- A text that a range of days may stand in front of. -/
def NoDash (text : List UInt8) : Prop := text.head? ≠ some 45

theorem nextRange_code {code : Nat} (hcode : code < 10)
    {rest : List UInt8} (hrest : NoDash rest) :
    nextRange (dayName code ++ rest) = some (code, code, rest) := by
  unfold nextRange
  rw [strcode_name rest code hcode]
  cases rest with
  | nil => rfl
  | cons c rest =>
      have hc : c ≠ 45 := fun h => hrest (congrArg some h)
      simp only [Option.bind_eq_bind, Option.bind_some]
      split
      · next heq =>
          cases heq
          exact (hc rfl).elim
      · rfl

/-- A day, or several, are read. -/
theorem nextRange_spec (spec : DaySpec) {rest : List UInt8}
    (hrest : NoDash rest) :
    ∃ start end_, nextRange (spec.text ++ rest) = some (start, end_, rest)
      ∧ dayRange start end_ = spec.ends := by
  cases spec with
  | day d =>
      have hd := d.isLt
      refine ⟨d, d, nextRange_code (by omega) hrest, ?_⟩
      rw [dayRange, if_neg (by omega), if_neg (by omega)]
      rfl
  | range first last =>
      have hf := first.isLt
      have hl := last.isLt
      refine ⟨first, last, ?_, ?_⟩
      · unfold nextRange DaySpec.text
        rw [List.append_assoc, strcode_name _ _ (by omega)]
        simp only [Option.bind_eq_bind, Option.bind_some, List.cons_append]
        rw [strcode_name _ _ (by omega)]
        rfl
      · rw [dayRange, if_neg (by omega), if_neg (by omega)]
        rfl
  | wk => exact ⟨7, 7, nextRange_code (by omega) hrest, rfl⟩
  | any => exact ⟨8, 8, nextRange_code (by omega) hrest, rfl⟩
  | al => exact ⟨9, 9, nextRange_code (by omega) hrest, rfl⟩

theorem DaySpec.ends_lt (spec : DaySpec) :
    spec.ends.1 < 7 ∧ spec.ends.2 < 7 := by
  cases spec with
  | day d => exact ⟨d.isLt, d.isLt⟩
  | range first last => exact ⟨first.isLt, last.isLt⟩
  | wk => simp [ends]
  | any => simp [ends]
  | al => simp [ends]

set_option maxRecDepth 2000 in
/-- A name has neither digits nor a dash in front. -/
theorem dayName_chars : ∀ code < 10, (dayName code).headD 45 ≠ 45
    ∧ ∀ c ∈ dayName code, isDigit c = false := by
  decide

theorem DaySpec.text_eq (spec : DaySpec) :
    ∃ code < 10, ∃ tail, spec.text = dayName code ++ tail
      ∧ ∀ c ∈ tail, isDigit c = false := by
  cases spec with
  | day d => exact ⟨d, by omega, [], by simp [text], by simp⟩
  | range first last =>
      have hlast := (dayName_chars last (by omega)).2
      refine ⟨first, by omega, 45 :: dayName last, rfl, ?_⟩
      rintro c (_ | ⟨_, hc⟩)
      · rfl
      · exact hlast c hc
  | wk => exact ⟨7, by omega, [], rfl, by simp⟩
  | any => exact ⟨8, by omega, [], rfl, by simp⟩
  | al => exact ⟨9, by omega, [], rfl, by simp⟩

theorem DaySpec.text_noDigit (spec : DaySpec) :
    ∀ c ∈ spec.text, isDigit c = false := by
  obtain ⟨code, hcode, tail, htext, htail⟩ := spec.text_eq
  rw [htext]
  intro c hc
  rcases List.mem_append.mp hc with hc | hc
  · exact (dayName_chars code hcode).2 c hc
  · exact htail c hc

/-- What a text of days begins with. -/
theorem DaySpec.text_head (spec : DaySpec) (rest : List UInt8) :
    ∃ c tail, spec.text ++ rest = c :: tail ∧ c ≠ 45 ∧ isDigit c = false := by
  obtain ⟨code, hcode, tail, htext, -⟩ := spec.text_eq
  obtain ⟨hhead, hdigit⟩ := dayName_chars code hcode
  rw [htext]
  cases hname : dayName code with
  | nil =>
      rw [hname] at hhead
      exact (hhead rfl).elim
  | cons c name =>
      rw [hname] at hhead hdigit
      exact ⟨c, name ++ tail ++ rest, rfl, hhead, hdigit c List.mem_cons_self⟩

theorem hoursText_head (hours : Option (ClockTime × ClockTime)) :
    hoursText hours = []
      ∨ ∃ c tail, hoursText hours = c :: tail ∧ c ≠ 45
        ∧ isDigit c = true := by
  rcases hours with _ | ⟨start, end_⟩
  · exact .inl rfl
  · have hh := start.hour.isLt
    have hreads := digitByte_reads (start.hour / 10) (by omega)
    exact .inr ⟨_, _, rfl, hreads.1, hreads.2.1⟩

theorem noDash_text (specs : List DaySpec)
    (hours : Option (ClockTime × ClockTime)) :
    NoDash (daysText specs ++ hoursText hours) := by
  cases specs with
  | nil =>
      rw [daysText, List.flatMap_nil, List.nil_append]
      rcases hoursText_head hours with hnil | ⟨c, tail, heq, hc, -⟩
      · rw [hnil]
        exact fun h => by cases h
      · rw [heq]
        exact fun h => hc (Option.some.inj h)
  | cons spec specs =>
      obtain ⟨c, tail, heq, hc, -⟩ := spec.text_head
        (daysText specs ++ hoursText hours)
      rw [daysText, List.flatMap_cons, List.append_assoc]
      change NoDash (spec.text ++ (daysText specs ++ hoursText hours))
      rw [heq]
      exact fun h => hc (Option.some.inj h)

/-- All days of a list are filled in. -/
theorem rangesLoop_bits {specs : List DaySpec}
    (hlen : bitmap.length = 1260) (hfuel : 1447 + specs.length < fuel) :
    FillsIn (rangesLoop (hoursText hours) fuel
        (daysText specs ++ hoursText hours) bitmap) bitmap
      (InDays specs hours) := by
  induction specs generalizing fuel bitmap with
  | nil =>
      obtain ⟨fuel, rfl⟩ : ∃ f, fuel = f + 1 := ⟨fuel - 1, by omega⟩
      rw [daysText, List.flatMap_nil, List.nil_append, rangesLoop,
        nextRange_hours]
      refine ⟨bitmap, rfl, hlen, fun m _ => ?_⟩
      simp [InDays]
  | cons spec specs ih =>
      obtain ⟨fuel, rfl⟩ : ∃ f, fuel = f + 1 := ⟨fuel - 1, by omega⟩
      rw [List.length_cons] at hfuel
      obtain ⟨start, end_, hnext, hrange⟩ :=
        nextRange_spec spec (noDash_text specs hours)
      obtain ⟨hs, he⟩ := spec.ends_lt
      obtain ⟨bitmap₁, hrun₁, hl₁, hbits₁⟩ := @dayLoop_bits spec.ends.1
        spec.ends.2 fuel bitmap hours hs he hlen (by omega)
      obtain ⟨bitmap', hrun, hl, hbits⟩ := @ih fuel bitmap₁ hl₁ (by omega)
      rw [daysText, List.flatMap_cons, List.append_assoc]
      change FillsIn (rangesLoop _ _ (spec.text
        ++ (daysText specs ++ hoursText hours)) _) _ _
      rw [rangesLoop, hnext]
      dsimp only
      rw [hrange, hrun₁, ok_bind, hrun]
      refine ⟨bitmap', rfl, hl, fun m hm => ?_⟩
      rw [hbits m hm, hbits₁ m hm]
      simp only [InDays, List.mem_cons, exists_eq_or_imp]
      tauto

theorem dropWhile_daysText (specs : List DaySpec)
    (hours : Option (ClockTime × ClockTime)) :
    (daysText specs ++ hoursText hours).dropWhile (!isDigit ·)
      = hoursText hours := by
  have hdays : ∀ c ∈ daysText specs, isDigit c = false := by
    intro c hc
    obtain ⟨spec, -, hc⟩ := List.mem_flatMap.mp hc
    exact spec.text_noDigit c hc
  rw [List.dropWhile_append_of_pos fun c hc => by
    simpa using hdays c hc]
  rcases hoursText_head hours with hnil | ⟨c, tail, heq, -, hc⟩
  · rw [hnil]
    rfl
  · rw [heq, List.dropWhile_cons_of_neg (by simpa using hc)]

/-- An item with days is filled in, and one without is not. -/
theorem dayFill_bits (item : TimeItem) (hlen : bitmap.length = 1260)
    (hfuel : 1447 + item.days.length < fuel) :
    FillsIn (dayFill fuel item.text bitmap) bitmap fun m =>
      item.days ≠ [] ∧ item.Covers m := by
  unfold dayFill dayNames TimeItem.text
  rw [dropWhile_daysText]
  by_cases hdays : item.days = []
  · have hnone : nextRange (ascii "Al") = none := rfl
    obtain ⟨fuel, rfl⟩ : ∃ f, fuel = f + 1 := ⟨fuel - 1, by omega⟩
    rw [hdays, daysText, List.flatMap_nil, List.nil_append, if_pos rfl,
      rangesLoop, hnone]
    refine ⟨bitmap, rfl, hlen, fun m _ => ?_⟩
    simp
  · obtain ⟨spec, specs, hcons⟩ := List.exists_cons_of_ne_nil hdays
    have hne : hoursText item.hours
        ≠ daysText item.days ++ hoursText item.hours := by
      obtain ⟨c, tail, heq, -⟩ := spec.text_head []
      intro h
      have := congrArg List.length h
      rw [List.append_nil] at heq
      rw [hcons, daysText, List.flatMap_cons, heq, List.length_append,
        List.length_append, List.length_cons] at this
      omega
    rw [if_neg hne]
    obtain ⟨bitmap', hrun, hl, hbits⟩ :=
      @rangesLoop_bits fuel bitmap item.hours item.days hlen hfuel
    refine ⟨bitmap', hrun, hl, fun m hm => ?_⟩
    dsimp only
    rw [hbits m hm, TimeItem.Covers, if_neg hdays]
    tauto

end daysOfWeek

-- ======== the week

section week

variable {fuel : Nat} {bitmap : List UInt8} {items : List TimeItem}
  {text : List UInt8}

theorem CoveredByDays_cons (item : TimeItem) (minute : Nat) :
    CoveredByDays (item :: items) minute
      ↔ (item.days ≠ [] ∧ item.Covers minute)
        ∨ CoveredByDays items minute := by
  simp only [CoveredByDays, List.mem_cons, exists_eq_or_imp]

/-- An item that is no token has no days. -/
theorem days_of_no_text {item : TimeItem} (h : item.text = []) :
    item.days = [] := by
  by_contra hdays
  obtain ⟨spec, specs, hcons⟩ := List.exists_cons_of_ne_nil hdays
  obtain ⟨c, tail, heq, -⟩ := spec.text_head
    (daysText specs ++ hoursText item.hours)
  rw [TimeItem.text, hcons, daysText, List.flatMap_cons,
    List.append_assoc] at h
  change spec.text ++ (daysText specs ++ hoursText item.hours) = [] at h
  rw [heq] at h
  cases h

/-- All items are filled in. -/
theorem tokensLoop_bits (hlen : bitmap.length = 1260)
    (hfuel : ∀ item ∈ items, 1447 + item.days.length < fuel) :
    FillsIn (tokensLoop fuel ((items.map TimeItem.text).filter (· ≠ []))
      bitmap) bitmap (CoveredByDays items) := by
  induction items generalizing bitmap with
  | nil =>
      refine ⟨bitmap, rfl, hlen, fun m _ => ?_⟩
      simp [CoveredByDays]
  | cons item items ih =>
      have hrest := fun item h => hfuel item (List.mem_cons_of_mem _ h)
      rw [List.map_cons]
      by_cases htext : item.text = []
      · rw [List.filter_cons_of_neg (by simpa using htext)]
        obtain ⟨bitmap', hrun, hl, hbits⟩ := ih hlen hrest
        refine ⟨bitmap', hrun, hl, fun m hm => ?_⟩
        have hdays := days_of_no_text htext
        rw [hbits m hm, CoveredByDays_cons]
        tauto
      · rw [List.filter_cons_of_pos (by simpa using htext)]
        obtain ⟨bitmap₁, hrun₁, hl₁, hbits₁⟩ := dayFill_bits item hlen
          (hfuel item List.mem_cons_self)
        obtain ⟨bitmap', hrun, hl, hbits⟩ := ih hl₁ hrest
        rw [tokensLoop, hrun₁, ok_bind, hrun]
        refine ⟨bitmap', rfl, hl, fun m hm => ?_⟩
        rw [hbits m hm, hbits₁ m hm, CoveredByDays_cons]
        tauto

/-- A byte is a separator or in a piece. -/
theorem mem_splitOnP {p : UInt8 → Bool} {c : UInt8} {cs : List UInt8}
    (h : c ∈ cs) : p c = true ∨ ∃ piece ∈ cs.splitOnP p, c ∈ piece := by
  by_cases hp : p c = true
  · exact .inl hp
  · right
    induction cs with
    | nil => cases h
    | cons d cs ih =>
        rw [List.splitOnP_cons_eq_if_modifyHead]
        rcases List.mem_cons.mp h with rfl | h
        · rw [if_neg hp]
          obtain ⟨piece, pieces, heq⟩ :=
            List.exists_cons_of_ne_nil (List.splitOnP_ne_nil p cs)
          rw [heq]
          exact ⟨c :: piece, List.mem_cons_self, List.mem_cons_self⟩
        · obtain ⟨piece, hmem, hc⟩ := ih h
          split
          · exact ⟨piece, List.mem_cons_of_mem _ hmem, hc⟩
          · cases hsplit : cs.splitOnP p with
            | nil =>
                rw [hsplit] at hmem
                cases hmem
            | cons first pieces =>
                rw [hsplit] at hmem
                rcases List.mem_cons.mp hmem with rfl | hmem
                · exact ⟨d :: piece, List.mem_cons_self,
                    List.mem_cons_of_mem _ hc⟩
                · exact ⟨piece, List.mem_cons_of_mem _ hmem, hc⟩

theorem ClockTime.text_ne_zero (t : ClockTime) : ∀ c ∈ t.text, c ≠ 0 := by
  intro c hc
  obtain ⟨-, -, hall⟩ := t.text_digits
  have hdigit := (hall c hc).2
  rintro rfl
  cases hdigit

set_option maxRecDepth 2000 in
theorem dayName_ne_zero : ∀ code < 10, ∀ c ∈ dayName code, c ≠ 0 := by
  decide

theorem DaySpec.text_ne_zero (spec : DaySpec) : ∀ c ∈ spec.text, c ≠ 0 := by
  cases spec with
  | day d => exact dayName_ne_zero d (by omega)
  | range first last =>
      intro c hc
      rcases List.mem_append.mp hc with hc | hc
      · exact dayName_ne_zero first (by omega) c hc
      · rcases List.mem_cons.mp hc with rfl | hc
        · decide
        · exact dayName_ne_zero last (by omega) c hc
  | wk => exact dayName_ne_zero 7 (by omega)
  | any => exact dayName_ne_zero 8 (by omega)
  | al => exact dayName_ne_zero 9 (by omega)

theorem TimeItem.text_ne_zero (item : TimeItem) : ∀ c ∈ item.text, c ≠ 0 := by
  intro c hc
  rcases List.mem_append.mp hc with hc | hc
  · obtain ⟨spec, -, hc⟩ := List.mem_flatMap.mp hc
    exact spec.text_ne_zero c hc
  · cases hhours : item.hours with
    | none =>
        rw [hhours] at hc
        cases hc
    | some range =>
        rw [hhours] at hc
        rcases List.mem_append.mp hc with hc | hc
        · exact range.1.text_ne_zero c hc
        · rcases List.mem_cons.mp hc with rfl | hc
          · decide
          · exact range.2.text_ne_zero c hc

/-- `strtok` finds the texts of the items, but for the empty ones. -/
theorem weekTokens_items (h : WritesTimes text items)
    (hlen : text.length < 128) :
    weekTokens text = (items.map TimeItem.text).filter (· ≠ []) := by
  have hzero : ∀ c ∈ text, c ≠ 0 := by
    rintro c hc rfl
    have hmem : (0 : UInt8) ∈ text.map toLower :=
      List.mem_map.mpr ⟨0, hc, rfl⟩
    rcases @mem_splitOnP (fun c => c == 44 || c == 124) 0 _ hmem with hsep | ⟨piece, hpiece, hc⟩
    · cases hsep
    · rw [h] at hpiece
      obtain ⟨item, -, rfl⟩ := List.mem_map.mp hpiece
      exact item.text_ne_zero 0 hc rfl
  have hcopy : strlcpy 128 text = text := by
    rw [strlcpy, cString_of_ne hzero, List.take_of_length_le (by omega)]
  rw [weekTokens, hcopy, h]

/-- The count goes on as long as the bits are set. -/
theorem matchLoop_lasts {now : Nat} (hlen : bitmap.length = 1260)
    (hnow : now < weekMin) {s : Nat} (hs : s < weekMin)
    (hbefore : ∀ j < s, bitSet bitmap ((now + j) % weekMin))
    (hfuel : weekMin - s ≤ fuel) :
    ∃ left tot i, matchLoop bitmap now fuel ((now + s) % weekMin)
        ((60 * s : Nat) : Int) = .ok (tot, i)
      ∧ Lasts weekMin (bitSet bitmap) now left
      ∧ (if tot = 0 then -1 else if i = now then 0 else tot)
        = secondsLeft left := by
  have hweek : weekMin = 10080 := rfl
  induction fuel generalizing s with
  | zero => omega
  | succ fuel ih =>
      have hread := fetch_getD (show (now + s) % weekMin / 8
        < bitmap.length by rw [hweek]; omega)
      rw [matchLoop, hread, ok_bind]
      by_cases hbit : bitmap.getD ((now + s) % weekMin / 8) 0
          &&& (1 <<< UInt8.ofNat ((now + s) % weekMin % 8)) = 0
      · rw [if_pos hbit]
        refine ⟨some s, _, _, rfl, .upTo hbefore (fun h => h hbit), ?_⟩
        cases s with
        | zero => rfl
        | succ s =>
            rw [if_neg (by omega), if_neg (by rw [hweek]; omega)]
            rfl
      · rw [if_neg hbit]
        have hset : bitSet bitmap ((now + s) % weekMin) := hbit
        have hall : ∀ j < s + 1, bitSet bitmap ((now + j) % weekMin) := by
          intro j hj
          by_cases hlast : j = s
          · rw [hlast]
            exact hset
          · exact hbefore j (by omega)
        have hnext : ((now + s) % weekMin + 1) % weekMin
            = (now + (s + 1)) % weekMin := by
          rw [hweek]
          omega
        have htot : ((60 * s : Nat) : Int) + 60
            = ((60 * (s + 1) : Nat) : Int) := by omega
        dsimp only
        rw [hnext, htot]
        by_cases hround : (now + (s + 1)) % weekMin = now
        · rw [if_pos hround]
          refine ⟨none, _, _, rfl, .always fun m hm => ?_, ?_⟩
          · obtain ⟨k, hk, hm'⟩ := steps_reach hm hnow
            rw [← hm']
            apply hall
            rw [hweek] at hround hk
            omega
          · rw [if_neg (by omega), if_pos hround]
            rfl
        · rw [if_neg hround]
          have hlt : s + 1 < weekMin := by
            rw [hweek] at hround ⊢
            omega
          exact ih hlt hall (by omega)

end week

-- ======== the result

section result

variable {text : List UInt8} {items : List TimeItem} {tm : LocalTime}

/-- From some fuel on, `timestr_match` returns `r`. -/
def TimestrReturns (text : List UInt8) (tm : LocalTime) (r : Int) : Prop :=
  ∃ enough, ∀ fuel, enough ≤ fuel → timestrMatch fuel text tm = .ok r

theorem TimestrReturns.unique {r r' : Int} (h : TimestrReturns text tm r)
    (h' : TimestrReturns text tm r') : r = r' := by
  obtain ⟨enough, hr⟩ := h
  obtain ⟨enough', hr'⟩ := h'
  have hmost := hr (enough + enough') (Nat.le_add_right _ _)
  rw [hr' (enough + enough') (Nat.le_add_left _ _)] at hmost
  exact (Except.ok.inj hmost).symm

/-- `timestr_match` counts the minutes of the items that have days. -/
theorem timestrMatch_returns (h : WritesTimes text items)
    (hlen : text.length < 128) :
    ∃ left, Lasts weekMin (CoveredByDays items) tm.minuteOfWeek left
      ∧ TimestrReturns text tm (secondsLeft left) := by
  have hnow : tm.minuteOfWeek < weekMin := minuteOfWeek_lt tm
  obtain ⟨left, hleft⟩ := Lasts.total weekMin (CoveredByDays items) hnow
  refine ⟨left, hleft,
    12000 + (items.map fun item => item.days.length).sum, ?_⟩
  intro fuel hfuel
  have hweek : weekMin = 10080 := rfl
  have hzeros : (List.replicate (weekMin / 8) (0 : UInt8)).length = 1260 :=
    List.length_replicate
  obtain ⟨bitmap, hrun, hl, hbits⟩ := @tokensLoop_bits fuel _ items hzeros (by
    intro item hmem
    have hle : item.days.length ∈ items.map fun item => item.days.length :=
      List.mem_map.mpr ⟨item, hmem, rfl⟩
    have := List.le_sum_of_mem hle
    omega)
  obtain ⟨left', tot, i, hloop, hlast, hresult⟩ :=
    @matchLoop_lasts fuel bitmap tm.minuteOfWeek hl hnow 0 (by omega)
      (fun j hj => by omega) (by omega)
  have hsame : ∀ m < weekMin, bitSet bitmap m ↔ CoveredByDays items m := by
    intro m hm
    rw [hbits m hm]
    exact ⟨fun h => h.resolve_left (not_bitSet_zeros m), .inr⟩
  have hstart : (tm.minuteOfWeek + 0) % weekMin = tm.minuteOfWeek := by
    rw [Nat.add_zero, Nat.mod_eq_of_lt hnow]
  rw [hstart] at hloop
  have heq := Lasts.unique hnow (hlast.congr hnow hsame) hleft
  unfold timestrMatch weekFill
  rw [weekTokens_items h hlen]
  dsimp only
  rw [hrun, ok_bind]
  rw [show ((60 * 0 : Nat) : Int) = 0 from rfl] at hloop
  rw [hloop, ok_bind, ← heq, ← hresult]
  dsimp only
  split
  · rfl
  · rfl

/-- When `timestr_match` returns what a list of days and hours means: no
minute from now to the first one that is not covered is covered only by
items without days. -/
theorem timestrMatch_timeLeft_iff (h : WritesTimes text items)
    (hlen : text.length < 128) :
    (∃ r, TimestrReturns text tm r
        ∧ TimeLeft (Covered items) tm.minuteOfWeek r)
      ↔ ∀ k, (∀ j ≤ k, Covered items ((tm.minuteOfWeek + j) % weekMin)) →
        CoveredByDays items ((tm.minuteOfWeek + k) % weekMin) := by
  have hnow : tm.minuteOfWeek < weekMin := minuteOfWeek_lt tm
  obtain ⟨left, hleft, hreturns⟩ := @timestrMatch_returns _ _ tm h hlen
  obtain ⟨meant, hmeant⟩ := Lasts.total weekMin (Covered items) hnow
  have hsub : ∀ m, CoveredByDays items m → Covered items m := by
    rintro m ⟨item, hmem, -, hcovers⟩
    exact ⟨item, hmem, hcovers⟩
  rw [← Lasts.agree hsub hnow hleft hmeant, ← secondsLeft_inj]
  constructor
  · rintro ⟨r, hr, htime⟩
    rw [← (timeLeft_iff hnow hmeant).mp htime]
    exact (hr.unique hreturns).symm
  · intro hsame
    exact ⟨secondsLeft left, hreturns,
      (timeLeft_iff hnow hmeant).mpr hsame⟩

end result

/-- From 8 to 17 hours, without a day. -/
def officeHours : TimeItem := ⟨[], some (⟨8, 0⟩, ⟨17, 0⟩)⟩

theorem officeHours_written :
    WritesTimes (ascii "0800-1700") [officeHours] := by
  unfold WritesTimes
  decide +kernel

/-- The same hours with their day: at nine o'clock on Monday the time that
is left is the one that is meant. -/
theorem timestrMatch_timeLeft_iff_monday :
    ∃ r, TimestrReturns (ascii "Mo0800-1700") ⟨1, 9, 0⟩ r
      ∧ TimeLeft (Covered [⟨[.day 1], officeHours.hours⟩]) 1980 r := by
  have hwritten : WritesTimes (ascii "Mo0800-1700")
      [⟨[.day 1], officeHours.hours⟩] := by
    unfold WritesTimes
    decide +kernel
  refine (@timestrMatch_timeLeft_iff _ _ ⟨1, 9, 0⟩ hwritten
    (by decide)).mpr fun k hall => ?_
  obtain ⟨item, hitem, hcovers⟩ := hall k (Nat.le_refl k)
  refine ⟨item, hitem, ?_, hcovers⟩
  rw [List.mem_singleton.mp hitem]
  exact List.cons_ne_nil _ _

/-- At nine o'clock on Monday these hours are not found. -/
theorem officeHours_missed :
    WritesTimes (ascii "0800-1700") [officeHours]
      ∧ ¬∃ r, TimestrReturns (ascii "0800-1700") ⟨1, 9, 0⟩ r
        ∧ TimeLeft (Covered [officeHours]) 1980 r := by
  refine ⟨officeHours_written, ?_⟩
  rintro ⟨r, hr, htime⟩
  have hnone : ∀ m, ¬CoveredByDays [officeHours] m := by
    rintro m ⟨item, hmem, hdays, -⟩
    rw [List.mem_singleton.mp hmem] at hdays
    exact hdays rfl
  have hnow : (1980 : Nat) < weekMin := by decide
  obtain ⟨left, hleft, hreturns⟩ := @timestrMatch_returns _ _
    (⟨1, 9, 0⟩ : LocalTime) officeHours_written (by decide)
  have hfirst : Lasts weekMin (CoveredByDays [officeHours]) 1980 (some 0) :=
    .upTo (fun j hj => absurd hj (Nat.not_lt_zero j)) (hnone _)
  have hminus : r = -1 := by
    rw [hr.unique hreturns, Lasts.unique hnow hleft hfirst]
    rfl
  have hcovered : officeHours.Covers 1980 :=
    ⟨⟨.al, List.mem_cons_self, by decide⟩, by decide⟩
  exact htime.outside.mp hminus ⟨_, List.mem_cons_self, hcovered⟩

end WinRadius
