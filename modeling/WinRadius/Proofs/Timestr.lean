/-
When `timestr_match` comes to an end.

All loops but one count to a bound. The days of a range are counted modulo
7 up to the end code, and that may be one of the three codes from 7 on:
then the loop does not stop (`dayLoop_hangs`). Wherever it stops, and as
long as it runs, the bitmap is only touched inside.

A run of the fillers is `Filling`: it has run out of fuel, or it has left
a bitmap of the same size.
-/
import WinRadius.Model.Timestr

namespace WinRadius

open Lib

-- ======== the bitmap

/-- Nothing outside a bitmap of `len` bytes was touched. -/
def Filling (len : Nat) (run : Mem (List UInt8)) : Prop :=
  run = .error .hang ∨ ∃ bitmap, run = .ok bitmap ∧ bitmap.length = len

theorem Filling.length_of_ok {len : Nat} {run : Mem (List UInt8)}
    {bitmap : List UInt8} (h : Filling len run) (hok : run = .ok bitmap) :
    bitmap.length = len := by
  rcases h with hhang | ⟨bitmap', hok', hl⟩
  · rw [hhang] at hok
    cases hok
  · rw [hok'] at hok
    cases hok
    exact hl

section fill

variable {offset end_ fuel i n len : Nat} {bitmap hr tm : List UInt8}

/-- One bit more. -/
theorem setBit_ok (h : i < bitmap.length) (mask : UInt8) :
    ∃ octet bitmap', fetch bitmap i = .ok octet
      ∧ store bitmap i (octet ||| mask) = .ok bitmap'
      ∧ bitmap'.length = bitmap.length := by
  refine ⟨bitmap.getD i 0, bitmap.set i (bitmap.getD i 0 ||| mask),
    fetch_getD h, ?_, List.length_set ..⟩
  rw [store, if_pos h]
  rfl

theorem hourLoop_step (hi : i < 1440) (hlen : offset + 180 ≤ bitmap.length) :
    ∃ bitmap', bitmap'.length = bitmap.length
      ∧ hourLoop offset end_ (fuel + 1) i bitmap
        = if i = end_ then .ok bitmap'
          else hourLoop offset end_ fuel ((i + 1) % dayMin) bitmap' := by
  obtain ⟨octet, bitmap', hf, hs, hl⟩ := setBit_ok
    (show offset + i / 8 < bitmap.length by omega)
    (1 <<< UInt8.ofNat (i % 8))
  refine ⟨bitmap', hl, ?_⟩
  rw [hourLoop, hf, ok_bind, hs, ok_bind]
  rfl

theorem hourLoop_filling (hi : i < 1440)
    (hlen : offset + 180 ≤ bitmap.length) :
    Filling bitmap.length (hourLoop offset end_ fuel i bitmap) := by
  induction fuel generalizing i bitmap with
  | zero => exact Or.inl rfl
  | succ fuel ih =>
      obtain ⟨bitmap', hl, hstep⟩ := hourLoop_step hi hlen
      rw [hstep]
      split
      · exact Or.inr ⟨bitmap', rfl, hl⟩
      · rw [← hl]
        apply ih
        · exact Nat.mod_lt _ (by decide)
        · omega

/-- The minutes from `i` to the end, around the day. -/
theorem hourLoop_ok (hi : i < 1440) (hend : end_ < 1440)
    (hlen : offset + 180 ≤ bitmap.length)
    (hfuel : (end_ + 1440 - i) % 1440 < fuel) :
    ∃ bitmap', hourLoop offset end_ fuel i bitmap = .ok bitmap' := by
  induction fuel generalizing i bitmap with
  | zero => omega
  | succ fuel ih =>
      obtain ⟨bitmap', hl, hstep⟩ := hourLoop_step hi hlen
      rw [hstep]
      split
      · exact ⟨bitmap', rfl⟩
      · next hne =>
          have hday : dayMin = 1440 := rfl
          rw [hday]
          apply ih
          · omega
          · omega
          · omega

theorem clampMinutes_lt (m : Int) : clampMinutes m < 1440 := by
  have hday : dayMin = 1440 := rfl
  unfold clampMinutes
  rw [hday]
  split
  · omega
  · split
    · omega
    · omega

theorem hourRange_lt {start : Nat} (h : hourRange tm = some (start, end_)) :
    start < 1440 ∧ end_ < 1440 := by
  unfold hourRange at h
  split at h
  · cases h
  · split at h
    · cases h
      decide
    · split at h
      · cases h
      · cases h
        exact ⟨clampMinutes_lt _, clampMinutes_lt _⟩

theorem hourFill_filling (fuel : Nat) (tm : List UInt8)
    (hlen : offset + 180 ≤ bitmap.length) :
    Filling bitmap.length (hourFill fuel offset tm bitmap) := by
  unfold hourFill
  split
  · exact Or.inr ⟨bitmap, rfl, rfl⟩
  · next start end_ hrange =>
      exact hourLoop_filling (hourRange_lt hrange).1 hlen

theorem hourFill_ok (tm : List UInt8)
    (hlen : offset + 180 ≤ bitmap.length)
    (hfuel : 1440 ≤ fuel) :
    ∃ bitmap', hourFill fuel offset tm bitmap = .ok bitmap' := by
  unfold hourFill
  split
  · exact ⟨bitmap, rfl⟩
  · next start end_ hrange =>
      obtain ⟨hs, he⟩ := hourRange_lt hrange
      apply hourLoop_ok hs he hlen
      omega

-- ======== the days

theorem dayLoop_filling (fuel end_ : Nat) (hr : List UInt8) (hn : n < 7) (hlen : bitmap.length = 1260) :
    Filling 1260 (dayLoop hr end_ fuel n bitmap) := by
  induction fuel generalizing n bitmap with
  | zero => exact Or.inl rfl
  | succ fuel ih =>
      rw [dayLoop]
      rcases hourFill_filling fuel hr
          (show 180 * n + 180 ≤ bitmap.length by omega) with
        hhang | ⟨bitmap', hok, hl⟩
      · rw [hhang]
        exact Or.inl rfl
      · rw [hok, ok_bind]
        split
        · exact Or.inr ⟨bitmap', rfl, by omega⟩
        · apply ih
          · omega
          · omega

/-- The days from `n` to the end, around the week. -/
theorem dayLoop_ok (hr : List UInt8) (hn : n < 7) (hend : end_ < 7)
    (hlen : bitmap.length = 1260)
    (hfuel : 1440 + (end_ + 7 - n) % 7 < fuel) :
    ∃ bitmap', dayLoop hr end_ fuel n bitmap = .ok bitmap' := by
  induction fuel generalizing n bitmap with
  | zero => omega
  | succ fuel ih =>
      have hroom : 180 * n + 180 ≤ bitmap.length := by omega
      obtain ⟨bitmap', hok⟩ := hourFill_ok hr hroom
        (show 1440 ≤ fuel by omega)
      have hl := (hourFill_filling _ _ hroom).length_of_ok hok
      rw [dayLoop, hok, ok_bind]
      split
      · exact ⟨bitmap', rfl⟩
      · apply ih
        · omega
        · omega
        · omega

/-- No day has the number of a pseudo-day. -/
theorem dayLoop_hangs (hn : n < 7) (hend : 7 ≤ end_)
    (hlen : bitmap.length = 1260) :
    dayLoop hr end_ fuel n bitmap = .error .hang := by
  induction fuel generalizing n bitmap with
  | zero => rfl
  | succ fuel ih =>
      rw [dayLoop]
      rcases hourFill_filling fuel hr
          (show 180 * n + 180 ≤ bitmap.length by omega) with
        hhang | ⟨bitmap', hok, hl⟩
      · rw [hhang]
        rfl
      · rw [hok, ok_bind, if_neg (by omega)]
        apply ih
        · omega
        · omega

-- ======== the ranges

/-- What `nextRange` leaves is shorter by two bytes at least. -/
theorem strcode_shorter {str rest : List UInt8} {code : Nat}
    (h : strcode str = some (code, rest)) :
    code < 10 ∧ rest.length < str.length := by
  unfold strcode at h
  split at h
  · cases h
  · next i hi =>
      cases h
      obtain ⟨hlt, hfront, -⟩ := List.findIdx?_eq_some_iff_getElem.mp hi
      have hshort : ∀ k < 10, 0 < (days.getD k []).length := by decide
      have hk : code < 10 := hlt
      have hget : days.getD code [] = days[code] := by
        rw [List.getD_eq_getElem?_getD, List.getElem?_eq_getElem hlt]
        rfl
      have hpos := hshort code hk
      have hle := (List.isPrefixOf_iff_prefix.mp hfront).length_le
      rw [hget] at hpos ⊢
      rw [List.length_drop]
      exact ⟨hk, by omega⟩

theorem nextRange_shorter {rest : List UInt8} {start : Nat}
    (h : nextRange tm = some (start, end_, rest)) :
    start < 10 ∧ end_ < 10 ∧ rest.length < tm.length := by
  unfold nextRange at h
  obtain ⟨⟨s, tm'⟩, hs, h⟩ := Option.bind_eq_some_iff.mp h
  obtain ⟨hs10, hstm⟩ := strcode_shorter hs
  dsimp only at h
  split at h
  · next tm'' =>
      obtain ⟨⟨e, tm3⟩, he, h⟩ := Option.bind_eq_some_iff.mp h
      obtain ⟨he10, hetm⟩ := strcode_shorter he
      cases h
      dsimp only at hetm ⊢
      rw [List.length_cons] at hstm
      exact ⟨hs10, he10, by omega⟩
  · cases h
    exact ⟨hs10, hs10, hstm⟩

/-- The ranges of codes in a list of days. -/
def dayRanges : Nat → List UInt8 → List (Nat × Nat)
  | 0, _ => []
  | k + 1, tm =>
      match nextRange tm with
      | none => []
      | some (start, end_, rest) => (start, end_) :: dayRanges k rest

/-- From one of the seven days to a code that stands for several. -/
def Endless (r : Nat × Nat) : Prop := r.1 < 7 ∧ 7 ≤ r.2

instance (r : Nat × Nat) : Decidable (Endless r) :=
  inferInstanceAs (Decidable (_ ∧ _))

theorem dayRange_cases {start : Nat} (end_ : Nat) (hs : start < 10) :
    (dayRange start end_).1 < 7
      ∧ ((dayRange start end_).2 < 7 ↔ ¬ Endless (start, end_)) := by
  unfold dayRange Endless
  split
  · dsimp only
    omega
  · split
    · dsimp only
      omega
    · dsimp only
      omega

theorem rangesLoop_filling (fuel : Nat) (hr tm : List UInt8)
    (hlen : bitmap.length = 1260) :
    Filling 1260 (rangesLoop hr fuel tm bitmap) := by
  induction fuel generalizing tm bitmap with
  | zero => exact Or.inl rfl
  | succ fuel ih =>
      rw [rangesLoop]
      split
      · exact Or.inr ⟨bitmap, rfl, hlen⟩
      · next start end_ rest hnext =>
          have hn := (dayRange_cases end_
            (nextRange_shorter hnext).1).1
          dsimp only
          rcases dayLoop_filling fuel (dayRange start end_).2 hr
              hn hlen with
            hhang | ⟨bitmap', hok, hl⟩
          · rw [hhang]
            exact Or.inl rfl
          · rw [hok, ok_bind]
            exact ih rest hl

theorem rangesLoop_ok {k : Nat} (hr : List UInt8) (hlen : bitmap.length = 1260)
    (hk : tm.length ≤ k) (hfine : ∀ r ∈ dayRanges k tm, ¬ Endless r)
    (hfuel : 1447 + k < fuel) :
    ∃ bitmap', rangesLoop hr fuel tm bitmap = .ok bitmap' := by
  induction k generalizing tm bitmap fuel with
  | zero =>
      obtain ⟨fuel, rfl⟩ : ∃ f, fuel = f + 1 := ⟨fuel - 1, by omega⟩
      have hnil : tm = [] := List.length_eq_zero_iff.mp (by omega)
      rw [hnil]
      exact ⟨bitmap, rfl⟩
  | succ k ih =>
      obtain ⟨fuel, rfl⟩ : ∃ f, fuel = f + 1 := ⟨fuel - 1, by omega⟩
      rw [rangesLoop]
      rw [dayRanges] at hfine
      split
      · exact ⟨bitmap, rfl⟩
      · next start end_ rest hnext =>
          rw [hnext] at hfine
          obtain ⟨hs, -, hrest⟩ := nextRange_shorter hnext
          obtain ⟨hn, hiff⟩ := dayRange_cases end_ hs
          have hend := hiff.mpr (hfine _ List.mem_cons_self)
          dsimp only
          obtain ⟨bitmap', hok⟩ := dayLoop_ok hr hn hend hlen
            (show 1440 + _ % 7 < fuel by omega)
          have hl := (dayLoop_filling _ _ _ hn hlen).length_of_ok hok
          rw [hok, ok_bind]
          apply ih hl
          · omega
          · exact fun r hr => hfine r (List.mem_cons_of_mem _ hr)
          · omega

theorem rangesLoop_hangs {k : Nat} {r : Nat × Nat}
    (hlen : bitmap.length = 1260) (hmem : r ∈ dayRanges k tm)
    (hr' : Endless r) : rangesLoop hr fuel tm bitmap = .error .hang := by
  induction k generalizing tm bitmap fuel with
  | zero => cases hmem
  | succ k ih =>
      cases fuel with
      | zero => rfl
      | succ fuel =>
          rw [dayRanges] at hmem
          rw [rangesLoop]
          split
          · next hnext =>
              rw [hnext] at hmem
              cases hmem
          · next start end_ rest hnext =>
              rw [hnext] at hmem
              obtain ⟨hn, hiff⟩ := dayRange_cases end_
                (nextRange_shorter hnext).1
              dsimp only
              rcases dayLoop_filling fuel (dayRange start end_).2 hr
                  hn hlen with
                hhang | ⟨bitmap', hok, hl⟩
              · rw [hhang]
                rfl
              · rcases List.mem_cons.mp hmem with rfl | hmem
                · rw [dayLoop_hangs hn (not_lt.mp fun hlt =>
                    hiff.mp hlt hr') hlen]
                  rfl
                · rw [hok, ok_bind]
                  exact ih hl hmem

-- ======== the week

/-- A part of the time string whose days do not come to an end. -/
def EndlessDays (s : List UInt8) : Prop :=
  ∃ r ∈ dayRanges (dayNames s).length (dayNames s), Endless r

instance (s : List UInt8) : Decidable (EndlessDays s) :=
  inferInstanceAs (Decidable (∃ r ∈ _, _))

theorem tokensLoop_filling (fuel : Nat) (ss : List (List UInt8))
    (hlen : bitmap.length = 1260) :
    Filling 1260 (tokensLoop fuel ss bitmap) := by
  induction ss generalizing bitmap with
  | nil => exact Or.inr ⟨bitmap, rfl, hlen⟩
  | cons s ss ih =>
      rw [tokensLoop, dayFill]
      rcases rangesLoop_filling fuel (s.dropWhile (!isDigit ·))
          (dayNames s) hlen with
        hhang | ⟨bitmap', hok, hl⟩
      · rw [hhang]
        exact Or.inl rfl
      · rw [hok, ok_bind]
        exact ih hl

theorem tokensLoop_ok (fuel : Nat) {ss : List (List UInt8)}
    (hlen : bitmap.length = 1260) (hfine : ∀ s ∈ ss, ¬ EndlessDays s)
    (hfuel : ∀ s ∈ ss, 1447 + (dayNames s).length < fuel) :
    ∃ bitmap', tokensLoop fuel ss bitmap = .ok bitmap'
      ∧ bitmap'.length = 1260 := by
  induction ss generalizing bitmap with
  | nil => exact ⟨bitmap, rfl, hlen⟩
  | cons s ss ih =>
      have hs := hfine s List.mem_cons_self
      obtain ⟨bitmap', hok⟩ := rangesLoop_ok
        (s.dropWhile (!isDigit ·)) hlen (Nat.le_refl _)
        (fun r hr hend => hs ⟨r, hr, hend⟩) (hfuel s List.mem_cons_self)
      have hl := (rangesLoop_filling _ _ _ hlen).length_of_ok hok
      rw [tokensLoop, dayFill, hok, ok_bind]
      apply ih hl
      · exact fun s hs => hfine s (List.mem_cons_of_mem _ hs)
      · exact fun s hs => hfuel s (List.mem_cons_of_mem _ hs)

theorem tokensLoop_hangs {ss : List (List UInt8)} {s : List UInt8}
    (hlen : bitmap.length = 1260) (hmem : s ∈ ss) (hs : EndlessDays s) :
    tokensLoop fuel ss bitmap = .error .hang := by
  induction ss generalizing bitmap with
  | nil => cases hmem
  | cons s' ss ih =>
      rw [tokensLoop, dayFill]
      rcases rangesLoop_filling fuel (s'.dropWhile (!isDigit ·))
          (dayNames s') hlen with
        hhang | ⟨bitmap', hok, hl⟩
      · rw [hhang]
        rfl
      · rcases List.mem_cons.mp hmem with rfl | hmem
        · obtain ⟨r, hr, hend⟩ := hs
          rw [rangesLoop_hangs hlen hr hend]
          rfl
        · rw [hok, ok_bind]
          exact ih hl hmem

end fill

-- ======== the minutes

theorem minuteOfWeek_lt (tm : LocalTime) : tm.minuteOfWeek < 10080 := by
  have hw := tm.wday.isLt
  have hh := tm.hour.isLt
  have hm := tm.min.isLt
  have hday : dayMin = 1440 := rfl
  unfold LocalTime.minuteOfWeek
  rw [hday]
  omega

section match_

variable {bitmap : List UInt8} {fuel i now : Nat} {tot : Int}

/-- The count goes around the week once at most. -/
theorem matchLoop_run (fuel : Nat) (tot : Int) (hlen : bitmap.length = 1260) (hi : i < 10080)
    (hnow : now < 10080) :
    (∀ e, matchLoop bitmap now fuel i tot = .error e → e = .hang)
      ∧ ((now + 10080 - i - 1) % 10080 < fuel →
        ∃ r, matchLoop bitmap now fuel i tot = .ok r) := by
  induction fuel generalizing i tot with
  | zero =>
      constructor
      · intro e he
        cases he
        rfl
      · intro hfuel
        omega
  | succ fuel ih =>
      have hread := fetch_getD (show i / 8 < bitmap.length by omega)
      have hweek : weekMin = 10080 := rfl
      rw [matchLoop, hread, ok_bind, hweek]
      split
      · exact ⟨fun e he => (by cases he), fun _ => ⟨_, rfl⟩⟩
      · dsimp only
        split
        · exact ⟨fun e he => (by cases he), fun _ => ⟨_, rfl⟩⟩
        · next hne =>
            obtain ⟨herr, hok⟩ := ih (tot + 60)
              (show (i + 1) % 10080 < 10080 by omega)
            exact ⟨herr, fun hfuel => hok (by omega)⟩

end match_

-- ======== the result

variable {tmstr : List UInt8} {tm : LocalTime} {fuel : Nat}

/-- An access outside the bitmap does not happen. -/
theorem timestrMatch_inside {e : Fault}
    (h : timestrMatch fuel tmstr tm = .error e) : e = .hang := by
  have hlen : (List.replicate (weekMin / 8) (0 : UInt8)).length = 1260 :=
    List.length_replicate
  unfold timestrMatch weekFill at h
  dsimp only at h
  rcases tokensLoop_filling fuel (weekTokens tmstr) hlen with
    hhang | ⟨bitmap, hok, hl⟩
  · rw [hhang] at h
    cases h
    rfl
  · rw [hok, ok_bind] at h
    rcases bind_eq_error.mp h with herr | ⟨r, hr, hrest⟩
    · exact (matchLoop_run _ _ hl (minuteOfWeek_lt tm)
        (minuteOfWeek_lt tm)).1 e herr
    · split at hrest
      · cases hrest
      · cases hrest

theorem timestrMatch_ends
    (h : ∀ s ∈ weekTokens tmstr, ¬ EndlessDays s) :
    ∃ fuel r, timestrMatch fuel tmstr tm = .ok r := by
  have hlen : (List.replicate (weekMin / 8) (0 : UInt8)).length = 1260 :=
    List.length_replicate
  obtain ⟨most, hmost⟩ : ∃ most, ∀ s ∈ weekTokens tmstr,
      (dayNames s).length ≤ most :=
    ⟨((weekTokens tmstr).map fun s => (dayNames s).length).sum,
      fun s hs => List.le_sum_of_mem (List.mem_map.mpr ⟨s, hs, rfl⟩)⟩
  have hnow := minuteOfWeek_lt tm
  obtain ⟨bitmap, hok, hl⟩ := tokensLoop_ok (10080 + most)
    hlen h fun s hs => by
      have := hmost s hs
      omega
  obtain ⟨⟨tot, i⟩, hr⟩ := (matchLoop_run (10080 + most) 0
    hl hnow hnow).2 (by omega)
  refine ⟨10080 + most, ?_⟩
  unfold timestrMatch weekFill
  dsimp only
  rw [hok, ok_bind, hr, ok_bind]
  dsimp only
  split
  · exact ⟨_, rfl⟩
  · exact ⟨_, rfl⟩

theorem timestrMatch_hangs {s : List UInt8} (hs : s ∈ weekTokens tmstr)
    (h : EndlessDays s) : timestrMatch fuel tmstr tm = .error .hang := by
  have hlen : (List.replicate (weekMin / 8) (0 : UInt8)).length = 1260 :=
    List.length_replicate
  unfold timestrMatch weekFill
  dsimp only
  rw [tokensLoop_hangs hlen hs h]
  rfl

/-- `timestr_match` terminates, inside its bitmap, exactly when no range
of days goes from one of the seven to a pseudo-day. -/
theorem timestrMatch_iff (tmstr : List UInt8) (tm : LocalTime) :
    ((∃ fuel r, timestrMatch fuel tmstr tm = .ok r)
      ∧ ∀ fuel e, timestrMatch fuel tmstr tm = .error e → e = .hang)
      ↔ ∀ s ∈ weekTokens tmstr, ¬ EndlessDays s := by
  constructor
  · intro hends s hs hendless
    obtain ⟨⟨fuel, r, hok⟩, -⟩ := hends
    rw [timestrMatch_hangs hs hendless] at hok
    cases hok
  · intro hfine
    refine ⟨timestrMatch_ends hfine, ?_⟩
    intro fuel e he
    exact timestrMatch_inside he

/-- From Monday to the working days, at any time. -/
theorem mondayToWorkdays_hangs :
    ¬ ∃ (tm : LocalTime) (fuel : Nat) (r : Int),
      timestrMatch fuel (ascii "Mo-Wk0800-1700") tm = .ok r := by
  intro hends
  obtain ⟨tm, fuel, r, hok⟩ := hends
  have hs : ∃ s ∈ weekTokens (ascii "Mo-Wk0800-1700"), EndlessDays s := by
    decide
  obtain ⟨s, hmem, hendless⟩ := hs
  rw [timestrMatch_hangs hmem hendless] at hok
  cases hok

end WinRadius
