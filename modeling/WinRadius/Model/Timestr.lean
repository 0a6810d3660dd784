/-
`timestr_match` of timestr.cpp.

A string is its bytes without the terminator, and a pointer into it is
what is left. `localtime_r` gives the three fields that are read. The
loops take fuel, and running out of it is a `hang`; an access outside the
bitmap is a fault. `int` is 32 bits wide, and `atoi` saturates.
-/
import WinRadius.Lib.Blocks
import WinRadius.Model.ParseValue

namespace WinRadius

open Lib

def dayMin : Nat := 24 * 60
def weekMin : Nat := 24 * 60 * 7

/-- `days`. -/
def days : List (List UInt8) :=
  ["su", "mo", "tu", "we", "th", "fr", "sa", "wk", "any", "al"].map ascii

/-- `val`. -/
def timeVal (x : UInt8) : Int := if x < 48 ∨ 57 < x then 0 else x.toNat - 48

/-- `strcode`: the number of the first name the string starts with, and
what follows it; `none` where it returns -1. -/
def strcode (str : List UInt8) : Option (Nat × List UInt8) :=
  match days.findIdx? (·.isPrefixOf str) with
  | none => none
  | some i => some (i, str.drop (days.getD i []).length)

-- ======== hour_fill

/-- The sum of `int`s. -/
def wrapInt (n : Int) : Int := n.bmod 4294967296

/-- `600 * val(p[0]) + 60 * val(p[1]) + atoi(p + 2)`. -/
def minutes (p : List UInt8) : Int :=
  wrapInt (600 * timeVal (p.getD 0 0) + 60 * timeVal (p.getD 1 0)
    + strtol 10 (p.drop 2))

/-- "Treat 2400 as 0000, and do some more silent error checks." -/
def clampMinutes (n : Int) : Nat :=
  if n < 0 then 0 else if dayMin ≤ n then dayMin - 1 else n.toNat

/-- The loop of `hour_fill`. -/
def hourLoop (offset end_ : Nat) : Nat → Nat → List UInt8 →
    Mem (List UInt8)
  | 0, _, _ => throw .hang
  | fuel + 1, i, bitmap => do
      let octet ← fetch bitmap (offset + i / 8 : Nat)
      let bitmap ← store bitmap (offset + i / 8)
        (octet ||| (1 <<< UInt8.ofNat (i % 8)))
      if i = end_ then return bitmap
      hourLoop offset end_ fuel ((i + 1) % dayMin) bitmap

/-- The end of the hours, -1 where there is none; `none` where `hour_fill`
returns 0. -/
def hourEnd (tm : List UInt8) : Option Int :=
  match tm.dropWhile (· ≠ 45) with
  | [] => some (-1)
  | _ :: p =>
      if (tm.takeWhile (· ≠ 45)).length + 1 ≠ 5 ∨ p.length < 4
          ∨ ¬ isDigit (p.headD 0) then none
      else some (minutes p)

/-- The start and the end of the hours. -/
def hourRange (tm : List UInt8) : Option (Nat × Nat) :=
  match hourEnd tm with
  | none => none
  | some end_ =>
      if tm = [] then some (0, dayMin - 1)
      else if tm.length < 4 ∨ ¬ isDigit (tm.headD 0) then none
      else
        let start := minutes tm
        let end_ := if end_ < 0 then start else end_
        some (clampMinutes start, clampMinutes end_)

/-- `hour_fill(bitmap + offset, tm)`. -/
def hourFill (fuel offset : Nat) (tm bitmap : List UInt8) :
    Mem (List UInt8) :=
  match hourRange tm with
  | none => return bitmap
  | some (start, end_) => hourLoop offset end_ fuel start bitmap

-- ======== day_fill

/-- "Build a valid range 0 - 6": the end stays as it is where only the
start is looked at. -/
def dayRange (start end_ : Nat) : Nat × Nat :=
  if start = 7 then (1, 5)
  else if 7 < start then (0, 6)
  else (start, end_)

/-- The inner loop of `day_fill`. -/
def dayLoop (hr : List UInt8) (end_ : Nat) : Nat → Nat → List UInt8 →
    Mem (List UInt8)
  | 0, _, _ => throw .hang
  | fuel + 1, n, bitmap => do
      let bitmap ← hourFill fuel (180 * n) hr bitmap
      if n = end_ then return bitmap
      dayLoop hr end_ fuel ((n + 1) % 7) bitmap

/-- The start and the end that are read next, and what follows them;
`none` where the outer loop ends. -/
def nextRange (tm : List UInt8) : Option (Nat × Nat × List UInt8) := do
  let (start, tm) ← strcode tm
  match tm with
  | 45 :: tm =>
      let (end_, tm) ← strcode tm
      return (start, end_, tm)
  | tm => return (start, start, tm)

/-- The outer loop of `day_fill`. -/
def rangesLoop (hr : List UInt8) : Nat → List UInt8 → List UInt8 →
    Mem (List UInt8)
  | 0, _, _ => throw .hang
  | fuel + 1, tm, bitmap =>
      match nextRange tm with
      | none => return bitmap
      | some (start, end_, tm) => do
          let (n, end_) := dayRange start end_
          let bitmap ← dayLoop hr end_ fuel n bitmap
          rangesLoop hr fuel tm bitmap

/-- The days that `day_fill` reads: with hours only, it takes a name that
is not in the list. -/
def dayNames (tm : List UInt8) : List UInt8 :=
  if tm.dropWhile (!isDigit ·) = tm then ascii "Al" else tm

/-- `day_fill`. -/
def dayFill (fuel : Nat) (tm bitmap : List UInt8) : Mem (List UInt8) :=
  rangesLoop (tm.dropWhile (!isDigit ·)) fuel (dayNames tm) bitmap

-- ======== week_fill

/-- What `strtok` finds in the copy, its letters made small. -/
def weekTokens (tm : List UInt8) : List (List UInt8) :=
  (((strlcpy 128 tm).map toLower).splitOnP fun c => c == 44 || c == 124).filter
    (· ≠ [])

/-- The loop of `week_fill`. -/
def tokensLoop (fuel : Nat) : List (List UInt8) → List UInt8 →
    Mem (List UInt8)
  | [], bitmap => return bitmap
  | s :: rest, bitmap => do
      let bitmap ← dayFill fuel s bitmap
      tokensLoop fuel rest bitmap

/-- `week_fill`. -/
def weekFill (fuel : Nat) (tm bitmap : List UInt8) : Mem (List UInt8) :=
  tokensLoop fuel (weekTokens tm) bitmap

-- ======== timestr_match

/-- `struct tm`, as far as it is read. -/
structure LocalTime where
  wday : Fin 7
  hour : Fin 24
  min : Fin 60

/-- The minute of the week. -/
def LocalTime.minuteOfWeek (tm : LocalTime) : Nat :=
  tm.wday * dayMin + tm.hour * 60 + tm.min

/-- The loop that counts the minutes left: the sum, and where it stops. -/
def matchLoop (bitmap : List UInt8) (now : Nat) : Nat → Nat → Int →
    Mem (Int × Nat)
  | 0, _, _ => throw .hang
  | fuel + 1, i, tot => do
      let octet ← fetch bitmap (i / 8 : Nat)
      if octet &&& (1 <<< UInt8.ofNat (i % 8)) = 0 then return (tot, i)
      let i := (i + 1) % weekMin
      if i = now then return (tot + 60, i)
      matchLoop bitmap now fuel i (tot + 60)

/-- `timestr_match`. -/
def timestrMatch (fuel : Nat) (tmstr : List UInt8) (tm : LocalTime) :
    Mem Int := do
  let now := tm.minuteOfWeek
  let bitmap ← weekFill fuel tmstr (List.replicate (weekMin / 8) 0)
  let (tot, i) ← matchLoop bitmap now fuel now 0
  if tot = 0 then return -1
  return if i = now then 0 else tot

end WinRadius
