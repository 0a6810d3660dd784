/-
The averages of the response times of a home server, from stats.cpp.

# Numbers

`int`s have 32 bits; a result that does not fit ends the run (`none`), as
does the failed assertion that the reply does not come before the request.
`tv_sec` is a `long` of 32 bits as well, and the seconds of a difference
are cut down to an `int`.
-/
import WinRadius.Lib.CheckedInt
import WinRadius.Model.Event

namespace WinRadius

open Lib

/-- `fr_stats_ema_t`. -/
structure StatsEma where
  window : Int
  f1 : Int := 0
  f10 : Int := 0
  ema1 : Int := 0
  ema10 : Int := 0
deriving DecidableEq

namespace StatsEma

/-- "Initialize it": `2 * F_EMA_SCALE` in parts of the window. -/
def weighed (ema : StatsEma) : Option StatsEma :=
  if ema.f1 = 0 then do
    let window := if 10000 < ema.window then 10000 else ema.window
    let parts ← checked (10 * window)
    return { ema with
      window := window
      f1 := (2000000 : Int).tdiv (← checked (window + 1))
      f10 := (2000000 : Int).tdiv (← checked (parts + 1)) }
  else some ema

/-- `micro`, the time from `stop` to `start`, with a cap of 40 on the
seconds and scaled by `EMA_SCALE`. -/
def scaledMicro (start stop : Timeval) : Option Int := do
  let seconds := (start.tvSec - stop.tvSec).bmod 4294967296
  let micro ← checked ((if 40 < seconds then 40 else seconds) * 1000000)
  let micro ← checked (micro + start.tvUsec)
  let micro ← checked (micro - stop.tvUsec)
  checked (micro * 100)

/-- `diff = f * (micro - ema); ema += (diff / 1000000)`. -/
def towards (f ema micro : Int) : Option Int := do
  let diff ← checked (f * (← checked (micro - ema)))
  checked (ema + diff.tdiv 1000000)

end StatsEma

open StatsEma in
/-- `radius_stats_ema`, for a request that went out at `stop` and whose
reply came in at `start`. -/
def radiusStatsEma (ema : StatsEma) (start stop : Timeval) :
    Option StatsEma :=
  if ema.window = 0 then some ema
  else if start.tvSec < stop.tvSec then none
  else do
    let ema ← ema.weighed
    let micro ← scaledMicro start stop
    if ema.ema1 = 0 then return { ema with ema1 := micro, ema10 := micro }
    else
      return { ema with
        ema1 := ← towards ema.f1 ema.ema1 micro
        ema10 := ← towards ema.f10 ema.ema10 micro }

/-- The two times of a reply that does not come before its request. -/
structure ResponseTime where
  start : Timeval
  stop : Timeval
  startUsec : 0 ≤ start.tvUsec ∧ start.tvUsec < 1000000
  stopUsec : 0 ≤ stop.tvUsec ∧ stop.tvUsec < 1000000
  /-- The seconds are those of a `long` since 1970. -/
  seconds : start.tvSec - stop.tvSec < 2147483648
  forward : 0 ≤ (start.tvSec - stop.tvSec) * 1000000
    + (start.tvUsec - stop.tvUsec)

/-- The updates for one reply after the other. -/
def statsEmaRun (ema : StatsEma) (times : List ResponseTime) :
    Option StatsEma :=
  times.foldlM (fun ema t => radiusStatsEma ema t.start t.stop) ema

end WinRadius
