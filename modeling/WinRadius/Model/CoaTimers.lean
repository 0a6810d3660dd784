/-
The timers of CoA requests that the server originates, from event.cpp.

# Numbers

A delay is an `int` of micro-seconds; a result that does not fit ends the
run (`none`). `fr_rand` returns 32 random bits, which are arguments. The
times of a request are in micro-seconds as well.

# Left out

The count of retransmissions and its cap, sending the packet, and its
place in the list of proxied requests.
-/
import WinRadius.Lib.CheckedInt

namespace WinRadius

open Lib

/-- The timers of a `home_server`, as `home_server_add` leaves them. -/
structure CoaHome where
  coaIrt : Int
  coaMrt : Int
  coaMrd : Int
  irtRange : 1 ≤ coaIrt ∧ coaIrt ≤ 5
  mrtRange : 0 ≤ coaMrt ∧ coaMrt ≤ 30
  mrdRange : 5 ≤ coaMrd ∧ coaMrd ≤ 60

/-- `if (n < lo) n = lo; if (n > hi) n = hi;` -/
def clampTo (lo hi n : Int) : Int :=
  let n := if n < lo then lo else n
  if hi < n then hi else n

theorem clampTo_range {lo hi : Int} (h : lo ≤ hi) (n : Int) :
    lo ≤ clampTo lo hi n ∧ clampTo lo hi n ≤ hi := by
  unfold clampTo
  dsimp only
  split
  · split
    · omega
    · omega
  · split
    · omega
    · omega

/-- The end of `home_server_add`, for what the configuration says. -/
def coaHomeAdd (irt mrt mrd : Int) : CoaHome where
  coaIrt := clampTo 1 5 irt
  coaMrt := clampTo 0 30 mrt
  coaMrd := clampTo 5 60 mrd
  irtRange := clampTo_range (by omega) irt
  mrtRange := clampTo_range (by omega) mrt
  mrdRange := clampTo_range (by omega) mrd

/-- The first delay, as `originated_coa_request` sets it. -/
def originatedDelay (home : CoaHome) (rand : BitVec 32) : Option Int := do
  let delay : Int := ((rand &&& 0x3fffff#32).toNat / 10 : Nat)
  let requestDelay ← checked (delay * home.coaIrt)
  let delay ← checked (home.coaIrt * 1000000)
  let delay ← checked (delay - delay.tdiv 10)
  checked (delay + requestDelay)

/-- `delay ^= (delay >> 16); delay &= 0xffff;` -/
def lowBits (rand : BitVec 32) : Int :=
  ((rand ^^^ rand.sshiftRight 16) &&& 0xffff#32).toNat

/-- `delay ^= (delay >> 15); delay &= 0x1ffff;` -/
def lowBitsMrt (rand : BitVec 32) : Int :=
  ((rand ^^^ rand.sshiftRight 15) &&& 0x1ffff#32).toNat

/-- `((n >> 16) * delay) + (((n & 0xffff) * delay) >> 16)`. -/
def timesFraction (n delay : Int) : Option Int := do
  let high ← checked (n / 65536 * delay)
  let low ← checked (n % 65536 * delay)
  checked (high + low / 65536)

/-- `RT`, from the delay before. -/
def nextDelay (prev : Int) (rand : BitVec 32) : Option Int := do
  let delay ← timesFraction (prev.tdiv 5) (lowBits rand)
  let twice ← checked (2 * prev)
  let rest ← checked (twice - prev.tdiv 10)
  checked (delay + rest)

/-- The delay in place of one above `MRT`. -/
def mrtDelay (mrtUsec : Int) (rand : BitVec 32) : Option Int := do
  let delay ← timesFraction mrtUsec (lowBitsMrt rand)
  let rest ← checked (mrtUsec - mrtUsec.tdiv 10)
  checked (delay + rest)

/-- `request->delay`, as `retransmit_coa_request` sets it: `rand'` is the
second random number, for a delay above `MRT`. -/
def retransmitDelay (home : CoaHome) (prev : Int)
    (rand rand' : BitVec 32) : Option Int := do
  let delay ← nextDelay prev rand
  if home.coaMrt ≠ 0 then
    let mrtUsec ← checked (home.coaMrt * 1000000)
    if mrtUsec < delay then mrtDelay mrtUsec rand' else return delay
  else return delay

/-- `retransmit_coa_request` at the time `now`: the delay, and whether the
next event is a retransmission again and not the end of the request. -/
def CoaHome.retransmitCoaRequest (home : CoaHome)
    (proxyWhen now prev : Int)
    (rand rand' : BitVec 32) : Option (Int × Bool) := do
  let delay ← retransmitDelay home prev rand rand'
  let mrd := proxyWhen + home.coaMrd * 1000000
  return (delay, !(mrd < now + delay))

/-- The delays with which `retransmit_coa_request` is called, for a clock
that does not go back. -/
inductive Retransmitted (home : CoaHome) (proxyWhen : Int) : Int → Prop
  where
  | first {rand : BitVec 32} {delay : Int} :
      originatedDelay home rand = some delay →
      Retransmitted home proxyWhen delay
  | again {now prev delay : Int} {rand rand' : BitVec 32} :
      Retransmitted home proxyWhen prev → proxyWhen ≤ now →
      home.retransmitCoaRequest proxyWhen now prev rand rand'
        = some (delay, true) →
      Retransmitted home proxyWhen delay

end WinRadius
