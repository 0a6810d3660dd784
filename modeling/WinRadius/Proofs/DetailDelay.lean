/-
The delay before the next read of a detail file.

# One reply

The smoothed time of a reply is a number of 32 bits, and so is its product
with the load that is not used. `detailSend` divides this product by the
load factor, and caps what comes out from above only: the delay is in
range just where the product, as it is left over in 32 bits, is not
negative, or is so by less than the load factor.

# Histories

The replies of a file come one after the other, and each finds what the
one before left. Response times that are not negative and whose product
with the load that is not used fits keep every delay in range.
-/
import WinRadius.Model.Detail

namespace WinRadius

-- ======== 32 bits

theorem int32_eq {n : Int} (h : -2147483648 ≤ n) (h' : n < 2147483648) :
    int32 n = n := Int.bmod_eq_of_le (by omega) (by omega)

/-- A quotient of what is not negative, or less so than the divisor. -/
theorem tdiv_nonneg_iff {p n : Int} (hn : 0 < n) :
    0 ≤ p.tdiv n ↔ -n < p := by
  rcases le_total 0 p with hp | hp
  · exact iff_of_true (Int.tdiv_nonneg hp hn.le) (by omega)
  · obtain ⟨q, rfl⟩ : ∃ q, p = -q := ⟨-p, (Int.neg_neg p).symm⟩
    rw [Int.neg_tdiv, Int.tdiv_eq_ediv_of_nonneg (by omega)]
    have hlt := Int.ediv_lt_iff_lt_mul (a := q) (b := 1) hn
    have h0 := Int.ediv_nonneg (show 0 ≤ q by omega) hn.le
    omega

-- ======== one reply

/-- A reply to a packet of the file: its code, its time, and that of the
packet. -/
structure DetailReply where
  code : Nat
  now : Timeval
  received : Timeval

namespace DetailReply

/-- The response time in micro-seconds. -/
def micros (r : DetailReply) : Int :=
  (r.now.tvSec - r.received.tvSec) * 1000000 + r.now.tvUsec
    - r.received.tvUsec

end DetailReply

/-- The smoothed time with a reply: of the time before there are left
seven eighths, if there is a packet from the last second. -/
def smoothed (data : ListenDetail) (r : DetailReply) : Int :=
  if data.hasRtt
      && !timerLess data.lastPacket ⟨r.now.tvSec - 1, r.now.tvUsec⟩ then
    data.srtt - data.srtt / 8 + int32 r.micros / 8
  else int32 r.micros

/-- The product is not negative in 32 bits, or rounds to zero. -/
def DelayFits (data : ListenDetail) (r : DetailReply) : Prop :=
  -data.loadFactor < int32 (smoothed data r * (100 - data.loadFactor))

/-- `detail_send`. -/
def ListenDetail.reply (data : ListenDetail) (r : DetailReply) :
    ListenDetail :=
  detailSend data r.code r.now r.received

variable {data : ListenDetail} {r : DetailReply}

/-- What a reply leaves: the smoothed time and the delay. -/
theorem reply_run (hc : r.code ≠ 0) :
    (data.reply r).hasRtt = true
    ∧ (data.reply r).srtt = int32 (smoothed data r)
    ∧ (data.reply r).delayTime = min 250000
      ((int32 (smoothed data r * (100 - data.loadFactor))).tdiv
        data.loadFactor)
    ∧ (data.reply r).loadFactor = data.loadFactor := by
  have hmicros : int32 (int32 (int32 (int32 (r.now.tvSec
      - r.received.tvSec) * 1000000) + r.now.tvUsec) - r.received.tvUsec)
      = int32 r.micros := by
    simp [int32, DetailReply.micros]
  have hsrtt : (if data.hasRtt
      && !timerLess data.lastPacket ⟨r.now.tvSec - 1, r.now.tvUsec⟩ then
        int32 (int32 (data.srtt - data.srtt / 8) + int32 r.micros / 8)
      else int32 r.micros) = int32 (smoothed data r) := by
    unfold smoothed
    split
    · simp [int32]
    · simp [int32]
  have hprod : int32 (int32 (smoothed data r) * (100 - data.loadFactor))
      = int32 (smoothed data r * (100 - data.loadFactor)) := by
    simp [int32]
  unfold ListenDetail.reply detailSend
  simp only [if_neg hc, hmicros, hsrtt, hprod]
  refine ⟨trivial, trivial, ?_, trivial⟩
  split
  · omega
  · omega

/-- A request that timed out leaves the times alone. -/
theorem reply_timeout (hc : r.code = 0) :
    (data.reply r).hasRtt = data.hasRtt
    ∧ (data.reply r).srtt = data.srtt
    ∧ (data.reply r).loadFactor = data.loadFactor := by
  unfold ListenDetail.reply detailSend
  rw [if_pos hc]
  exact ⟨rfl, rfl, rfl⟩

theorem reply_loadFactor (data : ListenDetail) (r : DetailReply) :
    (data.reply r).loadFactor = data.loadFactor := by
  by_cases hc : r.code = 0
  · exact (reply_timeout hc).2.2
  · exact (reply_run hc).2.2.2

/-- The delay is in range just where the product fits. -/
theorem reply_delay (hl : 1 ≤ data.loadFactor) (hc : r.code ≠ 0) :
    0 ≤ (data.reply r).delayTime ∧ (data.reply r).delayTime ≤ 250000
      ↔ DelayFits data r := by
  rw [(reply_run hc).2.2.1, DelayFits, ← tdiv_nonneg_iff (by omega)]
  omega

-- ======== histories

/-- One reply after the other. -/
def ListenDetail.replies (data : ListenDetail) (rs : List DetailReply) :
    ListenDetail :=
  rs.foldl ListenDetail.reply data

/-- Every product of a history fits. -/
def DelaysFit (data : ListenDetail) : List DetailReply → Prop
  | [] => True
  | r :: rs => (r.code ≠ 0 → DelayFits data r)
      ∧ DelaysFit (data.reply r) rs

/-- For every history of replies: behind each reply with a code, the delay
is not negative and at most a quarter of a second, just where at each such
reply the product of the smoothed time and of the load that is not used,
as it is left over in 32 bits, is not negative, or is so by less than the
load factor. -/
theorem detailSend_delay_iff (data : ListenDetail)
    (hl : 1 ≤ data.loadFactor) (rs : List DetailReply) :
    (∀ front r, front ++ [r] <+: rs → r.code ≠ 0 →
      0 ≤ (data.replies (front ++ [r])).delayTime
        ∧ (data.replies (front ++ [r])).delayTime ≤ 250000)
      ↔ DelaysFit data rs := by
  induction rs generalizing data with
  | nil =>
      refine iff_of_true (fun front r h => ?_) trivial
      simp at h
  | cons s rs ih =>
      have hl' : 1 ≤ (data.reply s).loadFactor := by
        rw [reply_loadFactor]
        exact hl
      rw [DelaysFit, ← ih _ hl']
      constructor
      · intro hall
        refine ⟨fun hc => (reply_delay hl hc).mp
          (hall [] s ⟨rs, rfl⟩ hc), fun front r hfront hc => ?_⟩
        exact hall (s :: front) r
          (List.cons_prefix_cons.mpr ⟨rfl, hfront⟩) hc
      · rintro ⟨hfirst, hrest⟩ front r hfront hc
        cases front with
        | nil =>
            obtain rfl := (List.cons_prefix_cons.mp hfront).1
            exact (reply_delay hl hc).mpr (hfirst hc)
        | cons t front =>
            obtain ⟨rfl, hback⟩ := List.cons_prefix_cons.mp hfront
            exact hrest front r hback hc

/-- Seven eighths of a time and one eighth of another. -/
theorem smoothed_range {m : Int} (hm : m < 2147483648)
    (hs : data.hasRtt = true → 0 ≤ data.srtt ∧ data.srtt ≤ m)
    (hr : 0 ≤ r.micros ∧ r.micros ≤ m) :
    0 ≤ smoothed data r ∧ smoothed data r ≤ m := by
  rw [smoothed, int32_eq (by omega) (by omega)]
  split
  · next h =>
      have := hs (Bool.and_eq_true _ _ ▸ h).1
      omega
  · exact hr

/-- Response times up to a bound whose product with the load that is not
used fits: every delay of the history is in range. -/
theorem delaysFit_small {m : Int} (hm : m < 2147483648)
    (hl : 1 ≤ data.loadFactor ∧ data.loadFactor ≤ 100)
    (hfit : m * (100 - data.loadFactor) < 2147483648)
    (hs : data.hasRtt = true → 0 ≤ data.srtt ∧ data.srtt ≤ m)
    {rs : List DetailReply}
    (hr : ∀ r ∈ rs, 0 ≤ r.micros ∧ r.micros ≤ m) : DelaysFit data rs := by
  induction rs generalizing data with
  | nil => exact trivial
  | cons r rs ih =>
      have hsm := smoothed_range hm hs (hr r List.mem_cons_self)
      refine ⟨fun _ => ?_, ?_⟩
      · have h0 : 0 ≤ smoothed data r * (100 - data.loadFactor) :=
          Int.mul_nonneg hsm.1 (by omega)
        have hle : smoothed data r * (100 - data.loadFactor)
            ≤ m * (100 - data.loadFactor) :=
          Int.mul_le_mul_of_nonneg_right hsm.2 (by omega)
        rw [DelayFits, int32_eq (by omega) (by omega)]
        omega
      · refine ih ?_ ?_ ?_ fun r hmem => hr r (List.mem_cons_of_mem _ hmem)
        · rw [reply_loadFactor]
          exact hl
        · rw [reply_loadFactor]
          exact hfit
        · by_cases hc : r.code = 0
          · obtain ⟨hrtt, hsrtt, -⟩ := @reply_timeout data r hc
            rw [hrtt, hsrtt]
            exact hs
          · obtain ⟨-, hsrtt, -, -⟩ := @reply_run data r hc
            rw [hsrtt, int32_eq (by omega) (by omega)]
            exact fun _ => hsm

/-- A listener with a load factor of 10 before its first packet. -/
def idleDetail : ListenDetail :=
  { delayTime := 0, loadFactor := 10, retryInterval := 30 }

/-- Two replies, after a tenth of a second each. -/
theorem detailSend_delay_iff_quick :
    0 ≤ (idleDetail.replies ([DetailReply.mk 5 ⟨7, 100000⟩ ⟨7, 0⟩]
        ++ [DetailReply.mk 5 ⟨7, 500000⟩ ⟨7, 400000⟩])).delayTime
      ∧ (idleDetail.replies ([DetailReply.mk 5 ⟨7, 100000⟩ ⟨7, 0⟩]
        ++ [DetailReply.mk 5 ⟨7, 500000⟩ ⟨7, 400000⟩])).delayTime
          ≤ 250000 := by
  refine (detailSend_delay_iff idleDetail (by decide) _).mpr ?_ _ _
    (List.prefix_refl _) (by decide)
  refine delaysFit_small (m := 100000) (by omega) (by decide) (by decide)
    (fun h => absurd h Bool.false_ne_true) ?_
  intro r hr
  simp only [List.cons_append, List.nil_append, List.mem_cons,
    List.not_mem_nil, or_false] at hr
  rcases hr with rfl | rfl
  · decide
  · decide

/-- After half a minute, the product wraps around: the delay is two and a
half minutes back. -/
theorem detailSend_delay_negative :
    (idleDetail.replies [DetailReply.mk 5 ⟨37, 0⟩ ⟨7, 0⟩]).delayTime
      = -159496729 := by
  decide

end WinRadius
