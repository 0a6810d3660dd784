/-
The retransmission timers of CoA requests against RFC 5080.

# Fractions

A delay is multiplied by 16 random bits and divided by 2^16, in two
halves: what comes out is the whole product divided, as long as the lower
half fits.

# The ends of the random ranges

The first delay takes 22 bits where 21 would do, and divides them by ten;
in place of a delay above MRT there are 17 bits that nothing divides. The
delay before is doubled and has random bits of the right size, but their
product with the lower half of the delay may not fit.
-/
import WinRadius.Model.CoaTimers

namespace WinRadius

open Lib

-- ======== fractions

theorem lowBits_range (rand : BitVec 32) :
    0 ≤ lowBits rand ∧ lowBits rand ≤ 65535 := by
  unfold lowBits
  rw [BitVec.toNat_and]
  have := @Nat.and_le_right (rand ^^^ rand.sshiftRight 16).toNat
    (0xffff#32).toNat
  simp only [BitVec.toNat_ofNat] at this ⊢
  omega

theorem lowBitsMrt_range (rand : BitVec 32) :
    0 ≤ lowBitsMrt rand ∧ lowBitsMrt rand ≤ 131071 := by
  unfold lowBitsMrt
  rw [BitVec.toNat_and]
  have := @Nat.and_le_right (rand ^^^ rand.sshiftRight 15).toNat
    (0x1ffff#32).toNat
  simp only [BitVec.toNat_ofNat] at this ⊢
  omega

/-- The two halves together. -/
theorem halves_eq (n k : Int) :
    n / 65536 * k + n % 65536 * k / 65536 = n * k / 65536 := by
  have hn : n * k = n % 65536 * k + n / 65536 * k * 65536 := by
    have hdiv := Int.emod_add_ediv_mul n 65536
    calc n * k = (n % 65536 + n / 65536 * 65536) * k := by rw [hdiv]
      _ = n % 65536 * k + n / 65536 * k * 65536 := by ring
  rw [hn, Int.add_mul_ediv_right _ _ (by omega), Int.add_comm]

/-- A fraction of a delay below 2^26, by up to 17 bits. -/
theorem timesFraction_eq {n k : Int} (hn : 0 ≤ n ∧ n < 67108864)
    (hk : 0 ≤ k ∧ k ≤ 131071) :
    timesFraction n k = if n % 65536 * k ≤ 2147483647 then
      some (n * k / 65536) else none := by
  have hhigh : 0 ≤ n / 65536 * k ∧ n / 65536 * k ≤ 1023 * 131071 := by
    constructor
    · exact Int.mul_nonneg (by omega) hk.1
    · exact Int.mul_le_mul (by omega) hk.2 hk.1 (by omega)
  have hlow : 0 ≤ n % 65536 * k := Int.mul_nonneg (by omega) hk.1
  unfold timesFraction
  rw [checked_of_fits (.of_le hhigh.1 (by omega)), Option.bind_eq_bind,
    Option.bind_some]
  by_cases hfit : n % 65536 * k ≤ 2147483647
  · rw [if_pos hfit, checked_of_fits (.of_le hlow hfit),
      Option.bind_some, ← halves_eq n k]
    exact checked_of_fits (.of_le (by omega) (by omega))
  · rw [if_neg hfit, checked, if_neg fun h => hfit h.2]
    rfl

/-- `lo` to `hi` tenths of a base. -/
def InPart (lo hi base d : Int) : Prop :=
  lo * base ≤ 10 * d ∧ 10 * d ≤ hi * base

-- ======== the first delay

theorem originatedDelay_eq (home : CoaHome) (rand : BitVec 32) :
    originatedDelay home rand = some (900000 * home.coaIrt
      + ((rand &&& 0x3fffff#32).toNat / 10 : Nat) * home.coaIrt) := by
  obtain ⟨hlo, hhi⟩ := home.irtRange
  have hrand : (rand &&& 0x3fffff#32).toNat ≤ 4194303 := by
    rw [BitVec.toNat_and]
    exact Nat.and_le_right
  obtain ⟨k, hk⟩ : ∃ k : Nat, k = (rand &&& 0x3fffff#32).toNat / 10 :=
    ⟨_, rfl⟩
  have hprod : 0 ≤ (k : Int) * home.coaIrt
      ∧ (k : Int) * home.coaIrt ≤ 419430 * 5 := by
    constructor
    · exact Int.mul_nonneg (by omega) (by omega)
    · exact Int.mul_le_mul (by omega) hhi (by omega) (by omega)
  have htenth : (home.coaIrt * 1000000).tdiv 10 = home.coaIrt * 100000 := by
    rw [Int.tdiv_eq_ediv_of_nonneg (by omega)]
    omega
  unfold originatedDelay
  rw [← hk]
  simp only [checked_of_fits (.of_le hprod.1 (by omega)),
    checked_of_fits (show FitsInt (home.coaIrt * 1000000) from
      .of_le (by omega) (by omega)), htenth,
    checked_of_fits (show FitsInt (home.coaIrt * 1000000
      - home.coaIrt * 100000) from .of_le (by omega) (by omega)),
    Option.bind_eq_bind, Option.bind_some]
  rw [checked_of_fits (.of_le (by omega) (by omega))]
  congr 1
  omega

/-- The first delay goes up to 1.1 IRT for less than half of the random
values. -/
theorem originatedDelay_iff (home : CoaHome) (rand : BitVec 32) :
    (∃ d, originatedDelay home rand = some d
      ∧ InPart 9 11 (home.coaIrt * 1000000) d)
      ↔ (rand &&& 0x3fffff#32).toNat < 2000010 := by
  obtain ⟨hlo, hhi⟩ := home.irtRange
  rw [originatedDelay_eq]
  obtain ⟨k, hk⟩ : ∃ k : Nat, k = (rand &&& 0x3fffff#32).toNat / 10 :=
    ⟨_, rfl⟩
  have h0 : 0 ≤ (k : Int) * home.coaIrt :=
    Int.mul_nonneg (by omega) (by omega)
  simp only [Option.some.injEq, exists_eq_left', InPart, ← hk]
  constructor
  · rintro ⟨-, h⟩
    have hle : (k : Int) * home.coaIrt ≤ 200000 * home.coaIrt := by omega
    have := Int.le_of_mul_le_mul_right hle (by omega)
    omega
  · intro h
    have hle : (k : Int) * home.coaIrt ≤ 200000 * home.coaIrt :=
      Int.mul_le_mul_of_nonneg_right (by omega) (by omega)
    omega

-- ======== the later delays

/-- `RT`, from the delay before and the random bits. -/
def rt (prev : Int) (rand : BitVec 32) : Int :=
  prev / 5 * lowBits rand / 65536 + (2 * prev - prev / 10)

/-- The part of a fifth. -/
theorem fifth_range {prev : Int} (hp : 0 ≤ prev) (rand : BitVec 32) :
    0 ≤ prev / 5 * lowBits rand / 65536
      ∧ (5 ≤ prev → prev / 5 * lowBits rand / 65536 < prev / 5)
      ∧ (prev < 5 → prev / 5 * lowBits rand / 65536 = 0) := by
  have hk := lowBits_range rand
  refine ⟨Int.ediv_nonneg (Int.mul_nonneg (by omega) hk.1) (by omega),
    fun h => ?_, fun h => ?_⟩
  · have hlt : prev / 5 * lowBits rand < prev / 5 * 65536 :=
      Int.mul_lt_mul_of_pos_left (by omega) (by omega)
    exact Int.ediv_lt_of_lt_mul (by omega) hlt
  · rw [show prev / 5 = 0 by omega, Int.zero_mul]
    rfl

/-- `RT` lies where it should. -/
theorem rt_inPart {prev : Int} (hp : 0 ≤ prev) (rand : BitVec 32) :
    InPart 19 21 prev (rt prev rand) := by
  obtain ⟨h0, hlt, heq⟩ := fifth_range hp rand
  unfold InPart rt
  by_cases h : 5 ≤ prev
  · have := hlt h
    omega
  · have := heq (by omega)
    omega

theorem nextDelay_eq {prev : Int} (hp : 0 ≤ prev ∧ prev ≤ 60000000)
    (rand : BitVec 32) :
    nextDelay prev rand
      = if prev / 5 % 65536 * lowBits rand ≤ 2147483647 then
          some (rt prev rand) else none := by
  have hk := lowBits_range rand
  have hrt := rt_inPart hp.1 rand
  have hfit : FitsInt (rt prev rand) := by
    unfold InPart at hrt
    exact .of_le (by omega) (by omega)
  unfold nextDelay
  rw [Int.tdiv_eq_ediv_of_nonneg hp.1, Int.tdiv_eq_ediv_of_nonneg hp.1,
    timesFraction_eq (by omega) (by omega)]
  split
  · rw [Option.bind_eq_bind, Option.bind_some,
      checked_of_fits (.of_le (by omega) (by omega)), Option.bind_some,
      checked_of_fits (.of_le (by omega) (by omega)), Option.bind_some]
    exact checked_of_fits hfit
  · rfl

/-- In place of a delay above MRT. -/
theorem mrtDelay_eq {mrt : Int} (hm : 0 ≤ mrt ∧ mrt ≤ 30)
    (rand : BitVec 32) :
    mrtDelay (mrt * 1000000) rand
      = if mrt * 1000000 % 65536 * lowBitsMrt rand ≤ 2147483647 then
          some (mrt * 1000000 * lowBitsMrt rand / 65536 + mrt * 900000)
        else none := by
  have hk := lowBitsMrt_range rand
  have hprod : 0 ≤ mrt * 1000000 * lowBitsMrt rand
      ∧ mrt * 1000000 * lowBitsMrt rand ≤ 30000000 * 131071 := by
    constructor
    · exact Int.mul_nonneg (by omega) hk.1
    · exact Int.mul_le_mul (by omega) hk.2 hk.1 (by omega)
  unfold mrtDelay
  rw [Int.tdiv_eq_ediv_of_nonneg (by omega),
    timesFraction_eq (by omega) (by omega)]
  split
  · rw [Option.bind_eq_bind, Option.bind_some,
      checked_of_fits (.of_le (by omega) (by omega)), Option.bind_some,
      checked_of_fits (.of_le (by omega) (by omega))]
    congr 1
    omega
  · rfl

/-- The random part is a fifth of MRT or less for a tenth of the random
values. -/
theorem mrtDelay_iff {mrt : Int} (hm : 1 ≤ mrt ∧ mrt ≤ 30)
    (rand : BitVec 32) :
    (∃ d, mrtDelay (mrt * 1000000) rand = some d
      ∧ InPart 9 11 (mrt * 1000000) d) ↔ lowBitsMrt rand ≤ 13107 := by
  have hk := lowBitsMrt_range rand
  rw [mrtDelay_eq (by omega)]
  have hcomm : mrt * 1000000 * lowBitsMrt rand
      = mrt * lowBitsMrt rand * 1000000 := by ring
  constructor
  · rintro ⟨d, hd, -, hhi⟩
    by_contra hbig
    split at hd
    · obtain rfl := Option.some.inj hd
      have hge : mrt * 13108 ≤ mrt * lowBitsMrt rand :=
        Int.mul_le_mul_of_nonneg_left (by omega) (by omega)
      rw [hcomm] at hhi
      omega
    · cases hd
  · intro hsmall
    have hlow : mrt * 1000000 % 65536 * lowBitsMrt rand ≤ 65535 * 13107 :=
      Int.mul_le_mul (by omega) hsmall hk.1 (by omega)
    have hle : mrt * lowBitsMrt rand ≤ mrt * 13107 :=
      Int.mul_le_mul_of_nonneg_left hsmall (by omega)
    have h0 : 0 ≤ mrt * lowBitsMrt rand :=
      Int.mul_nonneg (by omega) hk.1
    rw [if_pos (by omega)]
    refine ⟨_, rfl, ?_, ?_⟩
    · rw [hcomm]
      omega
    · rw [hcomm]
      omega

/-- A later delay is right: `RT` fits and lies between 1.9 and 2.1 of the
delay before, and it is the delay, or gives way to one around MRT. -/
def LaterRight (home : CoaHome) (prev : Int) (rand rand' : BitVec 32) :
    Prop :=
  ∃ d, nextDelay prev rand = some d ∧ InPart 19 21 prev d
    ∧ ∃ d', retransmitDelay home prev rand rand' = some d'
      ∧ (home.coaMrt ≠ 0 ∧ home.coaMrt * 1000000 < d →
        InPart 9 11 (home.coaMrt * 1000000) d')
      ∧ (¬ (home.coaMrt ≠ 0 ∧ home.coaMrt * 1000000 < d) → d' = d)

/-- The product with the lower half of a fifth of the delay fits, and
above MRT the random bits are those of the lowest tenth. -/
structure LaterFits (home : CoaHome) (prev : Int)
    (rand rand' : BitVec 32) : Prop where
  product : prev / 5 % 65536 * lowBits rand ≤ 2147483647
  capped : home.coaMrt ≠ 0 ∧ home.coaMrt * 1000000 < rt prev rand →
    lowBitsMrt rand' ≤ 13107

theorem retransmitDelay_eq (home : CoaHome) {prev : Int}
    (hp : 0 ≤ prev ∧ prev ≤ 60000000) (rand rand' : BitVec 32) :
    retransmitDelay home prev rand rand'
      = if prev / 5 % 65536 * lowBits rand ≤ 2147483647 then
          if home.coaMrt ≠ 0 ∧ home.coaMrt * 1000000 < rt prev rand then
            mrtDelay (home.coaMrt * 1000000) rand'
          else some (rt prev rand)
        else none := by
  obtain ⟨hlo, hhi⟩ := home.mrtRange
  unfold retransmitDelay
  rw [nextDelay_eq hp]
  split
  · rw [Option.bind_eq_bind, Option.bind_some]
    by_cases hm : home.coaMrt = 0
    · rw [if_neg (not_not.mpr hm), if_neg fun h => h.1 hm]
      rfl
    · rw [if_pos hm, checked_of_fits (.of_le (by omega) (by omega)),
        Option.bind_some]
      by_cases hlt : home.coaMrt * 1000000 < rt prev rand
      · rw [if_pos hlt, if_pos ⟨hm, hlt⟩]
      · rw [if_neg hlt, if_neg fun h => hlt h.2]
        rfl
  · rfl

theorem laterRight_iff (home : CoaHome) {prev : Int}
    (hp : 0 ≤ prev ∧ prev ≤ 60000000) (rand rand' : BitVec 32) :
    LaterRight home prev rand rand' ↔ LaterFits home prev rand rand' := by
  obtain ⟨hlo, hhi⟩ := home.mrtRange
  unfold LaterRight
  rw [nextDelay_eq hp, retransmitDelay_eq home hp]
  by_cases hfit : prev / 5 % 65536 * lowBits rand ≤ 2147483647
  · rw [if_pos hfit, if_pos hfit]
    simp only [Option.some.injEq, exists_eq_left',
      rt_inPart hp.1 rand, true_and]
    by_cases hcap : home.coaMrt ≠ 0
        ∧ home.coaMrt * 1000000 < rt prev rand
    · have hiff := mrtDelay_iff (show 1 ≤ home.coaMrt ∧ home.coaMrt ≤ 30
        by omega) rand'
      rw [if_pos hcap]
      constructor
      · rintro ⟨d', hd', hin, -⟩
        exact ⟨hfit, fun _ => hiff.mp ⟨d', hd', hin hcap⟩⟩
      · intro h
        obtain ⟨d', hd', hin⟩ := hiff.mpr (h.capped hcap)
        exact ⟨d', hd', fun _ => hin, fun hn => absurd hcap hn⟩
    · rw [if_neg hcap]
      exact ⟨fun _ => ⟨hfit, fun h => absurd h hcap⟩,
        fun _ => ⟨_, rfl, fun h => absurd h hcap, fun _ => rfl⟩⟩
  · rw [if_neg hfit]
    constructor
    · rintro ⟨d, hd, -⟩
      cases hd
    · exact fun h => absurd h.product hfit

-- ======== all delays

/-- The delays with which the timer runs out are not negative, and at most
MRD but for the first. -/
theorem Retransmitted.range {home : CoaHome} {proxyWhen delay : Int}
    (h : Retransmitted home proxyWhen delay) :
    0 ≤ delay ∧ delay ≤ 60000000 := by
  obtain ⟨hlo, hhi⟩ := home.irtRange
  obtain ⟨hmrd, hmrd'⟩ := home.mrdRange
  obtain ⟨hmrt, hmrt'⟩ := home.mrtRange
  induction h with
  | @first rand delay hd =>
      rw [originatedDelay_eq] at hd
      obtain rfl := Option.some.inj hd
      have hrand : (rand &&& 0x3fffff#32).toNat ≤ 4194303 := by
        rw [BitVec.toNat_and]
        exact Nat.and_le_right
      obtain ⟨k, hk⟩ : ∃ k : Nat, k = (rand &&& 0x3fffff#32).toNat / 10 :=
        ⟨_, rfl⟩
      have h0 : 0 ≤ (k : Int) * home.coaIrt :=
        Int.mul_nonneg (by omega) (by omega)
      have hle : (k : Int) * home.coaIrt ≤ 419430 * 5 :=
        Int.mul_le_mul (by omega) hhi (by omega) (by omega)
      rw [← hk]
      omega
  | @again now prev delay rand rand' hprev hnow hd ih =>
      unfold CoaHome.retransmitCoaRequest at hd
      obtain ⟨d, hrun, hd⟩ := Option.bind_eq_some_iff.mp hd
      simp only [Option.pure_def, Option.some.injEq, Prod.mk.injEq,
        Bool.not_eq_true', decide_eq_false_iff_not] at hd
      obtain ⟨rfl, hmrd⟩ := hd
      refine ⟨?_, by omega⟩
      rw [retransmitDelay_eq home ih] at hrun
      split at hrun
      · split at hrun
        · rw [mrtDelay_eq ⟨hmrt, hmrt'⟩] at hrun
          split at hrun
          · obtain rfl := Option.some.inj hrun
            have hk := lowBitsMrt_range rand'
            have h0 := Int.ediv_nonneg (Int.mul_nonneg
              (show 0 ≤ home.coaMrt * 1000000 by omega) hk.1)
              (show (0 : Int) ≤ 65536 by omega)
            omega
          · cases hrun
        · obtain rfl := Option.some.inj hrun
          have hin := rt_inPart ih.1 rand
          unfold InPart at hin
          omega
      · cases hrun

/-- For every configuration, random values and delay before: the first
delay lies around IRT just where the 22 random bits are below 2000010;
each later one is computed without overflow, and lies around twice the
delay before or, when that is above MRT, around MRT, just where the
product of 16 random bits with the lower half of a fifth of the delay
before fits and, above MRT, the 17 random bits are at most 13107. -/
theorem coaTimers_iff (home : CoaHome) {proxyWhen prev : Int}
    (hp : Retransmitted home proxyWhen prev) (rand rand' : BitVec 32) :
    ((∃ d, originatedDelay home rand = some d
        ∧ InPart 9 11 (home.coaIrt * 1000000) d)
      ↔ (rand &&& 0x3fffff#32).toNat < 2000010)
    ∧ (LaterRight home prev rand rand'
      ↔ LaterFits home prev rand rand') :=
  ⟨originatedDelay_iff home rand, laterRight_iff home hp.range rand rand'⟩

/-- The timers of the configuration's defaults, for random numbers of
zero. -/
theorem coaTimers_iff_defaults :
    (∃ d, originatedDelay (coaHomeAdd 2 16 30) 0 = some d
      ∧ InPart 9 11 2000000 d)
    ∧ LaterRight (coaHomeAdd 2 16 30) 1800000 0 0 := by
  have hfirst : Retransmitted (coaHomeAdd 2 16 30) 0 1800000 :=
    .first (show originatedDelay _ 0 = some 1800000 by decide)
  have h := coaTimers_iff (coaHomeAdd 2 16 30) hfirst 0 0
  exact ⟨h.1.mpr (by decide), h.2.mpr ⟨by decide, fun _ => by decide⟩⟩

/-- The largest random bits put the first delay at 1.3 times IRT. -/
theorem coaTimers_late :
    originatedDelay (coaHomeAdd 2 16 30) 0x3fffff#32 = some 2638860
    ∧ ¬ InPart 9 11 2000000 2638860 := by
  unfold InPart
  decide

end WinRadius
