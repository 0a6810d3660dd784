/-
The averages of the response times stay between the samples, as long as
the numbers fit.

# One update

A sample fits up to 21.4 seconds: the cap of 40 seconds is too large to
keep it so. Where there is an average already, its difference to the
sample is multiplied by a weight of up to a million before it is divided.
`Fits` is that these products fit; then the update goes through, and each
average moves towards the sample by a part of the way.

# Runs

`Averages` is what an update keeps: weights in range, and each average
between two of the samples seen so far.
-/
import WinRadius.Model.StatsEma

namespace WinRadius

open Lib StatsEma

-- ======== samples

namespace ResponseTime

/-- The response time in micro-seconds. -/
def micros (t : ResponseTime) : Int :=
  (t.start.tvSec - t.stop.tvSec) * 1000000
    + (t.start.tvUsec - t.stop.tvUsec)

/-- The response time, capped at 41 seconds and scaled. -/
def sample (t : ResponseTime) : Int := 100 * min t.micros 41000000

theorem sample_nonneg (t : ResponseTime) : 0 ≤ t.sample := by
  have := t.forward
  unfold sample micros
  omega

theorem sample_small {t : ResponseTime} (h : t.micros ≤ 21474836) :
    t.sample = 100 * t.micros := by
  rw [sample, min_eq_left (by omega)]

theorem seconds_nonneg (t : ResponseTime) :
    0 ≤ t.start.tvSec - t.stop.tvSec := by
  have := t.forward
  have := t.startUsec
  have := t.stopUsec
  omega

end ResponseTime

/-- Up to 40 seconds, only the last product may not fit. -/
theorem cappedMicro_eq {c u v : Int} (hc : 0 ≤ c ∧ c ≤ 40)
    (hu : 0 ≤ u ∧ u < 1000000) (hv : 0 ≤ v ∧ v < 1000000) :
    (do
      let micro ← checked (c * 1000000)
      let micro ← checked (micro + u)
      let micro ← checked (micro - v)
      checked (micro * 100))
      = checked ((c * 1000000 + u - v) * 100) := by
  have h₁ : FitsInt (c * 1000000) := by
    unfold FitsInt
    omega
  have h₂ : FitsInt (c * 1000000 + u) := by
    unfold FitsInt
    omega
  have h₃ : FitsInt (c * 1000000 + u - v) := by
    unfold FitsInt
    omega
  simp only [checked_of_fits h₁, checked_of_fits h₂, checked_of_fits h₃,
    Option.bind_eq_bind, Option.bind_some]

/-- The sample fits up to 21.4 seconds. -/
theorem scaledMicro_eq (t : ResponseTime) :
    scaledMicro t.start t.stop
      = if t.micros ≤ 21474836 then some t.sample else none := by
  have hsec := t.seconds_nonneg
  have hbig := t.seconds
  have hstart := t.startUsec
  have hstop := t.stopUsec
  have hmicros : t.micros = (t.start.tvSec - t.stop.tvSec) * 1000000
    + (t.start.tvUsec - t.stop.tvUsec) := rfl
  have hmod : (t.start.tvSec - t.stop.tvSec).bmod 4294967296
      = t.start.tvSec - t.stop.tvSec :=
    Int.bmod_eq_of_le (by omega) (by omega)
  have hcapped : 0 ≤ (if 40 < t.start.tvSec - t.stop.tvSec then 40
      else t.start.tvSec - t.stop.tvSec)
      ∧ (if 40 < t.start.tvSec - t.stop.tvSec then 40
        else t.start.tvSec - t.stop.tvSec) ≤ 40 := by
    split
    · omega
    · omega
  have hrun := cappedMicro_eq hcapped hstart hstop
  rw [← hmod] at hrun
  refine hrun.trans ?_
  rw [hmod]
  by_cases hfit : t.micros ≤ 21474836
  · -- the seconds are below the cap
    have hcap : ¬ 40 < t.start.tvSec - t.stop.tvSec := by omega
    have heq : ((t.start.tvSec - t.stop.tvSec) * 1000000
        + t.start.tvUsec - t.stop.tvUsec) * 100 = t.sample := by
      rw [t.sample_small hfit]
      omega
    have hn := t.sample_nonneg
    rw [if_neg hcap, if_pos hfit, heq]
    refine checked_of_fits (.of_le hn ?_)
    rw [t.sample_small hfit]
    omega
  · rw [if_neg hfit]
    refine if_neg fun hf => ?_
    have hle := hf.2
    split at hle
    · omega
    · omega

-- ======== averages

/-- A move towards the sample, where the product fits. -/
theorem towards_eq {f ema micro : Int} (hf : 0 ≤ f ∧ f ≤ 1000000)
    (he : 0 ≤ ema ∧ ema ≤ 2147483647)
    (hm : 0 ≤ micro ∧ micro ≤ 2147483647) :
    towards f ema micro = if FitsInt (f * (micro - ema)) then
      some (ema + (f * (micro - ema)).tdiv 1000000) else none := by
  have hdiff : FitsInt (micro - ema) := by
    unfold FitsInt
    omega
  have hsum : FitsInt (ema + (f * (micro - ema)).tdiv 1000000) := by
    have hb := step_between (a := ema) (b := micro) hf.1 hf.2
      (by decide)
    unfold Between at hb
    unfold FitsInt
    omega
  unfold towards
  rw [checked_of_fits hdiff, Option.bind_eq_bind, Option.bind_some]
  by_cases hp : FitsInt (f * (micro - ema))
  · rw [if_pos hp, checked_of_fits hp, Option.bind_some,
      checked_of_fits hsum]
  · rw [if_neg hp, checked, if_neg hp]
    rfl

/-- A value between the smallest and the largest of the samples. -/
def Within (seen : List ResponseTime) (v : Int) : Prop :=
  (∃ t ∈ seen, t.sample ≤ v) ∧ ∃ t ∈ seen, v ≤ t.sample

/-- What an update keeps, after the responses `seen`. -/
structure Averages (seen : List ResponseTime) (e : StatsEma) : Prop where
  window : 1 ≤ e.window
  f1 : 0 ≤ e.f1 ∧ e.f1 ≤ 1000000
  f10 : 0 ≤ e.f10 ∧ e.f10 ≤ 1000000
  /-- An average comes with the weights. -/
  weights : e.ema1 ≠ 0 → e.f1 ≠ 0
  seen_of : e.ema1 ≠ 0 → seen ≠ []
  small : ∀ t ∈ seen, t.micros ≤ 21474836
  ema1 : seen ≠ [] → Within seen e.ema1
  ema10 : seen ≠ [] → Within seen e.ema10

/-- The numbers of an update fit. -/
structure Fits (e : StatsEma) (t : ResponseTime) : Prop where
  sample : t.micros ≤ 21474836
  ema1 : e.ema1 ≠ 0 → FitsInt (e.f1 * (t.sample - e.ema1))
  ema10 : e.ema1 ≠ 0 → FitsInt (e.f10 * (t.sample - e.ema10))

theorem Within.range {seen : List ResponseTime} {v : Int}
    (h : Within seen v) (hs : ∀ t ∈ seen, t.micros ≤ 21474836) :
    0 ≤ v ∧ v ≤ 2147483647 := by
  obtain ⟨⟨a, -, hle⟩, b, hb, hge⟩ := h
  have ha := a.sample_nonneg
  have hsmall := hs b hb
  rw [b.sample_small hsmall] at hge
  omega

/-- The last sample itself. -/
theorem within_last (seen : List ResponseTime) (t : ResponseTime) :
    Within (seen ++ [t]) t.sample :=
  ⟨⟨t, by simp, le_rfl⟩, t, by simp, le_rfl⟩

/-- A value between the average and the new sample. -/
theorem Within.step {seen : List ResponseTime} {v w : Int}
    {t : ResponseTime} (h : Within seen v) (hw : Between v t.sample w) :
    Within (seen ++ [t]) w := by
  obtain ⟨⟨a, ha, hle⟩, b, hb, hge⟩ := h
  unfold Between at hw
  constructor
  · rcases le_total v t.sample with hv | hv
    · exact ⟨a, List.mem_append_left _ ha, by omega⟩
    · exact ⟨t, by simp, by omega⟩
  · rcases le_total v t.sample with hv | hv
    · exact ⟨t, by simp, by omega⟩
    · exact ⟨b, List.mem_append_left _ hb, by omega⟩

-- ======== steps

/-- A part of two million. -/
theorem weight_range {n : Int} (hn : 2 ≤ n) (hn' : n ≤ 100001) :
    0 < (2000000 : Int).tdiv n ∧ (2000000 : Int).tdiv n ≤ 1000000 := by
  rw [Int.tdiv_eq_ediv_of_nonneg (by omega)]
  constructor
  · exact Int.le_ediv_of_mul_le (by omega) (by omega)
  · exact Int.ediv_le_of_le_mul (by omega) (by omega)

namespace Averages

variable {seen : List ResponseTime} {e : StatsEma}

/-- "Initialize it" sets the weights and no average. -/
theorem weighed_run (h : Averages seen e) :
    ∃ e', e.weighed = some e' ∧ Averages seen e' ∧ e'.f1 ≠ 0
      ∧ e'.ema1 = e.ema1 ∧ (e.ema1 ≠ 0 → e' = e) := by
  by_cases hf : e.f1 = 0
  · have hwin := h.window
    have hnone : e.ema1 = 0 := not_not.mp fun he => h.weights he hf
    obtain ⟨w, hw, hlo, hhi⟩ : ∃ w, w = (if 10000 < e.window then 10000
        else e.window) ∧ 1 ≤ w ∧ w ≤ 10000 := by
      refine ⟨_, rfl, ?_⟩
      split
      · omega
      · omega
    obtain ⟨h1, h1'⟩ := weight_range (show 2 ≤ w + 1 by omega) (by omega)
    obtain ⟨h10, h10'⟩ := weight_range (show 2 ≤ 10 * w + 1 by omega)
      (by omega)
    refine ⟨{ e with
        window := w
        f1 := (2000000 : Int).tdiv (w + 1)
        f10 := (2000000 : Int).tdiv (10 * w + 1) }, ?_, ?_, h1.ne', rfl,
      fun he => absurd hnone he⟩
    · unfold StatsEma.weighed
      dsimp only
      rw [if_pos hf, ← hw, checked_of_fits (.of_le (by omega) (by omega)),
        Option.bind_eq_bind, Option.bind_some,
        checked_of_fits (.of_le (by omega) (by omega)),
        checked_of_fits (.of_le (by omega) (by omega))]
      rfl
    · exact ⟨hlo, ⟨h1.le, h1'⟩, ⟨h10.le, h10'⟩,
        fun he => absurd hnone he, h.seen_of, h.small, h.ema1, h.ema10⟩
  · refine ⟨e, ?_, h, hf, rfl, fun _ => rfl⟩
    rw [StatsEma.weighed, if_neg hf]

/-- The first sample, or one after an average of zero. -/
theorem restart (h : Averages seen e) {t : ResponseTime}
    (hf : e.f1 ≠ 0) (ht : t.micros ≤ 21474836) :
    Averages (seen ++ [t]) { e with ema1 := t.sample, ema10 := t.sample } := by
  refine ⟨h.window, h.f1, h.f10, fun _ => hf, fun _ => by simp, ?_,
    fun _ => within_last seen t, fun _ => within_last seen t⟩
  intro u hu
  rcases List.mem_append.mp hu with hu | hu
  · exact h.small u hu
  · rw [List.mem_singleton.mp hu]
    exact ht

/-- A move of both averages. -/
theorem move (h : Averages seen e) {t : ResponseTime} (he : e.ema1 ≠ 0)
    (ht : t.micros ≤ 21474836) :
    Averages (seen ++ [t]) { e with
      ema1 := e.ema1 + (e.f1 * (t.sample - e.ema1)).tdiv 1000000
      ema10 := e.ema10 + (e.f10 * (t.sample - e.ema10)).tdiv 1000000 } := by
  have hs := h.seen_of he
  refine ⟨h.window, h.f1, h.f10, fun _ => h.weights he, fun _ => by simp,
    ?_, fun _ => ?_, fun _ => ?_⟩
  · intro u hu
    rcases List.mem_append.mp hu with hu | hu
    · exact h.small u hu
    · rw [List.mem_singleton.mp hu]
      exact ht
  · exact (h.ema1 hs).step (step_between h.f1.1 h.f1.2 (by decide))
  · exact (h.ema10 hs).step (step_between h.f10.1 h.f10.2 (by decide))

/-- An update goes through just where its numbers fit. -/
theorem step (h : Averages seen e) (t : ResponseTime) :
    (Fits e t → ∃ e', radiusStatsEma e t.start t.stop = some e'
      ∧ Averages (seen ++ [t]) e')
    ∧ (¬ Fits e t → radiusStatsEma e t.start t.stop = none) := by
  obtain ⟨e', hrun, h', hf, hema, hsame⟩ := h.weighed_run
  have hwin := h.window
  have hsec := t.seconds_nonneg
  have hstep : radiusStatsEma e t.start t.stop = (do
      let micro ← scaledMicro t.start t.stop
      if e'.ema1 = 0 then
        return { e' with ema1 := micro, ema10 := micro }
      else
        return { e' with
          ema1 := ← towards e'.f1 e'.ema1 micro
          ema10 := ← towards e'.f10 e'.ema10 micro }) := by
    unfold radiusStatsEma
    rw [if_neg (by omega), if_neg (by omega), hrun]
    rfl
  rw [hstep, scaledMicro_eq]
  by_cases hfit : t.micros ≤ 21474836
  · rw [if_pos hfit, Option.bind_eq_bind, Option.bind_some]
    by_cases he : e.ema1 = 0
    · rw [if_pos (hema.trans he)]
      refine ⟨fun _ => ⟨_, rfl, h'.restart hf hfit⟩, fun hn => ?_⟩
      exact absurd ⟨hfit, fun hne => absurd he hne,
        fun hne => absurd he hne⟩ hn
    · obtain rfl := hsame he
      have hs := h.seen_of he
      have hsample : 0 ≤ t.sample ∧ t.sample ≤ 2147483647 := by
        refine ⟨t.sample_nonneg, ?_⟩
        rw [t.sample_small hfit]
        omega
      rw [if_neg he, towards_eq h.f1 ((h.ema1 hs).range h.small) hsample,
        towards_eq h.f10 ((h.ema10 hs).range h.small) hsample]
      by_cases h1 : FitsInt (e'.f1 * (t.sample - e'.ema1))
      · by_cases h10 : FitsInt (e'.f10 * (t.sample - e'.ema10))
        · rw [if_pos h1, if_pos h10]
          refine ⟨fun _ => ⟨_, rfl, h.move he hfit⟩, fun hn => ?_⟩
          exact absurd ⟨hfit, fun _ => h1, fun _ => h10⟩ hn
        · rw [if_pos h1, if_neg h10]
          exact ⟨fun hn => absurd (hn.ema10 he) h10, fun _ => rfl⟩
      · rw [if_neg h1]
        exact ⟨fun hn => absurd (hn.ema1 he) h1, fun _ => rfl⟩
  · rw [if_neg hfit]
    exact ⟨fun hn => absurd hn.sample hfit, fun _ => rfl⟩

end Averages

-- ======== runs

/-- The numbers of every update of a run fit. -/
def FitsRun (e : StatsEma) : List ResponseTime → Prop
  | [] => True
  | t :: times => Fits e t
      ∧ ∀ e', radiusStatsEma e t.start t.stop = some e' →
        FitsRun e' times

/-- Where the updates go through, the numbers fit all along. -/
theorem Averages.fitsRun {seen times : List ResponseTime} {e : StatsEma}
    (h : Averages seen e)
    (hall : ∀ front, front <+: times →
      ∃ e', statsEmaRun e front = some e') : FitsRun e times := by
  induction times generalizing seen e with
  | nil => exact trivial
  | cons t times ih =>
      obtain ⟨hgo, hstop⟩ := h.step t
      have hfit : Fits e t := by
        by_contra hn
        obtain ⟨e', hrun⟩ := hall [t] ⟨times, rfl⟩
        rw [statsEmaRun, List.foldlM_cons, hstop hn] at hrun
        cases hrun
      refine ⟨hfit, fun e' he' => ?_⟩
      obtain ⟨e₁, he₁, h₁⟩ := hgo hfit
      obtain rfl := Option.some.inj (he₁.symm.trans he')
      refine ih h₁ fun front hfront => ?_
      obtain ⟨e₂, he₂⟩ := hall (t :: front)
        (List.cons_prefix_cons.mpr ⟨rfl, hfront⟩)
      rw [statsEmaRun, List.foldlM_cons, he₁] at he₂
      exact ⟨e₂, he₂⟩

/-- Where the numbers fit all along, each update goes through and leaves
averages of the samples. -/
theorem Averages.run {seen times : List ResponseTime} {e : StatsEma}
    (h : Averages seen e) (hfits : FitsRun e times)
    {front : List ResponseTime} (hfront : front <+: times) :
    ∃ e', statsEmaRun e front = some e' ∧ Averages (seen ++ front) e' := by
  induction times generalizing seen e front with
  | nil =>
      rw [List.prefix_nil.mp hfront, List.append_nil]
      exact ⟨e, rfl, h⟩
  | cons t times ih =>
      cases front with
      | nil =>
          rw [List.append_nil]
          exact ⟨e, rfl, h⟩
      | cons u front =>
          obtain ⟨rfl, hrest⟩ := List.cons_prefix_cons.mp hfront
          obtain ⟨e₁, he₁, h₁⟩ := (h.step u).1 hfits.1
          obtain ⟨e₂, he₂, h₂⟩ := ih h₁ (hfits.2 e₁ he₁) hrest
          refine ⟨e₂, ?_, by simpa using h₂⟩
          rw [statsEmaRun, List.foldlM_cons, he₁]
          exact he₂

/-- Before the first response. -/
theorem averages_fresh {window : Int} (hw : 1 ≤ window) :
    Averages [] { window := window } :=
  ⟨hw, ⟨le_rfl, by simp⟩, ⟨le_rfl, by simp⟩, fun he => absurd rfl he,
    fun he => absurd rfl he, by simp, fun hn => absurd rfl hn,
    fun hn => absurd rfl hn⟩

/-- For every sequence of response times and every window: no computation
overflows and after each update both averages lie between the smallest and
the largest sample so far, just where each sample, and the product of each
weight with the difference of the sample to the average before it, fits
into an `int`. -/
theorem radiusStatsEma_run_iff {window : Int} (hw : 1 ≤ window)
    (times : List ResponseTime) :
    (∀ front, front <+: times →
      ∃ e, statsEmaRun { window := window } front = some e
        ∧ (front ≠ [] → Within front e.ema1 ∧ Within front e.ema10))
      ↔ FitsRun { window := window } times := by
  have hfresh := averages_fresh hw
  constructor
  · intro hall
    refine hfresh.fitsRun fun front hfront => ?_
    obtain ⟨e, he, -⟩ := hall front hfront
    exact ⟨e, he⟩
  · intro hfits front hfront
    obtain ⟨e, he, h⟩ := hfresh.run hfits hfront
    exact ⟨e, he, fun hne => ⟨h.ema1 hne, h.ema10 hne⟩⟩

/-- A time of so many micro-seconds, below a second. -/
def shortTime (n : Int) (h : 0 ≤ n) (h' : n < 1000000) : ResponseTime :=
  { start := ⟨0, n⟩
    stop := ⟨0, 0⟩
    startUsec := ⟨h, h'⟩
    stopUsec := by simp
    seconds := by simp
    forward := by simpa using h }

/-- Two close response times with a window of 100. -/
theorem radiusStatsEma_run_iff_close :
    ∃ e, statsEmaRun { window := 100 } [shortTime 5000 (by decide)
        (by decide), shortTime 5300 (by decide) (by decide)] = some e
      ∧ Within [shortTime 5000 (by decide) (by decide),
          shortTime 5300 (by decide) (by decide)] e.ema1
      ∧ Within [shortTime 5000 (by decide) (by decide),
          shortTime 5300 (by decide) (by decide)] e.ema10 := by
  have hfits : FitsRun { window := 100 } [shortTime 5000 (by decide)
      (by decide), shortTime 5300 (by decide) (by decide)] := by
    refine ⟨⟨by decide, fun h => absurd rfl h, fun h => absurd rfl h⟩,
      fun e' he' => ⟨?_, fun _ _ => trivial⟩⟩
    obtain rfl := Option.some.inj (show some _ = some e' from he')
    exact ⟨by decide, fun _ => by decide, fun _ => by decide⟩
  obtain ⟨e, he, hwithin⟩ :=
    (radiusStatsEma_run_iff (by decide) _).mpr hfits _ (List.prefix_refl _)
  exact ⟨e, he, hwithin (List.cons_ne_nil _ _)⟩

/-- With a window of 100, the product overflows as soon as two response
times are two milli-seconds apart. -/
theorem radiusStatsEma_overflow :
    statsEmaRun { window := 100 } [shortTime 5000 (by decide) (by decide),
      shortTime 7000 (by decide) (by decide)] = none := by
  decide

end WinRadius
