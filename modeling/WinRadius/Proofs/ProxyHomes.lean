/-
A home server that is dead has something scheduled that brings it back, as
long as no status check is lost on the way into the proxy hash.

`Scheduled` is about one home server: dead, it has an event; a zombie that
is pinged has one too. The second half carries the first, because
`mark_home_server_dead` starts no pings for a zombie: it relies on those
that were started when the zombie period began.
-/
import WinRadius.Lib.Run
import WinRadius.Proofs.IdAlloc
import WinRadius.Proofs.ProxyFrame
import WinRadius.Proofs.SignVerify

namespace WinRadius

open Lib

namespace ProxyState

variable {s t : ProxyState}

-- ======== scheduled

/-- Something will be done about a home server that does not answer, unless
a status check was lost (`lost`); and its counter is not below zero. -/
structure Scheduled (lost : Prop) (home : HomeServer) : Prop where
  dead : ¬lost → home.state = .isDead → home.ev ≠ none
  zombie : ¬lost → home.state = .zombie → home.pingCheck ≠ .none →
    home.ev ≠ none
  pinged : home.ev = some .pingHomeServer → home.pingCheck ≠ .none
  counted : 0 ≤ home.currentlyOutstanding

variable {lost : Prop}

theorem Scheduled.congr {a b : HomeServer} (h : Scheduled lost a)
    (hs : b.state = a.state ∧ b.ev = a.ev ∧ b.pingCheck = a.pingCheck
      ∧ (0 ≤ a.currentlyOutstanding → 0 ≤ b.currentlyOutstanding)) :
    Scheduled lost b := by
  obtain ⟨hstate, hev, hping, hcount⟩ := hs
  refine ⟨?_, ?_, ?_, hcount h.counted⟩
  · rw [hstate, hev]
    exact h.dead
  · rw [hstate, hev, hping]
    exact h.zombie
  · rw [hev, hping]
    exact h.pinged

/-- A server that is alive needs nothing. -/
theorem Scheduled.of_alive {home : HomeServer} (h : home.state = .alive)
    (hp : home.ev = some .pingHomeServer → home.pingCheck ≠ .none)
    (hc : 0 ≤ home.currentlyOutstanding) : Scheduled lost home :=
  ⟨by simp [h], by simp [h], hp, hc⟩

/-- Every home server is scheduled. -/
def AllScheduled (lost : Prop) (s : ProxyState) : Prop :=
  ∀ h, Scheduled lost (s.homes h)

theorem SameTimers.scheduled (h : s.SameTimers t)
    (hs : AllScheduled lost s) : AllScheduled lost t :=
  fun k => (hs k).congr (h k)

/-- All servers but one are scheduled. -/
def ScheduledBut (lost : Prop) (s : ProxyState) (h : HomeId) : Prop :=
  ∀ k, k ≠ h → Scheduled lost (s.homes k)

theorem AllScheduled.except (hs : AllScheduled lost s) (h : HomeId) :
    ScheduledBut lost s h :=
  fun k _ => hs k

theorem ScheduledBut.written {h : HomeId} (hs : ScheduledBut lost s h)
    (home : HomeServer) : ScheduledBut lost (s.setHome h home) h := by
  intro k hk
  rw [setHome_other hk]
  exact hs k hk

theorem ScheduledBut.all {h : HomeId} (hs : ScheduledBut lost s h)
    (hh : Scheduled lost (s.homes h)) : AllScheduled lost s := by
  intro k
  by_cases hk : k = h
  · exact hk ▸ hh
  · exact hs k hk

theorem ScheduledBut.setHome {h : HomeId} (hs : ScheduledBut lost s h)
    {home : HomeServer} (hh : Scheduled lost home) :
    AllScheduled lost (s.setHome h home) :=
  (hs.written home).all (by rw [setHome_self]; exact hh)

/-- A status check that gets through schedules the next one. -/
theorem pingHomeServer_scheduled {h : HomeId} {env : SendEnv} {b : Bool}
    (hs : ScheduledBut lost s h)
    (hev : (s.homes h).ev = some .pingHomeServer →
      (s.homes h).pingCheck ≠ .none)
    (hnone : (s.homes h).pingCheck = .none → (s.homes h).state = .isDead →
      (s.homes h).ev ≠ none)
    (hcount : 0 ≤ (s.homes h).currentlyOutstanding)
    (hrun : s.pingHomeServer h env = some (t, b))
    (hsent : ¬lost → b = true) : AllScheduled lost t := by
  unfold pingHomeServer at hrun
  simp only at hrun
  split at hrun
  · next hcond =>
      cases hrun
      refine hs.all ?_
      rcases hcond with h1 | h1 | h1
      · exact .of_alive h1 hev hcount
      · exact ⟨fun _ => hnone h1, fun _ _ hp => absurd h1 hp, hev, hcount⟩
      · exact ⟨fun _ _ => h1, fun _ _ _ => h1, hev, hcount⟩
  · next hcond =>
      rw [not_or, not_or] at hcond
      obtain ⟨⟨s', done⟩, hi, hrun⟩ := Option.bind_eq_some_iff.mp hrun
      have hins := insert_timers hi
      have hbut : ScheduledBut lost s' h :=
        fun k hk => (hs k hk).congr (hins k)
      cases done with
      | false =>
          cases hrun
          have hlost : lost := by
            by_contra hn
            exact absurd (hsent hn) (by simp)
          refine (evRequestFree_timers env.fresh).scheduled (hbut.all ?_)
          have hback : Scheduled lost (s.homes h) :=
            ⟨fun hn => absurd hlost hn, fun hn => absurd hlost hn, hev,
              hcount⟩
          exact hback.congr (hins h)
      | true =>
          obtain ⟨q, -, hrun⟩ := Option.bind_eq_some_iff.mp hrun
          cases hrun
          have hp : (s'.homes h).pingCheck ≠ .none := by
            rw [(hins h).2.2.1]
            exact hcond.2.1
          exact ScheduledBut.setHome hbut
            ⟨by simp, by simp, fun _ => hp, (hins h).2.2.2 hcount⟩

theorem markHomeServerDead_scheduled {h : HomeId} {env : SendEnv}
    {b : Bool} (hs : AllScheduled lost s)
    (hrun : s.markHomeServerDead h env = some (t, b))
    (hsent : ¬lost → b = true) : AllScheduled lost t := by
  have hcount := (hs h).counted
  unfold markHomeServerDead at hrun
  simp only at hrun
  split at hrun
  · next hp =>
      rw [setHome_self] at hp
      split at hrun
      · next hprev =>
          refine pingHomeServer_scheduled ((hs.except h).written _) ?_ ?_ ?_
            hrun hsent
          · rw [setHome_self]
            exact fun _ => hp
          · rw [setHome_self]
            exact fun hn => absurd hn hp
          · rw [setHome_self]
            exact hcount
      · next hprev =>
          cases hrun
          -- the pings were started when the zombie period was
          have hev : ¬lost → (s.homes h).ev ≠ none := by
            intro hn
            cases hstate : (s.homes h).state with
            | alive => exact absurd hstate hprev
            | zombie => exact (hs h).zombie hn hstate hp
            | isDead => exact (hs h).dead hn hstate
          exact (hs.except h).setHome
            ⟨fun hn _ => hev hn, fun hn _ _ => hev hn, fun _ => hp, hcount⟩
  · next hp =>
      cases hrun
      refine ((hs.except h).written _).setHome
        ⟨by simp, by simp, by simp, ?_⟩
      rw [setHome_self]
      exact hcount

/-- No status check is sent for what was a zombie. -/
theorem checkForZombie_sent {h : HomeId} {now : Nat} {env : SendEnv}
    {b : Bool}
    (hrun : s.checkForZombieHomeServer h now env = some (t, b)) :
    b = true := by
  unfold checkForZombieHomeServer at hrun
  simp only at hrun
  split at hrun
  · cases hrun
    rfl
  · next hz =>
      split at hrun
      · cases hrun
        rfl
      · unfold markHomeServerDead at hrun
        rw [not_not] at hz
        simp only [hz, reduceCtorEq, if_false] at hrun
        split at hrun
        · cases hrun
          rfl
        · cases hrun
          rfl

theorem checkForZombie_scheduled {h : HomeId} {now : Nat} {env : SendEnv}
    {b : Bool} (hs : AllScheduled lost s)
    (hrun : s.checkForZombieHomeServer h now env = some (t, b)) :
    AllScheduled lost t := by
  obtain rfl := checkForZombie_sent hrun
  unfold checkForZombieHomeServer at hrun
  simp only at hrun
  split at hrun
  · cases hrun
    exact hs
  · split at hrun
    · cases hrun
      exact hs
    · exact markHomeServerDead_scheduled hs hrun fun _ => rfl

theorem reviveHomeServer_scheduled (hs : AllScheduled lost s) (h : HomeId) :
    AllScheduled lost (s.reviveHomeServer h) :=
  (hs.except h).setHome (.of_alive rfl (by simp) le_rfl)

theorem wakeAllIfAllDead_scheduled (pool : List HomeId)
    (hs : AllScheduled lost s) :
    AllScheduled lost (s.wakeAllIfAllDead pool) := by
  unfold wakeAllIfAllDead
  induction pool generalizing s with
  | nil => exact hs
  | cons h pool ih =>
      rw [List.foldl_cons]
      refine ih ?_
      split
      · exact (hs.except h).setHome
          (.of_alive rfl (hs h).pinged (hs h).counted)
      · exact hs

theorem receivedResponseToPing_scheduled (hs : AllScheduled lost s)
    (r : RequestId) (q : ProxyRequest) (h : HomeId) :
    AllScheduled lost (s.receivedResponseToPing r q h) := by
  unfold receivedResponseToPing
  simp only
  have hcount := sameTimers_setHome (s := s) h { s.homes h with
    numReceivedPings := (s.homes h).numReceivedPings + 1 } rfl rfl rfl id
  have hrem := (hcount.trans (removeFromProxyHash_timers r q)).scheduled hs
  split
  · exact hrem
  · split
    · exact hrem
    · exact (hrem.except h).setHome (.of_alive rfl (by simp) le_rfl)

theorem verifiedResponse_scheduled (hs : AllScheduled lost s)
    (reply : RadiusPacket) (now : Nat) (r : RequestId) (q : ProxyRequest)
    (h : HomeId) :
    AllScheduled lost (s.verifiedResponse reply now r q h).1 := by
  unfold verifiedResponse
  split
  · refine (evRequestFree_timers r).scheduled
      (receivedResponseToPing_scheduled ?_ r _ h)
    exact (SameTimers.of_homes rfl).scheduled hs
  · have halive : AllScheduled lost (s.setHome h { s.homes h with
        state := .alive
        lastPacket := now / usec }) :=
      (hs.except h).setHome
        (.of_alive rfl (hs h).pinged (hs h).counted)
    simp only
    split
    · exact (SameTimers.of_homes rfl).scheduled halive
    · split
      · exact (SameTimers.of_homes rfl).scheduled halive
      · exact (SameTimers.of_homes rfl).scheduled halive

theorem receivedProxyResponse_scheduled {cfg : Config}
    {reply : RadiusPacket} {now : Nat} {r : Option RequestId}
    (hs : AllScheduled lost s)
    (hrun : s.receivedProxyResponse cfg reply now = some (t, r)) :
    AllScheduled lost t := by
  unfold receivedProxyResponse at hrun
  split at hrun
  · cases hrun
    exact hs
  · next s' r' hlook =>
      have hl := (lookup_timers hlook).scheduled hs
      obtain ⟨q, -, hrun⟩ := Option.bind_eq_some_iff.mp hrun
      split at hrun
      · cases hrun
        exact hl
      · obtain ⟨h, -, hrun⟩ := Option.bind_eq_some_iff.mp hrun
        split at hrun
        · cases hrun
        · cases hrun
          exact hl
        · next packet _ =>
            have hv := verifiedResponse_scheduled hl packet now r' q h
            rw [Option.some.inj hrun] at hv
            exact hv

theorem noResponse_scheduled {r : RequestId} {now : Nat}
    {fate : Option ChildState} {env : SendEnv} {b : Bool}
    (hs : AllScheduled lost s)
    (hrun : s.noResponseToProxiedRequest r now fate env = some (t, b))
    (hsent : ¬lost → b = true) : AllScheduled lost t := by
  unfold noResponseToProxiedRequest at hrun
  obtain ⟨q, -, hrun⟩ := Option.bind_eq_some_iff.mp hrun
  obtain ⟨h, -, hrun⟩ := Option.bind_eq_some_iff.mp hrun
  split at hrun
  · cases hrun
    exact hs
  · obtain ⟨⟨s', sent⟩, hz, hrun⟩ := Option.bind_eq_some_iff.mp hrun
    simp only at hrun
    split at hrun
    · cases hrun
      exact (giveUp_timers r fate).scheduled (checkForZombie_scheduled hs hz)
    · split at hrun
      · cases hrun
        exact (giveUp_timers r fate).scheduled
          (checkForZombie_scheduled hs hz)
      · obtain ⟨⟨u, sent'⟩, hp, hrun⟩ := Option.bind_eq_some_iff.mp hrun
        cases hrun
        have hg := (giveUp_timers r fate).scheduled
          (checkForZombie_scheduled hs hz)
        refine pingHomeServer_scheduled ((hg.except h).written _) ?_ ?_ ?_
          hp fun hn => (Bool.and_eq_true_iff.mp (hsent hn)).2
        · simp
        · simp
        · simp

theorem proxyToAnother_scheduled {r : RequestId} {q : ProxyRequest}
    {found : Option HomeId} {pool : List HomeId}
    {fate : Option ChildState} {env : SendEnv} {b : Bool}
    (hs : AllScheduled lost s)
    (hrun : s.proxyToAnother r q found pool fate env = some (t, b)) :
    AllScheduled lost t := by
  have hw := wakeAllIfAllDead_scheduled pool
    ((removeFromProxyHash_timers r q).scheduled hs)
  unfold proxyToAnother at hrun
  simp only at hrun
  split at hrun
  · cases hrun
    exact (giveUp_timers r fate).scheduled hw
  · next h =>
      obtain ⟨q', -, hrun⟩ := Option.bind_eq_some_iff.mp hrun
      have hr : AllScheduled lost
          (((s.removeFromProxyHash r q).wakeAllIfAllDead pool).readdress
            r q' h) := (SameTimers.of_homes rfl).scheduled hw
      split at hrun
      · cases hrun
        exact (giveUp_timers r fate).scheduled hr
      · obtain ⟨⟨u, sent⟩, hp, hrun⟩ := Option.bind_eq_some_iff.mp hrun
        have hu := (proxyRequest_timers hp).scheduled hr
        cases sent with
        | false =>
            cases hrun
            exact (giveUp_timers r fate).scheduled hu
        | true =>
            cases hrun
            exact hu

theorem receivedRetransmit_scheduled {r : RequestId} {now : Nat}
    {found : Option HomeId} {pool : List HomeId}
    {fate : Option ChildState} {env env' : SendEnv} {b : Bool}
    (hs : AllScheduled lost s)
    (hrun : s.receivedRetransmit r now found pool fate env env'
      = some (t, b)) : AllScheduled lost t := by
  unfold receivedRetransmit at hrun
  obtain ⟨q, -, hrun⟩ := Option.bind_eq_some_iff.mp hrun
  obtain ⟨packet, -, hrun⟩ := Option.bind_eq_some_iff.mp hrun
  split at hrun
  · cases hrun
    exact hs
  · obtain ⟨h, -, hrun⟩ := Option.bind_eq_some_iff.mp hrun
    obtain ⟨⟨s', sent⟩, hz, hrun⟩ := Option.bind_eq_some_iff.mp hrun
    have hz' := checkForZombie_scheduled hs hz
    obtain ⟨q', -, hrun⟩ := Option.bind_eq_some_iff.mp hrun
    split at hrun
    · obtain ⟨⟨u, sent'⟩, hp, hrun⟩ := Option.bind_eq_some_iff.mp hrun
      cases hrun
      exact proxyToAnother_scheduled hz' hp
    · obtain ⟨u, hu, hrun⟩ := Option.bind_eq_some_iff.mp hrun
      cases hrun
      exact (countProxied_timers hu).scheduled hz'

theorem noResponseToPing_scheduled {r : RequestId} {now : Nat}
    {late b : Bool} {env : SendEnv} (hs : AllScheduled lost s)
    (hrun : s.noResponseToPing r now late env = some (t, b)) :
    AllScheduled lost t := by
  unfold noResponseToPing at hrun
  obtain ⟨q, -, hrun⟩ := Option.bind_eq_some_iff.mp hrun
  obtain ⟨h, -, hrun⟩ := Option.bind_eq_some_iff.mp hrun
  obtain ⟨⟨s', sent⟩, hz, hrun⟩ := Option.bind_eq_some_iff.mp hrun
  have hzero := sameTimers_setHome (s := s) h
    { s.homes h with numReceivedPings := 0 } rfl rfl rfl id
  have hz' := checkForZombie_scheduled (hzero.scheduled hs) hz
  cases hrun
  cases late with
  | false => exact hz'
  | true => exact (evRequestFree_timers r).scheduled hz'

/-- The timer of a home server goes off. -/
theorem pingTimer_scheduled {h : HomeId} {env : SendEnv} {b : Bool}
    (hs : AllScheduled lost s)
    (hev : (s.homes h).ev = some .pingHomeServer)
    (hrun : (s.setHome h { s.homes h with ev := none }).pingHomeServer h env
      = some (t, b)) (hsent : ¬lost → b = true) : AllScheduled lost t := by
  have hp := (hs h).pinged hev
  refine pingHomeServer_scheduled ((hs.except h).written _) ?_ ?_ ?_ hrun
    hsent
  · simp
  · rw [setHome_self]
    exact fun hn => absurd hn hp
  · rw [setHome_self]
    exact (hs h).counted

-- ======== runs

/-- The step sends a status check that does not get into the proxy hash. -/
def LosesPing (e : ProxyEvent × Bool) : Prop :=
  e.2 = false ∧ match e.1 with
    | .pingTimer _ _ | .timedOut _ _ _ _ | .commandDead _ _ => True
    | _ => False

/-- Every step that loses no status check keeps every home server
scheduled. -/
theorem step_scheduled {cfg : Config} {e : ProxyEvent × Bool}
    (hs : AllScheduled lost s) (hstep : Step cfg s e t)
    (hping : ¬lost → ¬LosesPing e) : AllScheduled lost t := by
  obtain ⟨e, b⟩ := e
  obtain ⟨hadm, hrun⟩ := hstep
  simp only at hadm hrun
  cases e with
  | opened fd src =>
      obtain ⟨u, hu, hrun⟩ := Option.bind_eq_some_iff.mp hrun
      cases hrun
      unfold openListener at hu
      obtain ⟨i, -, hu⟩ := Option.bind_eq_some_iff.mp hu
      split at hu
      · cases hu
      · cases hu
        exact (SameTimers.of_homes rfl).scheduled hs
  | prepared r q =>
      cases hrun
      exact (SameTimers.of_homes rfl).scheduled hs
  | processed r c code =>
      obtain ⟨q, -, hrun⟩ := Option.bind_eq_some_iff.mp hrun
      cases hrun
      exact (SameTimers.of_homes rfl).scheduled hs
  | proxied r env => exact (proxyRequest_timers hrun).scheduled hs
  | originated r env => exact (originated_timers hrun).scheduled hs
  | retransmitted r stamped env => exact (retransmit_timers hrun).scheduled hs
  | duplicated r now found pool fate env env' =>
      exact receivedRetransmit_scheduled hs hrun
  | replied reply now =>
      obtain ⟨⟨u, r⟩, hu, hrun⟩ := Option.bind_eq_some_iff.mp hrun
      cases hrun
      exact receivedProxyResponse_scheduled hs hu
  | timedOut r now fate env =>
      refine noResponse_scheduled hs hrun fun hn => ?_
      exact Bool.of_not_eq_false fun hb => hping hn ⟨hb, trivial⟩
  | pingLost r now late env => exact noResponseToPing_scheduled hs hrun
  | expired r =>
      cases hrun
      exact (evRequestFree_timers r).scheduled hs
  | pingTimer h env =>
      refine pingTimer_scheduled hs hadm.1 hrun fun hn => ?_
      exact Bool.of_not_eq_false fun hb => hping hn ⟨hb, trivial⟩
  | reviveTimer h =>
      cases hrun
      exact reviveHomeServer_scheduled hs h
  | woken pool =>
      cases hrun
      exact wakeAllIfAllDead_scheduled pool hs
  | commandDead h env =>
      refine markHomeServerDead_scheduled hs hrun fun hn => ?_
      exact Bool.of_not_eq_false fun hb => hping hn ⟨hb, trivial⟩
  | commandAlive h =>
      cases hrun
      exact reviveHomeServer_scheduled hs h

theorem Initial.scheduled (h : s.Initial) : AllScheduled lost s := by
  intro k
  obtain ⟨hstate, hev, hcount⟩ := h.2.2.2.2.2 k
  exact .of_alive hstate (by simp [hev]) hcount.ge

-- ======== dead servers

/-- In every run that loses no status check, whatever the order of its
events, a dead home server has an event. -/
theorem dead_home_has_event {cfg : Config} {tr : List (ProxyEvent × Bool)}
    (h0 : s.Initial) (hrun : Trace (Step cfg) s tr t)
    (hping : ∀ e ∈ tr, ¬LosesPing e) (h : HomeId) :
    (t.homes h).state = .isDead → (t.homes h).ev ≠ none := by
  have hall : AllScheduled False t := by
    induction hrun with
    | nil => exact h0.scheduled
    | snoc _ hstep ih =>
        refine step_scheduled (ih fun e he => hping e ?_) hstep
          fun _ => hping _ ?_
        · exact List.mem_append_left _ he
        · exact List.mem_append_right _ (List.mem_singleton_self _)
  exact (hall h).dead not_false

-- ======== given events

/-- The state behind an event. -/
def after (cfg : Config) (s : ProxyState) (e : ProxyEvent × Bool) :
    ProxyState := ((s.run cfg e.1).map Prod.fst).getD s

/-- The events can happen one after the other, with these outcomes. -/
def Plays (cfg : Config) : ProxyState → List (ProxyEvent × Bool) → Prop
  | _, [] => True
  | s, e :: es =>
      s.Admits e.1 ∧ (s.run cfg e.1).map Prod.snd = some e.2
        ∧ Plays cfg (after cfg s e) es

instance decidablePlays (cfg : Config) : (s : ProxyState) →
    (es : List (ProxyEvent × Bool)) → Decidable (Plays cfg s es)
  | _, [] => .isTrue trivial
  | s, e :: es =>
      let _ := decidablePlays cfg (after cfg s e) es
      inferInstanceAs (Decidable (_ ∧ _ ∧ _))

theorem step_after {cfg : Config} {e : ProxyEvent × Bool}
    (hadm : s.Admits e.1) (hrun : (s.run cfg e.1).map Prod.snd = some e.2) :
    Step cfg s e (after cfg s e) := by
  obtain ⟨⟨u, b⟩, hu, hb⟩ := Option.map_eq_some_iff.mp hrun
  refine ⟨hadm, ?_⟩
  rw [after, hu, ← hb]
  rfl

theorem Plays.trace {cfg : Config} {es : List (ProxyEvent × Bool)}
    {tr : List (ProxyEvent × Bool)} (ht : Trace (Step cfg) s tr t)
    (h : Plays cfg t es) :
    Trace (Step cfg) s (tr ++ es) (es.foldl (after cfg) t) := by
  induction es generalizing t tr with
  | nil => rwa [List.append_nil]
  | cons e es ih =>
      have hsnoc := ih (ht.snoc (step_after h.1 h.2.1)) h.2.2
      rwa [List.append_assoc] at hsnoc

/-- A server that is pinged with requests. -/
def pingedHome : HomeServer :=
  { ipaddr := { af := afInet, ipaddr := [127, 0, 0, 1] }
    port := 1812
    secret := [115]
    pingCheck := .request }

/-- The start of a server that proxies to `pingedHome`. -/
def coldStart : ProxyState :=
  { proxyList := packetListCreate true
    requests := fun _ => none
    homes := fun _ => pingedHome }

theorem coldStart_initial : coldStart.Initial :=
  ⟨rfl, rfl, rfl, rfl, fun _ => rfl, fun _ => ⟨rfl, rfl, rfl⟩⟩

/-- A request for `pingedHome`. -/
def forPingedHome : ProxyRequest :=
  { packet := some { code := pwAuthenticationRequest }
    proxy := {
      code := pwAuthenticationRequest
      dstIpaddr := pingedHome.ipaddr
      dstPort := pingedHome.port }
    homeServer := some 0 }

/-- Sockets of both families are open, and two requests are sent to the
server. -/
def twoSent : List (ProxyEvent × Bool) :=
  [(.opened 3 (some Session.anySocket), true),
    (.opened 4 (some Session.anySocket6), true),
    (.prepared 1 forPingedHome, true), (.prepared 2 forPingedHome, true),
    (.proxied 1 { start := 7 }, true), (.proxied 2 { start := 8 }, true)]

/-- The first gets no response, and no id is found for the status check:
the search ends at an id that the socket for IPv6 could take, and no socket
can be opened. The second gets no response either. -/
def checkLost : List (ProxyEvent × Bool) :=
  twoSent ++ [(.timedOut 1 (11 * usec) (some .done)
      { start := 7, fresh := 3 }, false),
    (.timedOut 2 (41 * usec) (some .done) { start := 9, fresh := 3 }, true)]

/-- The same with a status check that gets through. -/
def checkSent : List (ProxyEvent × Bool) :=
  twoSent ++ [(.timedOut 1 (11 * usec) (some .done)
      { start := 9, fresh := 3 }, true),
    (.timedOut 2 (41 * usec) (some .done) { start := 9, fresh := 4 }, true)]

theorem checkSent_scheduled :
    ((checkSent.foldl (after sizedConfig) coldStart).homes 0).state
        = .isDead
      ∧ ((checkSent.foldl (after sizedConfig) coldStart).homes 0).ev
        ≠ none := by
  have hplay : Plays sizedConfig coldStart checkSent := by decide
  have hdead : ((checkSent.foldl (after sizedConfig) coldStart).homes
      0).state = .isDead := by decide
  have hping : ∀ e ∈ checkSent, ¬LosesPing e := by
    simp [checkSent, twoSent, LosesPing]
  exact ⟨hdead, dead_home_has_event coldStart_initial (hplay.trace .nil)
    hping 0 hdead⟩

/-- Once a status check is lost, a dead server can stay dead. -/
theorem dead_home_stranded :
    ¬∀ (cfg : Config) (s t : ProxyState) (tr : List (ProxyEvent × Bool)),
      s.Initial → Trace (Step cfg) s tr t →
      ∀ h, (t.homes h).state = .isDead → (t.homes h).ev ≠ none := by
  intro hall
  have hplay : Plays sizedConfig coldStart checkLost := by decide
  have hdead : ((checkLost.foldl (after sizedConfig) coldStart).homes
      0).state = .isDead := by decide
  have hev : ((checkLost.foldl (after sizedConfig) coldStart).homes 0).ev
      = none := by decide
  exact hall sizedConfig coldStart _ _ coldStart_initial
    (hplay.trace .nil) 0 hdead hev

end ProxyState

end WinRadius
