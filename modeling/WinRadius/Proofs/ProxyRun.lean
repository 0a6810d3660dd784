/-
The counters over whole runs.

A step is `Clean` when what it sends gets into the proxy hash and it
re-inserts no CoA request. `Steady` is what a server sees in a run it is
counted exactly in: it stays alive, and a reply that is found for it is
taken, or takes the request out of the hash.
-/
import WinRadius.Proofs.ProxyBound
import WinRadius.Proofs.ProxyHash

namespace WinRadius

open Lib

namespace ProxyState

variable {s t u : ProxyState} {P : HomeId → Prop}

-- ======== home servers

theorem Kept.pingHomeServer (h : Kept P s) {k : HomeId} {env : SendEnv}
    (hfresh : s.requests env.fresh = none)
    (hrun : s.pingHomeServer k env = some (t, true)) : Kept P t := by
  unfold ProxyState.pingHomeServer at hrun
  simp only at hrun
  split at hrun
  · cases hrun
    exact h
  · obtain ⟨⟨s', done⟩, hi, hrun⟩ := Option.bind_eq_some_iff.mp hrun
    cases done with
    | false => cases hrun
    | true =>
        obtain ⟨q, hq, hrun⟩ := Option.bind_eq_some_iff.mp hrun
        cases hrun
        have hnone : s.entry env.fresh = none := by
          rw [entry, hfresh]
          rfl
        have hset : Kept P
            (s.setRequest env.fresh (s.statusCheck k)) :=
          h.setRequest (hnone ▸ rfl) fun _ => rfl
        obtain ⟨hins, q', hq', hreply⟩ := hset.insert
          (setRequest_self env.fresh (s.statusCheck k))
          ⟨rfl, rfl, by simp [statusCheck]⟩ hi
        obtain rfl : q = q' := Option.some.inj (hq.symm.trans hq')
        have hsent := hins.sent hq hreply { q with childState := .proxied }
          rfl rfl
        refine hsent.setHome k _ ?_
        exact Or.inl rfl

theorem Kept.markHomeServerDead (h : Kept P s) {k : HomeId}
    {env : SendEnv} (hfresh : s.requests env.fresh = none)
    (hrun : s.markHomeServerDead k env = some (t, true)) : Kept P t := by
  unfold ProxyState.markHomeServerDead at hrun
  simp only at hrun
  have hdead := h.setHome k { s.homes k with
    state := .isDead
    numReceivedPings := 0 } (Or.inl rfl)
  split at hrun
  · split at hrun
    · exact hdead.pingHomeServer hfresh hrun
    · cases hrun
      exact hdead
  · cases hrun
    refine hdead.setHome k _ ?_
    exact Or.inl rfl

theorem Kept.checkForZombie (h : Kept P s) {k : HomeId} {now : Nat}
    {env : SendEnv} {b : Bool} (hfresh : s.requests env.fresh = none)
    (hrun : s.checkForZombieHomeServer k now env = some (t, b)) :
    Kept P t := by
  obtain rfl := checkForZombie_sent hrun
  unfold checkForZombieHomeServer at hrun
  simp only at hrun
  split at hrun
  · cases hrun
    exact h
  · split at hrun
    · cases hrun
      exact h
    · exact h.markHomeServerDead hfresh hrun

/-- Marking a zombie dead writes to no request. -/
theorem checkForZombie_requests {k : HomeId} {now : Nat} {env : SendEnv}
    {b : Bool}
    (hrun : s.checkForZombieHomeServer k now env = some (t, b)) :
    t.requests = s.requests := by
  unfold checkForZombieHomeServer at hrun
  simp only at hrun
  split at hrun
  · cases hrun
    rfl
  · next hz =>
      split at hrun
      · cases hrun
        rfl
      · unfold ProxyState.markHomeServerDead at hrun
        rw [not_not] at hz
        simp only [hz, reduceCtorEq, if_false] at hrun
        split at hrun
        · cases hrun
          rfl
        · cases hrun
          rfl

/-- No status check changes the state of a home server. -/
theorem pingHomeServer_state {k : HomeId} {env : SendEnv} {b : Bool}
    (hrun : s.pingHomeServer k env = some (t, b)) (h : HomeId) :
    (t.homes h).state = (s.homes h).state := by
  unfold ProxyState.pingHomeServer at hrun
  simp only at hrun
  split at hrun
  · cases hrun
    rfl
  · obtain ⟨⟨s', done⟩, hi, hrun⟩ := Option.bind_eq_some_iff.mp hrun
    have hins := (insert_timers hi h).1
    cases done with
    | false =>
        cases hrun
        exact ((evRequestFree_timers env.fresh h).1).trans hins
    | true =>
        obtain ⟨q, -, hrun⟩ := Option.bind_eq_some_iff.mp hrun
        cases hrun
        by_cases hk : h = k
        · subst hk
          rw [setHome_self]
          exact hins
        · rw [setHome_other hk]
          exact hins

theorem Kept.wakeAllIfAllDead (h : Kept P s) (pool : List HomeId) :
    Kept P (s.wakeAllIfAllDead pool) := by
  unfold ProxyState.wakeAllIfAllDead
  induction pool generalizing s with
  | nil => exact h
  | cons k pool ih =>
      rw [List.foldl_cons]
      refine ih ?_
      split
      · refine h.setHome k _ ?_
        exact Or.inl rfl
      · exact h

theorem wakeAllIfAllDead_requests (pool : List HomeId) :
    (s.wakeAllIfAllDead pool).requests = s.requests := by
  unfold ProxyState.wakeAllIfAllDead
  induction pool generalizing s with
  | nil => rfl
  | cons k pool ih =>
      rw [List.foldl_cons, ih]
      split
      · rfl
      · rfl

-- ======== sending

theorem Kept.proxyRequest (h : Kept P s) {r : RequestId} {q : ProxyRequest}
    {env : SendEnv} (hq : s.requests r = some q) (hu : Unsent q)
    (hrun : s.proxyRequest r env = some (t, true)) : Kept P t := by
  unfold ProxyState.proxyRequest at hrun
  obtain ⟨q₀, -, hrun⟩ := Option.bind_eq_some_iff.mp hrun
  obtain ⟨k, -, hrun⟩ := Option.bind_eq_some_iff.mp hrun
  split at hrun
  · cases hrun
  · obtain ⟨⟨s', done⟩, hi, hrun⟩ := Option.bind_eq_some_iff.mp hrun
    cases done with
    | false => cases hrun
    | true =>
        obtain ⟨q₁, hq₁, hrun⟩ := Option.bind_eq_some_iff.mp hrun
        cases hrun
        obtain ⟨hins, q', hq', hreply⟩ := h.insert hq hu hi
        obtain rfl : q₁ = q' := Option.some.inj (hq₁.symm.trans hq')
        refine hins.sent hq₁ hreply _ ?_ ?_
        · rfl
        · rfl

theorem Kept.originated (h : Kept P s) {r : RequestId} {q : ProxyRequest}
    {env : SendEnv} (hq : s.requests r = some q) (hu : Unsent q)
    (hrun : s.originatedCoaRequest r env = some (t, true)) :
    Kept P t := by
  unfold originatedCoaRequest at hrun
  obtain ⟨⟨s', done⟩, hi, hrun⟩ := Option.bind_eq_some_iff.mp hrun
  cases done with
  | false => cases hrun
  | true =>
      obtain ⟨q₁, hq₁, hrun⟩ := Option.bind_eq_some_iff.mp hrun
      cases hrun
      obtain ⟨hins, q', hq', hreply⟩ := h.insert hq hu hi
      obtain rfl : q₁ = q' := Option.some.inj (hq₁.symm.trans hq')
      refine hins.sent hq₁ hreply _ ?_ ?_
      · rfl
      · rfl

theorem Kept.countProxied (h : Kept P s) {r : RequestId}
    (hrun : s.countProxied r = some t) : Kept P t := by
  unfold ProxyState.countProxied at hrun
  obtain ⟨q, hq, hrun⟩ := Option.bind_eq_some_iff.mp hrun
  cases hrun
  refine h.setRequest ?_ (h.patient r q hq)
  rw [entry_eq hq]
  rfl

theorem Kept.proxyToAnother (h : Kept P s) {r : RequestId}
    {q : ProxyRequest} {found : Option HomeId} {pool : List HomeId}
    {fate : Option ChildState} {env : SendEnv}
    (hq : s.requests r = some q) (hc : q.childState = .proxied)
    (hf : fate ≠ some .proxied)
    (hrun : s.proxyToAnother r q found pool fate env = some (t, true)) :
    Kept P t := by
  have hrem := (h.removeFromProxyHash hq).wakeAllIfAllDead pool
  unfold ProxyState.proxyToAnother at hrun
  simp only at hrun
  split at hrun
  · cases hrun
    exact hrem.giveUp hf
  · next k =>
      obtain ⟨q', hq', hrun⟩ := Option.bind_eq_some_iff.mp hrun
      have hreq := hq'
      rw [wakeAllIfAllDead_requests] at hreq
      -- the request is out of the hash, and waits
      have hgone : q'.inProxyHash = false ∧ q'.proxyReply = none := by
        have hreply := h.patient r q hq hc
        rcases removeFromProxyHash_cases h.hash hq with ⟨hflag, hsame⟩
          | ⟨-, -, -, hset⟩
        · rw [hsame, hq, Option.some.injEq] at hreq
          subst hreq
          exact ⟨hflag, hreply⟩
        · rw [hset, setRequest_self, Option.some.injEq] at hreq
          subst hreq
          exact ⟨rfl, hreply⟩
      obtain ⟨q₁, hq₁, hu, hread⟩ : ∃ q₁ : ProxyRequest,
          (((s.removeFromProxyHash r q).wakeAllIfAllDead pool).readdress r
            q' k).requests r = some q₁ ∧ Unsent q₁
          ∧ Kept P (((s.removeFromProxyHash r q).wakeAllIfAllDead
            pool).readdress r q' k) := by
        refine ⟨_, setRequest_self r _, ⟨hgone.1, hgone.2, by simp⟩,
          hrem.setRequest ?_ fun _ => hgone.2⟩
        rw [entry_eq hq', ProxyRequest.entry_unlisted hgone.1]
        exact ProxyRequest.entry_unlisted hgone.1
      split at hrun
      · cases hrun
        exact hread.giveUp hf
      · obtain ⟨⟨v, sent⟩, hp, hrun⟩ := Option.bind_eq_some_iff.mp hrun
        cases sent with
        | false => cases hrun
        | true =>
            cases hrun
            exact hread.proxyRequest hq₁ hu hp

theorem Kept.receivedRetransmit (h : Kept P s) {r : RequestId}
    {now : Nat} {found : Option HomeId} {pool : List HomeId}
    {fate : Option ChildState} {env env' : SendEnv}
    (hprox : ∃ q ∈ s.requests r, q.childState = .proxied)
    (hfresh : s.requests env.fresh = none) (hf : fate ≠ some .proxied)
    (hrun : s.receivedRetransmit r now found pool fate env env'
      = some (t, true)) : Kept P t := by
  obtain ⟨q₀, hq₀, hc⟩ := hprox
  unfold ProxyState.receivedRetransmit at hrun
  obtain ⟨q, hq, hrun⟩ := Option.bind_eq_some_iff.mp hrun
  obtain ⟨packet, -, hrun⟩ := Option.bind_eq_some_iff.mp hrun
  split at hrun
  · cases hrun
    exact h
  · obtain ⟨k, -, hrun⟩ := Option.bind_eq_some_iff.mp hrun
    obtain ⟨⟨s', sent⟩, hz, hrun⟩ := Option.bind_eq_some_iff.mp hrun
    have hz' := h.checkForZombie hfresh hz
    obtain ⟨q', hq', hrun⟩ := Option.bind_eq_some_iff.mp hrun
    have hsame : q' = q₀ := by
      rw [checkForZombie_requests hz] at hq'
      exact Option.some.inj (hq'.symm.trans hq₀)
    split at hrun
    · obtain ⟨⟨v, sent'⟩, hp, hrun⟩ := Option.bind_eq_some_iff.mp hrun
      obtain rfl := checkForZombie_sent hz
      cases hrun
      exact hz'.proxyToAnother hq' (hsame ▸ hc) hf hp
    · obtain ⟨v, hv, hrun⟩ := Option.bind_eq_some_iff.mp hrun
      cases hrun
      exact hz'.countProxied hv

/-- Without a time stamp to update, a CoA request is sent again as it
is. -/
theorem Kept.retransmit (h : Kept P s) {r : RequestId} {env : SendEnv}
    {b : Bool}
    (hrun : s.retransmitCoaRequest r false env = some (t, b)) :
    Kept P t := by
  obtain ⟨v, hv, hrun⟩ := Option.bind_eq_some_iff.mp hrun
  cases hrun
  exact h.countProxied hv

-- ======== timeouts

theorem Kept.noResponseToPing (h : Kept P s) {r : RequestId} {now : Nat}
    {late b : Bool} {env : SendEnv} (hfresh : s.requests env.fresh = none)
    (hrun : s.noResponseToPing r now late env = some (t, b)) :
    Kept P t := by
  unfold ProxyState.noResponseToPing at hrun
  obtain ⟨q, -, hrun⟩ := Option.bind_eq_some_iff.mp hrun
  obtain ⟨k, -, hrun⟩ := Option.bind_eq_some_iff.mp hrun
  obtain ⟨⟨s', sent⟩, hz, hrun⟩ := Option.bind_eq_some_iff.mp hrun
  have hset := h.setHome k { s.homes k with numReceivedPings := 0 }
    (Or.inl rfl)
  have hz' := hset.checkForZombie hfresh hz
  cases hrun
  cases late with
  | false => exact hz'
  | true => exact hz'.evRequestFree r

/-- A server that gets no response is reset, and then it is a zombie. -/
theorem Kept.noResponse (h : Kept P s) {r : RequestId} {now : Nat}
    {fate : Option ChildState} {env : SendEnv}
    (hfresh : s.requests env.fresh = none) (hf : fate ≠ some .proxied)
    (halive : ∀ k, P k → (t.homes k).state = .alive)
    (hrun : s.noResponseToProxiedRequest r now fate env
      = some (t, true)) : Kept P t := by
  unfold noResponseToProxiedRequest at hrun
  obtain ⟨q, -, hrun⟩ := Option.bind_eq_some_iff.mp hrun
  obtain ⟨k, -, hrun⟩ := Option.bind_eq_some_iff.mp hrun
  split at hrun
  · cases hrun
    exact h
  · obtain ⟨⟨s', sent⟩, hz, hrun⟩ := Option.bind_eq_some_iff.mp hrun
    have hg : Kept P (s'.giveUp r fate) :=
      (h.checkForZombie hfresh hz).giveUp hf
    simp only at hrun
    split at hrun
    · cases hrun
      exact hg
    · split at hrun
      · cases hrun
        exact hg
      · obtain ⟨⟨v, sent'⟩, hp, hrun⟩ := Option.bind_eq_some_iff.mp hrun
        obtain rfl := checkForZombie_sent hz
        cases hrun
        have hzombie := pingHomeServer_state hp k
        simp only [markZombie, setHome_self] at hzombie
        have hnot : ¬P k := fun hpk => by
          rw [halive k hpk] at hzombie
          cases hzombie
        have hfresh' : ((s'.giveUp r fate).markZombie k).requests
            env.fresh = none := by
          refine giveUp_none fate ?_
          rw [checkForZombie_requests hz, hfresh]
        have hreset : Kept P ((s'.giveUp r fate).markZombie k) := by
          refine hg.setHome k _ ?_
          exact Or.inr ⟨rfl, hnot⟩
        exact hreset.pingHomeServer hfresh' hp

-- ======== replies

/-- `lookup_in_proxy_hash` finds a request that is in the hash. -/
theorem lookup_cases (hs : s.HashInv) {reply : RadiusPacket}
    {r : RequestId} (hrun : s.lookupInProxyHash reply = some (t, r)) :
    ∃ q, s.requests r = some q ∧ q.inProxyHash = true
      ∧ Uncounted s t q.asEntry
      ∧ ∃ q', t.requests = (s.setRequest r q').requests
        ∧ q'.childState = q.childState ∧ q'.proxyReply = q.proxyReply
        ∧ q'.homeServer = q.homeServer ∧ q'.asEntry = q.asEntry
        ∧ ((q'.inProxyHash = false ∧ ∃ p, s.Left t r p)
          ∨ q'.inProxyHash = true ∧ s.SameHash t) := by
  unfold lookupInProxyHash at hrun
  obtain ⟨p, hp, hrun⟩ := Option.bind_eq_some_iff.mp hrun
  obtain ⟨r', hr', hrun⟩ := Option.bind_eq_some_iff.mp hrun
  obtain ⟨q, hq, hrun⟩ := Option.bind_eq_some_iff.mp hrun
  have hr : r' = r := by
    simp only at hrun
    split at hrun
    · cases hrun
      rfl
    · cases hrun
      rfl
  subst hr
  have hflag : q.inProxyHash = true := by
    obtain ⟨o, ho, hor⟩ := Option.map_eq_some_iff.mp hr'
    obtain ⟨e, he, -⟩ := hs.owner o (List.mem_of_find?_eq_some ho)
    rw [hor, entry_eq hq] at he
    by_contra hf
    rw [ProxyRequest.entry_unlisted (Bool.not_eq_true _ ▸ hf)] at he
    cases he
  refine ⟨q, hq, hflag, ?_⟩
  obtain ⟨q₁, hq₁⟩ : ∃ q₁ : ProxyRequest, q₁ = { q with
      numProxiedResponses := q.numProxiedResponses + 1 } := ⟨_, rfl⟩
  rw [← hq₁] at hrun
  have hent : q₁.asEntry = q.asEntry := by
    rw [hq₁]
    rfl
  simp only at hrun
  split at hrun
  · obtain ⟨v, hv⟩ : ∃ v, v = ((s.yankProxy q₁.proxy).idFreeProxy
        q₁.proxy).setRequest r' { q₁ with inProxyHash := false } := ⟨_, rfl⟩
    rw [← hv] at hrun
    cases hrun
    obtain ⟨hpl, howners, hreq⟩ := uncountOutstanding_frame (s := v) q₁
    have hreq' : (v.uncountOutstanding q₁).requests
        = (s.setRequest r' { q₁ with inProxyHash := false }).requests := by
      rw [hreq, hv, setRequest, setRequest, idFreeProxy_requests,
        yankProxy_requests]
    have hcount : Uncounted s (v.uncountOutstanding q₁) q.asEntry := by
      rw [← hent]
      refine (uncountOutstanding_count q₁).congr ?_
      rw [hv, setRequest_homes, idFreeProxy_homes, yankProxy_homes]
    refine ⟨hcount, _, hreq', by rw [hq₁], by rw [hq₁], by rw [hq₁], hent,
      Or.inl ⟨rfl, ?_⟩⟩
    refine yanked_left hs hq hflag ?_ ?_ hreq' rfl
    · rw [hpl, hv, hq₁]
      exact idFreeProxy_tree q.proxy
    · rw [howners, hv, hq₁]
      rfl
  · cases hrun
    obtain ⟨hpl, howners, hreq⟩ := uncountOutstanding_frame
      (s := s.setRequest r' q₁) q₁
    have hcount : Uncounted s ((s.setRequest r' q₁).uncountOutstanding q₁)
        q.asEntry := by
      rw [← hent]
      exact (uncountOutstanding_count q₁).congr rfl
    have hflag₁ : q₁.inProxyHash = true := by
      rw [hq₁]
      exact hflag
    have hset : s.SameHash (s.setRequest r' q₁) := by
      refine sameHash_setRequest ?_
      rw [entry_eq hq, ProxyRequest.entry_listed hflag,
        ProxyRequest.entry_listed hflag₁, hent]
    refine ⟨hcount, _, hreq, by rw [hq₁], by rw [hq₁], by rw [hq₁], hent,
      Or.inr ⟨hflag₁, hset.trans ⟨?_, howners, entry_of_requests hreq⟩⟩⟩
    rw [hpl]

theorem Counted.mono {Q : HomeId → Prop} (h : Counted Q s)
    (hpq : ∀ k, P k → Q k) : Counted P s :=
  fun k => ⟨(h k).1, (h k).2.1, fun hp => (h k).2.2 (hpq k hp)⟩

/-- A request that is in the hash gets its reply. -/
theorem answered_setRequest {r : RequestId} {q : ProxyRequest}
    (q' : ProxyRequest) (hs : s.entry r = some q.asEntry) (ht : t.proxyList = s.proxyList)
    (ho : t.owners = s.owners) (hr : t.requests = (s.setRequest r q').requests)
    (hflag : q'.inProxyHash = true)
    (hans : q'.asEntry = { q.asEntry with answered := true }) :
    s.Answered t r q.asEntry := by
  refine ⟨hs, by rw [ht], ho, ?_⟩
  rw [entry_of_requests hr, entry_setRequest,
    ProxyRequest.entry_listed hflag, hans]

/-- A status check is answered: it leaves the hash, if it is in. -/
theorem receivedResponseToPing_counted {r : RequestId} {q : ProxyRequest}
    {k : HomeId} (hs : s.HashInv) (hc : Counted P s)
    (hq : s.requests r = some q)
    (halive : P k → (s.homes k).state = .alive) :
    (s.receivedResponseToPing r q k).HashInv
      ∧ Counted P (s.receivedResponseToPing r q k)
      ∧ ∀ r', r' ≠ r → (s.receivedResponseToPing r q k).requests r'
        = s.requests r' := by
  obtain ⟨v, hv⟩ : ∃ v, v = s.setHome k { s.homes k with
      numReceivedPings := (s.homes k).numReceivedPings + 1 } := ⟨_, rfl⟩
  have hsame : s.SameHash v := hv ▸ sameHash_setHome _ _
  have hvs := hsame.inv hs
  have hvc : Counted P v := hc.same hsame fun k' => by
    refine Or.inl ?_
    rw [hv]
    by_cases hk : k' = k
    · rw [hk, count, setHome_self, count]
    · rw [count, setHome_other hk, count]
  have hvq : v.requests r = some q := by
    rw [hv]
    exact hq
  have hvstate : (v.homes k).state = (s.homes k).state := by
    rw [hv, setHome_self]
  have hreq : ∀ r', r' ≠ r →
      (v.removeFromProxyHash r q).requests r' = s.requests r' := by
    intro r' hne
    rw [removeFromProxyHash_requests r q r' hne, hv]
    rfl
  have hstate := (removeFromProxyHash_timers (s := v) r q k).1
  have hrem : (v.removeFromProxyHash r q).HashInv
      ∧ Counted P (v.removeFromProxyHash r q) := by
    rcases removeFromProxyHash_cases hvs hvq with ⟨-, heq⟩
      | ⟨hflag, ⟨p, hleft⟩, hcount, -⟩
    · rw [heq]
      exact ⟨hvs, hvc⟩
    · have hentry : v.entry r = some q.asEntry := by
        rw [entry_eq hvq, ProxyRequest.entry_listed hflag]
      exact ⟨hleft.inv hvs, hvc.left hvs hentry hleft hcount⟩
  unfold receivedResponseToPing
  simp only
  rw [← hv]
  split
  · exact ⟨hrem.1, hrem.2, hreq⟩
  · next hdown =>
      split
      · exact ⟨hrem.1, hrem.2, hreq⟩
      · have hnot : ¬P k := fun hp =>
          hdown (hstate.trans (hvstate.trans (halive hp)))
        refine ⟨(sameHash_setHome k _).inv hrem.1,
          hrem.2.same (sameHash_setHome k _) fun k' => ?_, hreq⟩
        by_cases hk : k' = k
        · rw [hk]
          refine Or.inr ⟨?_, hnot⟩
          rw [count, setHome_self]
        · rw [count, setHome_other hk, count]
          exact Or.inl rfl

/-- The requests other than one are patient, and that one is freed. -/
theorem Patient.freed {r : RequestId} (h : Patient s)
    (hr : ∀ r', r' ≠ r → t.requests r' = s.requests r') :
    Patient (t.evRequestFree r) := by
  intro r' q' hr' hc
  rw [evRequestFree_requests] at hr'
  by_cases heq : r' = r
  · rw [heq, Function.update_self] at hr'
    cases hr'
  · rw [Function.update_of_ne heq, hr r' heq] at hr'
    exact h r' q' hr' hc

/-- A reply is taken, or not, once the request is out of the hash. -/
theorem Kept.verified (h : Kept P s) (reply : RadiusPacket) (now : Nat)
    {r : RequestId} {q : ProxyRequest} {k : HomeId}
    (hq : s.requests r = some q) (hflag : q.inProxyHash = false)
    (halive : P k → (s.homes k).state = .alive) :
    Kept P (s.verifiedResponse reply now r q k).1 := by
  have hnone : ∀ q' : ProxyRequest, q'.inProxyHash = false →
      q'.entry = s.entry r := by
    intro q' hq'
    rw [entry_eq hq, ProxyRequest.entry_unlisted hflag,
      ProxyRequest.entry_unlisted hq']
  unfold verifiedResponse
  split
  · have hsame : s.SameHash
        (s.setRequest r { q with proxyReply := some reply }) :=
      sameHash_setRequest (hnone _ hflag)
    obtain ⟨hs, hc, hr⟩ := receivedResponseToPing_counted (hsame.inv h.hash)
      (h.counted.same hsame fun _ => Or.inl rfl) (setRequest_self r _)
      halive
    obtain ⟨hs', hc'⟩ := evRequestFree_counted hs hc r
    refine ⟨hs', hc', h.patient.freed fun r' hne => ?_⟩
    exact (hr r' hne).trans (setRequest_other hne _)
  · next packet _ =>
      have hset := h.setHome k { s.homes k with
        state := .alive
        lastPacket := now / usec } (Or.inl rfl)
      have hset' : Kept P ((s.setHome k { s.homes k with
          state := .alive
          lastPacket := now / usec }).setRequest r
            { q with attached := false }) :=
        hset.setRequest (hnone _ hflag) (h.patient r q hq)
      simp only
      split
      · exact hset'
      · split
        · exact hset'
        · refine hset'.setRequest ?_ fun hc => by cases hc
          rw [entry_setRequest, Function.update_self]
          refine Eq.trans (b := none) ?_ ?_
          · exact ProxyRequest.entry_unlisted hflag
          · exact (ProxyRequest.entry_unlisted hflag).symm

/-- A reply is found for a request that stays in the hash: it is taken, or
the request goes on waiting. -/
theorem Kept.verified_listed (h : Kept P s) (hsame : s.SameHash u)
    (reply : RadiusPacket) (now : Nat) {r : RequestId} {q : ProxyRequest}
    {k : HomeId} (hn : Uncounted s u q.asEntry) (hpat : Patient u)
    (hq : u.requests r = some q) (hflag : q.inProxyHash = true)
    (halive : P k → (u.homes k).state = .alive)
    (htaken : (∃ k, P k) →
      ∀ q' ∈ (u.verifiedResponse reply now r q k).1.requests r,
        q'.inProxyHash = true → q'.proxyReply ≠ none)
    (hreply : q.proxyReply = none) :
    Kept P (u.verifiedResponse reply now r q k).1 := by
  have hentry : u.entry r = some q.asEntry := by
    rw [entry_eq hq, ProxyRequest.entry_listed hflag]
  have hus := hsame.inv h.hash
  unfold verifiedResponse at htaken ⊢
  cases hp : q.packet with
  | none =>
      simp only [hp] at htaken ⊢
      have hansw : u.Answered
          (u.setRequest r { q with proxyReply := some reply, packet := none })
          r q.asEntry :=
        answered_setRequest _ hentry rfl rfl rfl hflag rfl
      obtain ⟨hs, hc, hr⟩ := receivedResponseToPing_counted
        (hansw.inv hus)
        (h.counted.answered h.hash hsame hn hansw fun _ => rfl)
        (setRequest_self r _) halive
      obtain ⟨hs', hc'⟩ := evRequestFree_counted hs hc r
      refine ⟨hs', hc', hpat.freed fun r' hne => ?_⟩
      exact (hr r' hne).trans (setRequest_other hne _)
  | some packet =>
      simp only [hp] at htaken ⊢
      obtain ⟨home, hhome⟩ : ∃ home, home = { u.homes k with
          state := .alive
          lastPacket := now / usec } := ⟨_, rfl⟩
      rw [← hhome] at htaken ⊢
      have hcount : home.currentlyOutstanding = u.count k := by
        rw [hhome]
        rfl
      have hlook : Kept (fun k => P k ∧ q.asEntry.waits k = false) u :=
        ⟨hus, h.counted.looked hsame hn, hpat⟩
      have hset := hlook.setHome k home (Or.inl hcount)
      have hset' : Kept (fun k => P k ∧ q.asEntry.waits k = false)
          ((u.setHome k home).setRequest r
            { q with packet := some packet, attached := false }) := by
        refine hset.setRequest ?_ fun hc => hpat r q hq hc
        exact (ProxyRequest.entry_listed hflag).trans hentry.symm
      -- a reply that is not taken is one that no server in `P` waits for
      have hleft : ((∃ k, P k) → False) →
          Kept P ((u.setHome k home).setRequest r
            { q with packet := some packet, attached := false }) :=
        fun hno => ⟨hset'.hash,
          hset'.counted.mono fun k' hp' => absurd ⟨k', hp'⟩ hno,
          hset'.patient⟩
      split at htaken
      · next hcoa =>
          rw [if_pos hcoa]
          exact hleft fun hex => htaken hex _ (setRequest_self r _) hflag
            hreply
      · next hcoa =>
          rw [if_neg hcoa]
          split at htaken
          · next hlate =>
              rw [if_pos hlate]
              exact hleft fun hex => htaken hex _ (setRequest_self r _)
                hflag hreply
          · next hlate =>
              rw [if_neg hlate]
              have hansw : u.Answered
                  (((u.setHome k home).setRequest r
                    { q with packet := some packet, attached := false }).setRequest
                      r { q with
                        packet := some packet
                        attached := false
                        proxyReply := some reply
                        childState := .queued }) r q.asEntry := by
                refine answered_setRequest { q with
                  packet := some packet
                  attached := false
                  proxyReply := some reply
                  childState := .queued } hentry rfl rfl ?_ hflag rfl
                simp [ProxyState.setRequest, ProxyState.setHome]
              refine ⟨hansw.inv hus,
                h.counted.answered h.hash hsame hn hansw fun k' => ?_,
                hset'.patient.setRequest fun hc => by cases hc⟩
              by_cases hk : k' = k
              · rw [hk, count, setRequest_homes, setRequest_homes,
                  setHome_self, hcount]
              · rw [count, setRequest_homes, setRequest_homes,
                  setHome_other hk, count]

/-- The reply, if it is found for a request that waits, is taken or takes
the request out of the hash. -/
def TakesReply (s : ProxyState) (e : ProxyEvent) (t : ProxyState) : Prop :=
  ∀ reply now u r, e = .replied reply now →
    s.lookupInProxyHash reply = some (u, r) →
    ∀ q ∈ t.requests r, q.inProxyHash = true → q.proxyReply ≠ none

theorem Kept.replied (h : Kept P s) {cfg : Config} {reply : RadiusPacket}
    {now : Nat} {o : Option RequestId}
    (halive : ∀ k, P k → (s.homes k).state = .alive)
    (htaken : (∃ k, P k) → TakesReply s (.replied reply now) t)
    (hrun : s.receivedProxyResponse cfg reply now = some (t, o)) :
    Kept P t := by
  unfold receivedProxyResponse at hrun
  split at hrun
  · cases hrun
    exact h
  · next u r hlook =>
      have htaken' := fun hex => htaken hex reply now u r rfl hlook
      obtain ⟨q₀, hq₀, hflag₀, hn, q, hreq, hchild, hreply, hhome, hent,
        hcases⟩ := lookup_cases h.hash hlook
      obtain ⟨q', hq', hrun⟩ := Option.bind_eq_some_iff.mp hrun
      have hq : u.requests r = some q := by
        rw [hreq, setRequest_self]
      obtain rfl : q' = q := Option.some.inj (hq'.symm.trans hq)
      have hpat : Patient u := by
        refine Patient.congr (h.patient.setRequest fun hc => ?_) hreq
        rw [hreply]
        exact h.patient r q₀ hq₀ (hchild ▸ hc)
      have hentry₀ : s.entry r = some q₀.asEntry := by
        rw [entry_eq hq₀, ProxyRequest.entry_listed hflag₀]
      have hstate : ∀ k, P k → (u.homes k).state = .alive :=
        fun k hp => (lookup_timers hlook k).1.trans (halive k hp)
      rcases hcases with ⟨hflag, p, hleft⟩ | ⟨hflag, hsame⟩
      · have hu : Kept P u := ⟨hleft.inv h.hash,
          h.counted.left h.hash hentry₀ hleft hn, hpat⟩
        split at hrun
        · cases hrun
          exact hu
        · obtain ⟨k, -, hrun⟩ := Option.bind_eq_some_iff.mp hrun
          split at hrun
          · cases hrun
          · cases hrun
            exact hu
          · next packet _ =>
              have hv := hu.verified packet now hq hflag (hstate k)
              rw [Option.some.inj hrun] at hv
              exact hv
      · have hlook' := h.counted.looked hsame hn
        split at hrun
        · next hne =>
            cases hrun
            refine ⟨hsame.inv h.hash, hlook'.mono fun k hp => ⟨hp, ?_⟩, hpat⟩
            rw [← Bool.not_eq_true, ProxyRequest.asEntry_waits, ← hreply]
            exact fun hw => hne hw.2
        · next hnone =>
            rw [not_not] at hnone
            have hno : (∀ q ∈ u.requests r, q.inProxyHash = true →
                q.proxyReply ≠ none) → False :=
              fun hall => hall q' hq hflag hnone
            obtain ⟨k, -, hrun⟩ := Option.bind_eq_some_iff.mp hrun
            split at hrun
            · cases hrun
            · cases hrun
              exact ⟨hsame.inv h.hash, hlook'.mono fun k' hp =>
                (hno (htaken' ⟨k', hp⟩)).elim, hpat⟩
            · next packet _ =>
                have hrun' := Option.some.inj hrun
                have hv := h.verified_listed hsame packet now (k := k)
                  (hent.symm ▸ hn) hpat hq hflag (hstate k) ?_ hnone
                · rw [hrun'] at hv
                  exact hv
                · rw [hrun']
                  exact htaken'

-- ======== runs

/-- What the step sends gets into the hash, and it is not the re-insertion
of a CoA request. -/
def Clean (e : ProxyEvent × Bool) : Prop :=
  e.2 = true ∧ ∀ r env, e.1 ≠ .retransmitted r true env

/-- The server goes on being alive, nobody revives it, and a reply is
taken. -/
structure Steady (k : HomeId) (s : ProxyState) (e : ProxyEvent)
    (t : ProxyState) : Prop where
  alive : (t.homes k).state = .alive
  revived : e ≠ .reviveTimer k ∧ e ≠ .commandAlive k
  taken : TakesReply s e t

theorem Kept.revived (h : Kept P s) {k : HomeId} (hk : ¬P k) :
    Kept P (s.reviveHomeServer k) := by
  refine h.setHome k _ ?_
  exact Or.inr ⟨rfl, hk⟩

/-- Every clean step keeps the bound, and the equality where it is
steady. -/
theorem Kept.step (h : Kept P s) {cfg : Config} {e : ProxyEvent × Bool}
    (hstep : Step cfg s e t) (hclean : Clean e)
    (halive : ∀ k, P k → (s.homes k).state = .alive)
    (hsteady : ∀ k, P k → Steady k s e.1 t) : Kept P t := by
  obtain ⟨e, b⟩ := e
  obtain ⟨hsent, hstamp⟩ := hclean
  obtain ⟨hadm, hrun⟩ := hstep
  simp only at hsent hstamp hadm hrun hsteady
  subst hsent
  cases e with
  | opened fd src =>
      obtain ⟨u, hu, hrun⟩ := Option.bind_eq_some_iff.mp hrun
      cases hrun
      unfold openListener at hu
      obtain ⟨i, -, hu⟩ := Option.bind_eq_some_iff.mp hu
      have htree := Session.socketAdd_tree s.proxyList fd src
      split at hu
      · cases hu
      · next heq =>
          cases hu
          rw [heq] at htree
          have hsame : s.SameHash { s with
              proxyFds := s.proxyFds.set i fd
              proxyList := _ } := ⟨htree, rfl, rfl⟩
          exact ⟨hsame.inv h.hash,
            h.counted.same hsame fun _ => Or.inl rfl, h.patient.congr rfl⟩
  | prepared r q =>
      cases hrun
      obtain ⟨hu, hold⟩ := hadm
      refine h.setRequest ?_ fun _ => hu.2.1
      rw [ProxyRequest.entry_unlisted hu.1]
      cases hr : s.requests r with
      | none =>
          rw [entry, hr]
          rfl
      | some q' =>
          rw [entry_eq hr, ProxyRequest.entry_unlisted (hold q' hr)]
  | processed r c code =>
      obtain ⟨q, hq, hrun⟩ := Option.bind_eq_some_iff.mp hrun
      cases hrun
      refine h.setRequest ?_ fun hc => absurd hc hadm.2
      rw [entry_eq hq]
      rfl
  | proxied r env =>
      obtain ⟨q, hq, hu⟩ := hadm
      exact h.proxyRequest hq hu hrun
  | originated r env =>
      obtain ⟨q, hq, hu⟩ := hadm
      exact h.originated hq hu hrun
  | retransmitted r stamped env =>
      cases stamped with
      | false => exact h.retransmit hrun
      | true => exact absurd rfl (hstamp r env)
  | duplicated r now found pool fate env env' =>
      obtain ⟨hprox, hfresh, hfate⟩ := hadm
      exact h.receivedRetransmit hprox hfresh hfate hrun
  | replied reply now =>
      obtain ⟨⟨u, o⟩, hu, hrun⟩ := Option.bind_eq_some_iff.mp hrun
      cases hrun
      refine h.replied halive (fun hex => ?_) hu
      obtain ⟨k, hk⟩ := hex
      exact (hsteady k hk).taken
  | timedOut r now fate env =>
      obtain ⟨-, hfresh, hfate⟩ := hadm
      exact h.noResponse hfresh hfate (fun k hk => (hsteady k hk).alive)
        hrun
  | pingLost r now late env => exact h.noResponseToPing hadm.2 hrun
  | expired r =>
      cases hrun
      exact h.evRequestFree r
  | pingTimer k env =>
      refine Kept.pingHomeServer (h.setHome k _ ?_) hadm.2 hrun
      exact Or.inl rfl
  | reviveTimer k =>
      cases hrun
      exact h.revived fun hk => (hsteady k hk).revived.1 rfl
  | woken pool =>
      cases hrun
      exact h.wakeAllIfAllDead pool
  | commandDead k env => exact h.markHomeServerDead hadm hrun
  | commandAlive k =>
      cases hrun
      exact h.revived fun hk => (hsteady k hk).revived.2 rfl

theorem Initial.kept (h : s.Initial) : Kept P s := by
  obtain ⟨hpl, howners, -, -, hreq, hhomes⟩ := h
  have hentry : ∀ r, s.entry r = none := by
    intro r
    rw [entry, hreq]
    rfl
  refine ⟨⟨?_, ?_, ?_, ?_, fun r hr => absurd (hentry r) hr, ?_⟩,
    fun k => ?_, fun r q hr => ?_⟩
  · rw [hpl]
    exact rbtreeCreate_wf packet_lawful
  · rw [hpl, howners]
    intro p
    rfl
  · rw [howners]
    exact List.nodup_nil
  · rw [howners]
    exact List.nodup_nil
  · rw [howners]
    exact fun o ho => absurd ho List.not_mem_nil
  · rw [count, (hhomes k).2.2, ProxyState.outstanding, howners]
    exact ⟨le_rfl, le_rfl, fun _ => rfl⟩
  · rw [hreq] at hr
    cases hr

/-- A step in which the server is alive and keeps its counter. -/
def SteadyStep (cfg : Config) (k : HomeId) (s : ProxyState)
    (e : ProxyEvent × Bool) (t : ProxyState) : Prop :=
  Step cfg s e t ∧ Clean e ∧ Steady k s e.1 t

/-- In every run no counter is below zero. If every insertion of the run
succeeds, and no CoA request is inserted again, each is at most the number
of the requests to the server that wait in the proxy hash; and it is that
number if the server was not reset in the run, and every reply that was
found was taken or took its request out of the hash. -/
theorem outstanding_counted {cfg : Config} {s₀ s : ProxyState}
    {tr : List (ProxyEvent × Bool)} (h0 : s₀.Initial)
    (hrun : Trace (Step cfg) s₀ tr s) (h : HomeId) :
    0 ≤ (s.homes h).currentlyOutstanding
      ∧ ((∀ e ∈ tr, Clean e) →
        (s.homes h).currentlyOutstanding ≤ s.outstanding h)
      ∧ (Trace (SteadyStep cfg h) s₀ tr s →
        (s.homes h).currentlyOutstanding = s.outstanding h) := by
  refine ⟨?_, fun hclean => ?_, fun hsteady => ?_⟩
  · have hall : AllScheduled True s := by
      induction hrun with
      | nil => exact h0.scheduled
      | snoc _ hstep ih =>
          exact step_scheduled ih hstep fun hn => absurd trivial hn
    exact (hall h).counted
  · have hkept : Kept (fun _ => False) s := by
      induction hrun with
      | nil => exact h0.kept
      | snoc _ hstep ih =>
          refine Kept.step (ih fun e he => hclean e ?_) hstep
            (hclean _ ?_) (fun _ hp => hp.elim) fun _ hp => hp.elim
          · exact List.mem_append_left _ he
          · exact List.mem_append_right _ (List.mem_singleton_self _)
    exact (hkept.counted h).2.1
  · have hkept : Kept (fun k => k = h) s
        ∧ (s.homes h).state = .alive := by
      clear hrun
      induction hsteady with
      | nil => exact ⟨h0.kept, (h0.2.2.2.2.2 h).1⟩
      | snoc _ hstep ih =>
          obtain ⟨hstep, hclean, hst⟩ := hstep
          exact ⟨ih.1.step hstep hclean (fun k hk => hk ▸ ih.2)
            fun k hk => hk ▸ hst, hst.alive⟩
    exact (hkept.1.counted h).2.2 rfl

/-- The server is alive behind each of these events. -/
def StaysAlive (cfg : Config) (k : HomeId) :
    ProxyState → List (ProxyEvent × Bool) → Prop
  | _, [] => True
  | s, e :: es =>
      ((after cfg s e).homes k).state = .alive
        ∧ StaysAlive cfg k (after cfg s e) es

instance decidableStaysAlive (cfg : Config) (k : HomeId) :
    (s : ProxyState) → (es : List (ProxyEvent × Bool)) →
      Decidable (StaysAlive cfg k s es)
  | _, [] => .isTrue trivial
  | s, e :: es =>
      let _ := decidableStaysAlive cfg k (after cfg s e) es
      inferInstanceAs (Decidable (_ ∧ _))

/-- The event is neither a reply nor a revival. -/
def Plain (e : ProxyEvent) : Prop :=
  (∀ reply now, e ≠ .replied reply now)
    ∧ ∀ k, e ≠ .reviveTimer k ∧ e ≠ .commandAlive k

theorem Plays.steady {cfg : Config} {k : HomeId}
    {es tr : List (ProxyEvent × Bool)}
    (ht : Trace (SteadyStep cfg k) s tr t) (h : Plays cfg t es)
    (halive : StaysAlive cfg k t es)
    (hplain : ∀ e ∈ es, Clean e ∧ Plain e.1) :
    Trace (SteadyStep cfg k) s (tr ++ es) (es.foldl (after cfg) t) := by
  induction es generalizing t tr with
  | nil => rwa [List.append_nil]
  | cons e es ih =>
      obtain ⟨hclean, hreply, hrev⟩ := hplain e List.mem_cons_self
      have hstep : SteadyStep cfg k t e (after cfg t e) :=
        ⟨step_after h.1 h.2.1, hclean, halive.1, hrev k,
          fun reply now _ _ he => absurd he (hreply reply now)⟩
      have hsnoc := ih (ht.snoc hstep) h.2.2 halive.2
        fun e' he' => hplain e' (List.mem_cons_of_mem _ he')
      rwa [List.append_assoc] at hsnoc

theorem twoSent_plain : ∀ e ∈ twoSent, Clean e ∧ Plain e.1 := by
  simp [twoSent, Clean, Plain]

theorem twoSent_counted :
    0 ≤ (waiting.homes 0).currentlyOutstanding
      ∧ (waiting.homes 0).currentlyOutstanding ≤ waiting.outstanding 0
      ∧ (waiting.homes 0).currentlyOutstanding = waiting.outstanding 0 := by
  have hplay : Plays sizedConfig coldStart twoSent := by decide
  have halive : StaysAlive sizedConfig 0 coldStart twoSent := by
    decide
  obtain ⟨hzero, hle, heq⟩ :=
    outstanding_counted coldStart_initial waiting_reached 0
  exact ⟨hzero, hle fun e he => (twoSent_plain e he).1,
    heq (hplay.steady .nil halive twoSent_plain)⟩

/-- Two requests and a status check wait in the hash, and the server, a
zombie now, was reset in between. -/
theorem zombie_counts_less :
    ¬∀ (cfg : Config) (s₀ s : ProxyState) (tr : List (ProxyEvent × Bool)),
      s₀.Initial → Trace (Step cfg) s₀ tr s →
      ∀ h, (s.homes h).currentlyOutstanding = s.outstanding h := by
  intro hall
  have hplay : Plays sizedConfig coldStart checkSent := by decide
  have heq := hall sizedConfig coldStart _ _ coldStart_initial
    (hplay.trace .nil) 0
  exact absurd heq (by decide)

end ProxyState

end WinRadius
