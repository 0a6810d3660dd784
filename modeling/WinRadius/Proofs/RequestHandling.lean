/-
Every function that handles a request makes a run of changes of it.

The functions on a request alone write neither its number, its packet, its
place in the list nor the bytes of its reply, and none of them but
`settle` delays a reject.
-/
import WinRadius.Proofs.RequestChange

namespace WinRadius

open Lib

namespace Request

variable {cfg : MainConfig} {q q' q'' : Request} {h : Handling}

/-- What the handlers make of a request. -/
structure Handles (q q' : Request) : Prop where
  same : q.Same q'
  state : q.childState ≠ .rejectDelay → q'.childState ≠ .rejectDelay

theorem Handles.refl (q : Request) : q.Handles q := ⟨.refl q, id⟩

theorem Handles.trans (h : q.Handles q') (h' : q'.Handles q'') :
    q.Handles q'' :=
  ⟨h.same.trans h'.same, fun hc => h'.state (h.state hc)⟩

/-- An edit to another state. -/
theorem Handles.of_state (hs : q.Same q') (hc : q'.childState ≠ .rejectDelay) :
    q.Handles q' :=
  ⟨hs, fun _ => hc⟩

/-- An edit of other fields. -/
theorem Handles.of_same (hs : q.Same q') (hc : q'.childState = q.childState) :
    q.Handles q' :=
  ⟨hs, fun h => hc ▸ h⟩

theorem processProxyReply_handles (q : Request) (postProxy : Bool)
    (code : Nat) : q.Handles (q.processProxyReply postProxy code).1 := by
  unfold processProxyReply
  split
  next => exact .of_same ⟨rfl, rfl, rfl, rfl⟩ rfl
  next => exact .of_state ⟨rfl, rfl, rfl, rfl⟩ nofun

theorem requestPreHandler_handles (q : Request) (h : Handling) :
    q.Handles (q.requestPreHandler h).1 := by
  have hrun : q.Handles { q with childState := .running } :=
    .of_state ⟨rfl, rfl, rfl, rfl⟩ nofun
  have hdone : q.Handles { q with childState := .done } :=
    .of_state ⟨rfl, rfl, rfl, rfl⟩ nofun
  have hproxy : ∀ q' : Request, q.Handles q' →
      q.Handles (q'.processProxyReply h.postProxy h.postProxyCode).1 :=
    fun q' hq => hq.trans (processProxyReply_handles _ _ _)
  unfold requestPreHandler
  simp only
  split
  next => exact hrun
  next =>
    split
    next =>
      split
      next => exact hproxy _ hrun
      next => exact hdone
    next =>
      split
      next =>
        split
        next => exact hdone
        next hasVps _ =>
          have hvps : q.Handles { q with
              childState := .running, hasVps := hasVps } :=
            .of_state ⟨rfl, rfl, rfl, rfl⟩ nofun
          split
          next => exact hproxy _ hvps
          next => exact hvps
      next =>
        split
        next => exact hproxy _ hrun
        next => exact hrun

theorem setupPostProxyFail_handles {failType b : Bool}
    (hrun : q.setupPostProxyFail failType = some (q', b)) :
    q.Handles q' ∧ q'.childState = .running := by
  have hq : q.Handles { q with childState := .running } :=
    .of_state ⟨rfl, rfl, rfl, rfl⟩ nofun
  unfold setupPostProxyFail at hrun
  simp only at hrun
  split at hrun
  next =>
    cases hrun
    exact ⟨hq, rfl⟩
  next =>
    split at hrun
    next =>
      cases hrun
      exact ⟨hq, rfl⟩
    next =>
      split at hrun
      next => cases hrun
      next =>
        cases hrun
        exact ⟨hq, rfl⟩

theorem proxyRequest_handles {now : Nat} {inserted b : Bool}
    (hrun : q.proxyRequest cfg now inserted = some (q', b)) :
    q.Handles q' := by
  unfold proxyRequest at hrun
  split at hrun
  next => cases hrun
  next =>
    split at hrun
    next =>
      cases hrun
      exact .refl q
    next =>
      split at hrun
      next =>
        cases hrun
        exact .refl q
      next =>
        cases hrun
        exact .of_state ⟨rfl, rfl, rfl, rfl⟩ nofun

/-- A request that is not sent is as it was. -/
theorem proxyRequest_false {now : Nat} {inserted : Bool}
    (hrun : q.proxyRequest cfg now inserted = some (q', false)) :
    q' = q := by
  unfold proxyRequest at hrun
  split at hrun
  next => cases hrun
  next =>
    split at hrun
    next =>
      cases hrun
      rfl
    next =>
      split at hrun
      next =>
        cases hrun
        rfl
      next => cases hrun

theorem takeFakeReply_handles (hrun : q.takeFakeReply h = some q') :
    q.Handles q' := by
  unfold takeFakeReply at hrun
  split at hrun
  next =>
    cases hrun
    exact .of_same ⟨rfl, rfl, rfl, rfl⟩ rfl
  next =>
    obtain ⟨⟨q₁, b⟩, hq₁, rfl⟩ := Option.map_eq_some_iff.mp hrun
    exact (setupPostProxyFail_handles hq₁).1

theorem proxyToVirtualServer_handles {n : Int}
    (hrun : q.proxyToVirtualServer h = some (q', n)) : q.Handles q' := by
  unfold proxyToVirtualServer at hrun
  split at hrun
  next =>
    cases hrun
    exact .refl q
  next =>
    split at hrun
    next =>
      cases hrun
      exact .refl q
    next =>
      split at hrun
      next =>
        cases hrun
        exact .refl q
      next =>
        obtain ⟨q₁, hq₁, hrun⟩ := Option.bind_eq_some_iff.mp hrun
        have h₂ := (takeFakeReply_handles hq₁).trans
          (processProxyReply_handles q₁ h.virtualRun.postProxy
            h.virtualRun.postProxyCode)
        cases hrun
        split
        next => exact h₂.trans (.of_same ⟨rfl, rfl, rfl, rfl⟩ rfl)
        next => exact h₂

theorem successfullyProxiedRequest_handles {n : Int}
    (hrun : q.successfullyProxiedRequest cfg h = some (q', n)) :
    q.Handles q' := by
  unfold successfullyProxiedRequest at hrun
  split at hrun
  next =>
    cases hrun
    exact .refl q
  next =>
    split at hrun
    next =>
      cases hrun
      exact .refl q
    next =>
      cases hrun
      exact .refl q
    next home preProxy _ =>
      have hhome : q.Handles { q with
          homeServer := some home, proxyCode := some q.packet.code } :=
        .of_same ⟨rfl, rfl, rfl, rfl⟩ rfl
      simp only at hrun
      split at hrun
      next =>
        cases hrun
        exact hhome
      next =>
        cases hrun
        exact hhome
      next =>
        split at hrun
        next => exact hhome.trans (proxyToVirtualServer_handles hrun)
        next =>
          obtain ⟨⟨q₁, b⟩, hq₁, hrun⟩ := Option.bind_eq_some_iff.mp hrun
          have h₁ := hhome.trans (proxyRequest_handles hq₁)
          cases b with
          | true =>
              cases hrun
              exact h₁
          | false =>
              cases hrun
              exact h₁

theorem proxyUnanswered_handles {n : Int}
    (hrun : q.proxyUnanswered cfg h = some (q', n)) : q.Handles q' := by
  unfold proxyUnanswered at hrun
  split at hrun
  next => exact successfullyProxiedRequest_handles hrun
  next =>
    cases hrun
    exact .refl q

theorem failProxying_handles {n : Int}
    (hrun : q.failProxying h n = some q') : q.Handles q' := by
  unfold failProxying at hrun
  split at hrun
  next =>
    obtain ⟨⟨q₁, b⟩, hq₁, hrun⟩ := Option.bind_eq_some_iff.mp hrun
    have h₁ := (setupPostProxyFail_handles hq₁).1
    cases b with
    | true =>
        cases hrun
        exact h₁.trans (requestPreHandler_handles _ _)
    | false =>
        cases hrun
        exact h₁
  next =>
    cases hrun
    exact .refl q

theorem runHandler_handles {fn : Handler}
    (hrun : q.runHandler h fn = some q') : q.Handles q' := by
  cases fn with
  | listener =>
      cases hrun
      exact .of_same ⟨rfl, rfl, rfl, rfl⟩ rfl
  | null =>
      cases hrun
      exact .refl q
  | virtualServer =>
      obtain ⟨⟨q₁, n⟩, hq₁, rfl⟩ := Option.map_eq_some_iff.mp hrun
      exact proxyToVirtualServer_handles hq₁

theorem catchReject_handles (q : Request) (h : Handling) :
    q.Handles (q.catchReject h) := by
  unfold catchReject
  split
  next => exact .of_same ⟨rfl, rfl, rfl, rfl⟩ rfl
  next => exact .refl q

/-- An edit of the reply's code and of what is to happen next. -/
theorem Same.schedule (q : Request) (code when : Nat)
    (callback : Option RequestCallback) (state : ChildState) :
    q.Same { q with
      replyCode := code
      nextWhen := when
      nextCallback := callback
      childState := state } :=
  ⟨rfl, rfl, rfl, rfl⟩

/-- What is to become of a reply: it waits in the list or is done with, or
else the reject is delayed. -/
def Settles (q : Request) (result : Request × Option ChildState) : Prop :=
  q.Same result.1
    ∧ (result.2 = none ∧ result.1.childState = .rejectDelay
      ∨ ∃ c, result.2 = some c ∧ c ≠ .rejectDelay)

theorem Settles.of_same {result : Request × Option ChildState}
    (hs : q.Same q') (h : q'.Settles result) : q.Settles result :=
  ⟨hs.trans h.1, h.2⟩

theorem cacheReply_settles (cfg : MainConfig) (q : Request) :
    q.Settles (q.cacheReply cfg) :=
  ⟨.schedule q _ _ _ _, Or.inr ⟨.cleanupDelay, rfl, nofun⟩⟩

theorem rejectLater_settles (cfg : MainConfig) (q : Request)
    (h : Handling) : q.Settles (q.rejectLater cfg h) := by
  unfold rejectLater
  simp only
  split
  next => exact ⟨.schedule q _ _ _ _, Or.inl ⟨rfl, rfl⟩⟩
  next => exact .of_same (.schedule q _ _ _ _) (cacheReply_settles cfg _)

/-- An Access-Request whose reply has a code. -/
theorem named_settles (cfg : MainConfig) (q : Request) (h : Handling) :
    q.Settles (if q.replyCode = pwAuthenticationReject
      then q.rejectLater cfg h else q.cacheReply cfg) := by
  split
  next => exact rejectLater_settles cfg q h
  next => exact cacheReply_settles cfg q

theorem settle_settles (cfg : MainConfig) (q : Request) (h : Handling) :
    q.Settles (q.settle cfg h) := by
  unfold settle
  simp only
  split
  next =>
    split
    next => exact ⟨.schedule q _ _ _ _, Or.inr ⟨_, rfl, nofun⟩⟩
    next =>
      refine .of_same ?_ (named_settles cfg _ h)
      split
      next => exact .schedule q _ _ _ _
      next => exact .schedule q _ _ _ _
  next =>
    split
    next => exact cacheReply_settles cfg q
    next => exact ⟨.schedule q _ _ _ _, Or.inr ⟨_, rfl, nofun⟩⟩

end Request

namespace RequestServer

variable {cfg : MainConfig} {s t : RequestServer} {r : RequestId}
variable {q q₀ : Request} {h : Handling}

/-- A request that is handled is edited. -/
theorem Does.handles (hq : s.requests r = some q₀)
    (hu : q₀.childState.Unsettled) (hh : q₀.Handles q) :
    Does r s (s.setRequest r q) := by
  refine Does.edit hq hh.same (Or.inr ⟨hu, hh.state ?_⟩)
  intro hc
  rw [hc] at hu
  rcases hu with hu | hu | hu <;> cases hu

-- ======== handling

/-- `request_post_handler`, from where the reply is made on. `q₀` is the
request before it is handled. -/
theorem respond_does (hq : s.requests r = some q₀)
    (hu : q₀.childState.Unsettled) (hs : q₀.Same q)
    (hrun : s.respond cfg r q h = some t) : Does r s t := by
  obtain ⟨hsame, hcase⟩ := Request.settle_settles cfg q h
  unfold respond at hrun
  obtain ⟨q₁, o, heq⟩ : ∃ q₁ o, q.settle cfg h = (q₁, o) := ⟨_, _, rfl⟩
  rw [heq] at hrun hsame hcase
  have hs₁ := hs.trans hsame
  rcases hcase with ⟨ho, hc⟩ | ⟨c, ho, hc⟩
  · cases ho
    cases hrun
    exact Reaches.refl.step (.delay q₁ hq hs₁ hu hc)
  · cases ho
    simp only at hrun
    split at hrun
    next =>
      obtain ⟨q₂, hq₂, hrun⟩ := Option.bind_eq_some_iff.mp hrun
      have hsent : (q₁.listenerSend h.encoding).1 = q₂ :=
        Option.some.inj ((send_self r q₁ h.encoding).symm.trans hq₂)
      refine Reaches.trans ?_ (waitABit_does hrun)
      refine send_does hq hs₁ (Or.inl hu) ?_ (Or.inr ⟨hu, hc⟩)
      rw [hsent]
      exact ⟨rfl, rfl, rfl, rfl⟩
    next =>
      refine Reaches.trans ?_ (waitABit_does hrun)
      exact Does.edit hq (hs₁.trans ⟨rfl, rfl, rfl, rfl⟩)
        (Or.inr ⟨hu, hc⟩)

/-- `request_post_handler`. -/
theorem requestPostHandler_does
    (hrun : s.requestPostHandler cfg r h = some t) : Does r s t := by
  obtain ⟨q, hq, hrun⟩ := Option.bind_eq_some_iff.mp hrun
  split at hrun
  next => cases hrun
  next hc =>
    have hu : q.childState.Unsettled := Or.inr (Or.inl (not_not.mp hc))
    split at hrun
    next =>
      refine Reaches.trans ?_ (waitABit_does hrun)
      exact Does.edit hq ⟨rfl, rfl, rfl, rfl⟩ (Or.inr ⟨hu, nofun⟩)
    next =>
      obtain ⟨⟨q₁, n⟩, hq₁, hrun⟩ := Option.bind_eq_some_iff.mp hrun
      have h₁ := (Request.catchReject_handles q h).trans
        (Request.proxyUnanswered_handles hq₁)
      simp only at hrun
      split at hrun
      next =>
        cases hrun
        exact (Does.handles hq hu h₁).step (.forward (setRequest_self r q₁))
      next =>
        obtain ⟨q₂, hq₂, hrun⟩ := Option.bind_eq_some_iff.mp hrun
        have h₂ := h₁.trans (Request.failProxying_handles hq₂)
        split at hrun
        next =>
          cases hrun
          exact Does.handles hq hu
            (h₂.trans (.of_state ⟨rfl, rfl, rfl, rfl⟩ nofun))
        next => exact respond_does hq hu h₂.same hrun

/-- `radius_handle_request`. -/
theorem radiusHandleRequest_does {fn : Handler}
    (hq : s.requests r = some q) (hu : q.childState.Unsettled)
    (hrun : s.radiusHandleRequest cfg r fn h = some t) : Does r s t := by
  obtain ⟨q', hq', hrun⟩ := Option.bind_eq_some_iff.mp hrun
  cases hq.symm.trans hq'
  have hpre := Request.requestPreHandler_handles q h
  obtain ⟨q₁, b, heq⟩ : ∃ q₁ b, q.requestPreHandler h = (q₁, b) :=
    ⟨_, _, rfl⟩
  rw [heq] at hrun hpre
  cases b with
  | false =>
      cases hrun
      exact Does.handles hq hu hpre
  | true =>
      obtain ⟨q₂, hq₂, hrun⟩ := Option.bind_eq_some_iff.mp hrun
      have h₂ := hpre.trans (Request.runHandler_handles hq₂)
      exact ((Does.handles hq hu h₂).step
        (.handle (setRequest_self r q₂))).trans
          (requestPostHandler_does hrun)

/-- `post_proxy_fail_handler`. -/
theorem postProxyFailHandler_does (hq : s.requests r = some q)
    (hu : q.childState.Unsettled)
    (hrun : s.postProxyFailHandler cfg r h = some t) : Does r s t := by
  obtain ⟨q', hq', hrun⟩ := Option.bind_eq_some_iff.mp hrun
  cases hq.symm.trans hq'
  obtain ⟨⟨q₁, b⟩, hq₁, hrun⟩ := Option.bind_eq_some_iff.mp hrun
  have h₁ := (Request.setupPostProxyFail_handles hq₁).1
  cases b with
  | false =>
      exact (Does.handles hq hu h₁).trans (requestPostHandler_does hrun)
  | true =>
      simp only at hrun
      split at hrun
      next => cases hrun
      next =>
        refine Reaches.trans ?_ (radiusHandleRequest_does
          (setRequest_self _ _) (Or.inl rfl) hrun)
        exact Does.handles hq hu
          (h₁.trans (.of_state ⟨rfl, rfl, rfl, rfl⟩ nofun))

/-- `proxy_fallback_handler`. -/
theorem proxyFallbackHandler_does (hq : s.requests r = some q)
    (hu : q.childState.Unsettled)
    (hrun : s.proxyFallbackHandler cfg r h = some t) : Does r s t := by
  obtain ⟨q', hq', hrun⟩ := Option.bind_eq_some_iff.mp hrun
  cases hq.symm.trans hq'
  split at hrun
  next => cases hrun
  next =>
    refine Reaches.trans ?_ (radiusHandleRequest_does
      (setRequest_self _ _) (Or.inl rfl) hrun)
    exact Does.handles hq hu (.of_state ⟨rfl, rfl, rfl, rfl⟩ nofun)

/-- `no_response_to_proxied_request`. -/
theorem noResponseToProxiedRequest_does
    (hrun : s.noResponseToProxiedRequest cfg r h = some t) :
    Does r s t := by
  obtain ⟨q, hq, hrun⟩ := Option.bind_eq_some_iff.mp hrun
  split at hrun
  next => cases hrun
  next hc =>
    have hu : q.childState.Unsettled := Or.inr (Or.inr (not_not.mp hc))
    obtain ⟨home, -, hrun⟩ := Option.bind_eq_some_iff.mp hrun
    split at hrun
    next => exact waitABit_does hrun
    next =>
      split at hrun
      next => exact postProxyFailHandler_does hq hu hrun
      next =>
        split at hrun
        next => cases hrun
        next =>
          refine Reaches.trans ?_ (waitABit_does hrun)
          exact Does.handles hq hu (.of_state ⟨rfl, rfl, rfl, rfl⟩ nofun)

-- ======== packets

/-- `received_retransmit` of a request whose home server is dead. -/
theorem proxyToAnother_does {a : Arrival} (hq : s.requests r = some q)
    (hu : q.childState.Unsettled)
    (hrun : s.proxyToAnother cfg r q a = some t) : Does r s t := by
  unfold proxyToAnother at hrun
  simp only at hrun
  split at hrun
  next =>
    refine Reaches.trans ?_ (postProxyFailHandler_does
      (q := { q with inProxyHash := false }) (setRequest_self _ _) hu hrun)
    exact Does.handles hq hu (.of_same ⟨rfl, rfl, rfl, rfl⟩ rfl)
  next home _ =>
    obtain ⟨q', hq', hu', hh⟩ : ∃ q', q' = { q with
        inProxyHash := false
        homeServer := some home
        proxyCode := some q.packet.code } ∧ q'.childState.Unsettled
          ∧ q.Handles q' := by
      refine ⟨_, rfl, ?_, ?_⟩
      · exact hu
      · exact .of_same ⟨rfl, rfl, rfl, rfl⟩ rfl
    rw [← hq'] at hrun
    split at hrun
    next =>
      exact (Does.handles hq hu hh).trans
        (proxyFallbackHandler_does (setRequest_self _ _) hu' hrun)
    next =>
      obtain ⟨⟨q₁, b⟩, hq₁, hrun⟩ := Option.bind_eq_some_iff.mp hrun
      have h₁ := hh.trans (Request.proxyRequest_handles hq₁)
      cases b with
      | false =>
          cases Request.proxyRequest_false hq₁
          exact (Does.handles hq hu h₁).trans
            (postProxyFailHandler_does (setRequest_self _ _) hu' hrun)
      | true =>
          obtain ⟨callback, -, hrun⟩ := Option.bind_eq_some_iff.mp hrun
          have hsent : ∀ q₂, q₁.Handles q₂ → Does r s
              ((s.setRequest r q₂).note (.proxied q₂.number)) :=
            fun q₂ h₂ => (Does.handles hq hu (h₁.trans h₂)).step
              (.forward (setRequest_self r q₂))
          cases hrun
          exact hsent _ (.of_same ⟨rfl, rfl, rfl, rfl⟩ rfl)

/-- `received_retransmit`. -/
theorem receivedRetransmit_does {a : Arrival} (hq : s.requests r = some q)
    (hl : q.inRequestHash = true)
    (hrun : s.receivedRetransmit cfg r a = some t) : Does r s t := by
  obtain ⟨q', hq', hrun⟩ := Option.bind_eq_some_iff.mp hrun
  cases hq.symm.trans hq'
  have hcached (hc : q.childState = .cleanupDelay ∨ q.childState = .done)
      (hend : (if q.replyCode = 0 then pure s
        else pure (s.send r q a.handling.encoding)) = some t) :
      Does r s t := by
    split at hend
    next =>
      cases hend
      exact .refl
    next =>
      cases hend
      exact send_only hq (Or.inr (Or.inl ⟨hc, hl⟩)) _
  split at hrun
  next =>
    cases hrun
    exact .refl
  next =>
    cases hrun
    exact .refl
  next =>
    cases hrun
    exact .refl
  next hc =>
    have hu : q.childState.Unsettled := by
      rw [hc]
      exact Or.inr (Or.inr rfl)
    split at hrun
    next =>
      cases hrun
      exact .refl
    next =>
      split at hrun
      next => exact proxyToAnother_does hq hu hrun
      next =>
        cases hrun
        refine Reaches.step (Does.handles hq hu ?_) (.forward
          (q := { q with numProxiedRequests := q.numProxiedRequests + 1 })
          (setRequest_self r _))
        exact .of_same ⟨rfl, rfl, rfl, rfl⟩ rfl
  next hc => exact hcached (Or.inl hc) hrun
  next hc => exact hcached (Or.inr hc) hrun

/-- `received_proxy_response`, and the handling of the reply. -/
theorem receivedProxyResponse_does {code : Nat} {verified : Bool}
    (hrun : s.receivedProxyResponse cfg r code verified h = some t) :
    Does r s t := by
  obtain ⟨q, hq, hrun⟩ := Option.bind_eq_some_iff.mp hrun
  obtain ⟨q₁, hq₁, hs₁, hc₁⟩ : ∃ q₁ : Request, q₁ =
      (if q.numProxiedRequests = q.numProxiedResponses + 1 then
        { q with numProxiedResponses := q.numProxiedResponses + 1
                 inProxyHash := false }
      else { q with numProxiedResponses := q.numProxiedResponses + 1 })
      ∧ q.Same q₁ ∧ q₁.childState = q.childState := by
    refine ⟨_, rfl, ?_⟩
    split
    next => exact ⟨⟨rfl, rfl, rfl, rfl⟩, rfl⟩
    next => exact ⟨⟨rfl, rfl, rfl, rfl⟩, rfl⟩
  simp only [← hq₁] at hrun
  have h₁ : Does r s (s.setRequest r q₁) := Does.edit hq hs₁ (Or.inl hc₁)
  have hself := setRequest_self (s := s) r q₁
  split at hrun
  next =>
    cases hrun
    exact h₁
  next =>
    split at hrun
    next =>
      cases hrun
      exact h₁
    next =>
      split at hrun
      next =>
        cases hrun
        exact h₁
      next hc =>
        have hu : q₁.childState.Unsettled := Or.inr (Or.inr (not_not.mp hc))
        refine Reaches.trans ?_ (radiusHandleRequest_does
          (setRequest_self _ _) (Or.inl rfl) hrun)
        exact h₁.trans (Does.handles hself hu
          (.of_state ⟨rfl, rfl, rfl, rfl⟩ nofun))

/-- `reject_delay`. -/
theorem rejectDelay_does {encoding : Option (List UInt8 × Bool)}
    (hrun : s.rejectDelay cfg r encoding = some t) : Does r s t := by
  obtain ⟨q, hq, hrun⟩ := Option.bind_eq_some_iff.mp hrun
  split at hrun
  next => cases hrun
  next hc =>
    have hdue : Does r s (s.note (.rejectDue q.number)) :=
      Reaches.refl.step (.due hq (not_not.mp hc))
    have hin : Deed.rejectDue q.number
        ∈ (s.note (.rejectDue q.number)).log := List.mem_cons_self
    obtain ⟨q₁, hq₁, hrun⟩ := Option.bind_eq_some_iff.mp hrun
    cases hrun
    have hsend := send_only (s := s.note (.rejectDue q.number)) hq
      (Or.inr (Or.inr hin)) encoding
    have hself := send_self (s := s.note (.rejectDue q.number)) r q encoding
    cases hself.symm.trans hq₁
    refine (hdue.trans hsend).step (.release _ hself
      ⟨rfl, rfl, rfl, rfl⟩ ?_)
    rw [listenerSend_number]
    exact send_log _ _ hin

/-- The event of a request. -/
theorem runEvent_does (hrun : s.runEvent cfg r h = some t) :
    Does r s t := by
  obtain ⟨q, hq, hrun⟩ := Option.bind_eq_some_iff.mp hrun
  obtain ⟨⟨callback, _⟩, -, hrun⟩ := Option.bind_eq_some_iff.mp hrun
  have hedit : Does r s (s.setRequest r { q with ev := none }) :=
    Does.edit hq ⟨rfl, rfl, rfl, rfl⟩ (Or.inl rfl)
  refine hedit.trans ?_
  cases callback with
  | waitABit => exact waitABit_does hrun
  | cleanupDelay => exact cleanupDelay_does hrun
  | rejectDelay => exact rejectDelay_does hrun
  | noResponseToProxiedRequest =>
      exact noResponseToProxiedRequest_does hrun
  | waitForProxyIdToExpire => exact waitForProxyIdToExpire_does hrun

end RequestServer

end WinRadius
