/-
No home server is counted more requests than wait for it in the proxy hash.

# The invariant

`Kept P` is the hash invariant, the bound (`Counted P`), and that a request
in the state of a proxied one has no reply. Each operation of event.cpp keeps
it, as long as what it inserts gets in; the servers in `P` are those that
are not reset.
-/
import WinRadius.Proofs.ProxyCount

namespace WinRadius

open Lib

namespace ProxyState

variable {s t u : ProxyState} {P : HomeId → Prop}

-- ======== counted

/-- The counters are between zero and the numbers in the hash, and for the
servers in `P` they are those numbers. -/
def Counted (P : HomeId → Prop) (s : ProxyState) : Prop :=
  ∀ h, 0 ≤ s.count h ∧ s.count h ≤ s.outstanding h
    ∧ (P h → s.count h = s.outstanding h)

theorem Counted.same (hc : Counted P s) (hsame : s.SameHash t)
    (hn : ∀ h, t.count h = s.count h ∨ t.count h = 0 ∧ ¬P h) :
    Counted P t := by
  intro h
  obtain ⟨h1, h2, h3⟩ := hc h
  rw [hsame.outstanding h]
  rcases hn h with heq | ⟨heq, hnot⟩
  · rw [heq]
    exact ⟨h1, h2, h3⟩
  · rw [heq]
    exact ⟨le_rfl, by omega, fun hp => absurd hp hnot⟩

theorem Counted.entered {r : RequestId} {p : RadiusPacket} {e : ProxyEntry}
    (hc : Counted P s) (hs : s.HashInv) (hr : s.entry r = none)
    (hent : s.Entered t r p e)
    (hn : ∀ h, t.count h = s.count h + if e.waits h then 1 else 0) :
    Counted P t := by
  intro h
  obtain ⟨h1, h2, h3⟩ := hc h
  rw [hent.outstanding hs hr h, hn h]
  split
  · refine ⟨by omega, by omega, fun hp => ?_⟩
    have := h3 hp
    omega
  · refine ⟨by omega, by omega, fun hp => ?_⟩
    have := h3 hp
    omega

theorem Counted.left {r : RequestId} {p : RadiusPacket} {e : ProxyEntry}
    (hc : Counted P s) (hs : s.HashInv) (he : s.entry r = some e)
    (hleft : s.Left t r p) (hn : Uncounted s t e) : Counted P t := by
  intro h
  obtain ⟨h1, h2, h3⟩ := hc h
  have hout := hleft.outstanding hs he h
  have hcount := hn h
  cases hw : e.waits h with
  | false =>
      simp only [hw, Bool.false_eq_true, false_and, if_false] at hout hcount
      rw [hcount]
      refine ⟨h1, by omega, fun hp => ?_⟩
      have := h3 hp
      omega
  | true =>
      simp only [hw, true_and, if_true] at hout hcount
      split at hcount
      · refine ⟨by omega, by omega, fun hp => ?_⟩
        have := h3 hp
        omega
      · refine ⟨by omega, by omega, fun hp => ?_⟩
        have := h3 hp
        omega

/-- A reply is found, and the request stays in the hash. -/
theorem Counted.looked {e : ProxyEntry} (hc : Counted P s)
    (hsame : s.SameHash t) (hn : Uncounted s t e) :
    Counted (fun h => P h ∧ e.waits h = false) t := by
  intro h
  obtain ⟨h1, h2, h3⟩ := hc h
  have hcount := hn h
  rw [hsame.outstanding h]
  split at hcount
  · next hw =>
      refine ⟨by omega, by omega, fun hp => ?_⟩
      rw [hp.2] at hw
      exact absurd hw.1 (by simp)
  · exact ⟨by omega, by omega, fun hp => hcount.trans (h3 hp.1)⟩

/-- A reply is found and taken. -/
theorem Counted.answered {r : RequestId} {e : ProxyEntry}
    (hc : Counted P s) (hs : s.HashInv) (hsame : s.SameHash u)
    (hn : Uncounted s u e) (hans : u.Answered t r e)
    (hcount : ∀ h, t.count h = u.count h) : Counted P t := by
  intro h
  obtain ⟨h1, h2, h3⟩ := hc h
  have hout := hans.outstanding (hsame.inv hs) h
  rw [hsame.outstanding h] at hout
  have hcount' := hn h
  rw [hcount h]
  cases hw : e.waits h with
  | false =>
      simp only [hw, Bool.false_eq_true, false_and, if_false] at hout hcount'
      refine ⟨by omega, by omega, fun hp => ?_⟩
      have := h3 hp
      omega
  | true =>
      simp only [hw, true_and, if_true] at hout hcount'
      split at hcount'
      · refine ⟨by omega, by omega, fun hp => ?_⟩
        have := h3 hp
        omega
      · refine ⟨by omega, by omega, fun hp => ?_⟩
        have := h3 hp
        omega

-- ======== kept

/-- A request that waits for its home server has no reply. -/
def Patient (s : ProxyState) : Prop :=
  ∀ r q, s.requests r = some q → q.childState = .proxied →
    q.proxyReply = none

theorem Patient.congr (h : Patient s) (hr : t.requests = s.requests) :
    Patient t := by
  intro r q
  rw [hr]
  exact h r q

theorem Patient.setRequest (h : Patient s) {r : RequestId}
    {q : ProxyRequest}
    (hq : q.childState = .proxied → q.proxyReply = none) :
    Patient (s.setRequest r q) := by
  intro r' q' hr' hc
  by_cases heq : r' = r
  · subst heq
    rw [setRequest_self, Option.some.injEq] at hr'
    subst hr'
    exact hq hc
  · rw [setRequest_other heq] at hr'
    exact h r' q' hr' hc

/-- What the operations keep. -/
structure Kept (P : HomeId → Prop) (s : ProxyState) : Prop where
  hash : s.HashInv
  counted : Counted P s
  patient : Patient s

theorem Kept.setRequest (h : Kept P s) {r : RequestId} {q : ProxyRequest}
    (he : q.entry = s.entry r)
    (hq : q.childState = .proxied → q.proxyReply = none) :
    Kept P (s.setRequest r q) :=
  ⟨(sameHash_setRequest he).inv h.hash,
    h.counted.same (sameHash_setRequest he) fun _ => Or.inl rfl,
    h.patient.setRequest hq⟩

/-- A home server is written to: its counter stays, or it is reset. -/
theorem Kept.setHome (h : Kept P s) (k : HomeId) (home : HomeServer)
    (hn : home.currentlyOutstanding = s.count k
      ∨ home.currentlyOutstanding = 0 ∧ ¬P k) :
    Kept P (s.setHome k home) := by
  refine ⟨(sameHash_setHome k home).inv h.hash,
    h.counted.same (sameHash_setHome k home) fun k' => ?_,
    h.patient.congr rfl⟩
  by_cases hk : k' = k
  · subst hk
    rw [count, setHome_self]
    exact hn
  · rw [count, setHome_other hk]
    exact Or.inl rfl

theorem Patient.removeFromProxyHash (h : Patient s) {r : RequestId}
    {q : ProxyRequest} (hq : s.requests r = some q) :
    Patient (s.removeFromProxyHash r q) := by
  unfold ProxyState.removeFromProxyHash
  split
  · exact h
  · refine Patient.setRequest (h.congr ?_) (h r q hq)
    rw [(uncountOutstanding_frame q).2.2, idFreeProxy_requests,
      yankProxy_requests]

theorem Kept.removeFromProxyHash (h : Kept P s) {r : RequestId}
    {q : ProxyRequest} (hq : s.requests r = some q) :
    Kept P (s.removeFromProxyHash r q) := by
  have hpat := h.patient.removeFromProxyHash hq
  rcases removeFromProxyHash_cases h.hash hq with ⟨-, hsame⟩
    | ⟨hflag, ⟨p, hleft⟩, hcount, -⟩
  · rw [hsame]
    exact h
  · have hentry : s.entry r = some q.asEntry := by
      rw [entry_eq hq, ProxyRequest.entry_listed hflag]
    exact ⟨hleft.inv h.hash, h.counted.left h.hash hentry hleft hcount,
      hpat⟩

/-- `remove_from_proxy_hash` writes to the one request. -/
theorem removeFromProxyHash_requests (r : RequestId) (q : ProxyRequest) :
    ∀ r', r' ≠ r →
      (s.removeFromProxyHash r q).requests r' = s.requests r' := by
  intro r' hne
  unfold ProxyState.removeFromProxyHash
  split
  · rfl
  · rw [setRequest_other hne, (uncountOutstanding_frame q).2.2,
      idFreeProxy_requests, yankProxy_requests]

/-- A freed request is gone, and the others are as they were. -/
theorem evRequestFree_requests (r : RequestId) :
    (s.evRequestFree r).requests = Function.update s.requests r none := by
  funext r'
  unfold evRequestFree
  split
  · next hn =>
      by_cases heq : r' = r
      · rw [heq, Function.update_self, hn]
      · rw [Function.update_of_ne heq]
  · by_cases heq : r' = r
    · simp [heq]
    · simp [heq, removeFromProxyHash_requests r _ r' heq]

theorem Patient.evRequestFree (h : Patient s) (r : RequestId) :
    Patient (s.evRequestFree r) := by
  intro r' q hr' hc
  rw [evRequestFree_requests] at hr'
  by_cases heq : r' = r
  · rw [heq, Function.update_self] at hr'
    cases hr'
  · rw [Function.update_of_ne heq] at hr'
    exact h r' q hr' hc

/-- The hash behind `ev_request_free`. -/
theorem evRequestFree_counted (hs : s.HashInv) (hc : Counted P s)
    (r : RequestId) :
    (s.evRequestFree r).HashInv ∧ Counted P (s.evRequestFree r) := by
  rcases evRequestFree_cases hs r with ⟨-, hsame, hcount⟩
    | ⟨q, p, hq, hflag, hleft, hcount⟩
  · exact ⟨hsame.inv hs, hc.same hsame fun k => Or.inl (hcount k)⟩
  · have hentry : s.entry r = some q.asEntry := by
      rw [entry_eq hq, ProxyRequest.entry_listed hflag]
    exact ⟨hleft.inv hs, hc.left hs hentry hleft hcount⟩

theorem Kept.evRequestFree (h : Kept P s) (r : RequestId) :
    Kept P (s.evRequestFree r) := by
  obtain ⟨hs, hc⟩ := evRequestFree_counted h.hash h.counted r
  exact ⟨hs, hc, h.patient.evRequestFree r⟩

theorem Kept.giveUp (h : Kept P s) {r : RequestId}
    {fate : Option ChildState} (hf : fate ≠ some .proxied) :
    Kept P (s.giveUp r fate) := by
  unfold ProxyState.giveUp
  split
  · next q c hq =>
      refine h.setRequest ?_ fun hc => absurd (congrArg some hc) hf
      rw [entry_eq hq]
      rfl
  · exact h.evRequestFree r

theorem giveUp_none {r r' : RequestId} (fate : Option ChildState)
    (h : s.requests r' = none) : (s.giveUp r fate).requests r' = none := by
  unfold ProxyState.giveUp
  split
  · next q c hq =>
      have hne : r' ≠ r := by
        intro heq
        rw [heq, hq] at h
        cases h
      rw [setRequest_other hne, h]
  · rw [evRequestFree_requests]
    by_cases heq : r' = r
    · rw [heq, Function.update_self]
    · rw [Function.update_of_ne heq, h]

/-- A request gets into the hash. -/
theorem Kept.insert (h : Kept P s) {r : RequestId} {q : ProxyRequest}
    {env : SendEnv} (hq : s.requests r = some q) (hu : Unsent q)
    (hrun : s.insertIntoProxyHash r false env = some (t, true)) :
    Kept P t ∧ ∃ q', t.requests r = some q' ∧ q'.proxyReply = none := by
  obtain ⟨p, e, hent, -, hcount, i, hreq⟩ :=
    insert_entered h.hash hq hu hrun
  have hnone : s.entry r = none := by
    rw [entry_eq hq, ProxyRequest.entry_unlisted hu.1]
  refine ⟨⟨hent.inv h.hash hnone,
    h.counted.entered h.hash hnone hent hcount,
    Patient.congr (h.patient.setRequest fun _ => ?_) hreq⟩, ?_⟩
  · exact hu.2.1
  · rw [hreq, setRequest_self]
    exact ⟨_, rfl, hu.2.1⟩

/-- A request in the hash is marked as proxied. -/
theorem Kept.sent (h : Kept P s) {r : RequestId} {q : ProxyRequest}
    (hq : s.requests r = some q) (hr : q.proxyReply = none)
    (q' : ProxyRequest) (he : q'.entry = q.entry) (hr' : q'.proxyReply = q.proxyReply) :
    Kept P (s.setRequest r q') :=
  h.setRequest (he.trans (entry_eq hq).symm) fun _ => hr'.trans hr

end ProxyState

end WinRadius
