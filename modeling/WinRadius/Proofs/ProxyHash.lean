/-
Where the proxy hash does not keep what it has counted: an insertion that
fails leaves the request counted at its home server, and a reply is counted
before its signature is verified.
-/
import WinRadius.Proofs.ProxyHomes

namespace WinRadius

open Lib

namespace ProxyState

variable {s t : ProxyState}

-- ======== failed insertions

/-- The proxy state is as it was before the call that was to insert
`r`. -/
structure Restored (s t : ProxyState) (r : RequestId) : Prop where
  unlisted : r ∉ t.owners.map Prod.snd
  flag : ∀ q ∈ t.requests r, q.inProxyHash = false
  ids : t.proxyList.numOutgoing = s.proxyList.numOutgoing
  counters : ∀ h, (t.homes h).currentlyOutstanding
    = (s.homes h).currentlyOutstanding

/-- Whatever `insert_into_proxy_hash` returns, the request is counted. -/
theorem insert_counts {r : RequestId} {retransmit b : Bool} {env : SendEnv}
    {q : ProxyRequest} {h : HomeId} (hq : s.requests r = some q)
    (hh : q.homeServer = some h)
    (hrun : s.insertIntoProxyHash r retransmit env = some (t, b)) :
    (t.homes h).currentlyOutstanding
      = (s.homes h).currentlyOutstanding + 1 := by
  obtain ⟨q', hq', hhomes⟩ := insert_homes hrun
  obtain rfl : q = q' := Option.some.inj (hq.symm.trans hq')
  rw [hhomes, hh, countOutstanding, setHome_self]

/-- No call that returns 0, at whichever of its exits, restores the state:
every request that is inserted has a home server, and that has counted
it. -/
theorem failed_insert_unrestored {r : RequestId} {retransmit : Bool}
    {env : SendEnv} {q : ProxyRequest} {h : HomeId}
    (hq : s.requests r = some q) (hh : q.homeServer = some h)
    (hrun : s.insertIntoProxyHash r retransmit env = some (t, false)) :
    (t.homes h).currentlyOutstanding
        = (s.homes h).currentlyOutstanding + 1
      ∧ ¬Restored s t r := by
  have hcount := insert_counts hq hh hrun
  refine ⟨hcount, fun hback => ?_⟩
  have hsame := hback.counters h
  omega

/-- A request is ready for its home server, and no socket is open. -/
def ready : ProxyState := coldStart.setRequest 1 forPingedHome

/-- What a first transmission comes to where no socket can be opened. -/
def unsent : ProxyState :=
  ((ready.insertIntoProxyHash 1 false {}).map Prod.fst).getD ready

theorem unsent_failed :
    ready.insertIntoProxyHash 1 false {} = some (unsent, false) := by
  have hfail : (ready.insertIntoProxyHash 1 false {}).map Prod.snd
      = some false := by decide +kernel
  obtain ⟨⟨u, b⟩, hu, hb⟩ := Option.map_eq_some_iff.mp hfail
  rw [unsent, hu, ← hb]
  rfl

theorem unsent_unrestored :
    (unsent.homes 0).currentlyOutstanding
        = (ready.homes 0).currentlyOutstanding + 1
      ∧ ¬Restored ready unsent 1 :=
  failed_insert_unrestored (setRequest_self 1 forPingedHome) rfl
    unsent_failed

theorem failed_insert_leaks :
    ¬∀ (s t : ProxyState) (r : RequestId) (retransmit : Bool)
      (env : SendEnv), (∃ q ∈ s.requests r, Unsent q) →
      s.insertIntoProxyHash r retransmit env = some (t, false) →
      Restored s t r := by
  intro hall
  have hback := hall ready unsent 1 false {}
    ⟨forPingedHome, setRequest_self 1 forPingedHome, by decide⟩
    unsent_failed
  have hone : (unsent.homes 0).currentlyOutstanding = 1 := by
    decide +kernel
  have hzero := hback.counters 0
  rw [hone] at hzero
  exact absurd hzero (by decide)

-- ======== forged replies

/-- The request that a reply is for, with its home server. -/
structure Matched (s : ProxyState) (reply : RadiusPacket) (r : RequestId)
    (q : ProxyRequest) (h : HomeId) : Prop where
  found : ∃ p, s.proxyList.findByreply reply = some p
    ∧ s.ownerOf p = some r
  request : s.requests r = some q
  home : q.homeServer = some h

/-- The signature of the reply is not that of the home server. -/
def Forged (cfg : Config) (s : ProxyState) (reply : RadiusPacket)
    (q : ProxyRequest) (h : HomeId) : Prop :=
  ∃ packet e, radVerify cfg reply (some q.proxy) (s.homes h).secret
    = .ok (packet, some e)

/-- A request and the hash it is in are as they were. -/
structure Undisturbed (s t : ProxyState) (r : RequestId) : Prop where
  listed : t.owners = s.owners
  ids : t.proxyList.numOutgoing = s.proxyList.numOutgoing
  responses : (t.requests r).map ProxyRequest.numProxiedResponses
    = (s.requests r).map ProxyRequest.numProxiedResponses
  counters : ∀ h, (t.homes h).currentlyOutstanding
    = (s.homes h).currentlyOutstanding

theorem uncountOutstanding_requests (q : ProxyRequest) :
    (s.uncountOutstanding q).requests = s.requests := by
  unfold uncountOutstanding
  split
  · rfl
  · split
    · rfl
    · rfl

theorem uncountOutstanding_secret (q : ProxyRequest) (h : HomeId) :
    ((s.uncountOutstanding q).homes h).secret = (s.homes h).secret := by
  unfold uncountOutstanding
  split
  · rfl
  · next k _ =>
      split
      · by_cases hk : h = k
        · subst hk
          rw [setHome_self]
        · rw [setHome_other hk]
      · rfl

/-- `lookup_in_proxy_hash` counts the response; with the last one that is
due, the request leaves the hash. -/
theorem lookup_matched {reply : RadiusPacket} {r : RequestId}
    {q : ProxyRequest} {h : HomeId} (hm : s.Matched reply r q h) :
    ∃ t, s.lookupInProxyHash reply = some (t, r)
      ∧ t.requests r = some { q with
          numProxiedResponses := q.numProxiedResponses + 1
          inProxyHash := q.inProxyHash && decide
            (q.numProxiedRequests ≠ q.numProxiedResponses + 1) }
      ∧ (t.homes h).secret = (s.homes h).secret := by
  obtain ⟨p, hp, ho⟩ := hm.found
  unfold lookupInProxyHash
  rw [hp, Option.bind_eq_bind, Option.bind_some, ho, Option.bind_eq_bind,
    Option.bind_some, hm.request, Option.bind_eq_bind, Option.bind_some]
  simp only
  split
  · next heq =>
      refine ⟨_, rfl, ?_, ?_⟩
      · rw [uncountOutstanding_requests, setRequest_self]
        simp [heq]
      · rw [uncountOutstanding_secret, setRequest_homes, idFreeProxy_homes,
          yankProxy_homes]
  · next hne =>
      refine ⟨_, rfl, ?_, ?_⟩
      · rw [uncountOutstanding_requests, setRequest_self]
        simp [hne]
      · rw [uncountOutstanding_secret, setRequest_homes]

/-- A forged reply is refused, but not before it is counted; the one that
makes the responses as many as the requests takes the request out of the
hash. -/
theorem forged_reply_disturbs {cfg : Config} {reply : RadiusPacket}
    {now : Nat} {r : RequestId} {q : ProxyRequest} {h : HomeId}
    (hm : s.Matched reply r q h) (hf : Forged cfg s reply q h) :
    ∃ t, s.receivedProxyResponse cfg reply now = some (t, none)
      ∧ ¬Undisturbed s t r
      ∧ (q.numProxiedRequests = q.numProxiedResponses + 1 →
        ∃ q' ∈ t.requests r, q'.inProxyHash = false) := by
  obtain ⟨t, hlook, hq', hsecret⟩ := lookup_matched hm
  obtain ⟨packet, e, hverify⟩ := hf
  refine ⟨t, ?_, fun hu => ?_, fun heq => ⟨_, hq', by simp [heq]⟩⟩
  · unfold receivedProxyResponse
    simp only [hlook, hq', Option.bind_eq_bind, Option.bind_some, hm.home,
      hsecret, hverify]
    split
    · rfl
    · rfl
  · have hsame := hu.responses
    rw [hq', hm.request] at hsame
    simp at hsame

/-- Two requests wait for replies. -/
def waiting : ProxyState := twoSent.foldl (after sizedConfig) coldStart

theorem waiting_reached :
    Trace (Step sizedConfig) coldStart twoSent waiting := by
  have hplay : Plays sizedConfig coldStart twoSent := by decide
  exact hplay.trace .nil

/-- An Access-Accept that somebody made up for the first of them. -/
def madeUpReply : RadiusPacket :=
  { sockfd := 3
    id := 7
    srcIpaddr := pingedHome.ipaddr
    srcPort := pingedHome.port
    dstIpaddr := { af := afInet }
    dstPort := 1814
    code := pwAuthenticationAck
    data := [2, 7, 0, 20] ++ List.replicate 16 0 }

/-- The first of them. -/
def firstWaiting : ProxyRequest := (waiting.requests 1).getD forPingedHome

theorem madeUpReply_matched : waiting.Matched madeUpReply 1 firstWaiting 0 := by
  refine ⟨?_, ?_, by decide⟩
  · have hsome : (waiting.proxyList.findByreply madeUpReply).bind
        waiting.ownerOf = some 1 := by decide
    exact Option.bind_eq_some_iff.mp hsome
  · have hsome : (waiting.requests 1).isSome = true := by decide
    obtain ⟨q, hq⟩ := Option.isSome_iff_exists.mp hsome
    rw [firstWaiting, hq]
    rfl

theorem madeUpReply_forged :
    Forged sizedConfig waiting madeUpReply firstWaiting 0 :=
  ⟨_, _, rfl⟩

theorem madeUpReply_disturbs :
    ∃ t, waiting.receivedProxyResponse sizedConfig madeUpReply 0
        = some (t, none)
      ∧ ¬Undisturbed waiting t 1
      ∧ (firstWaiting.numProxiedRequests
          = firstWaiting.numProxiedResponses + 1 →
        ∃ q ∈ t.requests 1, q.inProxyHash = false) :=
  forged_reply_disturbs madeUpReply_matched madeUpReply_forged

/-- One made-up packet takes a request out of the hash that nobody has
answered. -/
theorem forged_reply_evicts :
    ¬∀ (cfg : Config) (s₀ s : ProxyState) (tr : List (ProxyEvent × Bool))
      (reply : RadiusPacket) (now : Nat) (r : RequestId)
      (q : ProxyRequest) (h : HomeId), s₀.Initial →
      Trace (Step cfg) s₀ tr s → s.Matched reply r q h →
      Forged cfg s reply q h →
      ∃ t, s.receivedProxyResponse cfg reply now = some (t, none)
        ∧ Undisturbed s t r := by
  intro hall
  obtain ⟨t, hrun, hback⟩ := hall sizedConfig coldStart waiting twoSent
    madeUpReply 0 1 firstWaiting 0 coldStart_initial waiting_reached
    madeUpReply_matched madeUpReply_forged
  have hcount : (waiting.receivedProxyResponse sizedConfig madeUpReply
      0).map (fun u => (u.1.homes 0).currentlyOutstanding)
      = some 1 := by decide
  rw [hrun, Option.map_some, Option.some.injEq] at hcount
  have htwo : (waiting.homes 0).currentlyOutstanding = 2 := by
    decide
  have hsame := hback.counters 0
  rw [hcount, htwo] at hsame
  exact absurd hsame (by decide)

end ProxyState

end WinRadius
