/-
Every run of the server that handles one request at a time: what a
duplicate of a request in the list comes to.

A duplicate is dropped, or answered from the reply of the request it
repeats. One of an Access-Request that is out at a home server is passed
on there, or, when that server is dead, to another or to the handlers of
the failure; it makes no other request either.
-/
import WinRadius.Proofs.RequestList

namespace WinRadius

open Lib

namespace RequestServer

variable {cfg : MainConfig} {s t : RequestServer} {r : RequestId}
variable {q : Request}

-- ======== events

/-- What every event preserves. -/
structure Sound (s : RequestServer) : Prop where
  listed : s.Listed
  logged : s.Logged

theorem Sound.does (h : s.Sound) (hd : Does r s t) : t.Sound := by
  refine hd.invariant Sound h ?_
  intro a b ha hc
  exact ⟨ha.listed.change hc, ha.logged.change hc⟩

/-- What a change leaves alone. -/
theorem Change.frame (hc : Change r s t) :
    t.requestNumCounter = s.requestNumCounter
      ∧ ∀ r', r' ≠ r → t.requests r' = s.requests r' := by
  have hset (u : RequestServer) (q : Request) :
      (u.setRequest r q).requestNumCounter = u.requestNumCounter
        ∧ ∀ r', r' ≠ r → (u.setRequest r q).requests r' = u.requests r' :=
    ⟨rfl, fun r' hr => setRequest_other hr q⟩
  have hun (u : RequestServer) (q : Request) :
      (u.removeFromRequestHash r q).requestNumCounter = u.requestNumCounter
        ∧ ∀ r', r' ≠ r →
          (u.removeFromRequestHash r q).requests r' = u.requests r' := by
    unfold removeFromRequestHash
    split
    next => exact ⟨rfl, fun _ _ => rfl⟩
    next => exact ⟨rfl, fun r' hr => setRequest_other hr _⟩
  cases hc with
  | edit q' _ _ _ => exact hset s q'
  | delay q' _ _ _ _ => exact hset s q'
  | due _ _ => exact ⟨rfl, fun _ _ => rfl⟩
  | release q' _ _ _ => exact hset s q'
  | encode bytes _ _ => exact hset s _
  | transmit bytes _ _ _ => exact ⟨rfl, fun _ _ => rfl⟩
  | handle _ => exact ⟨rfl, fun _ _ => rfl⟩
  | forward _ => exact ⟨rfl, fun _ _ => rfl⟩
  | unlist _ => exact hun s _
  | @abandon q _ =>
      obtain ⟨hn, hr⟩ := hun (s.setRequest r { q with childState := .done })
        { q with childState := .done }
      refine ⟨hn, fun r' hne => (hr r' hne).trans ?_⟩
      exact setRequest_other hne _
  | free _ _ => exact ⟨rfl, fun r' hr => Function.update_of_ne hr ..⟩

theorem Does.frame (hd : Does r s t) :
    t.requestNumCounter = s.requestNumCounter
      ∧ ∀ r', r' ≠ r → t.requests r' = s.requests r' := by
  refine hd.invariant (fun u => u.requestNumCounter = s.requestNumCounter
    ∧ ∀ r', r' ≠ r → u.requests r' = s.requests r') ⟨rfl, fun _ _ => rfl⟩ ?_
  rintro a b ⟨hn, hr⟩ hc
  obtain ⟨hn', hr'⟩ := hc.frame
  exact ⟨hn'.trans hn, fun r' hne => (hr' r' hne).trans (hr r' hne)⟩

/-- A packet with no request in the list gets one, or is dropped. -/
theorem Sound.accept (h : s.Sound) {listener : ListenType}
    {packet : RadiusPacket} {a : Arrival} {o : Option RequestId}
    (hk : packet.Known)
    (hrun : s.acceptRequest cfg listener packet a = some (t, o)) :
    t.Sound ∧ ∀ r ∈ o, ∃ q, t.requests r = some q
      ∧ q.childState = .queued := by
  unfold acceptRequest at hrun
  split at hrun
  next =>
    cases hrun
    exact ⟨h, nofun⟩
  next =>
    split at hrun
    next => cases hrun
    next hfresh =>
      have hnone : s.requests a.fresh = none := not_not.mp hfresh
      obtain ⟨⟨pl, b⟩, hins, hrun⟩ := Option.bind_eq_some_iff.mp hrun
      obtain ⟨⟨tree, b'⟩, htree, hpl⟩ := Option.bind_eq_some_iff.mp hins
      cases hpl
      obtain ⟨tree', b', hspec, hwf, hb, hmem⟩ :=
        h.listed.tree.insertnode_spec hk
      cases htree.symm.trans hspec
      cases b with
      | false =>
          cases hrun
          refine ⟨⟨⟨hwf, ?_, h.listed.owner, h.listed.unique⟩,
            h.logged.count rfl rfl rfl⟩, nofun⟩
          intro p
          rw [← h.listed.mem, hmem]
          simp
      | true =>
          cases hrun
          refine ⟨⟨?_, ?_⟩, ?_⟩
          · refine h.listed.enter (q := s.newRequest listener packet
              a.handling.now) hnone rfl hwf (hb.mp rfl) ?_ rfl
            intro p
            rw [hmem]
            simp [newRequest]
          · exact (h.logged.enter hnone rfl).congr rfl rfl rfl
          · intro r hr
            cases hr
            exact ⟨_, setRequest_self _ _, rfl⟩

/-- The request that a packet is found to belong to. -/
theorem Listed.found (h : s.Listed) {packet p : RadiusPacket}
    (hf : s.pl.find packet = some p) (ho : s.ownerOf p = some r)
    (hq : s.requests r = some q) :
    q.inRequestHash = true ∧ packetKey q.packet = packetKey packet := by
  obtain ⟨q', hq', hl, hp⟩ := (h.owner p r).mp (h.ownerOf_iff.mp ho)
  cases hq.symm.trans hq'
  rw [hp]
  exact ⟨hl, ((h.tree.finddata_eq_some_iff packet p).mp hf).2⟩

/-- `received_request`. -/
theorem Sound.received (h : s.Sound) {listener : ListenType}
    {packet : RadiusPacket} {a : Arrival} {o : Option RequestId}
    (hk : packet.Known)
    (hrun : s.receivedRequest cfg listener packet a = some (t, o)) :
    t.Sound ∧ ∀ r ∈ o, ∃ q, t.requests r = some q
      ∧ q.childState = .queued := by
  unfold receivedRequest at hrun
  split at hrun
  next => exact h.accept hk hrun
  next p hf =>
    obtain ⟨r, ho, hrun⟩ := Option.bind_eq_some_iff.mp hrun
    obtain ⟨q, hq, hrun⟩ := Option.bind_eq_some_iff.mp hrun
    obtain ⟨hl, -⟩ := h.listed.found hf ho hq
    have hunlist : (s.removeFromRequestHash r q).Sound :=
      h.does (Reaches.refl.step (.unlist hq))
    -- the old request is done
    have hdone (hend : (do
        let s ← (s.setRequest r { q with childState := .done })
          |>.cleanupDelay r a.handling.now
        s.acceptRequest cfg listener packet a) = some (t, o)) :
        t.Sound ∧ ∀ r ∈ o, ∃ q, t.requests r = some q
          ∧ q.childState = .queued := by
      obtain ⟨u, hu, hend⟩ := Option.bind_eq_some_iff.mp hend
      have hd : Does r s u := (Reaches.refl.step (.abandon hq)).trans
        (cleanupDelay_unlisted (setRequest_self _ _) hu)
      exact (h.does hd).accept hk hend
    -- or it is given up
    have hconflict (hend : (if q.replyCode ≠ 0 ∧ q.replyData ≠ none then
          (s.removeFromRequestHash r q).acceptRequest cfg listener packet a
        else if a.handling.now < q.received + usec then pure (s, none)
        else do
          let s ← s.receivedConflictingRequest r q
          s.acceptRequest cfg listener packet a) = some (t, o)) :
        t.Sound ∧ ∀ r ∈ o, ∃ q, t.requests r = some q
          ∧ q.childState = .queued := by
      split at hend
      next => exact hunlist.accept hk hend
      next =>
        split at hend
        next =>
          cases hend
          exact ⟨h, nofun⟩
        next =>
          obtain ⟨u, hu, hend⟩ := Option.bind_eq_some_iff.mp hend
          have hu' : u = s.removeFromRequestHash r q := by
            unfold receivedConflictingRequest at hu
            simp only at hu
            split at hu
            next => exact (Option.some.inj hu).symm
            next => exact (Option.some.inj hu).symm
            next => exact (Option.some.inj hu).symm
            all_goals
              split at hu
              next => cases hu
              next => exact (Option.some.inj hu).symm
          rw [hu'] at hend
          exact hunlist.accept hk hend
    split at hrun
    next => cases hrun
    next =>
      split at hrun
      next =>
        obtain ⟨u, hu, hrun⟩ := Option.bind_eq_some_iff.mp hrun
        cases hrun
        exact ⟨h.does (receivedRetransmit_does hq hl hu), nofun⟩
      next =>
        split at hrun
        next => exact hdone hrun
        next => exact hdone hrun
        next => exact hdone hrun
        next => exact hconflict hrun
        next => exact hconflict hrun
        next => exact hconflict hrun

/-- Every event preserves it. -/
theorem Sound.step (h : s.Sound) {e : RequestEvent} (hs : Step cfg s e t) :
    t.Sound := by
  obtain ⟨hadm, hrun⟩ := hs
  cases e with
  | received listener packet a =>
      obtain ⟨⟨u, o⟩, hu, hrun⟩ := Option.bind_eq_some_iff.mp hrun
      obtain ⟨hsound, ho⟩ := h.received hadm hu
      cases o with
      | none =>
          cases hrun
          exact hsound
      | some r =>
          obtain ⟨q, hq, hc⟩ := ho r rfl
          exact hsound.does
            (radiusHandleRequest_does hq (Or.inl hc) hrun)
  | replied r code verified hd =>
      exact h.does (receivedProxyResponse_does hrun)
  | timer r hd => exact h.does (runEvent_does hrun)

/-- Two packets have one source, destination, id and socket. -/
def SameKey (a b : RadiusPacket) : Prop :=
  a.sockfd = b.sockfd ∧ a.id = b.id ∧ a.srcPort = b.srcPort
    ∧ a.dstPort = b.dstPort ∧ SameAddr a.dstIpaddr b.dstIpaddr
    ∧ SameAddr a.srcIpaddr b.srcIpaddr

/-- The packet repeats a request that is in the list. -/
structure Repeats (s : RequestServer) (r : RequestId) (q : Request)
    (packet : RadiusPacket) : Prop where
  request : s.requests r = some q
  listed : q.inRequestHash = true
  key : SameKey q.packet packet
  length : q.packet.dataLen = packet.dataLen
  vector : q.packet.vector = packet.vector

/-- A duplicate comes to `received_retransmit`. -/
theorem Repeats.run_eq (h : s.Sound) {packet : RadiusPacket}
    (hrep : s.Repeats r q packet) (listener : ListenType) (a : Arrival) :
    s.run cfg (.received listener packet a)
      = s.receivedRetransmit cfg r a := by
  obtain ⟨hq, hl, hkey, hlen, hvec⟩ := hrep
  have hown : (q.packet, r) ∈ s.owners :=
    (h.listed.owner _ _).mpr ⟨q, hq, hl, rfl⟩
  have hfind : s.pl.find packet = some q.packet := by
    refine (h.listed.tree.finddata_eq_some_iff _ _).mpr ⟨?_, ?_⟩
    · exact (h.listed.mem _).mpr ⟨r, hown⟩
    · exact (packetKey_eq_iff _ _).mpr hkey
  have hreq : s.receivedRequest cfg listener packet a = (do
      return (← s.receivedRetransmit cfg r a, none)) := by
    unfold receivedRequest
    simp only [hfind, h.listed.ownerOf_iff.mpr hown, hq, hl, hlen, hvec,
      Option.bind_eq_bind, Option.bind_some, Bool.true_eq_false, if_false,
      and_self, if_true]
  show s.eventSocketHandler cfg listener packet a = _
  unfold eventSocketHandler
  rw [hreq]
  cases s.receivedRetransmit cfg r a with
  | none => rfl
  | some t => rfl

/-- A reply that is encoded is sent as it is, or not at all. -/
theorem send_cached (hq : s.requests r = some q) {bytes : List UInt8}
    (hd : q.replyData = some bytes)
    (encoding : Option (List UInt8 × Bool)) :
    s.send r q encoding = s
      ∨ s.send r q encoding = s.note (.sent q.number bytes) := by
  have hsame : ({ q with replyData := some bytes } : Request) = q := by
    rw [← hd]
  unfold send
  rcases listenerSend_cases q encoding with hl | ⟨bytes', hb, hl | hl⟩
  · rw [hl]
    exact Or.inl (setRequest_eq hq)
  · obtain rfl : bytes = bytes' := by
      rcases hb with hb | hb <;> rw [hd] at hb <;> cases hb
      rfl
    rw [hl, hsame]
    simp only
    rw [setRequest_eq hq]
    exact Or.inr rfl
  · obtain rfl : bytes = bytes' := by
      rcases hb with hb | hb <;> rw [hd] at hb <;> cases hb
      rfl
    rw [hl, hsame]
    exact Or.inl (setRequest_eq hq)

/-- What becomes of a duplicate, unless it is of an Access-Request that is
out at a home server: it is dropped, or answered with the bytes of the
reply; a reply that is not encoded yet is encoded then. -/
def Answered (s t : RequestServer) (r : RequestId) (q : Request)
    (encoding : Option (List UInt8 × Bool)) : Prop :=
  t = s
  ∨ (∃ bytes, q.replyData = some bytes
      ∧ t = s.note (.sent q.number bytes))
  ∨ q.replyData = none ∧ q.replyCode ≠ 0
    ∧ (q.childState = .cleanupDelay ∨ q.childState = .done)
    ∧ t = s.send r q encoding

/-- What becomes of a duplicate of an Access-Request that is out at a home
server: it is sent on to that server again; when the server is dead, the
request goes to another one or to the handlers of the failure. -/
def SentOn (cfg : MainConfig) (s t : RequestServer) (r : RequestId)
    (q : Request) (a : Arrival) : Prop :=
  if q.packet.dstPort ≠ 0 ∧ a.homeDead = true then
    s.proxyToAnother cfg r q a = some t
  else
    t = (s.setRequest r { q with
      numProxiedRequests := q.numProxiedRequests + 1 }).note
        (.proxied q.number)

/-- A duplicate is answered or sent on, by the state of its request. -/
theorem Repeats.answered (h : s.Sound) {packet : RadiusPacket}
    (hrep : s.Repeats r q packet) {listener : ListenType} {a : Arrival}
    (hrun : s.run cfg (.received listener packet a) = some t) :
    if q.childState = .proxied ∧ q.packet.code = pwAuthenticationRequest then
      SentOn cfg s t r q a
    else s.Answered t r q a.handling.encoding := by
  rw [hrep.run_eq h] at hrun
  obtain ⟨q', hq', hrun⟩ := Option.bind_eq_some_iff.mp hrun
  cases hrep.request.symm.trans hq'
  -- the handling of the request is over
  have hover (hc : q.childState = .cleanupDelay ∨ q.childState = .done)
      (hend : (if q.replyCode = 0 then pure s
        else pure (s.send r q a.handling.encoding)) = some t) :
      s.Answered t r q a.handling.encoding := by
    split at hend
    next =>
      cases hend
      exact Or.inl rfl
    next hcode =>
      cases hend
      cases hd : q.replyData with
      | none => exact Or.inr (Or.inr ⟨hd, hcode, hc, rfl⟩)
      | some bytes =>
          rcases send_cached hrep.request hd a.handling.encoding with hs | hs
          · exact Or.inl hs
          · exact Or.inr (Or.inl ⟨bytes, hd, hs⟩)
  split at hrun
  next hc =>
    cases hrun
    rw [if_neg (by rw [hc]; rintro ⟨⟨⟩, -⟩)]
    exact Or.inl rfl
  next hc =>
    cases hrun
    rw [if_neg (by rw [hc]; rintro ⟨⟨⟩, -⟩)]
    exact Or.inl rfl
  next hc =>
    cases hrun
    rw [if_neg (by rw [hc]; rintro ⟨⟨⟩, -⟩)]
    exact Or.inl rfl
  next hc =>
    split at hrun
    next hcode =>
      cases hrun
      rw [if_neg fun h => hcode h.2]
      exact Or.inl rfl
    next hcode =>
      rw [if_pos ⟨hc, not_not.mp hcode⟩, SentOn]
      split at hrun
      next hdead => rwa [if_pos hdead]
      next hlive =>
        cases hrun
        rw [if_neg hlive]
  next hc =>
    rw [if_neg (by rw [hc]; rintro ⟨⟨⟩, -⟩)]
    exact hover (Or.inl hc) hrun
  next hc =>
    rw [if_neg (by rw [hc]; rintro ⟨⟨⟩, -⟩)]
    exact hover (Or.inr hc) hrun

end RequestServer

end WinRadius
