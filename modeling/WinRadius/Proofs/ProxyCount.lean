/-
The counters of outstanding requests against the proxy hash.

# Bound and equality

`Counted P` bounds the counter of each home server by the number of the
requests in the hash that wait for it; for the servers in `P` the two are
the same. A server that is reset leaves `P`: what was sent to it before is
in the hash still, and counts no more.

# A reply

`lookup_in_proxy_hash` counts the request no more before it is known
whether the reply is taken. In between the counter is one below, so a reply
that is found has to be followed to its end (`Counted.answered`).
-/
import WinRadius.Proofs.ProxyDelta
import WinRadius.Proofs.ProxyHomes

namespace WinRadius

open Lib

namespace ProxyState

variable {s t u : ProxyState}

-- ======== entries

theorem entry_setRequest (r : RequestId) (q : ProxyRequest) :
    (s.setRequest r q).entry = Function.update s.entry r q.entry := by
  funext r'
  by_cases h : r' = r
  · subst h
    rw [Function.update_self, entry, setRequest_self]
    rfl
  · rw [Function.update_of_ne h, entry, setRequest_other h]
    rfl

theorem entry_of_requests (h : t.requests = s.requests) :
    t.entry = s.entry := by
  funext r
  rw [entry, h, entry]

/-- What has an entry says so by its flag. -/
theorem entry_eq {r : RequestId} {q : ProxyRequest}
    (hq : s.requests r = some q) : s.entry r = q.entry := by
  rw [entry, hq]
  rfl

/-- A write to a request that is none to its entry. -/
theorem sameHash_setRequest {r : RequestId} {q : ProxyRequest}
    (h : q.entry = s.entry r) : s.SameHash (s.setRequest r q) := by
  refine ⟨rfl, rfl, ?_⟩
  rw [entry_setRequest, h, Function.update_eq_self]

theorem sameHash_setHome (h : HomeId) (home : HomeServer) :
    s.SameHash (s.setHome h home) := ⟨rfl, rfl, rfl⟩

-- ======== the old calls

theorem idFree_tree (pl : PacketList) (p : RadiusPacket) :
    (pl.idFree p).1.tree = pl.tree := by
  rcases pl.idFree_cases p with h | ⟨h, -⟩ | ⟨i, pd, -, -, h⟩
  · rw [h]
  · rw [h]
    rfl
  · rw [h]
    rfl

theorem idAlloc_tree (pl : PacketList) (p : RadiusPacket) (start : Nat) :
    (pl.idAlloc p start).1.tree = pl.tree := by
  obtain ⟨-, -, htree, -, -⟩ := pl.dst2id_frame p.dstIpaddr p.dstPort
  rcases pl.idAlloc_cases p start with ⟨_, _, h | h⟩ | ⟨_, _, _, -, -, h, -⟩
  · rw [h]
  · rw [h]
    exact htree
  · rw [h]
    exact htree

/-- A packet that has an id has addresses of known families. -/
theorem idAlloc_known {pl pl' : PacketList} {p p' : RadiusPacket}
    {start : Nat} (h : pl.idAlloc p start = (pl', p', .ok ())) :
    p'.Known := by
  rcases pl.idAlloc_cases p start with ⟨_, _, h' | h'⟩
    | ⟨pd, id, i, hspec, -, h', -, hfree⟩
  · rw [h'] at h
    cases h
  · rw [h'] at h
    cases h
  · rw [h'] at h
    cases h
    have hdst : p.dstIpaddr.Known :=
      PacketList.frInaddrAny_known hspec.2.2.1.ge
    obtain ⟨hd, -⟩ := PacketList.withSource_dst p
    obtain ⟨hsock, -, -, -, -⟩ := pl.dst2id_frame p.dstIpaddr p.dstPort
    have husable := hfree.2.1
    have haf : (pl.socket i).ipaddr.af = p.dstIpaddr.af := by
      rw [PacketList.socket, hsock, ← PacketList.socket] at husable
      simp only [PacketList.usable, Bool.and_eq_true, beq_iff_eq, hd]
        at husable
      exact husable.1.1.2
    refine ⟨?_, ?_⟩
    · unfold FrIpaddr.Known at hdst ⊢
      simpa only [PacketList.assigned, haf] using hdst
    · simpa only [PacketList.assigned, hd] using hdst

/-- The allocation of an id leaves the hash alone, and its packet can be
inserted. -/
theorem proxyIdAlloc_hash (p : RadiusPacket) (env : SendEnv) :
    s.SameHash (s.proxyIdAlloc p env).1
      ∧ ((s.proxyIdAlloc p env).2.2 = true →
        (s.proxyIdAlloc p env).2.1.Known) := by
  have hfirst := idAlloc_tree s.proxyList p env.start
  unfold proxyIdAlloc
  split
  · next pl p' _ heq =>
      rw [heq] at hfirst
      exact ⟨⟨hfirst, rfl, rfl⟩, fun _ => idAlloc_known heq⟩
  · next pl p' _ heq =>
      rw [heq] at hfirst
      simp only
      split
      · exact ⟨⟨hfirst, rfl, rfl⟩, by simp⟩
      · split
        · exact ⟨⟨hfirst, rfl, rfl⟩, by simp⟩
        · next fd src _ =>
            have hadd := Session.socketAdd_tree pl fd src
            split
            · exact ⟨⟨hfirst, rfl, rfl⟩, by simp⟩
            · split
              · next heq' =>
                  rw [heq'] at hadd
                  exact ⟨⟨hadd.trans hfirst, rfl, rfl⟩, by simp⟩
              · next pl' heq' =>
                  rw [heq'] at hadd
                  have hsecond := idAlloc_tree pl' p' env.again
                  split
                  · next heq'' =>
                      rw [heq''] at hsecond
                      exact ⟨⟨hsecond.trans (hadd.trans hfirst), rfl, rfl⟩,
                        by simp⟩
                  · next heq'' =>
                      rw [heq''] at hsecond
                      exact ⟨⟨hsecond.trans (hadd.trans hfirst), rfl, rfl⟩,
                        fun _ => idAlloc_known heq''⟩

-- ======== counters

/-- `home->currently_outstanding`. -/
def count (s : ProxyState) (h : HomeId) : Int :=
  (s.homes h).currentlyOutstanding

/-- What waits for a home server is counted there no more. -/
def Uncounted (s t : ProxyState) (e : ProxyEntry) : Prop :=
  ∀ h, t.count h
    = if e.waits h ∧ s.count h ≠ 0 then s.count h - 1 else s.count h

theorem uncountOutstanding_count (q : ProxyRequest) :
    Uncounted s (s.uncountOutstanding q) q.asEntry := by
  intro h
  unfold uncountOutstanding count
  simp only [q.asEntry_waits]
  split
  · next hn => simp [hn]
  · next k hk =>
      by_cases heq : h = k
      · subst heq
        split
        · next hc => rw [setHome_self, if_pos ⟨⟨hk, hc.1⟩, hc.2⟩]
        · next hc =>
            rw [if_neg fun hc' => hc ⟨hc'.1.2, hc'.2⟩]
      · have hne : ¬((q.homeServer = some h ∧ q.proxyReply = none)
            ∧ (s.homes h).currentlyOutstanding ≠ 0) := by
          rw [hk]
          simp [Ne.symm heq]
        rw [if_neg hne]
        split
        · rw [setHome_other heq]
        · rfl

-- ======== leaving

/-- `fr_packet_list_yank` of a request in the hash takes its packet out. -/
theorem yank_spec (hs : s.HashInv) {r : RequestId} {q : ProxyRequest}
    (hq : s.requests r = some q) (hflag : q.inProxyHash = true) :
    ∃ p, (p, r) ∈ s.owners
      ∧ (s.yankProxy q.proxy).proxyList.tree.Wf RadiusPacket.Known
        packetKey
      ∧ (∀ y, y ∈ (s.yankProxy q.proxy).proxyList.tree.root.toList
        ↔ y ∈ s.proxyList.tree.root.toList ∧ y ≠ p)
      ∧ (s.yankProxy q.proxy).owners
        = s.owners.filter fun o => o.1 ≠ p := by
  have hentry : s.entry r = some q.asEntry := by
    rw [entry_eq hq, ProxyRequest.entry_listed hflag]
  obtain ⟨o, ho, rfl⟩ := List.mem_map.mp
    (hs.listed r (by rw [hentry]; simp))
  obtain ⟨e, he, hkey⟩ := hs.owner o ho
  rw [hentry, Option.some.injEq] at he
  have hkey' : packetKey o.1 = packetKey q.proxy := by
    rw [← hkey, ← he]
    rfl
  have hmem : o.1 ∈ s.proxyList.tree.root.toList :=
    (hs.mem o.1).mpr (List.mem_map_of_mem ho)
  have hfind : rbtreeFinddata s.proxyList.tree q.proxy = some o.1 :=
    (hs.wf.finddata_eq_some_iff q.proxy o.1).mpr ⟨hmem, hkey'⟩
  obtain ⟨hwf, hlist⟩ := hs.wf.deletebydata_spec o.1
  have hyank : s.yankProxy q.proxy = { s with
      proxyList := { s.proxyList with
        tree := (rbtreeDeletebydata s.proxyList.tree o.1).1 }
      owners := s.owners.filter fun o' => o'.1 ≠ o.1 } := by
    unfold yankProxy PacketList.yank
    rw [hfind]
  rw [hyank]
  refine ⟨o.1, ho, hwf, fun y => ?_, rfl⟩
  rw [hlist]
  refine and_congr_right fun hy => not_congr ⟨fun heq => ?_, fun heq => ?_⟩
  · exact hs.wf.key_inj hy hmem heq
  · rw [heq]

/-- A request that was in the hash is yanked, its id freed and its flag
cleared. -/
theorem yanked_left (hs : s.HashInv) {r : RequestId} {q q' : ProxyRequest}
    (hq : s.requests r = some q) (hflag : q.inProxyHash = true)
    (ht : t.proxyList.tree = (s.yankProxy q.proxy).proxyList.tree)
    (ho : t.owners = (s.yankProxy q.proxy).owners)
    (hr : t.requests = (s.setRequest r q').requests)
    (hq' : q'.inProxyHash = false) : ∃ p, s.Left t r p := by
  obtain ⟨p, hmem, hwf, hlist, howners⟩ := yank_spec hs hq hflag
  refine ⟨p, hmem, ht ▸ hwf, ht ▸ hlist, ho.trans howners, ?_⟩
  rw [entry_of_requests hr, entry_setRequest,
    ProxyRequest.entry_unlisted hq']

theorem idFreeProxy_tree (p : RadiusPacket) :
    (s.idFreeProxy p).proxyList.tree = s.proxyList.tree :=
  idFree_tree s.proxyList p

theorem uncountOutstanding_frame (q : ProxyRequest) :
    (s.uncountOutstanding q).proxyList = s.proxyList
      ∧ (s.uncountOutstanding q).owners = s.owners
      ∧ (s.uncountOutstanding q).requests = s.requests := by
  unfold uncountOutstanding
  split
  · exact ⟨rfl, rfl, rfl⟩
  · split
    · exact ⟨rfl, rfl, rfl⟩
    · exact ⟨rfl, rfl, rfl⟩

theorem count_congr (h : t.homes = s.homes) (k : HomeId) :
    t.count k = s.count k := by
  rw [count, h, count]

theorem Uncounted.congr {e : ProxyEntry} (h : Uncounted t u e)
    (hs : t.homes = s.homes) : Uncounted s u e := by
  intro k
  rw [h k, count_congr hs]

/-- `remove_from_proxy_hash` takes a request out that is in. -/
theorem removeFromProxyHash_cases (hs : s.HashInv) {r : RequestId}
    {q : ProxyRequest} (hq : s.requests r = some q) :
    q.inProxyHash = false ∧ s.removeFromProxyHash r q = s
      ∨ q.inProxyHash = true
        ∧ (∃ p, s.Left (s.removeFromProxyHash r q) r p)
        ∧ Uncounted s (s.removeFromProxyHash r q) q.asEntry
        ∧ (s.removeFromProxyHash r q).requests
          = (s.setRequest r { q with inProxyHash := false }).requests := by
  cases hflag : q.inProxyHash with
  | false =>
      refine Or.inl ⟨rfl, ?_⟩
      unfold removeFromProxyHash
      rw [if_pos hflag]
  | true =>
      obtain ⟨hpl, howners, hreq⟩ := uncountOutstanding_frame
        (s := (s.yankProxy q.proxy).idFreeProxy q.proxy) q
      have hrun : s.removeFromProxyHash r q
          = ((((s.yankProxy q.proxy).idFreeProxy q.proxy).uncountOutstanding
            q).setRequest r { q with inProxyHash := false }) := by
        unfold removeFromProxyHash
        rw [if_neg (by simp [hflag])]
      have hreq' : (s.removeFromProxyHash r q).requests
          = (s.setRequest r { q with inProxyHash := false }).requests := by
        rw [hrun]
        unfold setRequest
        simp only [hreq, idFreeProxy_requests, yankProxy_requests]
      refine Or.inr ⟨rfl, ?_, ?_, hreq'⟩
      · refine yanked_left hs hq hflag ?_ ?_ hreq' rfl
        · rw [hrun]
          unfold setRequest
          simp only [hpl]
          exact idFreeProxy_tree q.proxy
        · rw [hrun]
          exact howners
      · rw [hrun]
        have huncount := uncountOutstanding_count
          (s := (s.yankProxy q.proxy).idFreeProxy q.proxy) q
        exact huncount.congr (yankProxy_homes q.proxy)

/-- `ev_request_free`. -/
theorem evRequestFree_cases (hs : s.HashInv) (r : RequestId) :
    (s.entry r = none ∧ s.SameHash (s.evRequestFree r)
        ∧ ∀ k, (s.evRequestFree r).count k = s.count k)
      ∨ ∃ q p, s.requests r = some q ∧ q.inProxyHash = true
        ∧ s.Left (s.evRequestFree r) r p
        ∧ Uncounted s (s.evRequestFree r) q.asEntry := by
  cases hq : s.requests r with
  | none =>
      have hrun : s.evRequestFree r = s := by
        unfold evRequestFree
        rw [hq]
      have hnone : s.entry r = none := by
        rw [entry, hq]
        rfl
      rw [hrun]
      exact Or.inl ⟨hnone, SameHash.refl s, fun _ => rfl⟩
  | some q =>
      have hrun : s.evRequestFree r = { s.removeFromProxyHash r q with
          requests := Function.update
            (s.removeFromProxyHash r q).requests r none } := by
        unfold evRequestFree
        rw [hq]
      have hgone : ∀ v : ProxyState, v.entry r = none →
          ({ v with requests := Function.update v.requests r none }
            : ProxyState).entry = v.entry := by
        intro v hv
        funext r'
        by_cases heq : r' = r
        · subst heq
          rw [hv, entry]
          simp
        · rw [entry, entry]
          simp [heq]
      rw [hrun]
      rcases removeFromProxyHash_cases hs hq with ⟨hflag, hsame⟩
        | ⟨hflag, ⟨p, hleft⟩, hcount, hreq⟩
      · have hnone : s.entry r = none := by
          rw [entry_eq hq, ProxyRequest.entry_unlisted hflag]
        rw [hsame]
        exact Or.inl ⟨hnone, ⟨rfl, rfl, hgone s hnone⟩, fun _ => rfl⟩
      · refine Or.inr ⟨q, p, rfl, hflag, ?_, hcount⟩
        refine hleft.trans ⟨rfl, rfl, hgone _ ?_⟩
        rw [hleft.entry, Function.update_self]

-- ======== entering

/-- Where the packet gets into the tree, the request is in the hash. -/
theorem listProxy_entered {r : RequestId} {q : ProxyRequest}
    (hs : s.HashInv) (hknown : q.proxy.Known)
    (hrun : s.listProxy r q = some (t, true)) :
    s.Entered t r q.proxy q.asEntry
      ∧ ∃ i, t.requests = (s.setRequest r { q with
          proxyListener := some i
          inProxyHash := true }).requests := by
  obtain ⟨tree, done, hins, hwf, hfresh, hlist⟩ :=
    hs.wf.insertnode_spec hknown
  unfold listProxy at hrun
  split at hrun
  · cases hrun
  · next i hi =>
      obtain ⟨⟨pl, done'⟩, hp, hrun⟩ := Option.bind_eq_some_iff.mp hrun
      rw [PacketList.insert, hins] at hp
      cases hp
      cases done with
      | false => cases hrun
      | true =>
          cases hrun
          refine ⟨⟨fun hmem => ?_, hwf, fun y => ?_, rfl, rfl, ?_⟩, i, rfl⟩
          · exact hfresh.mp rfl _ hmem rfl
          · exact (hlist y).trans (by simp)
          · rw [entry_setRequest, ProxyRequest.entry_listed rfl]
            rfl

/-- `insert_into_proxy_hash` of a request that is not in the hash, where it
returns 1. -/
theorem insert_entered {r : RequestId} {q : ProxyRequest} {env : SendEnv}
    (hs : s.HashInv) (hq : s.requests r = some q) (hu : Unsent q)
    (hrun : s.insertIntoProxyHash r false env = some (t, true)) :
    ∃ p e, s.Entered t r p e ∧ (∀ k, e.waits k = true ↔ q.homeServer = some k)
      ∧ (∀ k, t.count k = s.count k + if e.waits k then 1 else 0)
      ∧ ∃ i, t.requests = (s.setRequest r { q with
          proxy := p
          proxyListener := some i
          inProxyHash := true }).requests := by
  obtain ⟨hflag, hreply, hhome⟩ := hu
  obtain ⟨h, hh⟩ := Option.ne_none_iff_exists'.mp hhome
  have hhomes := insert_homes hrun
  unfold insertIntoProxyHash at hrun
  rw [hq, Option.bind_eq_bind, Option.bind_some] at hrun
  simp only [Bool.false_eq_true, if_false] at hrun
  obtain ⟨hsame, hknown⟩ := proxyIdAlloc_hash
    (s := s.countOutstanding q.homeServer) q.proxy env
  obtain ⟨-, hreq⟩ := proxyIdAlloc_frame
    (s := s.countOutstanding q.homeServer) q.proxy env
  have hcounted : s.SameHash (s.countOutstanding q.homeServer) := by
    rw [hh]
    exact sameHash_setHome _ _
  have hsame' := hcounted.trans hsame
  have hwaits : ∀ p k,
      ({ q with proxy := p } : ProxyRequest).asEntry.waits k = true
        ↔ q.homeServer = some k := by
    intro p k
    rw [ProxyRequest.asEntry_waits]
    exact and_iff_left hreply
  split at hrun
  · cases hrun
  · next s' p heq =>
      rw [heq] at hsame' hknown hreq
      obtain ⟨hent, i, hreq'⟩ := listProxy_entered (hsame'.inv hs)
        (q := { q with proxy := p }) (hknown rfl) hrun
      refine ⟨p, _, hent.after hsame', hwaits p, fun k => ?_, i, ?_⟩
      · obtain ⟨q', hq', hall⟩ := hhomes
        obtain rfl : q = q' := Option.some.inj (hq.symm.trans hq')
        have hcount : t.count k = (s.countOutstanding (some h)).count k := by
          rw [count_congr hall, hh]
        rw [hcount]
        by_cases hk : k = h
        · subst hk
          rw [if_pos ((hwaits p k).mpr hh), count, countOutstanding,
            setHome_self]
          rfl
        · have hne : ¬q.homeServer = some k :=
            fun heq' => hk (Option.some.inj (heq'.symm.trans hh))
          rw [if_neg (mt (hwaits p k).mp hne), count, countOutstanding,
            setHome_other hk, add_zero, count]
      · have hback : s'.requests = s.requests := by
          rw [hreq, hh]
          rfl
        rw [hreq', setRequest, setRequest, hback]

end ProxyState

end WinRadius
