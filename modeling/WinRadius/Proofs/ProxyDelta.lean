/-
The proxy hash as a table: for each request in it, its home server, whether
it has been answered and the key it is found under.

# The three deltas

Every operation of event.cpp leaves the table alone (`SameHash`), or makes
one of three changes to it: a request enters (`Entered`), leaves (`Left`) or
is answered (`Answered`). `HashInv` ties the tree, the flags of the requests
and the addresses together; each delta keeps it, and each says by how much
the number of outstanding requests changes.
-/
import WinRadius.Proofs.FindByreply
import WinRadius.Proofs.ProxyFrame

namespace WinRadius

/-- The type of `packetKey`. -/
abbrev PacketKey : Type :=
  Int ×ₗ Int ×ₗ Nat ×ₗ Nat
    ×ₗ (Nat ×ₗ Nat ×ₗ List Int) ×ₗ (Nat ×ₗ Nat ×ₗ List Int)

/-- What the hash is to a request in it. -/
structure ProxyEntry where
  home : Option HomeId
  answered : Bool
  key : PacketKey

/-- The request waits for that home server. -/
def ProxyEntry.waits (e : ProxyEntry) (h : HomeId) : Bool :=
  e.home == some h && !e.answered

/-- The entry a request has, or would have. -/
def ProxyRequest.asEntry (q : ProxyRequest) : ProxyEntry :=
  { home := q.homeServer
    answered := q.proxyReply.isSome
    key := packetKey q.proxy }

def ProxyRequest.entry (q : ProxyRequest) : Option ProxyEntry :=
  if q.inProxyHash then some q.asEntry else none

theorem ProxyRequest.entry_unlisted {q : ProxyRequest}
    (h : q.inProxyHash = false) : q.entry = none := by
  simp [ProxyRequest.entry, h]

theorem ProxyRequest.entry_listed {q : ProxyRequest}
    (h : q.inProxyHash = true) : q.entry = some q.asEntry := by
  simp [ProxyRequest.entry, h]

theorem ProxyRequest.asEntry_waits (q : ProxyRequest) (h : HomeId) :
    q.asEntry.waits h = true
      ↔ q.homeServer = some h ∧ q.proxyReply = none := by
  simp [ProxyRequest.asEntry, ProxyEntry.waits]

namespace ProxyState

variable {s t u : ProxyState}

/-- The entry of a request, if its flag says that it is in the hash. -/
def entry (s : ProxyState) (r : RequestId) : Option ProxyEntry :=
  (s.requests r).bind ProxyRequest.entry

/-- The requests in the hash that wait for a home server. -/
def outstanding (s : ProxyState) (h : HomeId) : Nat :=
  s.owners.countP fun o => (s.entry o.2).any fun e => e.waits h

/-- The tree, the flags and the addresses agree. -/
structure HashInv (s : ProxyState) : Prop where
  wf : s.proxyList.tree.Wf RadiusPacket.Known packetKey
  mem : ∀ p, p ∈ s.proxyList.tree.root.toList ↔ p ∈ s.owners.map Prod.fst
  packets : (s.owners.map Prod.fst).Nodup
  requests : (s.owners.map Prod.snd).Nodup
  listed : ∀ r, s.entry r ≠ none → r ∈ s.owners.map Prod.snd
  owner : ∀ o ∈ s.owners, ∃ e, s.entry o.2 = some e
    ∧ e.key = packetKey o.1

-- ======== deltas

/-- The hash is left alone. -/
structure SameHash (s t : ProxyState) : Prop where
  tree : t.proxyList.tree = s.proxyList.tree
  owners : t.owners = s.owners
  entry : t.entry = s.entry

/-- The request enters the hash with this entry. -/
structure Entered (s t : ProxyState) (r : RequestId) (p : RadiusPacket)
    (e : ProxyEntry) : Prop where
  fresh : p ∉ s.proxyList.tree.root.toList
  wf : t.proxyList.tree.Wf RadiusPacket.Known packetKey
  mem : ∀ y, y ∈ t.proxyList.tree.root.toList
    ↔ y ∈ s.proxyList.tree.root.toList ∨ y = p
  owners : t.owners = (p, r) :: s.owners
  key : e.key = packetKey p
  entry : t.entry = Function.update s.entry r (some e)

/-- The request leaves the hash. -/
structure Left (s t : ProxyState) (r : RequestId) (p : RadiusPacket) :
    Prop where
  listed : (p, r) ∈ s.owners
  wf : t.proxyList.tree.Wf RadiusPacket.Known packetKey
  mem : ∀ y, y ∈ t.proxyList.tree.root.toList
    ↔ y ∈ s.proxyList.tree.root.toList ∧ y ≠ p
  owners : t.owners = s.owners.filter fun o => o.1 ≠ p
  entry : t.entry = Function.update s.entry r none

/-- The request gets its reply. -/
structure Answered (s t : ProxyState) (r : RequestId) (e : ProxyEntry) :
    Prop where
  entered : s.entry r = some e
  tree : t.proxyList.tree = s.proxyList.tree
  owners : t.owners = s.owners
  entry : t.entry = Function.update s.entry r
    (some { e with answered := true })

theorem SameHash.refl (s : ProxyState) : s.SameHash s := ⟨rfl, rfl, rfl⟩

theorem SameHash.trans (h : s.SameHash t) (h' : t.SameHash u) :
    s.SameHash u :=
  ⟨h'.tree.trans h.tree, h'.owners.trans h.owners, h'.entry.trans h.entry⟩

theorem Entered.after {r : RequestId} {p : RadiusPacket} {e : ProxyEntry}
    (h : s.SameHash t) (h' : t.Entered u r p e) : s.Entered u r p e :=
  ⟨h.tree ▸ h'.fresh, h'.wf, h.tree ▸ h'.mem, h.owners ▸ h'.owners,
    h'.key, h.entry ▸ h'.entry⟩

theorem Left.trans {r : RequestId} {p : RadiusPacket}
    (h : s.Left t r p) (h' : t.SameHash u) : s.Left u r p :=
  ⟨h.listed, h'.tree ▸ h.wf, h'.tree ▸ h.mem, h'.owners.trans h.owners,
    h'.entry.trans h.entry⟩

-- ======== the deltas keep it

theorem SameHash.inv (h : s.SameHash t) (hs : s.HashInv) : t.HashInv := by
  obtain ⟨htree, howners, hentry⟩ := h
  refine ⟨?_, ?_, ?_, ?_, ?_, ?_⟩
  · rw [htree]
    exact hs.wf
  · rw [htree, howners]
    exact hs.mem
  · rw [howners]
    exact hs.packets
  · rw [howners]
    exact hs.requests
  · rw [howners, hentry]
    exact hs.listed
  · rw [howners, hentry]
    exact hs.owner

theorem SameHash.outstanding (h : s.SameHash t) (k : HomeId) :
    t.outstanding k = s.outstanding k := by
  unfold ProxyState.outstanding
  rw [h.owners, h.entry]

/-- A request without an entry owns nothing in the hash. -/
theorem HashInv.not_owner (hs : s.HashInv) {r : RequestId}
    (hr : s.entry r = none) : r ∉ s.owners.map Prod.snd := by
  intro hmem
  obtain ⟨o, ho, rfl⟩ := List.mem_map.mp hmem
  obtain ⟨e, he, -⟩ := hs.owner o ho
  rw [hr] at he
  cases he

/-- The entry of another request says nothing about those listed. -/
theorem countP_update {owners : List (RadiusPacket × RequestId)}
    {r : RequestId} (hr : r ∉ owners.map Prod.snd)
    (f : RequestId → Option ProxyEntry) (v : Option ProxyEntry)
    (k : HomeId) :
    (owners.countP fun o =>
        (Function.update f r v o.2).any fun e => e.waits k)
      = owners.countP fun o => (f o.2).any fun e => e.waits k := by
  refine List.countP_congr fun o ho => ?_
  have hne : o.2 ≠ r := fun heq => hr (heq ▸ List.mem_map_of_mem ho)
  rw [Function.update_of_ne hne]

theorem Entered.inv {r : RequestId} {p : RadiusPacket} {e : ProxyEntry}
    (h : s.Entered t r p e) (hs : s.HashInv) (hr : s.entry r = none) :
    t.HashInv := by
  have hnot := hs.not_owner hr
  refine ⟨h.wf, fun y => ?_, ?_, ?_, fun r' hr' => ?_, fun o ho => ?_⟩
  · rw [h.mem, hs.mem, h.owners, List.map_cons, List.mem_cons]
    exact or_comm
  · rw [h.owners, List.map_cons, List.nodup_cons, ← hs.mem]
    exact ⟨h.fresh, hs.packets⟩
  · rw [h.owners, List.map_cons, List.nodup_cons]
    exact ⟨hnot, hs.requests⟩
  · rw [h.owners, List.map_cons, List.mem_cons]
    by_cases heq : r' = r
    · exact Or.inl heq
    · rw [h.entry, Function.update_of_ne heq] at hr'
      exact Or.inr (hs.listed r' hr')
  · rw [h.owners] at ho
    rw [h.entry]
    rcases List.mem_cons.mp ho with rfl | ho
    · exact ⟨e, Function.update_self _ _ _, h.key⟩
    · have hne : o.2 ≠ r :=
        fun heq => hnot (heq ▸ List.mem_map_of_mem ho)
      rw [Function.update_of_ne hne]
      exact hs.owner o ho

/-- The number goes up where the request waits. -/
theorem Entered.outstanding {r : RequestId} {p : RadiusPacket}
    {e : ProxyEntry} (h : s.Entered t r p e) (hs : s.HashInv)
    (hr : s.entry r = none) (k : HomeId) :
    t.outstanding k = s.outstanding k + if e.waits k then 1 else 0 := by
  unfold ProxyState.outstanding
  rw [h.owners, h.entry, List.countP_cons,
    countP_update (hs.not_owner hr)]
  simp

/-- What is in the hash, with one request put first. -/
theorem HashInv.split (hs : s.HashInv) {p : RadiusPacket} {r : RequestId}
    (hmem : (p, r) ∈ s.owners) :
    ∃ front back, s.owners = front ++ (p, r) :: back
      ∧ (s.owners.filter fun o => o.1 ≠ p) = front ++ back
      ∧ r ∉ (front ++ back).map Prod.snd := by
  obtain ⟨front, back, heq⟩ := List.append_of_mem hmem
  have hp := hs.packets
  have hr := hs.requests
  rw [heq, List.map_append, List.map_cons, List.nodup_middle,
    List.nodup_cons] at hp hr
  rw [← List.map_append] at hp hr
  refine ⟨front, back, heq, ?_, hr.1⟩
  have hkeep : ∀ o ∈ front ++ back, o.1 ≠ p :=
    fun o ho hop => hp.1 (List.mem_map.mpr ⟨o, ho, hop⟩)
  rw [heq, List.filter_append, List.filter_cons_of_neg (by simp),
    ← List.filter_append, List.filter_eq_self]
  simpa using hkeep

theorem Left.inv {r : RequestId} {p : RadiusPacket} (h : s.Left t r p)
    (hs : s.HashInv) : t.HashInv := by
  obtain ⟨front, back, heq, hfilter, hnot⟩ := hs.split h.listed
  have howners : t.owners = front ++ back := h.owners.trans hfilter
  have hsub : (front ++ back).Sublist s.owners := by
    rw [heq]
    exact (List.Sublist.refl front).append (List.sublist_cons_self _ _)
  have hne : ∀ o ∈ front ++ back, o.2 ≠ r :=
    fun o ho heq => hnot (List.mem_map.mpr ⟨o, ho, heq⟩)
  refine ⟨h.wf, fun y => ?_, ?_, ?_, fun r' hr' => ?_, fun o ho => ?_⟩
  · rw [h.mem, hs.mem, h.owners]
    simp only [List.mem_map, List.mem_filter, decide_eq_true_eq]
    constructor
    · rintro ⟨⟨o, ho, rfl⟩, hy⟩
      exact ⟨o, ⟨ho, hy⟩, rfl⟩
    · rintro ⟨o, ⟨ho, hy⟩, rfl⟩
      exact ⟨⟨o, ho, rfl⟩, hy⟩
  · rw [howners]
    exact hs.packets.sublist (hsub.map _)
  · rw [howners]
    exact hs.requests.sublist (hsub.map _)
  · have hr'' : r' ≠ r := by
      intro heq'
      rw [h.entry, heq', Function.update_self] at hr'
      exact hr' rfl
    rw [h.entry, Function.update_of_ne hr''] at hr'
    have hmem := hs.listed r' hr'
    rw [heq, List.map_append, List.map_cons, List.mem_append,
      List.mem_cons] at hmem
    rw [howners, List.map_append, List.mem_append]
    rcases hmem with hmem | hmem | hmem
    · exact Or.inl hmem
    · exact absurd hmem hr''
    · exact Or.inr hmem
  · rw [howners] at ho
    rw [h.entry, Function.update_of_ne (hne o ho)]
    exact hs.owner o (hsub.subset ho)

/-- The number goes down where the request waited. -/
theorem Left.outstanding {r : RequestId} {p : RadiusPacket} {e : ProxyEntry}
    (h : s.Left t r p) (hs : s.HashInv) (he : s.entry r = some e)
    (k : HomeId) :
    s.outstanding k = t.outstanding k + if e.waits k then 1 else 0 := by
  obtain ⟨front, back, heq, hfilter, hnot⟩ := hs.split h.listed
  unfold ProxyState.outstanding
  rw [h.entry, h.owners, hfilter, countP_update hnot, heq,
    List.countP_append, List.countP_append, List.countP_cons]
  simp only [he, Option.any_some]
  omega

theorem Answered.inv {r : RequestId} {e : ProxyEntry}
    (h : s.Answered t r e) (hs : s.HashInv) : t.HashInv := by
  refine ⟨?_, ?_, ?_, ?_, fun r' hr' => ?_, fun o ho => ?_⟩
  · rw [h.tree]
    exact hs.wf
  · rw [h.tree, h.owners]
    exact hs.mem
  · rw [h.owners]
    exact hs.packets
  · rw [h.owners]
    exact hs.requests
  · rw [h.owners]
    by_cases heq : r' = r
    · exact hs.listed r' (by rw [heq, h.entered]; simp)
    · rw [h.entry, Function.update_of_ne heq] at hr'
      exact hs.listed r' hr'
  · rw [h.owners] at ho
    obtain ⟨e', he', hkey⟩ := hs.owner o ho
    rw [h.entry]
    by_cases heq : o.2 = r
    · rw [heq, Function.update_self]
      rw [heq, h.entered, Option.some.injEq] at he'
      exact ⟨_, rfl, he' ▸ hkey⟩
    · rw [Function.update_of_ne heq]
      exact ⟨e', he', hkey⟩

theorem Answered.outstanding {r : RequestId} {e : ProxyEntry}
    (h : s.Answered t r e) (hs : s.HashInv) (k : HomeId) :
    s.outstanding k = t.outstanding k + if e.waits k then 1 else 0 := by
  obtain ⟨o, ho, rfl⟩ := List.mem_map.mp
    (hs.listed r (by rw [h.entered]; simp))
  obtain ⟨front, back, heq, -, hnot⟩ := hs.split ho
  have hfront : o.2 ∉ front.map Prod.snd := fun hm =>
    hnot (by rw [List.map_append]; exact List.mem_append_left _ hm)
  have hback : o.2 ∉ back.map Prod.snd := fun hm =>
    hnot (by rw [List.map_append]; exact List.mem_append_right _ hm)
  unfold ProxyState.outstanding
  rw [h.entry, h.owners, heq, List.countP_append, List.countP_append,
    List.countP_cons, List.countP_cons, countP_update hfront,
    countP_update hback]
  have hnow : ProxyEntry.waits { e with answered := true } k = false := by
    simp [ProxyEntry.waits]
  simp only [Function.update_self, h.entered, Option.any_some, hnow]
  cases e.waits k with
  | false => simp
  | true =>
      simp
      omega

end ProxyState

end WinRadius
