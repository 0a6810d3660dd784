/-
Replies are matched to the request they answer.

# The key

`fr_packet_list_find_byreply` looks for a key put together from the reply
and from the socket it came in on. The request was given the socket's own
address and port when its id was allocated, and the socket is still in its
slot, so the two keys agree whether or not the socket is bound to a
specific address.

# The tree

Two requests with one key are never both in the tree: the insertion of
the second returns 0. A request is freed after it was yanked, as the
comment at `fr_packet_list_id_free` asks for (`Careful`).
-/
import WinRadius.Proofs.PacketRun

namespace WinRadius

open Lib

namespace Session

variable {s t : Session}

-- ======== the runs

/-- Ids are freed after the request was yanked. -/
def Careful (s : Session) : PacketOp → Prop
  | .idFree request => request ∉ s.listed
  | _ => True

def CarefulStep (s t : Session) : Prop :=
  ∃ op, s.Allowed op ∧ s.Careful op ∧ s.apply op = some t

theorem CarefulStep.step (h : s.CarefulStep t) : s.Step t := by
  obtain ⟨op, ha, -, hop⟩ := h
  exact ⟨op, ha, hop⟩

/-- The tree holds what was inserted, in order, and all of it holds an
allocation. -/
structure Listed (s : Session) : Prop where
  wf : s.pl.tree.Wf RadiusPacket.Known packetKey
  mem : ∀ r, r ∈ s.listed ↔ r ∈ s.pl.tree.root.toList
  held : ∀ r ∈ s.listed, r ∈ s.held

theorem create_listed : create.Listed :=
  ⟨rbtreeCreate_wf packet_lawful, fun r => by rfl,
    fun r hr => by cases hr⟩

theorem Sound.known (h : s.Sound) {r : RadiusPacket} (hr : r ∈ s.held) :
    r.Known := by
  obtain ⟨⟨i, hi, hm, -, hip, -⟩, hdst, -⟩ := h.registered r hr
  refine ⟨?_, hdst⟩
  rw [hip]
  exact (h.slots.bound i hi hm).1

/-- A call that leaves the tree alone. -/
theorem Listed.congr {pl : PacketList} {held : List RadiusPacket}
    (h : s.Listed) (ht : pl.tree = s.pl.tree)
    (hheld : ∀ r ∈ s.listed, r ∈ held) :
    Listed { s with pl := pl, held := held } := by
  refine ⟨?_, ?_, hheld⟩
  · rw [ht]
    exact h.wf
  · rw [ht]
    exact h.mem

theorem socketAdd_tree (pl : PacketList) (sockfd : Int)
    (src : Option Sockaddr) :
    (pl.socketAdd sockfd src).1.tree = pl.tree := by
  rcases pl.socketAdd_cases sockfd src with heq | ⟨_, _, _, _, _, heq, _⟩
  · rw [heq]
  · rw [heq]
    rfl

theorem socketRemove_tree (pl : PacketList) (sockfd : Int) :
    (pl.socketRemove sockfd).1.tree = pl.tree := by
  rcases pl.socketRemove_cases sockfd with heq | ⟨_, _, _, _, heq⟩
  · rw [heq]
  · rw [heq]
    rfl

theorem idAlloc_listed (h : s.Listed) {request : RadiusPacket}
    {start : Nat} (hs : s.apply (.idAlloc request start) = some t) :
    t.Listed := by
  obtain ⟨-, -, htree, -, -⟩ := PacketList.dst2id_frame s.pl
    request.dstIpaddr request.dstPort
  rw [apply] at hs
  rcases s.pl.idAlloc_cases request start with ⟨r, e, heq | heq⟩
    | ⟨pd, id, i, -, -, heq, -⟩
  · rw [heq] at hs
    cases hs
    exact h
  · rw [heq] at hs
    cases hs
    exact h.congr htree h.held
  · rw [heq] at hs
    cases hs
    exact h.congr htree fun r hr => List.mem_cons_of_mem _ (h.held r hr)

theorem insert_listed (h : s.Listed) (hsound : s.Sound)
    {request : RadiusPacket} (hmem : request ∈ s.held)
    (hs : s.apply (.insert request) = some t) : t.Listed := by
  obtain ⟨tree, done, hins, hwf, -, hlist⟩ :=
    h.wf.insertnode_spec (hsound.known hmem)
  obtain ⟨p, hp, rfl⟩ := Option.map_eq_some_iff.mp hs
  rw [PacketList.insert, hins] at hp
  cases hp
  refine ⟨hwf, fun r => ?_, fun r hr => ?_⟩
  · rw [hlist, ← h.mem]
    cases done with
    | false => simp
    | true =>
        simp only [if_true, List.mem_cons, true_and]
        exact or_comm
  · cases done with
    | false => exact h.held r hr
    | true =>
        rcases List.mem_cons.mp hr with rfl | hr
        · exact hmem
        · exact h.held r hr

theorem yank_listed (h : s.Listed) {request : RadiusPacket}
    (hs : s.apply (.yank request) = some t) : t.Listed := by
  rw [apply, PacketList.yank] at hs
  cases hf : rbtreeFinddata s.pl.tree request with
  | none =>
      rw [hf] at hs
      cases hs
      exact h
  | some packet =>
      rw [hf] at hs
      cases hs
      obtain ⟨hpacket, -⟩ := (h.wf.finddata_eq_some_iff _ _).mp hf
      obtain ⟨hwf, hlist⟩ := h.wf.deletebydata_spec packet
      refine ⟨hwf, fun r => ?_, fun r hr => ?_⟩
      · rw [hlist, List.mem_filter, ← h.mem, decide_eq_true_eq]
        refine and_congr_right fun hr => not_congr ?_
        refine ⟨fun heq => by rw [heq], fun hkey => ?_⟩
        exact h.wf.key_inj ((h.mem r).mp hr) hpacket hkey
      · exact h.held r (List.mem_filter.mp hr).1

theorem idFree_listed (h : s.Listed) {request : RadiusPacket}
    (hc : s.Careful (.idFree request))
    (hs : s.apply (.idFree request) = some t) : t.Listed := by
  have hnot : request ∉ s.listed := hc
  rw [apply] at hs
  rcases s.pl.idFree_cases request with heq | ⟨heq, -⟩
    | ⟨i, pd, -, -, heq⟩
  · rw [heq] at hs
    cases hs
    exact h
  · rw [heq] at hs
    cases hs
    exact h.congr rfl h.held
  · rw [heq] at hs
    cases hs
    refine h.congr rfl fun r hr => ?_
    refine (List.mem_erase_of_ne ?_).mpr (h.held r hr)
    rintro rfl
    exact hnot hr

theorem step_listed (hsound : s.Sound) (h : s.Listed)
    (hs : s.CarefulStep t) : t.Listed := by
  obtain ⟨op, ha, hc, hop⟩ := hs
  cases op with
  | socketAdd sockfd src =>
      cases hop
      exact h.congr (socketAdd_tree _ _ _) h.held
  | socketRemove sockfd =>
      cases hop
      exact h.congr (socketRemove_tree _ _) h.held
  | idAlloc request start => exact idAlloc_listed h hop
  | insert request => exact insert_listed h hsound ha hop
  | yank request => exact yank_listed h hop
  | idFree request => exact idFree_listed h hc hop

theorem reaches_listed (h : Reaches CarefulStep create s) :
    s.Sound ∧ s.Listed :=
  h.invariant (fun s => s.Sound ∧ s.Listed)
    ⟨create_sound, create_listed⟩
    fun _ _ hs hn => ⟨step_sound hs.1 hn.step, step_listed hs.1 hs.2 hn⟩

-- ======== matching

/-- A request in the list that was sent on the reply's socket, with its
id, to where the reply comes from. -/
def Answered (s : Session) (reply request : RadiusPacket) : Prop :=
  request ∈ s.listed ∧ request.sockfd = reply.sockfd
    ∧ request.id = reply.id
    ∧ SameAddr request.dstIpaddr reply.srcIpaddr
    ∧ request.dstPort = reply.srcPort

/-- A reply on a socket that is bound to a specific address has that
address as its destination. -/
def ArrivedAt (s : Session) (reply : RadiusPacket) : Prop :=
  ∀ i, s.pl.socketFind reply.sockfd = some i →
    frInaddrAny (s.pl.socket i).ipaddr = 0 →
    SameAddr reply.dstIpaddr (s.pl.socket i).ipaddr

/-- The source in the key is the address of the socket. -/
theorem requestFromReply_src (hsound : s.Sound) {reply : RadiusPacket}
    (harr : s.ArrivedAt reply) {i : Nat} (hi : i < 32)
    (hfind : s.pl.socketFind reply.sockfd = some i)
    (hm : s.pl.mask.getLsbD i = true) :
    SameAddr (PacketList.requestFromReply (s.pl.socket i) reply).srcIpaddr
      (s.pl.socket i).ipaddr := by
  obtain ⟨hknown, hany⟩ := hsound.slots.bound i hi hm
  unfold PacketList.requestFromReply
  simp only
  split
  · exact SameAddr.refl _
  · next hne =>
      refine harr i hfind ?_
      unfold FrIpaddr.Known at hknown
      rw [frInaddrAny, if_pos hknown, if_neg]
      rw [← hany]
      exact hne

/-- `fr_packet_list_find_byreply` returns the request that the reply
answers, of which there is one at most. -/
theorem findByreply_eq_some_iff (h : Reaches CarefulStep create s)
    (reply : RadiusPacket) (harr : s.ArrivedAt reply) :
    (∀ request, s.pl.findByreply reply = some request
        ↔ s.Answered reply request)
      ∧ ∀ r r', s.Answered reply r → s.Answered reply r' → r = r' := by
  obtain ⟨hsound, hlisted⟩ := reaches_listed h
  have hmain : ∀ request, s.pl.findByreply reply = some request
      ↔ s.Answered reply request := by
    intro request
    unfold PacketList.findByreply
    constructor
    · intro hf
      obtain ⟨i, -, hfind⟩ := Option.bind_eq_some_iff.mp hf
      obtain ⟨hmem, hkey⟩ := (hlisted.wf.finddata_eq_some_iff _ _).mp hfind
      obtain ⟨hfd, hid, -, hport, hdst, -⟩ :=
        (packetKey_eq_iff _ _).mp hkey
      exact ⟨(hlisted.mem request).mpr hmem, hfd, hid, hdst, hport⟩
    · rintro ⟨hmem, hfd, hid, hdst, hport⟩
      have hheld := hlisted.held request hmem
      obtain ⟨⟨i, hi, hm, hifd, hip, hiport⟩, -⟩ :=
        hsound.registered request hheld
      have hfind := hsound.slots.socketFind_eq hi
        (hsound.slots.used i hi hm)
      rw [hifd, hfd] at hfind
      refine Option.bind_eq_some_iff.mpr ⟨i, hfind, ?_⟩
      rw [hlisted.wf.finddata_eq_some_iff]
      refine ⟨(hlisted.mem request).mp hmem, ?_⟩
      rw [packetKey_eq_iff]
      refine ⟨hfd, hid, hiport, hport, hdst, ?_⟩
      rw [hip]
      exact (requestFromReply_src hsound harr hi hfind hm).symm
  refine ⟨hmain, fun r r' hr hr' => ?_⟩
  have heq := ((hmain r).mpr hr).symm.trans ((hmain r').mpr hr')
  exact Option.some.inj heq

/-- A request sent from 10.0.0.2 and the reply to it. -/
def sentRequest : RadiusPacket :=
  { sockfd := 3, id := 9
    srcIpaddr := { af := afInet, ipaddr := [10, 0, 0, 2] }, srcPort := 1814
    dstIpaddr := { af := afInet, ipaddr := [10, 0, 0, 1] }, dstPort := 1812 }

def itsReply : RadiusPacket :=
  { sockfd := 3, id := 9
    srcIpaddr := { af := afInet, ipaddr := [10, 0, 0, 1] }, srcPort := 1812
    dstIpaddr := { af := afInet, ipaddr := [10, 0, 0, 2] }, dstPort := 1814 }

def boundSocket : Sockaddr :=
  { ssFamily := afInet, salen := 16, addr := [10, 0, 0, 2], port := 1814 }

def newRequest : RadiusPacket :=
  { dstIpaddr := { af := afInet, ipaddr := [10, 0, 0, 1] }, dstPort := 1812 }

def afterSending : Session :=
  ((create.after (.socketAdd 3 boundSocket)).after
    (.idAlloc newRequest 9)).after (.insert sentRequest)

theorem itsReply_finds_sentRequest :
    afterSending.pl.findByreply itsReply = some sentRequest := by
  have h1 : Reaches CarefulStep create
      (create.after (.socketAdd 3 boundSocket)) :=
    Reaches.refl.step ⟨.socketAdd 3 boundSocket,
      ⟨by decide, by decide⟩, trivial,
      apply_eq_after (by decide)⟩
  have h2 := h1.step ⟨.idAlloc newRequest 9, (by decide : 9 < 256),
    trivial, apply_eq_after (by decide)⟩
  have h3 : Reaches CarefulStep create afterSending :=
    h2.step ⟨.insert sentRequest, (by decide : sentRequest ∈ _),
      trivial, apply_eq_after (by decide)⟩
  have harr : afterSending.ArrivedAt itsReply := by
    intro i hi _
    have hslot : afterSending.pl.socketFind itsReply.sockfd = some 25 := by
      decide
    rw [hslot] at hi
    cases hi
    decide
  refine ((findByreply_eq_some_iff h3 itsReply harr).1 sentRequest).mpr ?_
  exact ⟨by decide, by decide, by decide, by decide, by decide⟩

end Session

end WinRadius
