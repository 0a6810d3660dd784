/-
Runs of a packet list with allocated ids.

# Sessions

A `Session` is a packet list together with the requests that hold an
allocation and those that are in the list: `held` grows where
`fr_packet_list_id_alloc` returns 1 and shrinks where
`fr_packet_list_id_free` returns 1, and `listed` follows
`fr_packet_list_insert` and `fr_packet_list_yank`. `Allowed` is what the
callers keep to: descriptors are added once, and only a request that
holds an allocation is inserted or freed.

# What every run keeps

`Sound` holds whatever the hash table of destinations does: the slots and
the mask fit together, the counters count `held`, and a held request has
the address and the port of a socket that is still registered. A socket
with requests outstanding is not removed, so its slot is not given away.
-/
import WinRadius.Lib.Run
import WinRadius.Proofs.PacketKeys

namespace WinRadius

open Lib

-- ======== rings

theorem ringFind_some {size n i j : Nat} {p : Nat → Bool}
    (h : ringFind size p n i = some j) : p j = true := by
  induction n generalizing i with
  | zero => cases h
  | succ n ih =>
      rw [ringFind] at h
      split at h
      · next hp =>
          cases h
          exact hp
      · exact ih h

theorem ringFind_lt {size n i j : Nat} {p : Nat → Bool} (hi : i < size)
    (h : ringFind size p n i = some j) : j < size := by
  induction n generalizing i with
  | zero => cases h
  | succ n ih =>
      rw [ringFind] at h
      split at h
      · cases h
        exact hi
      · exact ih (Nat.mod_lt _ (by omega)) h

theorem ringFind_none_steps {size n i : Nat} {p : Nat → Bool}
    (h : ringFind size p n i = none) (hi : i < size) (k : Nat)
    (hk : k < n) : p ((i + k) % size) = false := by
  induction n generalizing i k with
  | zero => omega
  | succ n ih =>
      rw [ringFind] at h
      split at h
      · cases h
      · next hp =>
          cases k with
          | zero =>
              rw [Nat.add_zero, Nat.mod_eq_of_lt hi]
              simpa using hp
          | succ k =>
              have := ih h (Nat.mod_lt _ (by omega)) k (by omega)
              rw [Nat.mod_add_mod] at this
              rw [← this]
              congr 2
              omega

/-- A search all around the ring misses nothing. -/
theorem ringFind_none {size i : Nat} {p : Nat → Bool} (hi : i < size)
    (h : ringFind size p size i = none) {j : Nat} (hj : j < size) :
    p j = false := by
  have hstep := ringFind_none_steps h hi ((j + (size - i)) % size)
    (Nat.mod_lt _ (by omega))
  rw [Nat.add_mod_mod, show i + (j + (size - i)) = j + size by omega,
    Nat.add_mod_right, Nat.mod_eq_of_lt hj] at hstep
  exact hstep

theorem sock2offset_lt (sockfd : Int) : sock2offset sockfd < 32 := by
  unfold sock2offset
  omega

-- ======== bits

theorem oneBit_getLsbD (i : Nat) {k : Nat} (hk : k < 32) :
    ((1 : BitVec 32) <<< i).getLsbD k = decide (k = i) := by
  rw [BitVec.getLsbD_shiftLeft]
  by_cases h : k = i
  · subst h
    simp [hk]
  · rcases Nat.lt_or_gt_of_ne h with hlt | hgt
    · simp [hlt, h]
    · have : k - i ≠ 0 := by omega
      simp [hk, hgt.not_gt, h, BitVec.getLsbD_one, this]

theorem and_oneBit_eq_zero (w : BitVec 32) {i : Nat} (hi : i < 32) :
    w &&& ((1 : BitVec 32) <<< i) = 0 ↔ w.getLsbD i = false := by
  constructor
  · intro h
    have hbit : (w &&& ((1 : BitVec 32) <<< i)).getLsbD i
        = (0 : BitVec 32).getLsbD i := by rw [h]
    rw [BitVec.getLsbD_and, oneBit_getLsbD i hi] at hbit
    simpa using hbit
  · intro h
    apply BitVec.eq_of_getLsbD_eq
    intro k hk
    rw [BitVec.getLsbD_and, oneBit_getLsbD i hk]
    by_cases hki : k = i
    · subst hki
      simp [h]
    · simp [hki]

/-- The test of the scan: the socket is in use and its bit is clear. -/
theorem freeMask_iff (word mask : BitVec 32) {i : Nat} (hi : i < 32) :
    ~~~((~~~word) &&& mask) &&& ((1 : BitVec 32) <<< i) = 0
      ↔ mask.getLsbD i = true ∧ word.getLsbD i = false := by
  rw [and_oneBit_eq_zero _ hi]
  simp [hi, and_comm]

-- ======== slots

namespace PacketList

variable {pl pl' : PacketList}

theorem socket_setSocket {i : Nat} (hi : i < pl.sockets.length)
    (ps : PacketSocket) (k : Nat) :
    (pl.setSocket i ps).socket k = if k = i then ps else pl.socket k := by
  unfold setSocket socket
  simp only [List.getD_eq_getElem?_getD, List.getElem?_set]
  by_cases h : i = k
  · subst h
    simp [hi]
  · rw [if_neg h, if_neg (Ne.symm h)]

/-- The slots and the mask of registered sockets. A slot whose addition
failed is taken, and its address is of no family. -/
structure Slots (pl : PacketList) : Prop where
  len : pl.sockets.length = 32
  distinct : ∀ i j, i < 32 → j < 32 → (pl.socket i).sockfd ≠ -1 →
    (pl.socket i).sockfd = (pl.socket j).sockfd → i = j
  offset : ∀ i, i < 32 → (pl.socket i).sockfd ≠ -1 →
    (pl.socket i).offset = i
  used : ∀ i, i < 32 → pl.mask.getLsbD i = true →
    (pl.socket i).sockfd ≠ -1
  masked : ∀ i, i < 32 → (pl.socket i).sockfd ≠ -1 →
    (pl.socket i).ipaddr.Known → pl.mask.getLsbD i = true
  bound : ∀ i, i < 32 → pl.mask.getLsbD i = true →
    (pl.socket i).ipaddr.Known
      ∧ (pl.socket i).inaddrAny = (pl.socket i).ipaddr.octets.all (· == 0)

theorem socketFind_some {fd : Int} {i : Nat}
    (h : pl.socketFind fd = some i) :
    i < 32 ∧ (pl.socket i).sockfd = fd :=
  ⟨ringFind_lt (sock2offset_lt fd) h, by simpa using ringFind_some h⟩

theorem Slots.socketFind_eq (h : pl.Slots) {i : Nat} (hi : i < 32)
    (hfd : (pl.socket i).sockfd ≠ -1) :
    pl.socketFind (pl.socket i).sockfd = some i := by
  cases hf : pl.socketFind (pl.socket i).sockfd with
  | none =>
      have := ringFind_none (sock2offset_lt _) hf hi
      simp at this
  | some j =>
      obtain ⟨hj, hjfd⟩ := socketFind_some hf
      rw [h.distinct i j hi hj hfd hjfd.symm]

/-- Two lists differ in the counters of their sockets at most. -/
structure SameSlots (pl pl' : PacketList) : Prop where
  len : pl'.sockets.length = pl.sockets.length
  mask : pl'.mask = pl.mask
  sockfd : ∀ k, (pl'.socket k).sockfd = (pl.socket k).sockfd
  offset : ∀ k, (pl'.socket k).offset = (pl.socket k).offset
  inaddrAny : ∀ k, (pl'.socket k).inaddrAny = (pl.socket k).inaddrAny
  ipaddr : ∀ k, (pl'.socket k).ipaddr = (pl.socket k).ipaddr
  port : ∀ k, (pl'.socket k).port = (pl.socket k).port

namespace SameSlots

theorem of_eq (hs : pl'.sockets = pl.sockets) (hm : pl'.mask = pl.mask) :
    SameSlots pl pl' := by
  have hk (k : Nat) : pl'.socket k = pl.socket k := by
    unfold socket
    rw [hs]
  exact ⟨by rw [hs], hm, fun k => by rw [hk], fun k => by rw [hk],
    fun k => by rw [hk], fun k => by rw [hk], fun k => by rw [hk]⟩

theorem trans {pl'' : PacketList} (h : SameSlots pl pl')
    (h' : SameSlots pl' pl'') : SameSlots pl pl'' :=
  ⟨h'.len.trans h.len, h'.mask.trans h.mask,
    fun k => (h'.sockfd k).trans (h.sockfd k),
    fun k => (h'.offset k).trans (h.offset k),
    fun k => (h'.inaddrAny k).trans (h.inaddrAny k),
    fun k => (h'.ipaddr k).trans (h.ipaddr k),
    fun k => (h'.port k).trans (h.port k)⟩

theorem slots (h : SameSlots pl pl') (hs : pl.Slots) : pl'.Slots := by
  refine ⟨h.len.trans hs.len, ?_, ?_, ?_, ?_, ?_⟩
  · intro i j hi hj
    rw [h.sockfd, h.sockfd]
    exact hs.distinct i j hi hj
  · intro i hi
    rw [h.sockfd, h.offset]
    exact hs.offset i hi
  · intro i hi
    rw [h.mask, h.sockfd]
    exact hs.used i hi
  · intro i hi
    rw [h.mask, h.sockfd, h.ipaddr]
    exact hs.masked i hi
  · intro i hi
    rw [h.mask, h.ipaddr, h.inaddrAny]
    exact hs.bound i hi

end SameSlots

theorem sameSlots_setSocket {i : Nat} (hi : i < pl.sockets.length)
    (n : Int) : SameSlots pl
      (pl.setSocket i { pl.socket i with numOutgoing := n }) := by
  have hfield {β : Type} (f : PacketSocket → β)
      (hf : ∀ ps : PacketSocket, f { ps with numOutgoing := n } = f ps)
      (k : Nat) : f ((pl.setSocket i
        { pl.socket i with numOutgoing := n }).socket k)
          = f (pl.socket k) := by
    rw [socket_setSocket hi]
    split
    · next hk => rw [hf, hk]
    · rfl
  exact ⟨by simp [setSocket], rfl, hfield _ fun _ => rfl,
    hfield _ fun _ => rfl, hfield _ fun _ => rfl, hfield _ fun _ => rfl,
    hfield _ fun _ => rfl⟩

-- ======== operations

/-- Looking a destination up writes to the table and the arrays only. -/
theorem dst2id_frame (pl : PacketList) (ip : FrIpaddr) (port : Nat) :
    (pl.dst2id ip port).1.sockets = pl.sockets
      ∧ (pl.dst2id ip port).1.mask = pl.mask
      ∧ (pl.dst2id ip port).1.tree = pl.tree
      ∧ (pl.dst2id ip port).1.numOutgoing = pl.numOutgoing
      ∧ (pl.dst2id ip port).1.allocId = pl.allocId := by
  unfold dst2id
  simp only
  split
  · exact ⟨rfl, rfl, rfl, rfl, rfl⟩
  · split
    · exact ⟨rfl, rfl, rfl, rfl, rfl⟩
    · exact ⟨rfl, rfl, rfl, rfl, rfl⟩

theorem dst2id_sized (h : pl.dst2idHt.Sized) (ip : FrIpaddr)
    (port : Nat) : (pl.dst2id ip port).1.dst2idHt.Sized := by
  have hf := HashTable.finddata_sized dst2idOps h
    { dstIpaddr := ip, dstPort := port }
  unfold dst2id
  simp only
  split
  · exact hf
  · split
    · exact HashTable.insert_sized _ hf _
    · exact HashTable.insert_sized _ hf _

/-- The list an allocation of `id` on slot `i` leaves behind. -/
def allocated (pl : PacketList) (pd : Dst2Id) (id i : Nat) : PacketList :=
  { (pl.setIdWord pd id
      (pl.idWord pd id ||| ((1 : BitVec 32) <<< i))).setSocket i
        { pl.socket i with numOutgoing := (pl.socket i).numOutgoing + 1 }
    with numOutgoing := pl.numOutgoing + 1 }

/-- What an allocation writes to the request. -/
def assigned (ps : PacketSocket) (id : Nat) (request : RadiusPacket) :
    RadiusPacket :=
  { request with
    id := id
    sockfd := ps.sockfd
    srcIpaddr := ps.ipaddr
    srcPort := ps.port }

/-- A socket that can take an id. -/
def Free (pl : PacketList) (pd : Dst2Id) (id i : Nat)
    (request : RadiusPacket) (srcAny : Bool) : Prop :=
  i < 32 ∧ usable (pl.socket i) request srcAny = true
    ∧ pl.mask.getLsbD i = true ∧ (pl.idWord pd id).getLsbD i = false

theorem takeSocket_cases (pd : Dst2Id) (id : Nat)
    (request : RadiusPacket) (srcAny : Bool) :
    (∃ e, pl.takeSocket pd id request srcAny = (pl, request, .error e)
        ∧ ∀ i, ¬pl.Free pd id i request srcAny)
      ∨ ∃ i, pl.takeSocket pd id request srcAny
        = (pl.allocated pd id i, assigned (pl.socket i) id request, .ok ())
        ∧ pl.Free pd id i request srcAny := by
  unfold takeSocket
  simp only
  split
  · next hnone =>
      refine Or.inl ⟨_, rfl, fun i hfree => ?_⟩
      rw [List.find?_eq_none] at hnone
      refine hnone i (List.mem_range.mpr hfree.1) ?_
      rw [Bool.and_eq_true, beq_iff_eq, freeMask_iff _ _ hfree.1]
      exact hfree.2
  · next i hi =>
      have hmem := List.mem_range.mp (List.mem_of_find?_eq_some hi)
      have hp := List.find?_some hi
      rw [Bool.and_eq_true, beq_iff_eq, freeMask_iff _ _ hmem] at hp
      exact Or.inr ⟨i, rfl, hmem, hp⟩

/-- The checks in front of an allocation. -/
def Specified (pl : PacketList) (request : RadiusPacket) : Prop :=
  pl.allocId = true ∧ request.dstPort ≠ 0
    ∧ frInaddrAny request.dstIpaddr = 0
    ∧ 0 ≤ frInaddrAny (withSource request).srcIpaddr

theorem withSource_dst (request : RadiusPacket) :
    (withSource request).dstIpaddr = request.dstIpaddr
      ∧ (withSource request).dstPort = request.dstPort := by
  unfold withSource
  split
  · exact ⟨rfl, rfl⟩
  · exact ⟨rfl, rfl⟩

theorem frInaddrAny_known {ip : FrIpaddr} (h : 0 ≤ frInaddrAny ip) :
    ip.Known := by
  by_contra hk
  unfold FrIpaddr.Known at hk
  unfold frInaddrAny at h
  rw [if_neg hk] at h
  omega

/-- Behind the checks, what is returned is settled by the words. -/
theorem idAlloc_specified {request : RadiusPacket}
    (h : pl.Specified request) (start : Nat) :
    pl.idAlloc request start
      = match pl.dst2id request.dstIpaddr request.dstPort with
        | (pl, none) => (pl, withSource request,
            .error "Failed inserting into hash")
        | (pl, some pd) =>
            match ringFind 256 (fun id => pl.idWord pd id != pl.mask) 256
                start with
            | none => (pl, withSource request,
                .error "All IDs are being used")
            | some id => pl.takeSocket pd id (withSource request)
                (frInaddrAny (withSource request).srcIpaddr != 0) := by
  obtain ⟨halloc, hport, hdst, hsrc⟩ := h
  obtain ⟨hd, hp⟩ := withSource_dst request
  have hknown : request.dstIpaddr.Known := frInaddrAny_known hdst.ge
  have haf : request.dstIpaddr.af ≠ afUnspec := by
    rcases hknown with h | h
    · rw [h]
      decide
    · rw [h]
      decide
  unfold idAlloc
  rw [if_neg (by simp [halloc]), if_neg (by simp [haf, hport])]
  simp only [hd, hp]
  rw [if_neg (by omega)]
  exact if_neg (by simp [hdst])

theorem idAlloc_searches {request : RadiusPacket} {pl' : PacketList}
    {pd : Dst2Id} (h : pl.Specified request)
    (hd : pl.dst2id request.dstIpaddr request.dstPort = (pl', some pd))
    (start : Nat) :
    pl.idAlloc request start
      = match ringFind 256 (fun id => pl'.idWord pd id != pl'.mask) 256
          start with
        | none => (pl', withSource request,
            .error "All IDs are being used")
        | some id => pl'.takeSocket pd id (withSource request)
            (frInaddrAny (withSource request).srcIpaddr != 0) := by
  have hsearch := idAlloc_specified h start
  rw [hd] at hsearch
  exact hsearch

theorem idAlloc_unspecified {request : RadiusPacket}
    (h : ¬pl.Specified request) (start : Nat) :
    ∃ r e, pl.idAlloc request start = (pl, r, .error e) := by
  obtain ⟨hd, hp⟩ := withSource_dst request
  unfold idAlloc
  split
  · exact ⟨_, _, rfl⟩
  · next halloc =>
      split
      · exact ⟨_, _, rfl⟩
      · next hport =>
          simp only
          split
          · exact ⟨_, _, rfl⟩
          · next hsrc =>
              split
              · exact ⟨_, _, rfl⟩
              · next hdst =>
                  rw [not_or] at hport
                  rw [hd] at hdst
                  exact absurd ⟨by simpa using halloc, hport.2,
                    not_not.mp hdst, by omega⟩ h

/-- `fr_packet_list_id_alloc` either fails and writes to the table of
destinations at most, or it allocates an id of the destination on a free
socket. -/
theorem idAlloc_cases (pl : PacketList) (request : RadiusPacket)
    (start : Nat) :
    (∃ r e, (pl.idAlloc request start = (pl, r, .error e)
        ∨ pl.idAlloc request start
          = ((pl.dst2id request.dstIpaddr request.dstPort).1, r, .error e)))
      ∨ ∃ pd id i, pl.Specified request
        ∧ (pl.dst2id request.dstIpaddr request.dstPort).2 = some pd
        ∧ pl.idAlloc request start
          = ((pl.dst2id request.dstIpaddr request.dstPort).1.allocated
              pd id i,
            assigned (pl.socket i) id (withSource request), .ok ())
        ∧ (start < 256 → id < 256)
        ∧ (pl.dst2id request.dstIpaddr request.dstPort).1.Free pd id i
          (withSource request)
          (frInaddrAny (withSource request).srcIpaddr != 0) := by
  by_cases hspec : pl.Specified request
  · rw [idAlloc_specified hspec]
    obtain ⟨pl', found, hd⟩ : ∃ pl' found,
        pl.dst2id request.dstIpaddr request.dstPort = (pl', found) :=
      ⟨_, _, rfl⟩
    have hframe := dst2id_frame pl request.dstIpaddr request.dstPort
    rw [hd] at hframe ⊢
    cases found with
    | none => exact Or.inl ⟨_, _, Or.inr rfl⟩
    | some pd =>
        simp only
        cases hr : ringFind 256
            (fun id => pl'.idWord pd id != pl'.mask) 256 start with
        | none => exact Or.inl ⟨_, _, Or.inr rfl⟩
        | some id =>
            rcases pl'.takeSocket_cases pd id (withSource request)
              (frInaddrAny (withSource request).srcIpaddr != 0)
              with ⟨e, he, -⟩ | ⟨i, hi, hfree⟩
            · exact Or.inl ⟨_, e, Or.inr he⟩
            · refine Or.inr ⟨pd, id, i, hspec, rfl, ?_,
                fun hs => ringFind_lt hs hr, hfree⟩
              have hsock : pl'.socket i = pl.socket i := by
                unfold socket
                rw [hframe.1]
              rw [← hsock]
              exact hi
  · obtain ⟨r, e, he⟩ := idAlloc_unspecified hspec start
    exact Or.inl ⟨r, e, Or.inl he⟩

theorem frSockaddr2ipaddr_known {sa : Sockaddr} {ip : FrIpaddr}
    {port : Nat} (h : frSockaddr2ipaddr sa = some (ip, port)) :
    ip.Known := by
  unfold frSockaddr2ipaddr at h
  split at h
  · split at h
    · cases h
    · cases h
      exact Or.inl rfl
  · split at h
    · split at h
      · cases h
      · cases h
        exact Or.inr rfl
    · cases h

/-- `fr_packet_list_socket_add` takes a free slot if there is one; the bit
of the mask is set where the socket has an address. -/
theorem socketAdd_cases (pl : PacketList) (sockfd : Int)
    (src : Option Sockaddr) :
    (pl.socketAdd sockfd src).1 = pl
      ∨ ∃ i ps mask, i < 32 ∧ (pl.socket i).sockfd = -1
        ∧ (pl.socketAdd sockfd src).1
          = { pl.setSocket i ps with mask := mask }
        ∧ ps.sockfd = sockfd ∧ ps.offset = i ∧ ps.numOutgoing = 0
        ∧ (¬ps.ipaddr.Known ∧ mask = pl.mask
          ∨ (ps.ipaddr.Known
            ∧ ps.inaddrAny = ps.ipaddr.octets.all (· == 0)
            ∧ mask = pl.mask ||| ((1 : BitVec 32) <<< i))) := by
  unfold socketAdd
  split
  · exact Or.inl rfl
  · next i hi =>
      have hlt := ringFind_lt (sock2offset_lt sockfd) hi
      have hfree : (pl.socket i).sockfd = -1 := by
        simpa using ringFind_some hi
      simp only
      split
      · exact Or.inr ⟨i, _, pl.mask, hlt, hfree, rfl, rfl, rfl, rfl,
          Or.inl ⟨(by decide : ¬({} : FrIpaddr).Known), rfl⟩⟩
      · next ip port hbind =>
          obtain ⟨sa, -, hsa⟩ := Option.bind_eq_some_iff.mp hbind
          exact Or.inr ⟨i, _, _, hlt, hfree, rfl, rfl, rfl, rfl,
            Or.inr ⟨frSockaddr2ipaddr_known hsa, rfl, rfl⟩⟩

/-- `fr_packet_list_socket_remove` frees the slot of a socket without
requests outstanding. -/
theorem socketRemove_cases (pl : PacketList) (sockfd : Int) :
    (pl.socketRemove sockfd).1 = pl
      ∨ ∃ i, i < 32 ∧ (pl.socket i).sockfd = sockfd
        ∧ (pl.socket i).numOutgoing = 0
        ∧ (pl.socketRemove sockfd).1
          = { pl.setSocket i { pl.socket i with sockfd := -1 } with
              mask := pl.mask
                &&& ~~~((1 : BitVec 32) <<< (pl.socket i).offset) } := by
  unfold socketRemove
  split
  · exact Or.inl rfl
  · next i hi =>
      obtain ⟨hlt, hfd⟩ := socketFind_some hi
      simp only
      split
      · exact Or.inl rfl
      · next hn => exact Or.inr ⟨i, hlt, hfd, not_not.mp hn, rfl⟩

/-- The list a release leaves behind. -/
def released (pl : PacketList) (pd : Dst2Id) (id i : Nat) : PacketList :=
  { (pl.setIdWord pd id (pl.idWord pd id
      &&& ~~~((1 : BitVec 32) <<< (pl.socket i).offset))).setSocket i
        { pl.socket i with numOutgoing := (pl.socket i).numOutgoing - 1 }
    with numOutgoing := pl.numOutgoing - 1 }

/-- The list with the bucket of a destination filled. -/
def lookedUp (pl : PacketList) (request : RadiusPacket) : PacketList :=
  { pl with dst2idHt := (pl.dst2idHt.finddata dst2idOps
      { dstIpaddr := request.dstIpaddr, dstPort := request.dstPort }).1 }

/-- `fr_packet_list_id_free` clears the bit of the destination's entry. -/
theorem idFree_cases (pl : PacketList) (request : RadiusPacket) :
    pl.idFree request = (pl, false)
      ∨ pl.idFree request = (pl.lookedUp request, false)
        ∧ (pl.dst2idHt.finddata dst2idOps
          { dstIpaddr := request.dstIpaddr
            dstPort := request.dstPort }).2 = none
      ∨ ∃ i pd, pl.socketFind request.sockfd = some i
        ∧ (pl.dst2idHt.finddata dst2idOps
          { dstIpaddr := request.dstIpaddr
            dstPort := request.dstPort }).2 = some pd
        ∧ pl.idFree request
          = ((pl.lookedUp request).released pd request.id.toNat i,
            true) := by
  unfold idFree
  split
  · exact Or.inl rfl
  · next i hi =>
      simp only
      split
      · next hn => exact Or.inr (Or.inl ⟨rfl, hn⟩)
      · next pd hpd => exact Or.inr (Or.inr ⟨i, pd, hi, hpd, rfl⟩)

theorem allocated_sameSlots {i : Nat} (hi : i < pl.sockets.length)
    (pd : Dst2Id) (id : Nat) : SameSlots pl (pl.allocated pd id i) :=
  (sameSlots_setSocket hi ((pl.socket i).numOutgoing + 1)).trans
    (.of_eq rfl rfl)

theorem released_sameSlots {i : Nat} (hi : i < pl.sockets.length)
    (pd : Dst2Id) (id : Nat) : SameSlots pl (pl.released pd id i) :=
  (sameSlots_setSocket hi ((pl.socket i).numOutgoing - 1)).trans
    (.of_eq rfl rfl)

end PacketList

-- ======== sessions

/-- A packet list, the requests that hold an allocation and those that
were inserted. -/
structure Session where
  pl : PacketList
  held : List RadiusPacket
  listed : List RadiusPacket

/-- A call of the packet list. `src` is what `getsockname` returns for the
descriptor, `start` the value of `fr_rand() & 0xff`. -/
inductive PacketOp where
  | socketAdd (sockfd : Int) (src : Sockaddr)
  | socketRemove (sockfd : Int)
  | idAlloc (request : RadiusPacket) (start : Nat)
  | insert (request : RadiusPacket)
  | yank (request : RadiusPacket)
  | idFree (request : RadiusPacket)

namespace Session

/-- What the callers keep to. -/
def Allowed (s : Session) : PacketOp → Prop
  | .socketAdd sockfd _ =>
      sockfd ≠ -1 ∧ ∀ i, i < 32 → (s.pl.socket i).sockfd ≠ sockfd
  | .socketRemove sockfd => sockfd ≠ -1
  | .idAlloc _ start => start < 256
  | .insert request => request ∈ s.held
  | .yank _ => True
  | .idFree request => request ∈ s.held

/-- The session after a call; `none` is a `NULL` dereference. -/
def apply (s : Session) : PacketOp → Option Session
  | .socketAdd sockfd src =>
      some { s with pl := (s.pl.socketAdd sockfd (some src)).1 }
  | .socketRemove sockfd =>
      some { s with pl := (s.pl.socketRemove sockfd).1 }
  | .idAlloc request start =>
      match s.pl.idAlloc request start with
      | (pl, request, .ok ()) =>
          some { s with pl := pl, held := request :: s.held }
      | (pl, _, .error _) => some { s with pl := pl }
  | .insert request =>
      (s.pl.insert request).map fun p => { s with
        pl := p.1
        listed := if p.2 then request :: s.listed else s.listed }
  | .yank request =>
      match s.pl.yank request with
      | (pl, none) => some { s with pl := pl }
      | (pl, some packet) => some { s with
          pl := pl
          listed := s.listed.filter (· ≠ packet) }
  | .idFree request =>
      match s.pl.idFree request with
      | (pl, true) => some { s with
          pl := pl
          held := s.held.erase request }
      | (pl, false) => some { s with pl := pl }

/-- `fr_packet_list_create(1)`. -/
def create : Session :=
  { pl := packetListCreate true, held := [], listed := [] }

def Step (s t : Session) : Prop :=
  ∃ op, s.Allowed op ∧ s.apply op = some t

/-- The session after a call that does not fault. -/
def after (s : Session) (op : PacketOp) : Session := (s.apply op).getD s

theorem apply_eq_after {s : Session} {op : PacketOp}
    (h : (s.apply op).isSome = true) : s.apply op = some (s.after op) := by
  unfold after
  obtain ⟨t, ht⟩ := Option.isSome_iff_exists.mp h
  rw [ht]
  rfl

theorem Step.after {s : Session} {op : PacketOp} (ha : s.Allowed op)
    (h : (s.apply op).isSome = true) : s.Step (s.after op) :=
  ⟨op, ha, apply_eq_after h⟩

-- ======== the invariant

/-- A held request was given the address, the port and an id of a socket
that is registered. -/
def Registered (pl : PacketList) (r : RadiusPacket) : Prop :=
  (∃ i, i < 32 ∧ pl.mask.getLsbD i = true
    ∧ (pl.socket i).sockfd = r.sockfd ∧ r.srcIpaddr = (pl.socket i).ipaddr
    ∧ r.srcPort = (pl.socket i).port)
  ∧ r.dstIpaddr.Known ∧ 0 ≤ r.id ∧ r.id < 256

/-- The requests outstanding on a socket. -/
def outstanding (held : List RadiusPacket) (sockfd : Int) : Nat :=
  held.countP fun r => r.sockfd == sockfd

/-- What every run keeps. -/
structure Sound (s : Session) : Prop where
  slots : s.pl.Slots
  sized : s.pl.dst2idHt.Sized
  allocId : s.pl.allocId = true
  registered : ∀ r ∈ s.held, Registered s.pl r
  count : ∀ i, i < 32 → (s.pl.socket i).sockfd ≠ -1 →
    (s.pl.socket i).numOutgoing
      = outstanding s.held (s.pl.socket i).sockfd
  total : s.pl.numOutgoing = s.held.length

theorem create_sound : create.Sound := by
  have hsock (i : Nat) : (packetListCreate true).socket i = {} := by
    unfold packetListCreate PacketList.socket
    simp only [List.getD_eq_getElem?_getD, List.getElem?_replicate]
    split
    · rfl
    · rfl
  refine ⟨⟨by simp [create, packetListCreate, maxSockets], ?_, ?_, ?_, ?_,
    ?_⟩, HashTable.create_sized, rfl, by simp [create], ?_, rfl⟩
  · intro i j _ _ h
    simp only [create, hsock] at h
    exact absurd rfl h
  · intro i _ h
    simp only [create, hsock] at h
    exact absurd rfl h
  · intro i _ h
    simp [create, packetListCreate] at h
  · intro i _ h
    simp only [create, hsock] at h
    exact absurd rfl h
  · intro i _ h
    simp [create, packetListCreate] at h
  · intro i _ h
    simp only [create, hsock] at h
    exact absurd rfl h

variable {s t : Session}

theorem Registered.congr {pl pl' : PacketList}
    (h : pl.SameSlots pl') {r : RadiusPacket} (hr : Registered pl r) :
    Registered pl' r := by
  obtain ⟨⟨i, hi, hm, hfd, hip, hport⟩, hrest⟩ := hr
  refine ⟨⟨i, hi, ?_, ?_, ?_, ?_⟩, hrest⟩
  · rw [h.mask]
    exact hm
  · rw [h.sockfd]
    exact hfd
  · rw [h.ipaddr]
    exact hip
  · rw [h.port]
    exact hport

/-- The slot of a held request. -/
theorem Sound.slot (h : s.Sound) {r : RadiusPacket} (hr : r ∈ s.held) :
    ∃ i, i < 32 ∧ s.pl.mask.getLsbD i = true
      ∧ (s.pl.socket i).sockfd = r.sockfd ∧ r.sockfd ≠ -1
      ∧ s.pl.socketFind r.sockfd = some i := by
  obtain ⟨⟨i, hi, hm, hfd, -, -⟩, -⟩ := h.registered r hr
  have hne := h.slots.used i hi hm
  have hfind := h.slots.socketFind_eq hi hne
  rw [hfd] at hne hfind
  exact ⟨i, hi, hm, hfd, hne, hfind⟩

/-- A list whose sockets, counters and table size are those of a sound
session is sound. -/
theorem Sound.congr {pl : PacketList} {listed : List RadiusPacket}
    (h : s.Sound) (hs : pl.sockets = s.pl.sockets) (hm : pl.mask = s.pl.mask)
    (hn : pl.numOutgoing = s.pl.numOutgoing)
    (ha : pl.allocId = s.pl.allocId) (hz : pl.dst2idHt.Sized) :
    Sound { s with pl := pl, listed := listed } := by
  have hsame : s.pl.SameSlots pl := .of_eq hs hm
  have hsock (i : Nat) : pl.socket i = s.pl.socket i := by
    unfold PacketList.socket
    rw [hs]
  refine ⟨hsame.slots h.slots, hz, ha.trans h.allocId,
    fun r hr => (h.registered r hr).congr hsame, ?_, hn.trans h.total⟩
  intro i hi
  simp only [hsock]
  exact h.count i hi

/-- The counters after the requests outstanding on one socket changed by
`d`. -/
theorem Sound.recount {pl pl' : PacketList}
    {held held' listed : List RadiusPacket}
    (h : Sound ⟨pl, held, listed⟩) {i : Nat} (hi : i < 32) {d : Int}
    (hsame : pl.SameSlots pl')
    (hsock : ∀ k, (pl'.socket k).numOutgoing = (pl.socket k).numOutgoing
      + if k = i then d else 0)
    (hout : ∀ fd, (outstanding held' fd : Int) = outstanding held fd
      + if fd = (pl.socket i).sockfd then d else 0)
    (k : Nat) (hk : k < 32) (hne : (pl'.socket k).sockfd ≠ -1) :
    (pl'.socket k).numOutgoing
      = outstanding held' (pl'.socket k).sockfd := by
  rw [hsame.sockfd] at hne ⊢
  rw [hsock, hout, h.count k hk hne]
  by_cases hki : k = i
  · rw [if_pos hki, hki, if_pos rfl]
  · rw [if_neg hki, if_neg]
    exact fun heq => hki (h.slots.distinct k i hk hi hne heq)

theorem socketAdd_sound (h : s.Sound) {sockfd : Int} {src : Sockaddr}
    (ha : s.Allowed (.socketAdd sockfd src)) :
    Sound { s with pl := (s.pl.socketAdd sockfd (some src)).1 } := by
  obtain ⟨hne, hnew⟩ := ha
  rcases s.pl.socketAdd_cases sockfd (some src) with heq
    | ⟨i, ps, mask, hi, hfree, heq, hfd, hoff, hnum, hmask⟩
  · rw [heq]
    exact h
  rw [heq]
  have hlen := h.slots.len
  have hbit : s.pl.mask.getLsbD i = false := by
    by_contra hb
    exact h.slots.used i hi (by simpa using hb) hfree
  have hsock (k : Nat) : PacketList.socket
      { s.pl.setSocket i ps with mask := mask } k
        = if k = i then ps else s.pl.socket k :=
    PacketList.socket_setSocket (by omega) ps k
  have hmbit {k : Nat} (hk : k < 32) (hki : k ≠ i) :
      mask.getLsbD k = s.pl.mask.getLsbD k := by
    rcases hmask with ⟨-, hm⟩ | ⟨-, -, hm⟩
    · rw [hm]
    · rw [hm, BitVec.getLsbD_or, oneBit_getLsbD i hk]
      simp [hki]
  have hmi : mask.getLsbD i = true ↔ ps.ipaddr.Known := by
    rcases hmask with ⟨hk, hm⟩ | ⟨hk, -, hm⟩
    · rw [hm, hbit]
      simp [hk]
    · rw [hm, BitVec.getLsbD_or, oneBit_getLsbD i hi]
      simp [hk]
  refine ⟨⟨?_, ?_, ?_, ?_, ?_, ?_⟩, h.sized, h.allocId, ?_, ?_, h.total⟩
  · simpa [PacketList.setSocket] using hlen
  · intro a b ha hb
    simp only [hsock]
    by_cases hai : a = i
    · by_cases hbi : b = i
      · exact fun _ _ => hai.trans hbi.symm
      · rw [if_pos hai, if_neg hbi, hfd]
        exact fun _ heq => absurd heq.symm (hnew b hb)
    · rw [if_neg hai]
      by_cases hbi : b = i
      · rw [if_pos hbi, hfd]
        exact fun _ heq => absurd heq (hnew a ha)
      · rw [if_neg hbi]
        exact h.slots.distinct a b ha hb
  · intro a ha
    simp only [hsock]
    by_cases hai : a = i
    · rw [if_pos hai, hoff, hai]
      exact fun _ => rfl
    · rw [if_neg hai]
      exact h.slots.offset a ha
  · intro a ha
    simp only [hsock]
    by_cases hai : a = i
    · rw [if_pos hai, hfd]
      exact fun _ => hne
    · rw [if_neg hai, hmbit ha hai]
      exact h.slots.used a ha
  · intro a ha
    simp only [hsock]
    by_cases hai : a = i
    · rw [if_pos hai, hai]
      exact fun _ hk => hmi.mpr hk
    · rw [if_neg hai, hmbit ha hai]
      exact h.slots.masked a ha
  · intro a ha
    simp only [hsock]
    by_cases hai : a = i
    · rw [if_pos hai, hai, hmi]
      intro hk
      refine ⟨hk, ?_⟩
      rcases hmask with ⟨hnk, -⟩ | ⟨-, hany, -⟩
      · exact absurd hk hnk
      · exact hany
    · rw [if_neg hai, hmbit ha hai]
      exact h.slots.bound a ha
  · intro r hr
    obtain ⟨⟨j, hj, hm, hjfd, hip, hport⟩, hrest⟩ := h.registered r hr
    have hji : j ≠ i := fun heq => by
      rw [heq, hbit] at hm
      cases hm
    refine ⟨⟨j, hj, ?_, ?_, ?_, ?_⟩, hrest⟩
    · exact (hmbit hj hji).trans hm
    · rw [hsock, if_neg hji]
      exact hjfd
    · rw [hsock, if_neg hji]
      exact hip
    · rw [hsock, if_neg hji]
      exact hport
  · intro a ha
    simp only [hsock]
    by_cases hai : a = i
    · rw [if_pos hai, hnum, hfd]
      intro _
      -- nobody was sent anything on a descriptor that is new
      unfold outstanding
      rw [List.countP_eq_zero.mpr]
      · rfl
      · intro r hr heq
        obtain ⟨j, hj, -, hjfd, -, -⟩ := h.slot hr
        exact hnew j hj (hjfd.trans (by simpa using heq))
    · rw [if_neg hai]
      exact h.count a ha

theorem socketRemove_sound (h : s.Sound) {sockfd : Int}
    (ha : s.Allowed (.socketRemove sockfd)) :
    Sound { s with pl := (s.pl.socketRemove sockfd).1 } := by
  have hne : sockfd ≠ -1 := ha
  rcases s.pl.socketRemove_cases sockfd with heq
    | ⟨i, hi, hfd, hnum, heq⟩
  · rw [heq]
    exact h
  rw [heq]
  have hlen := h.slots.len
  have hine : (s.pl.socket i).sockfd ≠ -1 := by rw [hfd]; exact hne
  have hoff := h.slots.offset i hi hine
  rw [hoff]
  have hsock (k : Nat) : PacketList.socket
      { s.pl.setSocket i { s.pl.socket i with sockfd := -1 } with
        mask := s.pl.mask &&& ~~~((1 : BitVec 32) <<< i) } k
      = if k = i then { s.pl.socket i with sockfd := -1 }
        else s.pl.socket k :=
    PacketList.socket_setSocket (by omega) _ k
  have hmbit {k : Nat} (hk : k < 32) :
      (s.pl.mask &&& ~~~((1 : BitVec 32) <<< i)).getLsbD k
        = (s.pl.mask.getLsbD k && !decide (k = i)) := by
    rw [BitVec.getLsbD_and, BitVec.getLsbD_not, oneBit_getLsbD i hk]
    simp [hk]
  have hzero := h.count i hi hine
  refine ⟨⟨?_, ?_, ?_, ?_, ?_, ?_⟩, h.sized, h.allocId, ?_, ?_, h.total⟩
  · simpa [PacketList.setSocket] using hlen
  · intro a b ha hb
    simp only [hsock]
    by_cases hai : a = i
    · rw [if_pos hai]
      exact fun h => absurd rfl h
    · rw [if_neg hai]
      by_cases hbi : b = i
      · rw [if_pos hbi]
        exact fun hne heq => absurd heq hne
      · rw [if_neg hbi]
        exact h.slots.distinct a b ha hb
  · intro a ha
    simp only [hsock]
    by_cases hai : a = i
    · rw [if_pos hai]
      exact fun h => absurd rfl h
    · rw [if_neg hai]
      exact h.slots.offset a ha
  · intro a ha
    simp only [hsock, hmbit ha]
    by_cases hai : a = i
    · simp [hai]
    · rw [if_neg hai]
      simpa [hai] using h.slots.used a ha
  · intro a ha
    simp only [hsock, hmbit ha]
    by_cases hai : a = i
    · rw [if_pos hai]
      exact fun h => absurd rfl h
    · rw [if_neg hai]
      simpa [hai] using h.slots.masked a ha
  · intro a ha
    simp only [hsock, hmbit ha]
    by_cases hai : a = i
    · simp [hai]
    · rw [if_neg hai]
      simpa [hai] using h.slots.bound a ha
  · intro r hr
    obtain ⟨⟨j, hj, hm, hjfd, hip, hport⟩, hrest⟩ := h.registered r hr
    have hji : j ≠ i := by
      rintro rfl
      rw [hnum] at hzero
      have hpos : 0 < outstanding s.held (s.pl.socket j).sockfd :=
        List.countP_pos_iff.mpr ⟨r, hr, by simp [hjfd]⟩
      omega
    refine ⟨⟨j, hj, ?_, ?_, ?_, ?_⟩, hrest⟩
    · rw [hmbit hj]
      simp [hm, hji]
    · rw [hsock, if_neg hji]
      exact hjfd
    · rw [hsock, if_neg hji]
      exact hip
    · rw [hsock, if_neg hji]
      exact hport
  · intro a ha
    simp only [hsock]
    by_cases hai : a = i
    · rw [if_pos hai]
      exact fun h => absurd rfl h
    · rw [if_neg hai]
      exact h.count a ha

theorem idAlloc_sound (h : s.Sound) {request : RadiusPacket}
    {start : Nat} (ha : s.Allowed (.idAlloc request start))
    (hs : s.apply (.idAlloc request start) = some t) : t.Sound := by
  have hstart : start < 256 := ha
  have hsized := PacketList.dst2id_sized h.sized request.dstIpaddr
    request.dstPort
  obtain ⟨f1, f2, -, f4, f5⟩ := PacketList.dst2id_frame s.pl
    request.dstIpaddr request.dstPort
  have hpl : Sound { s with pl := (s.pl.dst2id request.dstIpaddr
      request.dstPort).1 } := h.congr f1 f2 f4 f5 hsized
  rw [apply] at hs
  rcases s.pl.idAlloc_cases request start with ⟨r, e, heq | heq⟩
    | ⟨pd, id, i, hspec, -, heq, hid, hi, huse, hmask, -⟩
  · rw [heq] at hs
    cases hs
    exact h
  · rw [heq] at hs
    cases hs
    exact hpl
  rw [heq] at hs
  cases hs
  obtain ⟨pl, hpleq⟩ : ∃ pl,
      pl = (s.pl.dst2id request.dstIpaddr request.dstPort).1 := ⟨_, rfl⟩
  rw [← hpleq] at hpl hmask f1 ⊢
  have hsi : s.pl.socket i = pl.socket i := by
    unfold PacketList.socket
    rw [f1]
  rw [hsi]
  have hlen : i < pl.sockets.length := by rw [hpl.slots.len]; exact hi
  have hsame := PacketList.allocated_sameSlots hlen pd id
  have hfd := hpl.slots.used i hi hmask
  refine ⟨hsame.slots hpl.slots, hpl.sized, hpl.allocId, ?_, ?_, ?_⟩
  · intro r hr
    refine Registered.congr hsame ?_
    rcases List.mem_cons.mp hr with rfl | hr
    · refine ⟨⟨i, hi, hmask, rfl, rfl, rfl⟩, ?_, ?_, ?_⟩
      · change (PacketList.withSource request).dstIpaddr.Known
        rw [(PacketList.withSource_dst request).1]
        exact PacketList.frInaddrAny_known hspec.2.2.1.ge
      · exact Int.natCast_nonneg id
      · exact Int.ofNat_lt.mpr (hid hstart)
    · exact hpl.registered r hr
  · refine hpl.recount hi (d := 1) hsame (fun k => ?_) (fun fd => ?_)
    · have := PacketList.socket_setSocket hlen
        { pl.socket i with
          numOutgoing := (pl.socket i).numOutgoing + 1 } k
      change ((pl.setSocket i _).socket k).numOutgoing = _
      rw [this]
      by_cases hk : k = i
      · rw [if_pos hk, if_pos hk, hk]
      · rw [if_neg hk, if_neg hk, add_zero]
    · unfold outstanding
      rw [List.countP_cons]
      change ((_ + if ((pl.socket i).sockfd == fd) = true then 1 else 0
        : Nat) : Int) = _
      by_cases hfd' : fd = (pl.socket i).sockfd
      · simp [hfd']
      · simp [hfd', Ne.symm hfd']
  · change pl.numOutgoing + 1 = _
    rw [List.length_cons, hpl.total]
    push_cast
    rfl

theorem insert_sound (h : s.Sound) {request : RadiusPacket}
    (hs : s.apply (.insert request) = some t) : t.Sound := by
  obtain ⟨p, hp, rfl⟩ := Option.map_eq_some_iff.mp hs
  obtain ⟨q, -, hq⟩ := Option.bind_eq_some_iff.mp hp
  cases hq
  exact h.congr rfl rfl rfl rfl h.sized

theorem yank_sound (h : s.Sound) {request : RadiusPacket}
    (hs : s.apply (.yank request) = some t) : t.Sound := by
  rw [apply, PacketList.yank] at hs
  cases hf : rbtreeFinddata s.pl.tree request with
  | none =>
      rw [hf] at hs
      cases hs
      exact h
  | some packet =>
      rw [hf] at hs
      cases hs
      exact h.congr rfl rfl rfl rfl h.sized

theorem idFree_sound (h : s.Sound) {request : RadiusPacket}
    (ha : s.Allowed (.idFree request))
    (hs : s.apply (.idFree request) = some t) : t.Sound := by
  have hmem : request ∈ s.held := ha
  have hsized := HashTable.finddata_sized dst2idOps h.sized
    { dstIpaddr := request.dstIpaddr, dstPort := request.dstPort }
  have hpl : Sound { s with pl := s.pl.lookedUp request } :=
    h.congr rfl rfl rfl rfl hsized
  rw [apply] at hs
  rcases s.pl.idFree_cases request with heq | ⟨heq, -⟩
    | ⟨i, pd, hfind, -, heq⟩
  · rw [heq] at hs
    cases hs
    exact h
  · rw [heq] at hs
    cases hs
    exact hpl
  rw [heq] at hs
  cases hs
  obtain ⟨hi, hfd⟩ := PacketList.socketFind_some hfind
  obtain ⟨pl, hpleq⟩ : ∃ pl, pl = s.pl.lookedUp request := ⟨_, rfl⟩
  have hsi : s.pl.socket i = pl.socket i := by
    rw [hpleq]
    rfl
  rw [hsi] at hfd
  rw [← hpleq] at hpl ⊢
  have hlen : i < pl.sockets.length := by rw [hpl.slots.len]; exact hi
  have hsame := PacketList.released_sameSlots hlen pd request.id.toNat
  refine ⟨hsame.slots hpl.slots, hpl.sized, hpl.allocId, ?_, ?_, ?_⟩
  · intro r hr
    exact (hpl.registered r (List.mem_of_mem_erase hr)).congr hsame
  · refine hpl.recount hi (d := -1) hsame (fun k => ?_) (fun fd => ?_)
    · have := PacketList.socket_setSocket hlen
        { pl.socket i with
          numOutgoing := (pl.socket i).numOutgoing - 1 } k
      change ((pl.setSocket i _).socket k).numOutgoing = _
      rw [this]
      by_cases hk : k = i
      · rw [if_pos hk, if_pos hk, hk]
        rfl
      · rw [if_neg hk, if_neg hk, add_zero]
    · unfold outstanding
      rw [hfd, List.countP_erase]
      by_cases hfd' : fd = request.sockfd
      · have hpos : 0 < s.held.countP fun r => r.sockfd == fd :=
          List.countP_pos_iff.mpr ⟨request, hmem, by simp [hfd']⟩
        rw [if_pos hfd', if_pos ⟨hmem, by simp [hfd']⟩]
        omega
      · rw [if_neg hfd', if_neg (fun h => hfd' (beq_iff_eq.mp h.2).symm)]
        simp
  · change pl.numOutgoing - 1 = _
    rw [List.length_erase_of_mem hmem, hpl.total]
    have := List.length_pos_of_mem hmem
    change (s.held.length : Int) - 1 = _
    omega

theorem step_sound (h : s.Sound) (hs : s.Step t) : t.Sound := by
  obtain ⟨op, ha, hop⟩ := hs
  cases op with
  | socketAdd sockfd src =>
      cases hop
      exact socketAdd_sound h ha
  | socketRemove sockfd =>
      cases hop
      exact socketRemove_sound h ha
  | idAlloc request start => exact idAlloc_sound h ha hop
  | insert request => exact insert_sound h hop
  | yank request => exact yank_sound h hop
  | idFree request => exact idFree_sound h ha hop

theorem reaches_sound (h : Reaches Step create s) : s.Sound :=
  h.invariant _ create_sound fun _ _ hs hn => step_sound hs hn

end Session

end WinRadius
