/-
What a call of `fr_packet_list_socket_add` that returns 0 leaves behind.

The slot is taken before the address of the socket is asked for, and is not
given back: where the call fails behind that, there is one free slot less
and one descriptor more (`freeSlots_taken`).
-/
import WinRadius.Proofs.PacketRun

namespace WinRadius

open Lib

namespace PacketList

variable {pl pl' : PacketList} {sockfd : Int} {src : Option Sockaddr}

/-- How many slots are free. -/
def freeSlots (pl : PacketList) : Nat :=
  pl.sockets.countP (·.sockfd == -1)

/-- A slot has the descriptor. -/
def HasDescriptor (pl : PacketList) (fd : Int) : Prop :=
  fd ≠ -1 ∧ ∃ ps ∈ pl.sockets, ps.sockfd = fd

/-- The slots that are free, the mask and the descriptors are the same. -/
structure SameSockets (pl pl' : PacketList) : Prop where
  free : pl'.freeSlots = pl.freeSlots
  mask : pl'.mask = pl.mask
  registered : ∀ fd, pl'.HasDescriptor fd ↔ pl.HasDescriptor fd

/-- No slot is free, the descriptor is the one of a free slot, or the
socket has an address that is understood. -/
def AddChecked (pl : PacketList) (sockfd : Int) (src : Option Sockaddr) :
    Prop :=
  (∀ i < maxSockets, (pl.socket i).sockfd ≠ -1) ∨ sockfd = -1
    ∨ (src.bind frSockaddr2ipaddr).isSome

/-- A call that fails under the condition. -/
def FailedAdd (pl pl' : PacketList) : Prop :=
  ∃ sockfd src, pl.AddChecked sockfd src
    ∧ pl.socketAdd sockfd src = (pl', false)

theorem SameSockets.refl (pl : PacketList) : SameSockets pl pl :=
  ⟨rfl, rfl, fun _ => Iff.rfl⟩

theorem SameSockets.trans {pl'' : PacketList} (h : SameSockets pl pl')
    (h' : SameSockets pl' pl'') : SameSockets pl pl'' :=
  ⟨h'.free.trans h.free, h'.mask.trans h.mask,
    fun fd => (h'.registered fd).trans (h.registered fd)⟩

theorem socket_getElem {i : Nat} (hi : i < pl.sockets.length) :
    pl.sockets[i] = pl.socket i := by
  simp [socket, hi]

/-- A free slot that is written. -/
theorem freeSlots_setSocket {i : Nat} (hi : i < pl.sockets.length)
    (hfree : (pl.socket i).sockfd = -1) (ps : PacketSocket) :
    (pl.setSocket i ps).freeSlots + 1
      = pl.freeSlots + if ps.sockfd = -1 then 1 else 0 := by
  have hget : (pl.sockets[i]).sockfd = -1 := by
    rw [socket_getElem hi, hfree]
  have hpos : 0 < pl.sockets.countP (·.sockfd == -1) := by
    rw [List.countP_pos_iff]
    exact ⟨_, List.getElem_mem hi, by rw [hget]; rfl⟩
  unfold freeSlots setSocket
  rw [List.countP_set hi, hget]
  simp only [beq_self_eq_true, if_true, beq_iff_eq]
  omega

/-- The three ways of a call. -/
theorem socketAdd_ways (hlen : pl.sockets.length = maxSockets)
    (sockfd : Int) (src : Option Sockaddr) :
    ((∀ i < maxSockets, (pl.socket i).sockfd ≠ -1)
        ∧ pl.socketAdd sockfd src = (pl, false))
      ∨ ∃ i, i < pl.sockets.length ∧ (pl.socket i).sockfd = -1
        ∧ ((src.bind frSockaddr2ipaddr).isSome
            ∧ (pl.socketAdd sockfd src).2 = true
          ∨ src.bind frSockaddr2ipaddr = none
            ∧ pl.socketAdd sockfd src
              = (pl.setSocket i { sockfd := sockfd, offset := i }, false)) := by
  unfold socketAdd
  split
  · next hnone =>
      refine Or.inl ⟨fun i hi hfree => ?_, rfl⟩
      have := ringFind_none (sock2offset_lt sockfd) hnone hi
      simp [hfree] at this
  · next i hi =>
      have hlt := ringFind_lt (sock2offset_lt sockfd) hi
      have hfree : (pl.socket i).sockfd = -1 := by
        simpa using ringFind_some hi
      refine Or.inr ⟨i, by rw [hlen]; exact hlt, hfree, ?_⟩
      simp only
      cases hsrc : src.bind frSockaddr2ipaddr with
      | none => exact Or.inr ⟨rfl, rfl⟩
      | some ip => exact Or.inl ⟨rfl, rfl⟩

/-- A slot that is written with the descriptor of a free one. -/
theorem sameSockets_unset {i : Nat} (hi : i < pl.sockets.length)
    (hfree : (pl.socket i).sockfd = -1) {ps : PacketSocket}
    (hps : ps.sockfd = -1) : SameSockets pl (pl.setSocket i ps) := by
  have hcount := freeSlots_setSocket hi hfree ps
  rw [if_pos hps] at hcount
  refine ⟨Nat.add_right_cancel hcount, rfl, fun fd => ?_⟩
  unfold HasDescriptor
  apply and_congr_right
  intro hfd
  constructor
  · rintro ⟨qs, hqs, rfl⟩
    rcases List.mem_or_eq_of_mem_set hqs with hqs | rfl
    · exact ⟨qs, hqs, rfl⟩
    · exact absurd hps hfd
  · rintro ⟨qs, hqs, rfl⟩
    obtain ⟨k, hk, rfl⟩ := List.mem_iff_getElem.mp hqs
    have hki : i ≠ k := by
      rintro rfl
      rw [socket_getElem hi] at hfd
      exact hfd hfree
    refine ⟨pl.sockets[k], ?_, rfl⟩
    unfold setSocket
    rw [List.mem_iff_getElem]
    exact ⟨k, by rw [List.length_set]; exact hk, by
      rw [List.getElem_set_ne hki]⟩

/-- Under the condition a call that fails leaves the sockets as they
are. -/
theorem failed_sameSockets (hlen : pl.sockets.length = maxSockets)
    (hcond : pl.AddChecked sockfd src)
    (hfail : (pl.socketAdd sockfd src).2 = false) :
    SameSockets pl (pl.socketAdd sockfd src).1 := by
  rcases socketAdd_ways hlen sockfd src with
    ⟨-, heq⟩ | ⟨i, hi, hfree, ⟨-, hok⟩ | ⟨hnone, heq⟩⟩
  · rw [heq]
    exact .refl pl
  · rw [hok] at hfail
    cases hfail
  · rw [heq]
    rcases hcond with hfull | rfl | hsome
    · exact absurd hfree (hfull i (hlen ▸ hi))
    · exact sameSockets_unset hi hfree rfl
    · rw [hnone] at hsome
      cases hsome

/-- Otherwise it fails and takes a slot. -/
theorem freeSlots_taken (hlen : pl.sockets.length = maxSockets)
    (hcond : ¬pl.AddChecked sockfd src) :
    (pl.socketAdd sockfd src).2 = false
      ∧ (pl.socketAdd sockfd src).1.freeSlots + 1 = pl.freeSlots
      ∧ (pl.socketAdd sockfd src).1.HasDescriptor sockfd := by
  unfold AddChecked at hcond
  rw [not_or, not_or] at hcond
  obtain ⟨hroom, hfd, hsrc⟩ := hcond
  rcases socketAdd_ways hlen sockfd src with
    ⟨hfull, -⟩ | ⟨i, hi, hfree, ⟨hsome, -⟩ | ⟨-, heq⟩⟩
  · exact absurd hfull hroom
  · exact absurd hsome hsrc
  · rw [heq]
    have hcount := freeSlots_setSocket hi hfree { sockfd, offset := i }
    rw [if_neg hfd] at hcount
    refine ⟨rfl, hcount, hfd, { sockfd, offset := i }, ?_, rfl⟩
    exact List.mem_set hi _

theorem socketAdd_length (pl : PacketList) (sockfd : Int)
    (src : Option Sockaddr) :
    (pl.socketAdd sockfd src).1.sockets.length = pl.sockets.length := by
  rcases socketAdd_cases pl sockfd src with heq | ⟨_, _, _, _, _, heq, _⟩
  · rw [heq]
  · rw [heq]
    exact List.length_set

/-- A call that returns 0 leaves the free slots, the mask and the
descriptors as they were just where no slot was free, the descriptor is -1,
or the socket has an address that is understood, so that it does not fail
behind the choice of the slot. However many calls fail so, all slots that
were free still are. -/
theorem failed_add_restores_iff (hlen : pl.sockets.length = maxSockets)
    (sockfd : Int) (src : Option Sockaddr) :
    (((pl.socketAdd sockfd src).2 = false →
        SameSockets pl (pl.socketAdd sockfd src).1)
      ↔ pl.AddChecked sockfd src)
      ∧ ∀ pl', Reaches FailedAdd pl pl' → SameSockets pl pl' := by
  refine ⟨⟨fun h => ?_, failed_sameSockets hlen⟩, fun pl' hreach => ?_⟩
  · by_contra hcond
    obtain ⟨hfail, hcount, -⟩ := freeSlots_taken hlen hcond
    have hsame := (h hfail).free
    omega
  · have hrun := hreach.invariant
      (fun t => SameSockets pl t ∧ t.sockets.length = maxSockets)
      ⟨.refl pl, hlen⟩
    refine (hrun ?_).1
    rintro t u ⟨hsame, hlent⟩ ⟨fd, sa, hcond, hadd⟩
    have hstep := failed_sameSockets hlent hcond (congrArg Prod.snd hadd)
    have hlenu := socketAdd_length t fd sa
    rw [hadd] at hstep hlenu
    exact ⟨hsame.trans hstep, hlenu.trans hlent⟩

/-- A list with a socket in each of its slots. -/
def fullList : PacketList :=
  (List.range 32).foldl (fun pl fd => (pl.socketAdd (fd + 3) (some
    { ssFamily := afInet, salen := 16, addr := [0, 0, 0, 0]
      port := 1814 })).1) (packetListCreate true)

/-- A full list refuses one more socket and stays as it is, however often;
a new list that refuses one does not. -/
theorem failed_add_restores_iff_full :
    (fullList.socketAdd 40 none).2 = false
      ∧ SameSockets fullList (fullList.socketAdd 40 none).1
      ∧ (∀ pl, Reaches FailedAdd fullList pl → SameSockets fullList pl)
      ∧ ((packetListCreate true).socketAdd 3 none).2 = false
      ∧ ¬SameSockets (packetListCreate true)
        ((packetListCreate true).socketAdd 3 none).1 := by
  obtain ⟨hfull, hruns⟩ :=
    @failed_add_restores_iff fullList (by decide +kernel) 40 none
  obtain ⟨hnew, -⟩ :=
    @failed_add_restores_iff (packetListCreate true) rfl 3 none
  refine ⟨by decide +kernel, hfull.mpr (.inl ?_) (by decide +kernel), hruns,
    by decide, fun hsame => ?_⟩
  · decide +kernel
  rcases hnew.mp fun _ => hsame with hall | hfd | hsome
  · exact absurd (hall 0 (by decide)) (by decide)
  · exact absurd hfd (by decide)
  · cases hsome

theorem exists_free (h : 0 < pl.freeSlots) :
    ∃ i < pl.sockets.length, (pl.socket i).sockfd = -1 := by
  obtain ⟨ps, hps, hfree⟩ := List.countP_pos_iff.mp h
  obtain ⟨i, hi, rfl⟩ := List.mem_iff_getElem.mp hps
  rw [socket_getElem hi] at hfree
  exact ⟨i, hi, by simpa using hfree⟩

/-- A new list, after calls for `n` sockets that have gone away. -/
def goneAway : Nat → PacketList
  | 0 => packetListCreate true
  | n + 1 => ((goneAway n).socketAdd (n + 3) none).1

/-- Each of the calls takes a slot. -/
theorem goneAway_freeSlots {n : Nat} (hn : n ≤ maxSockets) :
    (goneAway n).sockets.length = maxSockets
      ∧ (goneAway n).freeSlots + n = maxSockets := by
  induction n with
  | zero => decide
  | succ n ih =>
      obtain ⟨hlen, hfree⟩ := ih (by omega)
      obtain ⟨i, hi, hslot⟩ :=
        exists_free (show 0 < (goneAway n).freeSlots by omega)
      have hcond : ¬(goneAway n).AddChecked (n + 3) none := by
        rintro (hfull | hfd | hsome)
        · exact hfull i (hlen ▸ hi) hslot
        · omega
        · cases hsome
      obtain ⟨-, htaken, -⟩ := freeSlots_taken hlen hcond
      rw [goneAway, socketAdd_length]
      exact ⟨hlen, by omega⟩

/-- A socket that has gone away takes a slot of a new list, and 32 of them
take all. -/
theorem failed_add_takes :
    (¬∀ (pl : PacketList) (sockfd : Int) (src : Option Sockaddr),
        pl.sockets.length = maxSockets →
        (pl.socketAdd sockfd src).2 = false →
        SameSockets pl (pl.socketAdd sockfd src).1)
      ∧ (goneAway maxSockets).freeSlots = 0 := by
  refine ⟨fun hall => ?_, Nat.add_right_cancel
    (goneAway_freeSlots (Nat.le_refl maxSockets)).2⟩
  have hsame := (hall (packetListCreate true) 3 none rfl rfl).free
  exact absurd hsame (by decide)

end PacketList

end WinRadius
