/-
The allocation of ids.

# The words

Each destination has 256 words, one for each id, with a bit for each
socket. An allocation looks for an id whose word is not the mask of all
sockets, and then for a socket whose bit is clear.

# Allocating

The two searches are not one: the first id whose word has a clear bit need
not have one for a socket that the request may use, and then the
allocation gives up without looking at the other ids
(`idAlloc_complete_iff`).
-/
import WinRadius.Proofs.PacketRun

namespace WinRadius

open Lib

namespace PacketList

variable {pl : PacketList}

-- ======== the words

/-- A request's destination as a key of the table. -/
def dstOf (ip : FrIpaddr) (port : Nat) : Dst2Id :=
  { dstIpaddr := ip, dstPort := port }

/-- The destination's word for an id: all clear if there is no entry. -/
def wordOf (pl : PacketList) (ip : FrIpaddr) (port id : Nat) :
    BitVec 32 :=
  match (pl.dst2idHt.finddata dst2idOps (dstOf ip port)).2 with
  | none => 0
  | some pd => pl.idWord pd id

/-- Which array an entry has is no part of the key. -/
theorem finddata_id (ht : HashTable Dst2Id) (pd : Dst2Id) (n : Nat) :
    ht.finddata dst2idOps { pd with id := n }
      = ht.finddata dst2idOps pd :=
  HashTable.finddata_congr rfl fun _ => rfl

/-- The entry that is made for a destination. -/
def newEntry (pl : PacketList) (ip : FrIpaddr) (port : Nat) : Dst2Id :=
  { dstOf ip port with id := pl.ids.length }

theorem dst2id_found {ip : FrIpaddr} {port : Nat} {pd : Dst2Id}
    (h : (pl.dst2idHt.finddata dst2idOps (dstOf ip port)).2 = some pd) :
    pl.dst2id ip port = ({ pl with
      dst2idHt := (pl.dst2idHt.finddata dst2idOps (dstOf ip port)).1 },
      some pd) := by
  unfold dstOf at h ⊢
  unfold dst2id
  simp only [h]

theorem dst2id_new {ip : FrIpaddr} {port : Nat} {ht : HashTable Dst2Id}
    (h : pl.dst2idHt.finddata dst2idOps (dstOf ip port) = (ht, none))
    (hins : (ht.insert dst2idOps (pl.newEntry ip port)).2 = true) :
    pl.dst2id ip port = ({ pl with
      dst2idHt := (ht.insert dst2idOps (pl.newEntry ip port)).1
      ids := pl.ids ++ [List.replicate 256 0] },
      some (pl.newEntry ip port)) := by
  unfold newEntry dstOf at hins ⊢
  unfold dstOf at h
  unfold dst2id
  simp only [h, hins, if_true]

theorem idWord_append (pl : PacketList) (words : List (BitVec 32))
    {pd : Dst2Id} (h : pd.id < pl.ids.length) (id : Nat)
    (ht : HashTable Dst2Id) :
    PacketList.idWord { pl with dst2idHt := ht, ids := pl.ids ++ [words] }
      pd id = pl.idWord pd id := by
  simp only [idWord, List.getD_eq_getElem?_getD,
    List.getElem?_append_left h]

theorem idWord_newEntry (pl : PacketList) (ip : FrIpaddr) (port id : Nat)
    (ht : HashTable Dst2Id) :
    PacketList.idWord
      { pl with
        dst2idHt := ht
        ids := pl.ids ++ [List.replicate 256 0] }
      (pl.newEntry ip port) id = 0 := by
  simp only [idWord, newEntry, List.getD_eq_getElem?_getD,
    List.getElem?_append_right (le_refl _), Nat.sub_self,
    List.getElem?_cons_zero, Option.getD_some, List.getElem?_replicate]
  split
  · rfl
  · rfl

/-- Looking a destination up never fails, and its words are what they
were. -/
theorem dst2id_some (h : pl.dst2idHt.Sized) (ip : FrIpaddr) (port : Nat) :
    ∃ pd, (pl.dst2id ip port).2 = some pd
      ∧ ∀ id, (pl.dst2id ip port).1.idWord pd id
        = pl.wordOf ip port id := by
  unfold wordOf
  obtain ⟨ht, found, hf⟩ : ∃ ht found,
      pl.dst2idHt.finddata dst2idOps (dstOf ip port) = (ht, found) :=
    ⟨_, _, rfl⟩
  rw [hf]
  cases found with
  | some pd =>
      rw [dst2id_found (congrArg Prod.snd hf)]
      exact ⟨pd, rfl, fun _ => rfl⟩
  | none =>
      have hsame := finddata_id pl.dst2idHt (dstOf ip port) pl.ids.length
      rw [hf] at hsame
      have hins := HashTable.insert_of_finddata
        (d := pl.newEntry ip port) h (congrArg Prod.snd hsame)
      rw [newEntry, hsame] at hins
      rw [dst2id_new hf hins]
      exact ⟨_, rfl, fun id => idWord_newEntry pl ip port id _⟩

-- ======== sockets

/-- "don't care": no source, or the address that stands for any. -/
def AnySource (request : RadiusPacket) : Prop :=
  request.srcIpaddr.af = afUnspec ∨ frInaddrAny request.srcIpaddr = 1

/-- The sockets that a request may use: those of the destination's family,
and, where it asks for a source, those bound to it. -/
def Eligible (pl : PacketList) (request : RadiusPacket) (i : Nat) : Prop :=
  i < 32 ∧ (pl.socket i).sockfd ≠ -1
    ∧ (pl.socket i).ipaddr.af = request.dstIpaddr.af
    ∧ (AnySource request ∨ (pl.socket i).inaddrAny = false
      ∧ SameAddr request.srcIpaddr (pl.socket i).ipaddr)

instance (pl : PacketList) (request : RadiusPacket) (i : Nat) :
    Decidable (pl.Eligible request i) :=
  inferInstanceAs (Decidable (_ ∧ _ ∧ _ ∧ ((_ ∨ _) ∨ _ ∧ _)))

theorem withSource_src {request : RadiusPacket}
    (h : request.srcIpaddr.af ≠ afUnspec) :
    withSource request = request := by
  unfold withSource
  rw [if_neg h]

theorem frInaddrAny_withSource (request : RadiusPacket)
    (hdst : request.dstIpaddr.Known) :
    AnySource request ↔ frInaddrAny (withSource request).srcIpaddr = 1 := by
  unfold AnySource
  by_cases h : request.srcIpaddr.af = afUnspec
  · simp only [h, true_or, true_iff]
    unfold withSource
    rw [if_pos h]
    rcases hdst with hd | hd
    · simp only [hd]
      rfl
    · simp only [hd]
      rfl
  · rw [withSource_src h]
    simp [h]

theorem frInaddrAny_cases {ip : FrIpaddr} (h : ip.Known) :
    frInaddrAny ip = 0 ∨ frInaddrAny ip = 1 := by
  unfold FrIpaddr.Known at h
  rw [frInaddrAny, if_pos h]
  split
  · exact Or.inr rfl
  · exact Or.inl rfl

/-- A request with an eligible socket passes the check of its source. -/
theorem Eligible.specified {request : RadiusPacket} {i : Nat}
    (h : pl.Eligible request i) (halloc : pl.allocId = true)
    (hport : request.dstPort ≠ 0)
    (hdst : frInaddrAny request.dstIpaddr = 0) :
    pl.Specified request := by
  have hknown := frInaddrAny_known hdst.ge
  refine ⟨halloc, hport, hdst, ?_⟩
  obtain ⟨-, -, haf, hany | ⟨-, hsame⟩⟩ := h
  · rw [frInaddrAny_withSource request hknown] at hany
    omega
  · have hk : request.srcIpaddr.Known := by
      rw [hsame.known]
      unfold FrIpaddr.Known at hknown ⊢
      rw [haf]
      exact hknown
    have hne : request.srcIpaddr.af ≠ afUnspec := by
      rcases hk with h | h
      · rw [h]
        decide
      · rw [h]
        decide
    rw [withSource_src hne]
    rcases frInaddrAny_cases hk with h | h
    · omega
    · omega

/-- The rules of the scan, as the code has them. -/
theorem usable_iff {request : RadiusPacket} (h : pl.Specified request)
    {i : Nat} (hi : i < 32) :
    usable (pl.socket i) (withSource request)
        (frInaddrAny (withSource request).srcIpaddr != 0) = true
      ↔ pl.Eligible request i := by
  obtain ⟨-, -, hdst, hsrc⟩ := h
  have hknown := frInaddrAny_known hdst.ge
  have hsk := frInaddrAny_known hsrc
  have hany := frInaddrAny_withSource request hknown
  unfold usable Eligible
  rw [(withSource_dst request).1]
  simp only [Bool.and_eq_true, bne_iff_ne, ne_eq, beq_iff_eq,
    Bool.not_eq_true', hi, true_and, and_assoc]
  refine and_congr_right fun _ => and_congr_right fun haf => ?_
  rcases frInaddrAny_cases hsk with h0 | h1
  · -- a specific source
    have hnany : ¬AnySource request := by
      rw [hany]
      omega
    have hne : request.srcIpaddr.af ≠ afUnspec :=
      fun h => hnany (Or.inl h)
    rw [withSource_src hne] at h0 ⊢
    have hsock : (pl.socket i).ipaddr.Known := by
      unfold FrIpaddr.Known at hknown ⊢
      rw [haf]
      exact hknown
    have hcmp := (frIpaddrCmp_spec request.srcIpaddr
      (pl.socket i).ipaddr hsock).2
    rw [ipKey_eq_iff] at hcmp
    rw [← hcmp]
    cases hi : (pl.socket i).inaddrAny with
    | false => simp [h0, hnany]
    | true => simp [h0, hnany]
  · rw [← hany] at h1
    simp [h1, (hany.mp h1)]

end PacketList

namespace Session

open PacketList

variable {s : Session}

/-- Some id of the destination is free on a socket that the request may
use. -/
def CanAllocate (pl : PacketList) (request : RadiusPacket) : Prop :=
  ∃ id, id < 256 ∧ ∃ i, pl.Eligible request i
    ∧ (pl.wordOf request.dstIpaddr request.dstPort id).getLsbD i = false

/-- An allocation that has to succeed does so, whatever the random start,
if and only if each id with a clear bit has one for a socket that the
request may use. -/
theorem idAlloc_complete_iff (h : Reaches Step create s)
    (request : RadiusPacket) (hport : request.dstPort ≠ 0)
    (hdst : frInaddrAny request.dstIpaddr = 0)
    (hcan : CanAllocate s.pl request) :
    (∀ start, start < 256 →
        (s.pl.idAlloc request start).2.2 = .ok ())
      ↔ ∀ id, id < 256 →
        s.pl.wordOf request.dstIpaddr request.dstPort id ≠ s.pl.mask →
        ∃ i, s.pl.Eligible request i
          ∧ (s.pl.wordOf request.dstIpaddr request.dstPort id).getLsbD i
            = false := by
  have hsound := reaches_sound h
  obtain ⟨id₀, hid₀, i₀, helig, hclear⟩ := hcan
  have hspec := helig.specified hsound.allocId hport hdst
  have hmasked {i : Nat} (he : s.pl.Eligible request i) :
      s.pl.mask.getLsbD i = true := by
    refine hsound.slots.masked i he.1 he.2.1 ?_
    have hknown := frInaddrAny_known hdst.ge
    unfold FrIpaddr.Known at hknown ⊢
    rw [he.2.2.1]
    exact hknown
  obtain ⟨pd, hpd, hword⟩ := dst2id_some hsound.sized
    request.dstIpaddr request.dstPort
  obtain ⟨hsocks, hmask, -⟩ := dst2id_frame s.pl request.dstIpaddr
    request.dstPort
  obtain ⟨pl, hpl⟩ : ∃ pl,
      pl = (s.pl.dst2id request.dstIpaddr request.dstPort).1 := ⟨_, rfl⟩
  rw [← hpl] at hword hsocks hmask
  have hd : s.pl.dst2id request.dstIpaddr request.dstPort
      = (pl, some pd) := by rw [hpl, ← hpd]
  have hfree (id i : Nat) : pl.Free pd id i (withSource request)
      (frInaddrAny (withSource request).srcIpaddr != 0)
      ↔ s.pl.Eligible request i
        ∧ (s.pl.wordOf request.dstIpaddr request.dstPort id).getLsbD i
          = false := by
    have hsi : pl.socket i = s.pl.socket i := by
      unfold PacketList.socket
      rw [hsocks]
    unfold Free
    rw [hsi, hword, hmask]
    constructor
    · rintro ⟨hi, hu, -, hbit⟩
      exact ⟨(usable_iff hspec hi).mp hu, hbit⟩
    · rintro ⟨he, hbit⟩
      exact ⟨he.1, (usable_iff hspec he.1).mpr he, hmasked he, hbit⟩
  have halloc := idAlloc_searches hspec hd
  constructor
  · -- the search that starts at an id with a clear bit stays there
    intro hall id hid hne
    have hok := hall id hid
    rw [halloc, ringFind, if_pos (by simp [hword, hmask, hne])] at hok
    rcases pl.takeSocket_cases pd id (withSource request)
      (frInaddrAny (withSource request).srcIpaddr != 0)
      with ⟨e, he, -⟩ | ⟨i, -, hi⟩
    · simp only [he] at hok
      cases hok
    · exact ⟨i, (hfree id i).mp hi⟩
  · intro hcond start hstart
    rw [halloc]
    cases hr : ringFind 256 (fun id => pl.idWord pd id != pl.mask) 256
        start with
    | none =>
        -- the free id would have been found
        have hfull := ringFind_none hstart hr hid₀
        simp only [hword, hmask, bne_eq_false_iff_eq] at hfull
        rw [hfull, hmasked helig] at hclear
        cases hclear
    | some id =>
        have hne := ringFind_some hr
        simp only [hword, hmask, bne_iff_ne, ne_eq] at hne
        obtain ⟨i, hi⟩ := hcond id (ringFind_lt hstart hr) hne
        rcases takeSocket_cases pd id (withSource request)
          (frInaddrAny (withSource request).srcIpaddr != 0)
          with ⟨e, -, hnone⟩ | ⟨j, hj, -⟩
        · exact absurd ((hfree id i).mpr hi) (hnone i)
        · simp only [hj]

-- ======== two kinds

/-- A UDP socket that is bound to no specific address. -/
def anySocket : Sockaddr :=
  { ssFamily := afInet, salen := 16, addr := [0, 0, 0, 0], port := 1814 }

def anySocket6 : Sockaddr :=
  { ssFamily := afInet6, salen := 28, addr := List.replicate 16 0
    port := 1814 }

def requestTo (ip : List UInt8) : RadiusPacket :=
  { dstIpaddr := { af := afInet, ipaddr := ip }, dstPort := 1812 }

def oneSocket : Session := create.after (.socketAdd 3 anySocket)

def twoSockets : Session := oneSocket.after (.socketAdd 4 anySocket6)

theorem oneSocket_reached : Reaches Step create oneSocket :=
  Reaches.refl.step
    (Step.after ⟨by decide, by decide⟩ (by decide))

theorem twoSockets_reached : Reaches Step create twoSockets :=
  oneSocket_reached.step
    (Step.after ⟨by decide, by decide⟩ (by decide))

theorem idAlloc_reached (h : Reaches Step create s)
    (request : RadiusPacket) {start : Nat} (hs : start < 256)
    (hn : (s.apply (.idAlloc request start)).isSome = true) :
    Reaches Step create (s.after (.idAlloc request start)) :=
  h.step (Step.after hs hn)

/-- Two sockets of one family. -/
def sameFamily : Session := oneSocket.after (.socketAdd 5 anySocket)

theorem sameFamily_reached : Reaches Step create sameFamily :=
  oneSocket_reached.step
    (Step.after ⟨by decide, by decide⟩ (by decide))

/-- Id 5 is in use on both of them, id 6 on one. -/
def sharedIds : Session :=
  ((sameFamily.after (.idAlloc (requestTo [10, 0, 0, 1]) 5)).after
    (.idAlloc (requestTo [10, 0, 0, 1]) 5)).after
      (.idAlloc (requestTo [10, 0, 0, 1]) 6)

theorem sharedIds_reached : Reaches Step create sharedIds :=
  idAlloc_reached (idAlloc_reached (idAlloc_reached sameFamily_reached
    _ (by decide) (by decide)) _ (by decide) (by decide))
    _ (by decide) (by decide)

/-- The request may use both sockets, so every start finds an id. -/
theorem sharedIds_complete :
    sharedIds.held.map (fun r => (r.id, r.sockfd))
        = [(6, 3), (5, 5), (5, 3)]
      ∧ CanAllocate sharedIds.pl (requestTo [10, 0, 0, 1])
      ∧ ∀ start, start < 256 → (sharedIds.pl.idAlloc
          (requestTo [10, 0, 0, 1]) start).2.2 = .ok () := by
  have hcan : CanAllocate sharedIds.pl (requestTo [10, 0, 0, 1]) :=
    ⟨6, by decide, 31, by decide, by decide⟩
  have hfree : ∀ id, id < 256 →
      sharedIds.pl.wordOf (requestTo [10, 0, 0, 1]).dstIpaddr
          (requestTo [10, 0, 0, 1]).dstPort id ≠ sharedIds.pl.mask →
      ∃ i ∈ [25, 31], (sharedIds.pl.wordOf
        (requestTo [10, 0, 0, 1]).dstIpaddr
        (requestTo [10, 0, 0, 1]).dstPort id).getLsbD i = false := by
    decide +kernel
  refine ⟨by decide, hcan, (idAlloc_complete_iff sharedIds_reached
    (requestTo [10, 0, 0, 1]) (by decide) (by decide) hcan).mpr ?_⟩
  intro id hid hne
  obtain ⟨i, hi, hclear⟩ := hfree id hid hne
  rcases List.mem_pair.mp hi with rfl | rfl
  · exact ⟨25, by decide, hclear⟩
  · exact ⟨31, by decide, hclear⟩

/-- One id in use on the IPv4 socket, and an IPv6 socket beside it. -/
def oneIdInUse : Session :=
  twoSockets.after (.idAlloc (requestTo [10, 0, 0, 1]) 5)

/-- The search stops at id 5, which only the IPv6 socket has free. -/
theorem mixedFamilies_gives_up :
    Reaches Step create oneIdInUse
      ∧ CanAllocate oneIdInUse.pl (requestTo [10, 0, 0, 1])
      ∧ (oneIdInUse.pl.idAlloc (requestTo [10, 0, 0, 1]) 5).2.2
        = .error "Internal sanity check failed" := by
  refine ⟨idAlloc_reached twoSockets_reached _ (by decide)
    (by decide), ?_, ?_⟩
  · exact ⟨6, by decide, 25, by decide, by decide⟩
  · rfl

end Session

end WinRadius
