/-
The comparisons of packet.cpp and misc.cpp as linear orders.

`fr_ipaddr_cmp` is the order of a key as long as one side has a family it
knows; for two addresses of one other family it always says "less", even
of an address and itself. The tree and the hash table only hold
addresses of the two families, which is all their laws ask for.
-/
import WinRadius.Model.PacketList
import WinRadius.Proofs.HashMap
import WinRadius.Proofs.RbTree

namespace WinRadius

open Lib

-- ======== chains

section chain

variable {β : Type} [LinearOrder β]

/-- A link of a chain of comparisons. -/
theorem cmp_lt_iff (a b : β) (rest : Int) :
    (if a < b then -1 else if b < a then 1 else rest) < 0
      ↔ a < b ∨ a = b ∧ rest < 0 := by
  rcases lt_trichotomy a b with h | h | h
  · simp [h]
  · simp [h]
  · simp [h, h.not_gt, h.ne']

theorem cmp_eq_iff (a b : β) (rest : Int) :
    (if a < b then -1 else if b < a then 1 else rest) = 0
      ↔ a = b ∧ rest = 0 := by
  rcases lt_trichotomy a b with h | h | h
  · simp [h, h.ne]
  · simp [h]
  · simp [h, h.not_gt, h.ne']

end chain

/-- The bytes of an address as a list that Mathlib orders. -/
def byteKey (bs : List UInt8) : List Int := bs.map fun b => (b.toNat : Int)

theorem byteKey_inj {a b : List UInt8} : byteKey a = byteKey b ↔ a = b := by
  unfold byteKey
  refine (List.map_injective_iff.mpr fun x y h => ?_).eq_iff
  exact UInt8.toNat_inj.mp (by simpa using h)

theorem memcmp_spec {a b : List UInt8} (hlen : a.length = b.length) :
    (memcmp a b < 0 ↔ byteKey a < byteKey b)
      ∧ (memcmp a b = 0 ↔ byteKey a = byteKey b) := by
  induction a generalizing b with
  | nil =>
      cases b with
      | nil => simp [memcmp, byteKey]
      | cons _ _ => cases hlen
  | cons x a ih =>
      cases b with
      | nil => cases hlen
      | cons y b =>
          obtain ⟨h1, h2⟩ := ih (b := b) (by simpa using hlen)
          have hx : (x < y ↔ (x.toNat : Int) < y.toNat)
              ∧ (y < x ↔ (y.toNat : Int) < x.toNat) := by
            simp [UInt8.lt_iff_toNat_lt]
          have hcons (z : UInt8) (bs : List UInt8) :
              byteKey (z :: bs) = (z.toNat : Int) :: byteKey bs := rfl
          rw [memcmp, hcons, hcons, List.cons_lt_cons_iff, List.cons.injEq,
            ← h1, ← h2]
          simp only [hx.1, hx.2]
          exact ⟨cmp_lt_iff _ _ _, cmp_eq_iff _ _ _⟩

-- ======== addresses

/-- An address family that the code knows. -/
def FrIpaddr.Known (ip : FrIpaddr) : Prop :=
  ip.af = afInet ∨ ip.af = afInet6

instance (ip : FrIpaddr) : Decidable ip.Known :=
  inferInstanceAs (Decidable (_ ∨ _))

/-- Two values of `fr_ipaddr_t` are one address: the scope belongs to IPv6
only. -/
def SameAddr (a b : FrIpaddr) : Prop :=
  a.af = b.af ∧ (a.af = afInet6 → a.scope = b.scope)
    ∧ a.octets = b.octets

instance (a b : FrIpaddr) : Decidable (SameAddr a b) :=
  inferInstanceAs (Decidable (_ ∧ (_ → _) ∧ _))

/-- What `fr_ipaddr_cmp` compares, in its order. -/
def ipKey (ip : FrIpaddr) : Nat ×ₗ Nat ×ₗ List Int :=
  toLex (ip.af, toLex (if ip.af = afInet6 then ip.scope else 0,
    byteKey ip.octets))

theorem ipKey_eq_iff (a b : FrIpaddr) :
    ipKey a = ipKey b ↔ SameAddr a b := by
  unfold ipKey SameAddr
  simp only [toLex_inj, Prod.mk.injEq, byteKey_inj]
  constructor
  · rintro ⟨haf, hsc, hoct⟩
    refine ⟨haf, fun h6 => ?_, hoct⟩
    rwa [if_pos h6, if_pos (haf ▸ h6)] at hsc
  · rintro ⟨haf, hsc, hoct⟩
    refine ⟨haf, ?_, hoct⟩
    rw [← haf]
    split
    · next h6 => exact hsc h6
    · rfl

theorem SameAddr.refl (a : FrIpaddr) : SameAddr a a :=
  (ipKey_eq_iff a a).mp rfl

theorem SameAddr.symm {a b : FrIpaddr} (h : SameAddr a b) :
    SameAddr b a := by
  rw [← ipKey_eq_iff] at h ⊢
  exact h.symm

theorem SameAddr.known {a b : FrIpaddr} (h : SameAddr a b) :
    a.Known ↔ b.Known := by
  unfold FrIpaddr.Known
  rw [h.1]

theorem octets_length_eq {a b : FrIpaddr} (h : a.af = b.af) :
    a.octets.length = b.octets.length := by
  unfold FrIpaddr.octets
  rw [h]
  split
  · simp
  · split
    · simp
    · rfl

theorem frIpaddrCmp_spec (a b : FrIpaddr) (hb : b.Known) :
    (frIpaddrCmp a b < 0 ↔ ipKey a < ipKey b)
      ∧ (frIpaddrCmp a b = 0 ↔ ipKey a = ipKey b) := by
  have hlex : ipKey a < ipKey b ↔ a.af < b.af ∨ a.af = b.af
      ∧ ((if a.af = afInet6 then a.scope else 0)
          < (if b.af = afInet6 then b.scope else 0)
        ∨ (if a.af = afInet6 then a.scope else 0)
          = (if b.af = afInet6 then b.scope else 0)
          ∧ byteKey a.octets < byteKey b.octets) := by
    unfold ipKey
    simp only [Prod.Lex.toLex_lt_toLex]
  have hlexe : ipKey a = ipKey b ↔ a.af = b.af
      ∧ (if a.af = afInet6 then a.scope else 0)
        = (if b.af = afInet6 then b.scope else 0)
      ∧ byteKey a.octets = byteKey b.octets := by
    unfold ipKey
    simp only [toLex_inj, Prod.mk.injEq]
  unfold frIpaddrCmp
  rw [cmp_lt_iff, cmp_eq_iff, hlex, hlexe]
  by_cases haf : a.af = b.af
  · obtain ⟨h1, h2⟩ := memcmp_spec (octets_length_eq haf)
    have hinner : ∀ r, r = (if a.af = afInet then memcmp a.octets b.octets
        else if a.af = afInet6 then
          if a.scope < b.scope then -1
          else if b.scope < a.scope then 1
          else memcmp a.octets b.octets
        else -1) →
        (r < 0 ↔ ((if a.af = afInet6 then a.scope else 0)
            < (if b.af = afInet6 then b.scope else 0)
          ∨ (if a.af = afInet6 then a.scope else 0)
            = (if b.af = afInet6 then b.scope else 0)
            ∧ byteKey a.octets < byteKey b.octets))
        ∧ (r = 0 ↔ (if a.af = afInet6 then a.scope else 0)
            = (if b.af = afInet6 then b.scope else 0)
            ∧ byteKey a.octets = byteKey b.octets) := by
      rintro r rfl
      rw [haf]
      rcases hb with h | h
      · simp [h, afInet, afInet6, h1, h2]
      · rw [h, if_neg (by decide), if_pos rfl, if_pos rfl, if_pos rfl,
          cmp_lt_iff, cmp_eq_iff, h1, h2]
        exact ⟨Iff.rfl, Iff.rfl⟩
    obtain ⟨h3, h4⟩ := hinner _ rfl
    rw [h3, h4]
    exact ⟨Iff.rfl, Iff.rfl⟩
  · simp [haf]

-- ======== packets

/-- What `fr_packet_cmp` compares, in its order. -/
def packetKey (p : RadiusPacket) :
    Int ×ₗ Int ×ₗ Nat ×ₗ Nat
      ×ₗ (Nat ×ₗ Nat ×ₗ List Int) ×ₗ (Nat ×ₗ Nat ×ₗ List Int) :=
  toLex (p.sockfd, toLex (p.id, toLex (p.srcPort, toLex (p.dstPort,
    toLex (ipKey p.dstIpaddr, ipKey p.srcIpaddr)))))

theorem packetKey_eq_iff (a b : RadiusPacket) :
    packetKey a = packetKey b ↔ a.sockfd = b.sockfd ∧ a.id = b.id
      ∧ a.srcPort = b.srcPort ∧ a.dstPort = b.dstPort
      ∧ SameAddr a.dstIpaddr b.dstIpaddr
      ∧ SameAddr a.srcIpaddr b.srcIpaddr := by
  unfold packetKey
  simp only [toLex_inj, Prod.mk.injEq, ipKey_eq_iff]

/-- Both addresses of a request have a family the code knows. -/
def RadiusPacket.Known (p : RadiusPacket) : Prop :=
  p.srcIpaddr.Known ∧ p.dstIpaddr.Known

theorem packet_lawful :
    RbLawful frPacketCmp RadiusPacket.Known packetKey := by
  refine ⟨fun a b hb => ?_, fun a b hb => ?_⟩
  · obtain ⟨hdl, hde⟩ := frIpaddrCmp_spec a.dstIpaddr b.dstIpaddr hb.2
    obtain ⟨hsl, -⟩ := frIpaddrCmp_spec a.srcIpaddr b.srcIpaddr hb.1
    unfold frPacketCmp packetKey
    simp only [cmp_lt_iff, Prod.Lex.toLex_lt_toLex]
    have hlast : (if frIpaddrCmp a.dstIpaddr b.dstIpaddr ≠ 0 then
          frIpaddrCmp a.dstIpaddr b.dstIpaddr
        else frIpaddrCmp a.srcIpaddr b.srcIpaddr) < 0
        ↔ ipKey a.dstIpaddr < ipKey b.dstIpaddr
          ∨ ipKey a.dstIpaddr = ipKey b.dstIpaddr
            ∧ ipKey a.srcIpaddr < ipKey b.srcIpaddr := by
      by_cases h0 : frIpaddrCmp a.dstIpaddr b.dstIpaddr = 0
      · have hkey := hde.mp h0
        rw [if_neg (not_not.mpr h0), hsl, hkey]
        simp
      · rw [if_pos h0, hdl, or_iff_left]
        exact fun h => h0 (hde.mpr h.1)
    rw [hlast]
  · obtain ⟨-, hde⟩ := frIpaddrCmp_spec a.dstIpaddr b.dstIpaddr hb.2
    obtain ⟨-, hse⟩ := frIpaddrCmp_spec a.srcIpaddr b.srcIpaddr hb.1
    unfold frPacketCmp packetKey
    simp only [cmp_eq_iff, toLex_inj, Prod.mk.injEq]
    rw [← hde, ← hse]
    by_cases h0 : frIpaddrCmp a.dstIpaddr b.dstIpaddr = 0
    · simp [h0]
    · simp [h0]

-- ======== destinations

/-- What `packet_dst2id_cmp` compares, in its order. -/
def dstKey (pd : Dst2Id) : Nat ×ₗ (Nat ×ₗ Nat ×ₗ List Int) :=
  toLex (pd.dstPort, ipKey pd.dstIpaddr)

theorem dstKey_eq_iff (a b : Dst2Id) : dstKey a = dstKey b
    ↔ a.dstPort = b.dstPort ∧ SameAddr a.dstIpaddr b.dstIpaddr := by
  unfold dstKey
  simp only [toLex_inj, Prod.mk.injEq, ipKey_eq_iff]

theorem packetDst2idCmp_spec (a b : Dst2Id) (hb : b.dstIpaddr.Known) :
    (packetDst2idCmp a b < 0 ↔ dstKey a < dstKey b)
      ∧ (packetDst2idCmp a b = 0 ↔ dstKey a = dstKey b) := by
  obtain ⟨hl, he⟩ := frIpaddrCmp_spec a.dstIpaddr b.dstIpaddr hb
  unfold packetDst2idCmp dstKey
  rw [cmp_lt_iff, cmp_eq_iff, hl, he, Prod.Lex.toLex_lt_toLex]
  exact ⟨Iff.rfl, by simp⟩

theorem dst2id_lawful :
    HashTable.Lawful dst2idOps (fun pd => pd.dstIpaddr.Known) dstKey := by
  refine ⟨fun a b _ hb => ?_, fun a b _ hb => ?_, fun a b _ _ h => ?_⟩
  · obtain ⟨hl, he⟩ := packetDst2idCmp_spec a b hb
    rw [← not_le, le_iff_lt_or_eq, ← hl, ← he]
    simp only [HashOps.matches, dst2idOps]
    split
    · simp
      omega
    · next h =>
        split
        · simp_all
        · simp
          omega
  · obtain ⟨hl, he⟩ := packetDst2idCmp_spec a b hb
    rw [← hl]
    simp only [HashOps.matches, dst2idOps]
    split
    · simp
      omega
    · next h =>
        split
        · simp_all
        · simp_all
  · obtain ⟨hport, haf, -, hoct⟩ := (dstKey_eq_iff a b).mp h
    simp only [dst2idOps, packetDst2idHash, hport, hoct]

end WinRadius
