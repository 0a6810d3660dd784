/-
EAP packets in EAP-Message attributes.

The loops of `eap_vp2packet` add up the lengths and put the values behind
each other (`eapVp2packetLoops_eq`), whatever lies between the
EAP-Messages; so the pieces `eap_packet2vp` makes of a packet are that
packet again.
-/
import WinRadius.Model.Eap
import WinRadius.Proofs.EapsimExchange

namespace WinRadius

open Lib

variable {cfg : Config} {vps : List ValuePair} {e : List UInt8}

/-- The EAP-Messages of a list. -/
def eapMessages (vps : List ValuePair) : List ValuePair :=
  vps.filter fun vp => vp.attr == pwEapMessage

theorem eapMessages_cons_pos {vp : ValuePair} (h : vp.attr = pwEapMessage) :
    eapMessages (vp :: vps) = vp :: eapMessages vps :=
  List.filter_cons_of_pos (beq_iff_eq.mpr h)

theorem eapMessages_cons_neg {vp : ValuePair} (h : vp.attr ≠ pwEapMessage) :
    eapMessages (vp :: vps) = eapMessages vps :=
  List.filter_cons_of_neg (by rwa [beq_iff_eq])

-- ======== loops

/-- The sum, unless it goes over the length. -/
theorem eapTotalLoop_eq {len totalLen : Nat} (h : totalLen ≤ len) :
    eapTotalLoop len vps totalLen
      = if totalLen + ((eapMessages vps).map ValuePair.length).sum ≤ len then
          some (totalLen + ((eapMessages vps).map ValuePair.length).sum)
        else none := by
  induction vps generalizing totalLen with
  | nil =>
      rw [eapTotalLoop]
      exact (if_pos h).symm
  | cons vp vps ih =>
      rw [eapTotalLoop]
      by_cases hvp : vp.attr = pwEapMessage
      · rw [if_pos hvp, eapMessages_cons_pos hvp, List.map_cons,
          List.sum_cons]
        split
        next hover => rw [if_neg (by omega)]
        next hfits =>
          rw [ih (by omega), Nat.add_assoc]
      · rw [if_neg hvp, eapMessages_cons_neg hvp, ih h]

/-- The values behind each other. -/
theorem eapCopyLoop_eq {packet : List UInt8} :
    eapCopyLoop vps packet
      = packet ++ (eapMessages vps).flatMap fun vp => vp.octets vp.length := by
  induction vps generalizing packet with
  | nil => exact (List.append_nil _).symm
  | cons vp vps ih =>
      rw [eapCopyLoop]
      by_cases hvp : vp.attr = pwEapMessage
      · rw [if_pos hvp, eapMessages_cons_pos hvp, List.flatMap_cons, ih,
          List.append_assoc]
      · rw [if_neg hvp, eapMessages_cons_neg hvp, ih]

/-- The two loops compute what `eapVp2packet` says. -/
theorem eapVp2packetLoops_eq (vps : List ValuePair) :
    eapVp2packetLoops vps = eapVp2packet vps := by
  unfold eapVp2packetLoops eapVp2packet
  cases pairfind vps pwEapMessage with
  | none => rfl
  | some first =>
      dsimp only
      change (if first.length < 4 then none
        else if eapHeaderLength first < 4 then none else _)
        = if first.length < 4 then none
          else if eapHeaderLength first < 4 then none
          else if ((eapMessages vps).map ValuePair.length).sum
            ≠ eapHeaderLength first then none else _
      split
      next => rfl
      next =>
      split
      next => rfl
      next =>
        rw [eapTotalLoop_eq (Nat.zero_le _), Nat.zero_add, eapCopyLoop_eq,
          List.nil_append]
        generalize ((eapMessages vps).map ValuePair.length).sum = total
        rcases Nat.lt_trichotomy total (eapHeaderLength first) with h | h | h
        · rw [if_pos (Nat.le_of_lt h), if_pos (Nat.ne_of_lt h)]
          exact if_pos h
        · rw [if_pos (Nat.le_of_eq h), if_neg (not_not.mpr h)]
          exact if_neg (Nat.not_lt.mpr (Nat.le_of_eq h.symm))
        · rw [if_neg (Nat.not_le.mpr h), if_pos (Nat.ne_of_gt h)]

/-- A packet is put together exactly when the first EAP-Message has a
header and the lengths add up to the one in it. -/
theorem eapVp2packetLoops_isSome :
    (∃ e, eapVp2packetLoops vps = some e)
      ↔ ∃ first, pairfind vps pwEapMessage = some first
        ∧ 4 ≤ first.length ∧ 4 ≤ eapHeaderLength first
        ∧ ((eapMessages vps).map ValuePair.length).sum
          = eapHeaderLength first := by
  rw [eapVp2packetLoops_eq]
  unfold eapVp2packet
  cases pairfind vps pwEapMessage with
  | none =>
      apply iff_of_false
      · intro ⟨e, he⟩
        cases he
      · intro ⟨first, hfirst, _⟩
        cases hfirst
  | some first =>
      dsimp only
      change (∃ e, (if first.length < 4 then none
        else if eapHeaderLength first < 4 then none
        else if ((eapMessages vps).map ValuePair.length).sum
          ≠ eapHeaderLength first then none
        else some _) = some e) ↔ _
      constructor
      · intro ⟨e, he⟩
        refine ⟨first, rfl, ?_⟩
        split at he
        next => cases he
        next h4 =>
        split at he
        next => cases he
        next hlen =>
        split at he
        next => cases he
        next hsum =>
        exact ⟨by omega, by omega, not_not.mp hsum⟩
      · intro ⟨other, hother, h4, hlen, hsum⟩
        cases hother
        rw [if_neg (by omega), if_neg (by omega), if_neg (not_not.mpr hsum)]
        exact ⟨_, rfl⟩

-- ======== round trip

/-- The pieces of a packet are EAP-Messages of at most 253 bytes. -/
theorem eapPacket2vp_pieces
    (hnew : ∃ vp, paircreate cfg pwEapMessage .octets = some vp)
    (h4 : 4 ≤ e.length) (hlen : eapLength e = .ok e.length) :
    ∃ first rest, eapPacket2vp cfg e = .ok (some (first :: rest))
      ∧ (∀ vp ∈ first :: rest, vp.attr = pwEapMessage ∧ vp.length ≤ 253)
      ∧ (first :: rest).flatMap (fun vp => vp.octets vp.length) = e
      ∧ 4 ≤ first.length := by
  obtain ⟨first, rest, hrun, hattr, hcat, hfirst⟩ :
      ∃ first rest, eapPacket2vpLoop cfg e (e.length + 1) 0 e.length []
          = .ok (some ([] ++ first :: rest))
        ∧ (∀ vp ∈ first :: rest, vp.attr = pwEapMessage ∧ vp.length ≤ 253)
        ∧ (first :: rest).flatMap (fun vp => vp.octets vp.length)
          = e.drop 0
        ∧ first.length = min e.length 253 :=
    packet2vpLoop_spec hnew (Nat.zero_add _) (Nat.lt_succ_self _)
  refine ⟨first, rest, ?_, hattr, hcat, by omega⟩
  rw [eapPacket2vp, hlen, ok_bind, hrun, List.nil_append]

/-- The pairs are pieces of a packet: EAP-Messages of at most 253 bytes that
hold it one behind the other. -/
structure PiecesOf (e : List UInt8) (pairs : List ValuePair) : Prop where
  messages : eapMessages pairs = pairs
  short : ∀ vp ∈ pairs, vp.length ≤ 253
  bytes : pairs.flatMap (fun vp => vp.octets vp.length) = e

/-- EAP-Messages and packets: a packet is cut into pieces and comes back
from any list whose EAP-Messages are these, and a list gives a packet
exactly when its first EAP-Message has a header whose length is that of all
of them. -/
theorem eap_message_round_trip (cfg : Config)
    (hnew : ∃ vp, paircreate cfg pwEapMessage .octets = some vp) :
    (∀ e : List UInt8, 4 ≤ e.length → eapLength e = .ok e.length →
      ∃ pairs, eapPacket2vp cfg e = .ok (some pairs) ∧ PiecesOf e pairs
        ∧ ∀ vps, eapMessages vps = pairs →
          eapVp2packetLoops vps = some e)
    ∧ ∀ vps, (∃ e, eapVp2packetLoops vps = some e)
      ↔ ∃ first, pairfind vps pwEapMessage = some first
        ∧ 4 ≤ first.length ∧ 4 ≤ eapHeaderLength first
        ∧ ((eapMessages vps).map ValuePair.length).sum
          = eapHeaderLength first := by
  refine ⟨?_, fun vps => eapVp2packetLoops_isSome⟩
  intro e h4 hlen
  obtain ⟨first, rest, hpairs, hattr, hcat, hfirst⟩ :=
    eapPacket2vp_pieces hnew h4 hlen
  have hfilter : eapMessages (first :: rest) = first :: rest := by
    apply List.filter_eq_self.mpr
    intro vp hvp
    exact beq_iff_eq.mpr (hattr vp hvp).1
  refine ⟨first :: rest, hpairs,
    ⟨hfilter, fun vp hvp => (hattr vp hvp).2, hcat⟩, ?_⟩
  intro vps hvps
  have hsame : eapVp2packet vps = eapVp2packet (first :: rest) := by
    have hmessages : eapMessages vps = eapMessages (first :: rest) := by
      rw [hvps, hfilter]
    unfold eapMessages at hmessages
    rw [eapVp2packet, eapVp2packet, pairfind, pairfind,
      ← List.head?_filter, ← List.head?_filter, hmessages]
  rw [eapVp2packetLoops_eq, hsame]
  exact eapVp2packet_pieces (fun vp hvp => (hattr vp hvp).1) hcat hfirst hlen

/-- The header of a packet of 300 bytes. -/
def longPacket : List UInt8 := [1, 2, 1, 44] ++ List.replicate 296 7

/-- An EAP-Message, with the dictionary left empty. -/
def eapPiece (bytes : List UInt8) : ValuePair :=
  { attr := pwEapMessage, type := .octets, flags := { unknownAttr := true }
    length := bytes.length, data := bytes }

/-- It is cut into two pieces, and comes back with a name between them. -/
theorem eap_message_round_trip_long :
    eapPacket2vp bareConfig longPacket = .ok (some
        [eapPiece (longPacket.take 253), eapPiece (longPacket.drop 253)])
      ∧ eapVp2packetLoops [eapPiece (longPacket.take 253),
          { attr := 1, type := .string }, eapPiece (longPacket.drop 253)]
        = some longPacket := by
  have hcut : eapPacket2vp bareConfig longPacket = .ok (some
      [eapPiece (longPacket.take 253), eapPiece (longPacket.drop 253)]) := by
    decide +kernel
  obtain ⟨pairs, hpairs, -, hback⟩ :=
    (eap_message_round_trip bareConfig ⟨_, rfl⟩).1 longPacket
      (by decide +kernel) (by decide +kernel)
  cases hcut.symm.trans hpairs
  exact ⟨hcut, hback _ rfl⟩

end WinRadius
