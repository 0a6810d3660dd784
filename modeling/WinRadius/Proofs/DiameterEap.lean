/-
The EAP messages inside a TLS tunnel.

`diameter2vp` has a loop that splits a long EAP-Message into pairs, but
before it comes to the types it passes over every value of more than 253
bytes. So the message of a record arrives exactly when it fits one pair.
-/
import WinRadius.Proofs.DiameterOrigin

namespace WinRadius

open Lib

variable {cfg : Config} {challenge : AuthVector} {a : Avp} {as : List Avp}
  {pos : Nat}

/-- The record is an EAP-Message of no vendor. -/
def IsEapMessage (a : Avp) : Prop :=
  a.code = 79 ∧ (a.vendorId = none ∨ a.vendorId = some 0)

/-- The pairs carry a message, each at most 253 bytes of it. -/
def EapRun (vps : List ValuePair) (message : List UInt8) : Prop :=
  (∀ vp ∈ vps, vp.attr = pwEapMessage ∧ vp.length ≤ 253)
    ∧ vps.flatMap (fun vp => vp.octets vp.length) = message

/-- The pairs made of the record at an offset. -/
def pairsAt (pos : Int) (vps : List (Int × ValuePair)) : List ValuePair :=
  (vps.filter fun p => decide (p.1 = pos)).map Prod.snd

/-- The message of the record is what the loop links when it comes to the
record, and what the returned list has of it. -/
def MessageKept (cfg : Config) (challenge : AuthVector) (data : List UInt8)
    (p : Int × Avp) : Prop :=
  (∃ offset length vps, avpAt cfg challenge data p.1
      = .ok (offset, length, .linked vps) ∧ EapRun vps p.2.value)
    ∧ ∀ d vps, diameter2vp cfg challenge data = .ok d → d.vps = some vps →
      EapRun (pairsAt p.1 vps) p.2.value

-- ======== one record

theorem numberOf_eap (h : IsEapMessage a) : numberOf a = some 79 := by
  obtain ⟨hcode, hv | hv⟩ := h
  · rw [numberOf, hv, hcode]
    rfl
  · rw [numberOf, hv, hcode]
    rfl

/-- A message that fits one pair. -/
theorem outcomeOf_short (challenge : AuthVector) {da : DictAttr}
    (hda : cfg.dict.attrbyvalue pwEapMessage = some da)
    (htype : da.type = .octets) (ha : IsEapMessage a)
    (hlen : a.value.length ≤ 253) :
    ∃ vps, outcomeOf cfg challenge a = .ok (.linked vps)
      ∧ EapRun vps a.value := by
  have hvp : paircreate cfg 79 .octets
      = some { pairalloc (some da) with op := .opEq } := by
    rw [paircreate, show cfg.dict.attrbyvalue 79 = some da from hda]
  have hattr := paircreate_attr hvp
  obtain ⟨vp, hvpeq⟩ : ∃ vp : ValuePair,
      vp = { pairalloc (some da) with op := .opEq } := ⟨_, rfl⟩
  have hvptype : vp.type = .octets := by rw [hvpeq]; exact htype
  have hdata : vp.data = [] := by rw [hvpeq]; rfl
  rw [← hvpeq] at hvp hattr
  refine ⟨[{ vp with length := a.value.length }.setOctets a.value], ?_, ?_, ?_⟩
  · rw [outcomeOf, numberOf_eap ha]
    dsimp only
    rw [avpPair, if_neg (by omega), if_neg (by omega), hvp]
    dsimp only
    rw [if_pos ⟨hvptype, rfl⟩, eapMessageLoop_single hlen, fetchN_all]
    rfl
  · intro vp' hmem
    rw [List.mem_singleton.mp hmem]
    exact ⟨hattr, hlen⟩
  · rw [List.flatMap_cons, List.flatMap_nil, List.append_nil]
    exact octets_setOctets hdata

/-- A longer one is passed over. -/
theorem outcomeOf_long (hlen : ¬ a.value.length ≤ 253) :
    outcomeOf cfg challenge a = .ok .skipped := by
  apply outcomeOf_skipped
  cases hn : decodedNumber a with
  | none => rfl
  | some attr => exact absurd (decodedNumber_eq_some.mp hn).2.2 hlen

theorem not_eapRun_nil (a : Avp) : ¬ EapRun [] a.value := by
  intro ⟨_, h⟩
  have := a.nonempty
  rw [← h] at this
  cases this

-- ======== the records

/-- Where a record lies. -/
theorem located_split {q : Int} (h : (q, a) ∈ locatedAvps pos as) :
    ∃ front rest, avpWire as = front ++ (a.bytes ++ rest)
      ∧ q = pos + front.length := by
  induction as generalizing pos with
  | nil => cases h
  | cons b as ih =>
      rw [locatedAvps_cons] at h
      obtain h | h := List.mem_cons.mp h
      · cases h
        exact ⟨[], avpWire as, rfl, rfl⟩
      · obtain ⟨front, rest, hwire, hq⟩ := ih h
        refine ⟨b.bytes ++ front, rest, ?_, ?_⟩
        · rw [avpWire_cons, hwire, List.append_assoc]
        · rw [hq, List.length_append]
          push_cast
          omega

theorem pairsAt_append (q : Int) (xs ys : List (Int × ValuePair)) :
    pairsAt q (xs ++ ys) = pairsAt q xs ++ pairsAt q ys := by
  rw [pairsAt, List.filter_append, List.map_append]
  rfl

theorem pairsAt_own (q : Int) (vps : List ValuePair) :
    pairsAt q (vps.map fun vp => (q, vp)) = vps := by
  rw [pairsAt, List.filter_eq_self.mpr, List.map_map]
  · exact List.map_id vps
  · intro p hp
    obtain ⟨vp, -, rfl⟩ := List.mem_map.mp hp
    exact decide_eq_true rfl

theorem pairsAt_other {q : Int} {vps : List (Int × ValuePair)}
    (h : ∀ p ∈ vps, p.1 ≠ q) : pairsAt q vps = [] := by
  rw [pairsAt, List.filter_eq_nil_iff.mpr]
  · rfl
  · intro p hp
    simpa using h p hp

/-- What the list has of a record is what was made of it. -/
theorem pairsAt_located {q : Int} (h : (q, a) ∈ locatedAvps pos as) :
    pairsAt q (locatedPairs cfg challenge pos as)
      = pairsOf cfg challenge a := by
  induction as generalizing pos with
  | nil => cases h
  | cons b as ih =>
      have hb := bytes_pos b
      rw [locatedAvps_cons] at h
      rw [locatedPairs, pairsAt_append]
      obtain h | h := List.mem_cons.mp h
      · cases h
        rw [pairsAt_own, pairsAt_other, List.append_nil]
        intro p hp
        have := locatedPairs_ge hp
        push_cast at this
        omega
      · have hq : ((pos + b.bytes.length : Nat) : Int) ≤ q := locatedAvps_ge h
        rw [ih h, pairsAt_other, List.nil_append]
        intro p hp
        obtain ⟨vp, -, rfl⟩ := List.mem_map.mp hp
        dsimp only
        push_cast at hq
        omega

/-- On a string that `diameter_verify` accepts, the message of an
EAP-Message record comes through exactly when it has at most 253 bytes. -/
theorem diameter2vp_eap {da : DictAttr}
    (hda : cfg.dict.attrbyvalue pwEapMessage = some da)
    (htype : da.type = .octets) {data : List UInt8} {seen : List Int}
    (h : diameterVerify data = .ok (some seen)) :
    ∃ as, Framed as ∧ data = avpWire as ∧ seen = avpOffsets 0 as
      ∧ ∀ p ∈ locatedAvps 0 as, IsEapMessage p.2 →
        (MessageKept cfg challenge data p ↔ p.2.value.length ≤ 253) := by
  obtain ⟨as, has, rfl, rfl⟩ := diameterVerify_iff.mp h
  refine ⟨as, has, rfl, rfl, fun (q, a) hmem ha => ?_⟩
  obtain ⟨front, rest, hwire, hq⟩ := located_split hmem
  have hat : avpAt cfg challenge (avpWire as) q
      = (outcomeOf cfg challenge a).map
        fun outcome => (a.offset, a.length, outcome) := by
    rw [hwire, show q = (front.length : Int) by omega, avpAt_record]
  constructor
  · intro ⟨⟨offset, length, vps, hlinked, _⟩, _⟩
    by_contra hlong
    rw [hat, outcomeOf_long hlong] at hlinked
    cases hlinked
  · intro hshort
    obtain ⟨vps, hout, hrun⟩ :=
      outcomeOf_short challenge hda htype ha hshort
    refine ⟨⟨a.offset, a.length, vps, by rw [hat, hout]; rfl, hrun⟩, ?_⟩
    intro d vps' hd hvps
    rw [diameter2vp_wire has] at hd
    obtain ⟨-, rfl, -⟩ := runAvps_pairs hd hvps
    rw [List.nil_append, pairsAt_located hmem, pairsOf, hout]
    exact hrun

/-- A dictionary with EAP-Message. -/
def eapConfig : Config :=
  { bareConfig with dict := .ofEntries [⟨79, .octets, 0, {}⟩] [] }

theorem eapAvp_flag :
    (none : Option UInt32).isSome = true ↔ 128 ≤ (64 : UInt8).toNat := by
  decide

theorem eapAvp_nonempty (n : Nat) (h : 0 < n) :
    0 < (List.replicate n (1 : UInt8)).length := by
  rw [List.length_replicate]
  exact h

theorem eapAvp_fits (n : Nat) (hn : n < 65536) :
    (if (none : Option UInt32).isSome = true then 12 else 8)
      + (List.replicate n (1 : UInt8)).length < 16777216 := by
  rw [List.length_replicate, if_neg (by decide)]
  omega

/-- An EAP-Message of `n` bytes, the last record of a tunnel. -/
def eapAvp (n : Nat) (h : 0 < n) (hn : n < 65536) : Avp where
  code := 79
  flags := 64
  vendorId := none
  value := List.replicate n 1
  pad := []
  vendor_flag := eapAvp_flag
  nonempty := eapAvp_nonempty n h
  fits := eapAvp_fits n hn

/-- A message of 254 bytes. -/
def longEapAvp : Avp := eapAvp 254 (by decide) (by decide)

/-- It is lost: the list that is returned is empty. -/
theorem diameter2vp_eap_lost :
    diameterVerify (avpWire [longEapAvp]) = .ok (some [0])
      ∧ IsEapMessage longEapAvp
      ∧ diameter2vp eapConfig .zero (avpWire [longEapAvp])
        = .ok ⟨[0], some []⟩
      ∧ ¬ EapRun (pairsAt 0 []) longEapAvp.value := by
  have hlen : longEapAvp.value.length = 254 := List.length_replicate
  have hframed : Framed [longEapAvp] :=
    Or.inr ⟨rfl, rfl, by rw [hlen]; decide⟩
  refine ⟨?_, ⟨rfl, Or.inl rfl⟩, ?_, not_eapRun_nil _⟩
  · exact diameterVerify_iff.mpr ⟨[longEapAvp], hframed, rfl, rfl⟩
  · rw [diameter2vp_wire hframed, runAvps,
      outcomeOf_long (by rw [hlen]; decide)]
    rfl

/-- A message of 4 bytes comes through. -/
theorem diameter2vp_eap_four :
    ∃ as, Framed as
      ∧ (eapAvp 4 (by decide) (by decide)).bytes = avpWire as
      ∧ [0] = avpOffsets 0 as
      ∧ ∀ p ∈ locatedAvps 0 as, IsEapMessage p.2 →
        MessageKept eapConfig .zero
          (eapAvp 4 (by decide) (by decide)).bytes p := by
  have hda : eapConfig.dict.attrbyvalue pwEapMessage
      = some ⟨79, .octets, 0, {}⟩ := rfl
  obtain ⟨as, has, hwire, hoff, hkept⟩ :=
    @diameter2vp_eap eapConfig .zero _ hda rfl
      (eapAvp 4 (by decide) (by decide)).bytes _ rfl
  refine ⟨as, has, hwire, hoff, fun p hp heap => (hkept p hp heap).mpr ?_⟩
  -- the value is a part of twelve bytes
  obtain ⟨front, rest, hsplit, -⟩ := located_split hp
  have hlen := congrArg List.length (hwire.trans hsplit)
  have hbytes := p.2.bytes_length
  have hl : p.2.length = p.2.offset + p.2.value.length := rfl
  rw [show (eapAvp 4 (by decide) (by decide)).bytes.length = 12 from rfl,
    List.length_append, List.length_append] at hlen
  omega

end WinRadius
