/-
EAP-SIM and EAP-AKA attributes, packed and unpacked.

The pairs the decoder makes of a body tile it at the boundaries its length
bytes give (`SimTiles`) exactly when no length byte is 64 or more; so a
list of attributes comes back, padded, exactly when none has more than 250
bytes. Both hold for EAP-AKA as for EAP-SIM, for the two share the loops.
-/
import WinRadius.Model.Eapaka
import WinRadius.Proofs.EapsimExchange

namespace WinRadius

open Lib

variable {cfg : Config} {attr : List UInt8} {pos n fuel : Nat}
  {vps vps' new : List ValuePair} {seen bounds : List Nat}

-- ======== tiling

/-- Pairs that tile a body from an offset on: each has the type and the
value of one attribute, and the next begins where the length byte says. -/
inductive SimTiles (attr : List UInt8) :
    Nat → List Nat → List ValuePair → Prop where
  | done : SimTiles attr attr.length [] []
  | step {pos : Nat} {bounds : List Nat} {vp : ValuePair}
      {vps : List ValuePair}
      (number : vp.attr = (attr.getD pos 0).toNat + attributeEapSimBase)
      (length : vp.length + 2 = wordsAt attr pos * 4)
      (octets : vp.octets vp.length = slice attr (pos + 2) vp.length)
      (fits : pos + wordsAt attr pos * 4 ≤ attr.length)
      (rest : SimTiles attr (pos + wordsAt attr pos * 4) bounds vps) :
      SimTiles attr pos (pos :: bounds) (vp :: vps)

/-- What the decoder makes tiles the body exactly when every length byte
is below 64. -/
theorem unmapLoop_tiles_iff
    (h : unmapLoop cfg attr fuel pos n vps seen
      = .ok ⟨true, vps', bounds⟩) (hpos : pos + n = attr.length) :
    ∃ l new, bounds = seen ++ l ∧ vps' = vps ++ new
      ∧ (SimTiles attr pos l new ↔ ∀ b ∈ l, wordsAt attr b < 64) := by
  induction fuel generalizing pos n vps seen with
  | zero => cases h
  | succ fuel ih =>
      by_cases hn : n = 0
      · rw [unmapLoop, if_pos hn] at h
        cases h
        refine ⟨[], [], (List.append_nil _).symm,
          (List.append_nil _).symm, ?_⟩
        apply iff_of_true
        · rw [show pos = attr.length by omega]
          exact .done
        · intro b hb
          cases hb
      · obtain ⟨hn2, hw1, hwn, vp, hcut, hnext⟩ := unmap_step h hn hpos
        have hmax : maxStringLen = 254 := rfl
        obtain ⟨l, new, rfl, rfl, hiff⟩ := ih hnext (by omega)
        refine ⟨pos :: l, vp :: new, ?_, ?_, ?_⟩
        · rw [List.append_assoc]
          rfl
        · rw [List.append_assoc]
          rfl
        · have hlen := hcut.length
          have hoct := hcut.octets
          unfold advanceAt at hlen hoct
          rw [List.forall_mem_cons]
          constructor
          · intro htiles
            cases htiles with
            | step _ length _ _ rest =>
                have hshort : wordsAt attr pos < 64 := by omega
                refine ⟨hshort, hiff.mp ?_⟩
                rwa [show min (wordsAt attr pos * 4) maxStringLen
                  = wordsAt attr pos * 4 by omega]
          · intro hwords
            obtain ⟨hshort, hall⟩ := hwords
            have hmin : min (wordsAt attr pos * 4) maxStringLen
                = wordsAt attr pos * 4 := by omega
            have hrest := hiff.mpr hall
            rw [hmin] at hrest hlen hoct
            refine .step hcut.number (by omega) ?_ (by omega) hrest
            rw [hoct, hlen]

-- ======== round trip

/-- An attribute that came back: its value is padded with zeros, to a
length that makes a multiple of four with the two bytes in front. -/
structure PaddedAs (a vp : ValuePair) : Prop where
  number : vp.attr = a.attr
  length : vp.length = roundUp4 (a.length + 2) - 2
  octets : vp.octets vp.length = padTake vp.length (a.octets a.length)

/-- Attributes for a body without AT_MAC, with values of at most 253
bytes. -/
structure PlainAttributes (vps : List ValuePair) : Prop where
  no_mac : ∀ vp ∈ vps, isMac vp = false
  lengths : ∀ vp ∈ vps, eapSimAttribute vp = true → vp.length ≤ 253

namespace PlainAttributes

theorem plain (h : PlainAttributes vps) {vp : ValuePair}
    (hvp : vp ∈ vps.filter eapSimAttribute) :
    eapSimAttribute vp = true ∧ isMac vp = false ∧ vp.length ≤ 253 := by
  obtain ⟨hmem, hsim⟩ := List.mem_filter.mp hvp
  exact ⟨hsim, h.no_mac vp hmem, h.lengths vp hmem hsim⟩

/-- The room the builder computes is that of the records. -/
theorem rounded_sum (h : PlainAttributes vps) :
    ((vps.filter eapSimAttribute).map eapSimRounded).sum
      = (simWire (simRecords vps zeroMac)).length := by
  have hle : ∀ vp ∈ vps.filter eapSimAttribute, vp.length ≤ 253 :=
    fun vp hvp => (h.plain hvp).2.2
  have hz : zeroMac.length = 16 := rfl
  unfold simRecords
  generalize vps.filter eapSimAttribute = l at hle
  induction l with
  | nil => rfl
  | cons vp l ih =>
      rw [List.map_cons, List.sum_cons, List.map_cons, simWire_cons,
        List.length_append, rounded_eq_bytes hz (hle vp List.mem_cons_self),
        ih fun v hv => hle v (List.mem_cons_of_mem vp hv)]

/-- The records behind the subtype. -/
theorem fill (h : PlainAttributes vps) (front : List UInt8) :
    (vps.filter eapSimAttribute).foldlM eapSimFill ⟨front, none, []⟩
      = .ok ⟨front ++ simWire (simRecords vps zeroMac), none, []⟩ := by
  have hfill := @fill_plain (vps.filter eapSimAttribute)
    ⟨front, none, []⟩ zeroMac (fun vp hvp => (h.plain hvp).2.1)
    (fun vp hvp => (h.plain hvp).2.2)
  exact hfill

end PlainAttributes

/-- The pair of an attribute's record is the attribute, padded. -/
theorem paddedAs_of_decoded {a vp : ValuePair}
    (hsim : eapSimAttribute a = true) (hm : isMac a = false)
    (h : DecodedAs (simRecord zeroMac a) vp) : PaddedAs a vp := by
  have hrange := of_decide_eq_true hsim
  have hrounded := rounded_plain hm
  obtain ⟨hnumber, hlength, hoctets⟩ := h
  rw [simRecord_plain hm] at hnumber hlength hoctets
  simp only [padTake_length, hrounded] at hlength
  simp only [UInt8.toNat_ofNat'] at hnumber
  refine ⟨by omega, hlength, ?_⟩
  rw [hoctets, hlength, ← hrounded]

/-- The attributes come back from their records exactly when none has more
than 250 bytes. -/
theorem unmapLoop_records_iff (hnames : ∀ attr, vendorOf attr = 0 →
      cfg.vpPrintName attr = true) (h : PlainAttributes vps)
    (front : List UInt8) (old : List ValuePair) :
    (∃ new bounds,
      unmapLoop cfg (front ++ simWire (simRecords vps zeroMac))
          ((front ++ simWire (simRecords vps zeroMac)).length + 1)
          front.length (simWire (simRecords vps zeroMac)).length old []
        = .ok ⟨true, old ++ new, bounds⟩
      ∧ List.Forall₂ PaddedAs (vps.filter eapSimAttribute) new)
      ↔ ∀ vp ∈ vps.filter eapSimAttribute, vp.length ≤ 250 := by
  have hz : zeroMac.length = 16 := rfl
  by_cases hshort : ∀ vp ∈ vps.filter eapSimAttribute, vp.length ≤ 250
  · refine iff_of_true ?_ hshort
    obtain ⟨new, bounds, hdec, hrun⟩ : ∃ new bounds,
        List.Forall₂ DecodedAs (simRecords vps zeroMac) new
        ∧ unmapLoop cfg (front ++ simWire (simRecords vps zeroMac))
            ((front ++ simWire (simRecords vps zeroMac)).length + 1)
            front.length (simWire (simRecords vps zeroMac)).length old []
          = .ok ⟨true, old ++ new, bounds⟩ := by
      apply unmap_records hnames
      · intro r hr
        obtain ⟨vp, hvp, rfl⟩ := mem_simRecords hr
        exact ⟨simRecord_sized hz (h.plain hvp).2.2,
          words_lt (Or.inr (hshort vp hvp))⟩
      · rw [List.length_append]
        omega
    refine ⟨new, bounds, hrun, ?_⟩
    rw [simRecords, List.forall₂_map_left_iff] at hdec
    have hboth := (List.forall₂_and_left _ _).mpr
      ⟨fun vp (hvp : vp ∈ vps.filter eapSimAttribute) => h.plain hvp,
        hdec⟩
    apply hboth.imp
    intro a vp hpair
    obtain ⟨⟨hsim, hm, -⟩, hvp⟩ := hpair
    exact paddedAs_of_decoded hsim hm hvp
  · refine iff_of_false ?_ hshort
    intro hback
    obtain ⟨new, bounds, hrun, -⟩ := hback
    obtain ⟨vps', bounds', hno⟩ : ∃ vps' bounds',
        unmapLoop cfg (front ++ simWire (simRecords vps zeroMac))
            ((front ++ simWire (simRecords vps zeroMac)).length + 1)
            front.length (simWire (simRecords vps zeroMac)).length old []
          = .ok ⟨false, vps', bounds'⟩ := by
      apply unmap_rejects hnames
      · intro r hr
        obtain ⟨vp, hvp, rfl⟩ := mem_simRecords hr
        obtain ⟨-, hm, hle⟩ := h.plain hvp
        refine ⟨simRecord_sized hz hle, ?_⟩
        rcases Nat.lt_or_ge 250 vp.length with hgt | hle250
        · exact Or.inr (words_long hm hgt hle)
        · exact Or.inl (words_lt (Or.inr hle250))
      · obtain ⟨vp, hvp, hgt⟩ : ∃ vp ∈ vps.filter eapSimAttribute,
            250 < vp.length := by
          simpa only [not_forall, not_le, exists_prop] using hshort
        obtain ⟨-, hm, hle⟩ := h.plain hvp
        refine ⟨simRecord zeroMac vp, List.mem_map_of_mem hvp, ?_⟩
        rw [(words_long hm hgt hle).1]
        omega
      · rw [List.length_append]
        omega
    rw [hno] at hrun
    cases hrun

-- ======== the bodies

variable {hmacSha1 : List UInt8 → List UInt8 → Sha1Digest} {pid : Nat}
  {ep ep' : EapPacket} {old : List ValuePair} {front : List UInt8}

/-- A body: a subtype, two reserved bytes, and the records. -/
def bodyOf (vps : List ValuePair) (subtype : Nat) : List UInt8 :=
  [UInt8.ofNat subtype, 0, 0] ++ simWire (simRecords vps zeroMac)

/-- Records take two bytes at least, where there are any. -/
theorem bodyOf_length (vps : List ValuePair) (subtype : Nat) :
    3 ≤ (bodyOf vps subtype).length
      ∧ ((bodyOf vps subtype).length < 5
        ↔ vps.filter eapSimAttribute = []) := by
  have hlen : (bodyOf vps subtype).length
      = 3 + (simWire (simRecords vps zeroMac)).length :=
    List.length_append
  refine ⟨by omega, ?_⟩
  rw [hlen, simRecords]
  cases vps.filter eapSimAttribute with
  | nil => exact iff_of_true (by decide) rfl
  | cons vp l =>
      refine iff_of_false ?_ (List.cons_ne_nil vp l)
      rw [List.map_cons, simWire_cons, List.length_append,
        SimRecord.bytes_length]
      omega

/-- Without room for records there are none. -/
theorem PlainAttributes.no_records (h : PlainAttributes vps)
    (hsum : ((vps.filter eapSimAttribute).map eapSimRounded).sum = 0) :
    simWire (simRecords vps zeroMac) = [] := by
  rw [h.rounded_sum] at hsum
  exact List.length_eq_zero_iff.mp hsum

variable (hmacSha1 pid ep) in
/-- `map_eapsim_basictypes` builds the body. -/
theorem mapEapsim_body (h : PlainAttributes vps) :
    ∃ done ep', mapEapsimBasictypes hmacSha1 pid vps ep = .ok (done, ep')
      ∧ ep'.data
        = bodyOf vps (eapNumber vps attributeEapSimSubtype eapsimStart) := by
  unfold mapEapsimBasictypes bodyOf
  dsimp only
  split
  next hsum =>
    rw [h.no_records hsum]
    exact ⟨_, _, rfl, rfl⟩
  next =>
    rw [h.fill, ok_bind]
    exact ⟨_, _, rfl, rfl⟩

variable (hmacSha1 pid ep) in
/-- So does `map_eapaka_basictypes`. -/
theorem mapEapaka_body (h : PlainAttributes vps) :
    ∃ done ep', mapEapakaBasictypes hmacSha1 pid vps ep = .ok (done, ep')
      ∧ ep'.data
        = bodyOf vps
          (eapNumber vps attributeEapSimSubtype eapakaChallenge) := by
  unfold mapEapakaBasictypes bodyOf
  dsimp only
  split
  next hsum =>
    rw [h.no_records hsum]
    exact ⟨_, _, rfl, rfl⟩
  next =>
    rw [h.fill, ok_bind]
    exact ⟨_, _, rfl, rfl⟩

/-- The pair of a subtype. -/
structure SubtypePair (subtype : UInt8) (vp : ValuePair) : Prop where
  number : vp.attr = attributeEapSimSubtype
  value : vp.lvalue = subtype.toUInt32

/-- A decoder that comes to its loop behind the subtype. -/
def Enters (cfg : Config) (old : List ValuePair) (attr : List UInt8)
    (run : Mem Unmapped) : Prop :=
  ∃ subtype sub, attr.head? = some subtype ∧ SubtypePair subtype sub
    ∧ 3 ≤ attr.length
    ∧ run = unmapLoop cfg attr (attr.length + 1) 3 (attr.length - 3)
      (old ++ [sub]) []

/-- A body is too short for `unmap_eapsim_basictypes`. -/
def SimShort (attr : List UInt8) : Prop := attr.length < 5

/-- A body is too short for `unmap_eapaka_basictypes`; an authentication
reject may be without attributes. -/
def AkaShort (attr : List UInt8) : Prop :=
  attr.length < 3
    ∨ (attr.getD 0 0).toNat ≠ eapakaAuthenticationReject ∧ attr.length < 5

/-- A decoder turns down a body that is too short, or comes to its loop. -/
def EntersOrRejects (cfg : Config) (old : List ValuePair)
    (attr : List UInt8) (short : Prop) (run : Mem Unmapped) : Prop :=
  ¬ short ∧ Enters cfg old attr run
    ∨ (short ∨ paircreate cfg attributeEapSimSubtype .integer = none)
      ∧ ∀ u, run = .ok u → u.ret = false

theorem unmapEapsim_cases (cfg : Config) (old : List ValuePair)
    (attr : List UInt8) :
    EntersOrRejects cfg old attr (SimShort attr)
      (unmapEapsimBasictypes cfg old attr) := by
  unfold unmapEapsimBasictypes SimShort
  split
  next hlen =>
    refine Or.inr ⟨Or.inl hlen, ?_⟩
    intro u hu
    cases hu
    rfl
  next hlen =>
    cases hvp : paircreate cfg attributeEapSimSubtype .integer with
    | none =>
        refine Or.inr ⟨Or.inr hvp, ?_⟩
        intro u hu
        cases hu
        rfl
    | some vp =>
        have hattr : vp.attr = attributeEapSimSubtype := paircreate_attr hvp
        obtain ⟨subtype, hsub⟩ : ∃ b, fetch attr 0 = .ok b :=
          fetch_isOk (by omega) (by omega)
        refine Or.inl ⟨hlen, subtype,
          { vp with lvalue := subtype.toUInt32, length := 1 }, ?_,
          ⟨hattr, rfl⟩, by omega, ?_⟩
        · rw [← (fetch_eq_ok.mp hsub).2]
          exact List.head?_eq_getElem?
        · dsimp only
          rw [hsub, ok_bind]

theorem unmapEapaka_cases (cfg : Config) (old : List ValuePair)
    (attr : List UInt8) :
    EntersOrRejects cfg old attr (AkaShort attr)
      (unmapEapakaBasictypes cfg old attr) := by
  unfold unmapEapakaBasictypes AkaShort
  split
  next hlen =>
    refine Or.inr ⟨Or.inl (Or.inl hlen), ?_⟩
    intro u hu
    cases hu
    rfl
  next hlen =>
    obtain ⟨subtype, hsub⟩ : ∃ b, fetch attr 0 = .ok b :=
      fetch_isOk (by omega) (by omega)
    have hget : attr.getD 0 0 = subtype := by
      rw [List.getD_eq_getElem?_getD]
      exact congrArg (Option.getD · 0) (fetch_eq_ok.mp hsub).2
    rw [hsub, ok_bind, hget]
    split
    next hreject =>
      refine Or.inr ⟨Or.inl (Or.inr hreject), ?_⟩
      intro u hu
      cases hu
      rfl
    next hreject =>
      cases hvp : paircreate cfg attributeEapSimSubtype .integer with
      | none =>
          refine Or.inr ⟨Or.inr hvp, ?_⟩
          intro u hu
          cases hu
      | some vp =>
          have hattr : vp.attr = attributeEapSimSubtype :=
            paircreate_attr hvp
          refine Or.inl ⟨not_or.mpr ⟨hlen, hreject⟩, subtype,
            { vp with lvalue := subtype.toUInt32, length := 1 }, ?_,
            ⟨hattr, rfl⟩, by omega, rfl⟩
          rw [← (fetch_eq_ok.mp hsub).2]
          exact List.head?_eq_getElem?

/-- The attributes come back, padded, behind the subtype. -/
def YieldsBack (run : Mem Unmapped) (old vps : List ValuePair)
    (subtype : Nat) : Prop :=
  ∃ sub new bounds, run = .ok ⟨true, old ++ sub :: new, bounds⟩
    ∧ SubtypePair (UInt8.ofNat subtype) sub
    ∧ List.Forall₂ PaddedAs (vps.filter eapSimAttribute) new

/-- The pairs behind the subtype tile the body. -/
def TilesBody (attr : List UInt8) (old vps : List ValuePair)
    (bounds : List Nat) : Prop :=
  ∃ sub new, vps = old ++ sub :: new ∧ SimTiles attr 3 bounds new

theorem entered_tiles_iff {run : Mem Unmapped} {short : Prop}
    (hrun : EntersOrRejects cfg old attr short run)
    (h : run = .ok ⟨true, vps, bounds⟩) :
    TilesBody attr old vps bounds ↔ ∀ b ∈ bounds, wordsAt attr b < 64 := by
  rcases hrun with ⟨-, subtype, sub, -, -, h3, hloop⟩ | ⟨-, hno⟩
  · rw [hloop] at h
    obtain ⟨l, new, rfl, rfl, hiff⟩ := unmapLoop_tiles_iff h (by omega)
    rw [← hiff]
    constructor
    · intro ⟨sub', new', heq, htiles⟩
      rw [List.append_assoc, List.append_cancel_left_eq,
        List.singleton_append, List.cons.injEq] at heq
      rwa [heq.2]
    · intro htiles
      refine ⟨sub, new, ?_, htiles⟩
      rw [List.append_assoc]
      rfl
  · cases hno _ h

theorem entered_yields_iff {run : Mem Unmapped} {subtype : Nat}
    {short : Prop}
    (hnames : ∀ attr, vendorOf attr = 0 → cfg.vpPrintName attr = true)
    (h : PlainAttributes vps)
    (hrun : EntersOrRejects cfg old (bodyOf vps subtype) short run) :
    YieldsBack run old vps subtype
      ↔ ¬ short ∧ ∀ vp ∈ vps.filter eapSimAttribute, vp.length ≤ 250 := by
  have hcreate : paircreate cfg attributeEapSimSubtype .integer ≠ none := by
    obtain ⟨vp, hvp⟩ : ∃ vp,
        paircreate cfg attributeEapSimSubtype .integer = some vp := by
      apply paircreate_isSome
      exact hnames _ (by decide)
    rw [hvp]
    exact Option.some_ne_none vp
  rcases hrun with
    ⟨hlong, first, sub, hhead, hsub, h3, hloop⟩ | ⟨hwhy, hno⟩
  · have hfirst : first = UInt8.ofNat subtype :=
      (Option.some.inj hhead).symm
    have hlen : (bodyOf vps subtype).length - 3
        = (simWire (simRecords vps zeroMac)).length := by
      rw [bodyOf, List.length_append]
      exact Nat.add_sub_cancel_left ..
    rw [and_iff_right hlong, ← unmapLoop_records_iff hnames h
      [UInt8.ofNat subtype, 0, 0] (old ++ [sub]), ← bodyOf, hloop, hlen]
    constructor
    · intro ⟨sub', new, bounds, hok, _, hpadded⟩
      obtain ⟨new', heq, -⟩ := unmapLoop_vps hok (by omega)
      rw [List.append_assoc, List.append_cancel_left_eq,
        List.singleton_append, List.cons.injEq] at heq
      obtain ⟨rfl, -⟩ := heq
      refine ⟨new, bounds, ?_, hpadded⟩
      rw [List.append_assoc]
      exact hok
    · intro ⟨new, bounds, hok, hpadded⟩
      refine ⟨sub, new, bounds, ?_, hfirst ▸ hsub, hpadded⟩
      rw [List.append_assoc] at hok
      exact hok
  · rcases hwhy with hshort | hnone
    · refine iff_of_false ?_ fun hlong => hlong.1 hshort
      rintro ⟨sub, new, bounds, hok, -⟩
      cases hno _ hok
    · exact absurd hnone hcreate

/-- EAP-SIM and EAP-AKA alike: a body is built, and the attributes come back
from it exactly when there are any (or it is an authentication reject of
EAP-AKA) and none has more than 250 bytes; and the pairs made of an accepted
body tile it exactly when no length byte on the way is 64 or more. -/
theorem basictypes_roundTrip_iff
    (hnames : ∀ attr, vendorOf attr = 0 → cfg.vpPrintName attr = true)
    (hmacSha1 : List UInt8 → List UInt8 → Sha1Digest) (pid : Nat)
    (old : List ValuePair) :
    (∀ vps ep, PlainAttributes vps →
      ∃ done ep', mapEapsimBasictypes hmacSha1 pid vps ep = .ok (done, ep')
        ∧ (YieldsBack (unmapEapsimBasictypes cfg old ep'.data) old vps
            (eapNumber vps attributeEapSimSubtype eapsimStart)
          ↔ vps.filter eapSimAttribute ≠ []
            ∧ ∀ vp ∈ vps.filter eapSimAttribute, vp.length ≤ 250))
    ∧ (∀ vps ep, PlainAttributes vps →
      ∃ done ep', mapEapakaBasictypes hmacSha1 pid vps ep = .ok (done, ep')
        ∧ (YieldsBack (unmapEapakaBasictypes cfg old ep'.data) old vps
            (eapNumber vps attributeEapSimSubtype eapakaChallenge)
          ↔ (vps.filter eapSimAttribute ≠ []
              ∨ eapNumber vps attributeEapSimSubtype eapakaChallenge % 256
                = eapakaAuthenticationReject)
            ∧ ∀ vp ∈ vps.filter eapSimAttribute, vp.length ≤ 250))
    ∧ ∀ run attr vps bounds, (run = unmapEapsimBasictypes cfg old attr
        ∨ run = unmapEapakaBasictypes cfg old attr) →
      run = .ok ⟨true, vps, bounds⟩ →
      (TilesBody attr old vps bounds
        ↔ ∀ b ∈ bounds, wordsAt attr b < 64) := by
  refine ⟨?_, ?_, ?_⟩
  · intro vps ep h
    obtain ⟨done, ep', hmap, hbody⟩ := mapEapsim_body hmacSha1 pid ep h
    refine ⟨done, ep', hmap, ?_⟩
    rw [hbody, entered_yields_iff hnames h (unmapEapsim_cases cfg old _),
      SimShort, (bodyOf_length vps _).2]
  · intro vps ep h
    obtain ⟨done, ep', hmap, hbody⟩ := mapEapaka_body hmacSha1 pid ep h
    refine ⟨done, ep', hmap, ?_⟩
    have hshort (subtype : Nat) : ¬ AkaShort (bodyOf vps subtype)
        ↔ vps.filter eapSimAttribute ≠ []
          ∨ subtype % 256 = eapakaAuthenticationReject := by
      obtain ⟨hthree, hfive⟩ := bodyOf_length vps subtype
      have hhead : ((bodyOf vps subtype).getD 0 0).toNat = subtype % 256 :=
        UInt8.toNat_ofNat'
      rw [AkaShort, hhead, hfive, ne_eq, not_or, not_and_or, not_not,
        and_iff_right (Nat.not_lt.mpr hthree), or_comm]
    rw [hbody, entered_yields_iff hnames h (unmapEapaka_cases cfg old _),
      hshort]
  · intro run attr vps bounds hrun hok
    rcases hrun with rfl | rfl
    · exact entered_tiles_iff (unmapEapsim_cases cfg old attr) hok
    · exact entered_tiles_iff (unmapEapaka_cases cfg old attr) hok

/-- One attribute of `n` bytes. -/
def plainPairs (n : Nat) : List ValuePair :=
  [simPair (attributeEapSimBase + 1) (List.replicate n 9)]

theorem plainPairs_attributes {n : Nat} (h : n ≤ 253) :
    PlainAttributes (plainPairs n) where
  no_mac := by
    intro vp hvp
    rw [List.mem_singleton.mp hvp]
    rfl
  lengths := by
    intro vp hvp _
    rw [List.mem_singleton.mp hvp]
    simpa [simPair] using h

/-- Not every list comes back: an attribute of 251 bytes is turned
down. -/
theorem basictypes_long_rejected :
    ¬ ∀ (cfg : Config) (hmacSha1 : List UInt8 → List UInt8 → Sha1Digest)
        (pid : Nat) (vps old : List ValuePair) (ep ep' : EapPacket),
      PlainAttributes vps →
      mapEapsimBasictypes hmacSha1 pid vps ep = .ok (true, ep') →
      YieldsBack (unmapEapsimBasictypes cfg old ep'.data) old vps
        (eapNumber vps attributeEapSimSubtype eapsimStart) := by
  intro h
  let body : List UInt8 :=
    [10, 0, 0] ++ (1 :: 64 :: List.replicate 251 9 ++ [0, 0, 0])
  have hmap : mapEapsimBasictypes zeroDigest 0 (plainPairs 251) {}
      = .ok (true, { code := 1, id := 0, type := 18, data := body }) := by
    decide +kernel
  obtain ⟨sub, new, bounds, hok, -, -⟩ := h bareConfig zeroDigest 0
    (plainPairs 251) [] {} _ (plainPairs_attributes (by omega)) hmap
  have hno : (unmapEapsimBasictypes bareConfig [] body).map Unmapped.ret
      = .ok false := by
    decide +kernel
  rw [hok] at hno
  cases hno

/-- A value of three bytes comes back with three bytes of padding; a body
without attributes is turned down. -/
theorem basictypes_roundTrip_three :
    YieldsBack (unmapEapsimBasictypes bareConfig []
        ([10, 0, 0] ++ [1, 2, 9, 9, 9, 0, 0, 0])) [] (plainPairs 3)
      eapsimStart
    ∧ ¬ YieldsBack (unmapEapsimBasictypes bareConfig [] [10, 0, 0]) [] []
      eapsimStart := by
  have hall := (@basictypes_roundTrip_iff bareConfig
    (fun _ _ => rfl) zeroDigest 0 []).1
  constructor
  · obtain ⟨done, ep', hmap, hiff⟩ := hall (plainPairs 3) {}
      (plainPairs_attributes (by omega))
    have hthree : mapEapsimBasictypes zeroDigest 0 (plainPairs 3) {}
        = .ok (true, { code := 1, id := 0, type := 18
                       data := [10, 0, 0] ++ [1, 2, 9, 9, 9, 0, 0, 0] }) := by
      decide
    cases hthree.symm.trans hmap
    exact hiff.mpr (by decide)
  · obtain ⟨done, ep', hmap, hiff⟩ := hall [] {}
      ⟨fun _ h => absurd h List.not_mem_nil,
        fun _ h => absurd h List.not_mem_nil⟩
    have hempty : mapEapsimBasictypes zeroDigest 0 [] {}
        = .ok (false, { code := 1, id := 0, type := 18
                        data := [10, 0, 0] }) := by
      decide
    cases hempty.symm.trans hmap
    exact fun hback => (hiff.mp hback).1 rfl

end WinRadius
