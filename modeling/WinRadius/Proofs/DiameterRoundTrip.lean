/-
`vp2diameter` and back.

What `vp2diameter` writes is a framed list of AVPs, one for each pair,
with the number of the pair and its `wireBytes` (`vp2diameter_wire`), so
`diameter_verify` accepts it and `diameter2vp` runs over those records.
Whether a value comes back is then a matter of one pair
(`outcomeOf_written`): the types `vp2diameter` has no case for are copied
out of the string, where bytes, shorts and signed integers are not, or
not in network order.
-/
import WinRadius.Proofs.DiameterOrigin

namespace WinRadius

open Lib

variable {cfg : Config} {challenge : AuthVector} {a : Avp}
  {vp w : ValuePair} {vps : List ValuePair} {buffer out : List UInt8}

-- ======== values

/-- The types of RADIUS attributes. -/
def PwType.radius : PwType → Bool
  | .integer | .date | .ipaddr | .byte | .short | .signed | .string
  | .octets | .ipv6addr | .ipv6Prefix => true
  | _ => false

/-- An attribute that may go into a tunnel: a standard or a vendor's
number, the dictionary's type, and a value of the length of its type. -/
structure TunnelPair (cfg : Config) (vp : ValuePair) : Prop where
  number : vp.attr ≤ 255 ∨ (vendorOf vp.attr ≠ 0 ∧ vp.attr < 4294967296)
  type : vp.type.radius = true
  nonempty : 0 < vp.length
  length_le : vp.length ≤ 253
  fixed : vp.type.converted = true → vp.length = typeLength vp.type
  known : ∀ da, cfg.dict.attrbyvalue vp.attr = some da → da.type = vp.type
  unknown : cfg.dict.attrbyvalue vp.attr = none →
    vp.type = .octets ∧ cfg.vpPrintName vp.attr = true
  plain : vp.attr ≠ pwUserPassword ∧ vp.attr ≠ pwChapChallenge
    ∧ vp.attr ≠ pwMschapChallenge

/-- The same attribute with the same value. -/
def SameAttribute (vp w : ValuePair) : Prop :=
  w.attr = vp.attr ∧ w.type = vp.type ∧ w.length = vp.length
    ∧ match vp.type with
      | .integer | .date | .ipaddr | .byte | .short => w.lvalue = vp.lvalue
      | .signed => w.sinteger = vp.sinteger
      | _ => w.octets vp.length = vp.octets vp.length

/-- The value is what its bytes in the string say: a byte or a short also
lies there, and a signed integer is its own byte swap. -/
def Survives (vp : ValuePair) : Prop :=
  match vp.type with
  | .byte => ((vp.octets 1).getD 0 0).toUInt32 = vp.lvalue
  | .short => ((vp.octets 2).getD 0 0).toUInt32 * 256
      + ((vp.octets 2).getD 1 0).toUInt32 = vp.lvalue
  | .signed => ofBe32 (vp.octets 4) = vp.sinteger
  | _ => True

/-- The bytes `vp2diameter` writes for a value. -/
def wireBytes (vp : ValuePair) : List UInt8 :=
  match vp.type with
  | .integer | .date => be32 vp.lvalue
  | .ipaddr => le32 vp.lvalue
  | _ => vp.octets vp.length

theorem diameterValue_eq (h : TunnelPair cfg vp) :
    diameterValue vp = .ok (wireBytes vp) := by
  have hle := h.length_le
  unfold diameterValue wireBytes
  cases vp.type with
  | integer | date | ipaddr => rfl
  | byte | short | signed | string | octets | ipv6addr | ipv6Prefix
  | abinary | ifid | ethernet | comboIp | tlv => exact if_neg (by omega)

theorem wireBytes_length (h : TunnelPair cfg vp) :
    (wireBytes vp).length = vp.length := by
  have hfixed := h.fixed
  unfold wireBytes
  cases ht : vp.type with
  | integer | date | ipaddr =>
      rw [ht] at hfixed
      exact (hfixed rfl).symm
  | byte | short | signed | string | octets | ipv6addr | ipv6Prefix
  | abinary | ifid | ethernet | comboIp | tlv => exact padTake_length _ _

-- ======== writing

/-- The record `vp2diameter` writes for a pair. -/
structure Writes (vp : ValuePair) (a : Avp) : Prop where
  padded : a.Padded
  number : numberOf a = some vp.attr
  value : a.value = wireBytes vp

/-- The bytes of one pair are those of a record. -/
theorem header_record (h : TunnelPair cfg vp) : ∃ a, Writes vp a
    ∧ a.bytes = diameterHeader vp ++ wireBytes vp
        ++ List.replicate (roundUp4 a.length - a.length) 0 := by
  have hlen := wireBytes_length h
  have hpos := h.nonempty
  have hle := h.length_le
  by_cases hv : vendorOf vp.attr = 0
  · have hattr : vp.attr ≤ 255 := by
      rcases h.number with hn | hn
      · exact hn
      · exact absurd hv hn.1
    obtain ⟨a, hcode, hvid, hvalue, hpad, hbytes⟩ :=
      exists_padded (UInt32.ofNat vp.attr) 64 none (wireBytes vp)
        (by decide) (by omega)
        (by rw [Option.isSome_none, if_neg Bool.false_ne_true]; omega)
    refine ⟨a, ⟨hpad, ?_, hvalue⟩, ?_⟩
    · rw [numberOf, hvid, hcode, UInt32.toNat_ofNat',
        Nat.mod_eq_of_lt (by omega)]
    · rw [hbytes, diameterHeader, hv, hlen,
        show vp.length + 1073741824 + 8
          = (64 : UInt8).toNat * 16777216 + (8 + vp.length) by
            change _ = 64 * 16777216 + _
            omega]
      rfl
  · have hattr : vp.attr < 4294967296 := by
      rcases h.number with hn | hn
      · omega
      · exact hn.2
    have hdiv : ¬ vp.attr / 65536 = 0 := by
      rwa [vendorOf_eq hattr] at hv
    obtain ⟨a, hcode, hvid, hvalue, hpad, hbytes⟩ :=
      exists_padded (UInt32.ofNat (vp.attr % 65536)) 192
        (some (UInt32.ofNat (vendorOf vp.attr))) (wireBytes vp)
        (iff_of_true rfl (by decide)) (by omega)
        (by rw [Option.isSome_some, if_pos rfl]; omega)
    refine ⟨a, ⟨hpad, ?_, hvalue⟩, ?_⟩
    · rw [numberOf, hvid, hcode]
      simp only [UInt32.toNat_ofNat', vendorOf_eq hattr]
      rw [if_neg (by omega), or_shift (by omega), Option.some.injEq]
      omega
    · have hheader : diameterHeader vp
          = be32 (UInt32.ofNat (vp.attr % 65536))
            ++ (be32 (UInt32.ofNat
                  (vp.length + 2147483648 + 1073741824 + 8 + 4))
              ++ be32 (UInt32.ofNat (vendorOf vp.attr))) := if_pos hv
      rw [hbytes, hheader, hlen,
        show vp.length + 2147483648 + 1073741824 + 8 + 4
          = (192 : UInt8).toNat * 16777216 + (12 + vp.length) by
            change _ = 192 * 16777216 + _
            omega]
      rfl

/-- What the loop writes is a list of records, one for each pair. -/
theorem vp2diameterLoop_wire (h : ∀ vp ∈ vps, TunnelPair cfg vp)
    (halign : buffer.length % 4 = 0)
    (hrun : vp2diameterLoop vps buffer = .ok (some out)) :
    ∃ as, List.Forall₂ Writes vps as ∧ out = buffer ++ avpWire as := by
  induction vps generalizing buffer with
  | nil =>
      cases hrun
      exact ⟨[], .nil, (List.append_nil _).symm⟩
  | cons vp vps ih =>
      obtain ⟨a, hw, hbytes⟩ := header_record (h vp List.mem_cons_self)
      have hlen : a.length = (diameterHeader vp ++ wireBytes vp).length := by
        have hb := congrArg List.length hbytes
        have hp := hw.padded
        rw [a.bytes_length, List.length_append, List.length_replicate] at hb
        rw [Avp.Padded] at hp
        omega
      rw [vp2diameterLoop] at hrun
      split at hrun
      next => cases hrun
      next =>
      rw [diameterValue_eq (h vp List.mem_cons_self), ok_bind] at hrun
      dsimp only at hrun
      rw [@List.length_append _ buffer, ← hlen, roundUp4_add halign,
        Nat.add_sub_add_left, List.append_assoc buffer, ← hbytes] at hrun
      split at hrun
      next => cases hrun
      next =>
        have hround := roundUp4_mod a.length
        have hp := hw.padded
        have hb := a.bytes_length
        rw [Avp.Padded] at hp
        obtain ⟨as, has, hout⟩ := ih
          (fun v hv => h v (List.mem_cons_of_mem vp hv))
          (by rw [List.length_append]; omega) hrun
        refine ⟨a :: as, .cons hw has, ?_⟩
        rw [hout, avpWire_cons, List.append_assoc]

theorem written_padded {as : List Avp} (h : List.Forall₂ Writes vps as) :
    ∀ a ∈ as, a.Padded := by
  induction h with
  | nil =>
      intro a ha
      cases ha
  | cons hw _ ih => exact List.forall_mem_cons.mpr ⟨hw.padded, ih⟩

-- ======== reading back

/-- A pair as `paircreate` makes it for an attribute of a tunnel. -/
theorem paircreate_tunnel (h : TunnelPair cfg vp) :
    ∃ r, paircreate cfg vp.attr .octets = some r ∧ Fresh cfg vp.attr r
      ∧ r.type = vp.type ∧ (vp.type.converted = true → r.length = vp.length)
      := by
  cases hda : cfg.dict.attrbyvalue vp.attr with
  | some da =>
      have hsome : paircreate cfg vp.attr .octets
          = some { pairalloc (some da) with op := .opEq } := by
        rw [paircreate, hda]
      refine ⟨_, hsome, paircreate_fresh hsome, h.known da hda, ?_⟩
      intro hc
      rw [h.fixed hc, ← h.known da hda]
      rfl
  | none =>
      obtain ⟨ht, hname⟩ := h.unknown hda
      obtain ⟨r, hr⟩ := paircreate_isSome .octets hname
      have hf := paircreate_fresh hr
      refine ⟨r, hr, hf, ?_, ?_⟩
      · rw [hf.unknown hda, ht]
      · intro hc
        rw [ht] at hc
        cases hc

theorem fixedAvp_ok {r : ValuePair} {value : List UInt8}
    (h : value.length = r.length) (store : List UInt8 → ValuePair) :
    fixedAvp cfg value 0 value.length r store = .ok (store value) := by
  rw [fixedAvp, if_neg (by omega), fetchN_all]
  rfl

/-- The value of a written record. -/
theorem avpValue_written {r : ValuePair} (h : TunnelPair cfg vp)
    (hf : Fresh cfg vp.attr r) (ht : r.type = vp.type)
    (hl : vp.type.converted = true → r.length = vp.length) :
    ∃ w, avpValue cfg (wireBytes vp) 0 (wireBytes vp).length r = .ok w
      ∧ w.attr = vp.attr ∧ (SameAttribute vp w ↔ Survives vp) := by
  have hlen := wireBytes_length h
  have hrad := h.type
  have hconv (hc : vp.type.converted = true) :
      (wireBytes vp).length = r.length := by
    rw [hlen, hl hc]
  unfold avpValue SameAttribute Survives
  cases hvt : vp.type with
  | abinary | ifid | ethernet | comboIp | tlv =>
      rw [hvt] at hrad
      cases hrad
  | integer | date =>
      rw [ht, hvt]
      rw [hvt] at hconv hl
      refine ⟨_, fixedAvp_ok (hconv rfl) _, hf.number,
        iff_of_true ⟨hf.number, rfl, hl rfl, ?_⟩ trivial⟩
      change ofBe32 (wireBytes vp) = _
      rw [wireBytes, hvt]
      exact ofBe32_be32 _
  | ipaddr =>
      rw [ht, hvt]
      rw [hvt] at hconv hl
      refine ⟨_, fixedAvp_ok (hconv rfl) _, hf.number,
        iff_of_true ⟨hf.number, rfl, hl rfl, ?_⟩ trivial⟩
      change ofLe32 (wireBytes vp) = _
      rw [wireBytes, hvt]
      exact ofLe32_le32 _
  | byte =>
      rw [ht, hvt]
      rw [hvt] at hconv hl
      have hbytes : wireBytes vp = vp.octets 1 := by
        rw [wireBytes, hvt, h.fixed (by rw [hvt]; rfl), hvt]
        rfl
      refine ⟨_, fixedAvp_ok (hconv rfl) _, hf.number, ?_⟩
      change (_ ∧ _ ∧ _ ∧ ((wireBytes vp).getD 0 0).toUInt32 = _) ↔ _
      rw [hbytes]
      constructor
      · intro hsame
        exact hsame.2.2.2
      · intro hval
        exact ⟨hf.number, rfl, hl rfl, hval⟩
  | short =>
      rw [ht, hvt]
      rw [hvt] at hconv hl
      have hbytes : wireBytes vp = vp.octets 2 := by
        rw [wireBytes, hvt, h.fixed (by rw [hvt]; rfl), hvt]
        rfl
      refine ⟨_, fixedAvp_ok (hconv rfl) _, hf.number, ?_⟩
      change (_ ∧ _ ∧ _ ∧ ((wireBytes vp).getD 0 0).toUInt32 * 256
        + ((wireBytes vp).getD 1 0).toUInt32 = _) ↔ _
      rw [hbytes]
      constructor
      · intro hsame
        exact hsame.2.2.2
      · intro hval
        exact ⟨hf.number, rfl, hl rfl, hval⟩
  | signed =>
      rw [ht, hvt]
      rw [hvt] at hconv hl
      have hbytes : wireBytes vp = vp.octets 4 := by
        rw [wireBytes, hvt, h.fixed (by rw [hvt]; rfl), hvt]
        rfl
      refine ⟨_, fixedAvp_ok (hconv rfl) _, hf.number, ?_⟩
      have hread : (r.setOctets (le32 (ofBe32 (wireBytes vp)))).sinteger
          = ofBe32 (vp.octets 4) := by
        have ho : (r.setOctets (le32 (ofBe32 (vp.octets 4)))).octets 4
            = le32 (ofBe32 (vp.octets 4)) := octets_setOctets hf.data
        rw [hbytes, ValuePair.sinteger, ho, ofLe32_le32]
      change (_ ∧ _ ∧ _ ∧ (r.setOctets
        (le32 (ofBe32 (wireBytes vp)))).sinteger = _) ↔ _
      rw [hread]
      constructor
      · intro hsame
        exact hsame.2.2.2
      · intro hval
        exact ⟨hf.number, ht.trans hvt, hl rfl, hval⟩
  | string | octets =>
      rw [ht, hvt, fetchN_all, onMemory_ok, ok_bind]
      have hbytes : wireBytes vp = vp.octets vp.length := by
        rw [wireBytes, hvt]
      refine ⟨_, rfl, hf.number,
        iff_of_true ⟨hf.number, rfl, hlen, ?_⟩ trivial⟩
      rw [← hbytes, ← hlen]
      exact octets_setOctets hf.data
  | ipv6addr | ipv6Prefix =>
      rw [ht, hvt]
      rw [hvt] at hconv hl
      refine ⟨_, fixedAvp_ok (hconv rfl) _, hf.number,
        iff_of_true ⟨hf.number, ht.trans hvt, hl rfl, ?_⟩ trivial⟩
      have hbytes : wireBytes vp = vp.octets vp.length := by
        rw [wireBytes, hvt]
      rw [← hbytes, ← hlen]
      exact octets_setOctets hf.data

/-- A short EAP message is read as any string is. -/
theorem eapMessageLoop_value {data : List UInt8} {attr fuel size : Nat}
    {pos : Int} {r : ValuePair} (ht : r.type = .octets)
    (h : size ≤ 253) :
    eapMessageLoop cfg data attr (fuel + 1) pos size r []
      = (avpValue cfg data pos size r).map fun w => .linked [w] := by
  rw [eapMessageLoop_single h]
  simp only [avpValue, ht]
  cases onMemory (fetchN data pos size) with
  | error e => rfl
  | ok bytes => rfl

/-- One record comes back as a pair of the attribute, with the value
exactly when that survives. -/
theorem outcomeOf_written (challenge : AuthVector) (h : TunnelPair cfg vp)
    (hw : Writes vp a) :
    ∃ w, outcomeOf cfg challenge a = .ok (.linked [w])
      ∧ (SameAttribute vp w ↔ Survives vp) := by
  obtain ⟨r, hr, hf, ht, hl⟩ := paircreate_tunnel h
  have hlen := wireBytes_length h
  have hle := h.length_le
  have hstd : ¬ (255 < vp.attr ∧ vendorOf vp.attr = 0) := by
    intro hno
    rcases h.number with hn | hn
    · omega
    · exact hn.1 hno.2
  rw [outcomeOf, hw.number, hw.value]
  simp only [avpPair]
  rw [if_neg hstd, if_neg (by omega), hr]
  obtain ⟨w, hv, hattr, hsame⟩ := avpValue_written h hf ht hl
  refine ⟨w, ?_, hsame⟩
  simp only
  split
  next heap =>
    rw [eapMessageLoop_value heap.1 (by omega), hv]
    rfl
  next =>
    rw [hv, ok_bind, checkAvp, hattr, if_neg h.plain.1,
      if_neg (not_or.mpr h.plain.2)]

/-- The records of a list of pairs come back as a list of pairs. -/
theorem runAvps_written {as : List Avp} {pos : Nat} {visited : List Int}
    {first : List (Int × ValuePair)}
    (h : ∀ vp ∈ vps, TunnelPair cfg vp) (hw : List.Forall₂ Writes vps as) :
    ∃ d ws, runAvps cfg challenge pos as visited first = .ok d
      ∧ d.vps = some (first ++ ws)
      ∧ (List.Forall₂ SameAttribute vps (ws.map Prod.snd)
        ↔ ∀ vp ∈ vps, Survives vp) := by
  induction hw generalizing pos visited first with
  | nil =>
      exact ⟨_, [], rfl, congrArg some (List.append_nil _).symm,
        iff_of_true .nil fun vp hvp => (List.not_mem_nil hvp).elim⟩
  | @cons vp a vps as hwa hws ih =>
      obtain ⟨w, hrun, hsame⟩ :=
        outcomeOf_written challenge (h vp List.mem_cons_self) hwa
      obtain ⟨d, ws, hd, hvps, hiff⟩ := @ih (pos + a.bytes.length)
        (visited ++ [(pos : Int)]) (first ++ [((pos : Int), w)])
        fun v hv => h v (List.mem_cons_of_mem vp hv)
      refine ⟨d, ((pos : Int), w) :: ws, ?_, ?_, ?_⟩
      · rw [runAvps, hrun, ok_bind]
        exact hd
      · rw [hvps, List.append_assoc]
        rfl
      · rw [List.map_cons, List.forall₂_cons, hsame, hiff,
          List.forall_mem_cons]

/-- `diameter_verify` accepts what `vp2diameter` writes, and `diameter2vp`
makes a list of it, which holds the same attributes with the same values
in the same order exactly when every value survives. -/
theorem vp2diameter_roundTrip (challenge : AuthVector)
    (h : ∀ vp ∈ vps, TunnelPair cfg vp)
    (hrun : vp2diameter vps = .ok (some out)) :
    ∃ seen d ws, diameterVerify out = .ok (some seen)
      ∧ diameter2vp cfg challenge out = .ok d ∧ d.vps = some ws
      ∧ (List.Forall₂ SameAttribute vps (ws.map Prod.snd)
        ↔ ∀ vp ∈ vps, Survives vp) := by
  obtain ⟨as, hw, rfl⟩ := vp2diameterLoop_wire h rfl hrun
  have has : Framed as := framed_of_padded (written_padded hw)
  rw [List.nil_append]
  obtain ⟨d, ws, hd, hvps, hiff⟩ :=
    @runAvps_written cfg challenge vps as 0 [] [] h hw
  refine ⟨_, d, ws, diameterVerify_iff.mpr ⟨as, has, rfl, rfl⟩, ?_, hvps,
    hiff⟩
  rw [diameter2vp_wire has, hd]

/-- A dictionary with an integer, a short and a string. -/
def shortDict : Dict :=
  .ofEntries [⟨27, .integer, 0, {}⟩, ⟨200, .short, 0, {}⟩,
    ⟨1, .string, 0, {}⟩] []

def shortConfig : Config := { bareConfig with dict := shortDict }

/-- `Session-Timeout = 300`. -/
def timeoutPair : ValuePair :=
  { attr := 27, type := .integer, length := 4, lvalue := 300 }

/-- A short with the value 5. -/
def shortPair : ValuePair :=
  { attr := 200, type := .short, length := 2, lvalue := 5 }

/-- The short as it comes back. -/
def zeroPair : ValuePair :=
  { attr := 200, type := .short, length := 2, lvalue := 0 }

/-- `User-Name = "bob"`. -/
def bobPair : ValuePair :=
  { attr := 1, type := .string, length := 3
    data := [98, 111, 98] }

theorem tunnelPair_short :
    ∀ vp ∈ [timeoutPair, shortPair, zeroPair, bobPair],
      TunnelPair shortConfig vp := by
  intro vp hvp
  simp only [List.mem_cons, List.not_mem_nil, or_false] at hvp
  rcases hvp with rfl | rfl | rfl | rfl
  · refine ⟨by decide, rfl, by decide, by decide, fun _ => rfl, ?_, ?_,
      by decide⟩
    · intro da hda
      cases hda
      rfl
    · intro hda
      cases hda
  · refine ⟨by decide, rfl, by decide, by decide, fun _ => rfl, ?_, ?_,
      by decide⟩
    · intro da hda
      cases hda
      rfl
    · intro hda
      cases hda
  · refine ⟨by decide, rfl, by decide, by decide, fun _ => rfl, ?_, ?_,
      by decide⟩
    · intro da hda
      cases hda
      rfl
    · intro hda
      cases hda
  · refine ⟨by decide, rfl, by decide, by decide, (fun h => by cases h), ?_,
      ?_, by decide⟩
    · intro da hda
      cases hda
      rfl
    · intro hda
      cases hda

/-- What `vp2diameter` writes for the two: the short is two zeros. -/
def shortBytes : List UInt8 :=
  [0, 0, 0, 27, 0x40, 0, 0, 12, 0, 0, 1, 44]
    ++ [0, 0, 0, 200, 0x40, 0, 0, 10, 0, 0, 0, 0]

/-- Not every value comes back: of an integer and a short only the
integer does. -/
theorem vp2diameter_loses :
    ¬ ∀ (cfg : Config) (challenge : AuthVector) (vps : List ValuePair)
        (out : List UInt8), (∀ vp ∈ vps, TunnelPair cfg vp) →
      vp2diameter vps = .ok (some out) →
      ∃ seen d ws, diameterVerify out = .ok (some seen)
        ∧ diameter2vp cfg challenge out = .ok d ∧ d.vps = some ws
        ∧ List.Forall₂ SameAttribute vps (ws.map Prod.snd) := by
  intro h
  have hrun : vp2diameter [timeoutPair, shortPair]
      = .ok (some shortBytes) := rfl
  obtain ⟨seen, d, ws, -, hd, hws, hsame⟩ := h shortConfig .zero
    [timeoutPair, shortPair] shortBytes (fun vp hvp => tunnelPair_short vp
      (List.mem_append_left [zeroPair, bobPair] hvp)) hrun
  have hback : diameter2vp shortConfig .zero shortBytes
      = .ok ⟨[0, 12], some [(0, timeoutPair), (12, zeroPair)]⟩ := rfl
  rw [hback] at hd
  cases hd
  cases hws
  obtain ⟨-, hrest⟩ := List.forall₂_cons.mp hsame
  obtain ⟨hshort, -⟩ := List.forall₂_cons.mp hrest
  have hval : (0 : UInt32) = 5 := hshort.2.2.2
  cases hval

/-- An integer, a short that is zero and a string: each of them comes
back. -/
theorem vp2diameter_roundTrip_three : ∃ out seen d ws,
    vp2diameter [timeoutPair, zeroPair, bobPair] = .ok (some out)
      ∧ diameterVerify out = .ok (some seen)
      ∧ diameter2vp shortConfig .zero out = .ok d ∧ d.vps = some ws
      ∧ List.Forall₂ SameAttribute [timeoutPair, zeroPair, bobPair]
        (ws.map Prod.snd) := by
  have hpair : ∀ vp ∈ [timeoutPair, zeroPair, bobPair],
      TunnelPair shortConfig vp := by
    intro vp hvp
    refine tunnelPair_short vp ?_
    rcases List.mem_cons.mp hvp with rfl | hvp
    · exact List.mem_cons_self
    · exact List.mem_cons_of_mem _ (List.mem_cons_of_mem _ hvp)
  have hlive : ∀ vp ∈ [timeoutPair, zeroPair, bobPair], Survives vp := by
    intro vp hvp
    simp only [List.mem_cons, List.not_mem_nil, or_false] at hvp
    rcases hvp with rfl | rfl | rfl
    · trivial
    · show _ = _
      decide
    · trivial
  have hrun : vp2diameter [timeoutPair, zeroPair, bobPair]
      = .ok (some (shortBytes ++ [0, 0, 0, 1, 0x40, 0, 0, 11]
        ++ [98, 111, 98, 0])) := rfl
  obtain ⟨seen, d, ws, hseen, hd, hws, hiff⟩ :=
    vp2diameter_roundTrip .zero hpair hrun
  exact ⟨_, seen, d, ws, hrun, hseen, hd, hws, hiff.mpr hlive⟩

end WinRadius
