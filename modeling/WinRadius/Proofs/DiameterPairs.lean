/-
What `diameter2vp` makes of one AVP, from the code down to the pair.

`decodedNumber` is the attribute number of an AVP the code does not skip.
Over such an AVP three things can happen, and `outcomeOf_cases` tells them
apart: the allocation fails and the function returns; the attribute has a
type of one size and another size was sent, and the pair `raw:` asks for
is `NULL`; or there is a pair with the bytes of the value
(`Stored`), which then goes through `checkAvp`.
-/
import WinRadius.Proofs.DiameterRun

namespace WinRadius

open Lib

variable {cfg : Config} {challenge : AuthVector} {a : Avp} {attr : Nat}
  {vp vp' : ValuePair} {value : List UInt8}

-- ======== numbers

/-- The attribute number of an AVP that is made a pair of. -/
def decodedNumber (a : Avp) : Option Nat :=
  (numberOf a).filter fun attr =>
    !(decide (255 < attr ∧ vendorOf attr = 0)
      || decide (253 < a.value.length))

theorem decodedNumber_eq_some :
    decodedNumber a = some attr ↔ numberOf a = some attr
      ∧ ¬ (255 < attr ∧ vendorOf attr = 0) ∧ a.value.length ≤ 253 := by
  rw [decodedNumber, Option.filter_eq_some_iff]
  simp only [Bool.not_eq_true', Bool.or_eq_false_iff,
    decide_eq_false_iff_not, not_lt]

/-- An AVP without a number is skipped. -/
theorem outcomeOf_skipped (h : decodedNumber a = none) :
    outcomeOf cfg challenge a = .ok .skipped := by
  unfold outcomeOf
  cases hn : numberOf a with
  | none => rfl
  | some attr =>
      rw [decodedNumber, hn, Option.filter_eq_none_iff] at h
      have h := h attr rfl
      simp only [Bool.not_eq_true', Bool.not_eq_false, Bool.or_eq_true,
        decide_eq_true_eq] at h
      simp only [avpPair]
      rcases h with h | h
      · rw [if_pos h]
      · rw [if_pos h, ite_self]

-- ======== sizes

/-- The types `diameter2vp` has one size for. -/
def PwType.converted : PwType → Bool
  | .integer | .date | .ipaddr | .byte | .short | .signed | .ipv6addr
  | .ipv6Prefix => true
  | _ => false

/-- `raw:` has no pair to fill: `n` bytes for an attribute of the
dictionary whose type has another size. -/
def wrongSize (cfg : Config) (attr n : Nat) : Bool :=
  (cfg.dict.attrbyvalue attr).any fun da : DictAttr =>
    da.type.converted && n != typeLength da.type
      && !(da.flags.unknownAttr && cfg.vpPrintName attr)

theorem wrongSize_fresh (h : Fresh cfg attr vp) {n : Nat} :
    wrongSize cfg attr n = true ↔ vp.type.converted = true
      ∧ n ≠ vp.length ∧ paircreateRaw cfg vp.attr .octets vp = none := by
  unfold wrongSize paircreateRaw
  cases hda : cfg.dict.attrbyvalue attr with
  | none =>
      rw [h.unknown hda]
      simp [PwType.converted]
  | some da =>
      obtain ⟨ht, hf⟩ := h.known da hda
      rw [h.length, ht, hf, h.number]
      cases hu : da.flags.unknownAttr <;> cases cfg.vpPrintName attr <;>
        simp [hu]

-- ======== values

/-- A pair that holds the bytes of a value. -/
structure Stored (vp : ValuePair) (value : List UInt8) (vp' : ValuePair) :
    Prop where
  number : vp'.attr = vp.attr
  length : vp'.length = value.length
  octets : 8 ≤ value.length → vp'.octets value.length = value
  pointer : vp'.type = .tlv ↔ vp.type = .tlv
  pointed : vp'.type = .tlv → vp'.data = value

/-- A pair whose string is the value. -/
theorem stored_setOctets {r : ValuePair} (hattr : r.attr = vp.attr)
    (hdata : r.data = []) (hlen : r.length = value.length)
    (ht : r.type = .tlv ↔ vp.type = .tlv) :
    Stored vp value (r.setOctets value) :=
  ⟨hattr, hlen, fun _ => octets_setOctets hdata, ht,
    fun _ => setOctets_data hdata⟩

/-- The two ends of `switch (vp->type)`. -/
def Reads (cfg : Config) (attr : Nat) (vp : ValuePair)
    (value : List UInt8) (run : Except DiameterFault ValuePair) : Prop :=
  (wrongSize cfg attr value.length = true
      ∧ run = .error (.memory .nullDeref))
    ∨ (wrongSize cfg attr value.length = false
      ∧ ∃ vp', Stored vp value vp' ∧ run = .ok vp')

/-- A type of one size, on the bytes of the value. -/
theorem fixedAvp_reads (h : Fresh cfg attr vp)
    (hc : vp.type.converted = true) (store : List UInt8 → ValuePair)
    (hstore : value.length = vp.length → Stored vp value (store value)) :
    Reads cfg attr vp value
      (fixedAvp cfg value 0 value.length vp store) := by
  have hw := wrongSize_fresh h (n := value.length)
  unfold fixedAvp rawAvp
  rw [fetchN_all]
  simp only [onMemory_ok, ok_bind]
  split
  next hne =>
    cases hraw : paircreateRaw cfg vp.attr .octets vp with
    | none => exact Or.inl ⟨hw.mpr ⟨hc, hne, hraw⟩, rfl⟩
    | some r =>
        have hno : wrongSize cfg attr value.length = false := by
          rw [Bool.eq_false_iff]
          intro hyes
          cases hraw.symm.trans (hw.mp hyes).2.2
        refine Or.inr ⟨hno, _, ?_, rfl⟩
        unfold paircreateRaw at hraw
        split at hraw
        · cases hraw
        · split at hraw
          · cases hraw
            refine stored_setOctets rfl h.data rfl ?_
            constructor
            · intro ht
              cases ht
            · intro ht
              rw [ht] at hc
              cases hc
          · cases hraw
  next heq =>
    refine Or.inr ⟨?_, _, hstore (not_not.mp heq), rfl⟩
    rw [Bool.eq_false_iff]
    intro hyes
    exact heq (hw.mp hyes).2.1

/-- Any other type takes the bytes as they are. -/
theorem plain_reads (h : Fresh cfg attr vp)
    (hc : vp.type.converted = false) :
    Reads cfg attr vp value (do
      let bytes ← onMemory (fetchN value 0 value.length)
      .ok ({ vp with length := value.length }.setOctets bytes)) := by
  rw [fetchN_all, onMemory_ok, ok_bind]
  have hst : Stored vp value
      ({ vp with length := value.length }.setOctets value) :=
    stored_setOctets rfl h.data rfl Iff.rfl
  refine Or.inr ⟨?_, _, hst, rfl⟩
  rw [Bool.eq_false_iff]
  intro hyes
  rw [((wrongSize_fresh h).mp hyes).1] at hc
  cases hc

/-- A pair of a type shorter than a challenge. -/
theorem stored_word {r : ValuePair} (hattr : r.attr = vp.attr)
    (hlen : r.length = value.length) (hshort : value.length < 8)
    (ht : r.type = vp.type) (hc : vp.type.converted = true) :
    Stored vp value r := by
  refine ⟨hattr, hlen, fun h8 => by omega, by rw [ht], fun htlv => ?_⟩
  rw [← ht, htlv] at hc
  cases hc

/-- `switch (vp->type)` on the bytes of the value. -/
theorem avpValue_reads (h : Fresh cfg attr vp) :
    Reads cfg attr vp value (avpValue cfg value 0 value.length vp) := by
  have hlen := h.length
  have hword (t : PwType) (ht : vp.type = t) (hc : t.converted = true)
      (hshort : typeLength t < 8) (store : List UInt8 → ValuePair)
      (hstore : (store value).attr = vp.attr
        ∧ (store value).length = vp.length
        ∧ (store value).type = vp.type) :
      Reads cfg attr vp value
        (fixedAvp cfg value 0 value.length vp store) := by
    subst ht
    apply fixedAvp_reads h hc
    intro hl
    exact stored_word hstore.1 (hstore.2.1.trans hl.symm) (by omega)
      hstore.2.2 hc
  have hbytes (hc : vp.type.converted = true) :
      Reads cfg attr vp value (fixedAvp cfg value 0 value.length vp
        fun bs => vp.setOctets bs) := by
    apply fixedAvp_reads h hc
    intro hl
    exact stored_setOctets rfl h.data hl.symm Iff.rfl
  unfold avpValue
  split
  next ht => exact hword _ ht rfl (by decide) _ ⟨rfl, rfl, rfl⟩
  next ht => exact hword _ ht rfl (by decide) _ ⟨rfl, rfl, rfl⟩
  next ht => exact hword _ ht rfl (by decide) _ ⟨rfl, rfl, rfl⟩
  next ht => exact hword _ ht rfl (by decide) _ ⟨rfl, rfl, rfl⟩
  next ht => exact hword _ ht rfl (by decide) _ ⟨rfl, rfl, rfl⟩
  next ht => exact hword _ ht rfl (by decide) _ ⟨rfl, rfl, rfl⟩
  next ht => exact hbytes (by rw [ht]; rfl)
  next ht => exact hbytes (by rw [ht]; rfl)
  next =>
    apply plain_reads h
    cases ht : vp.type with
    | integer | date | ipaddr | byte | short | signed | ipv6addr
    | ipv6Prefix => contradiction
    | string | abinary | octets | ifid | ethernet | comboIp | tlv => rfl

-- ======== one AVP

/-- Everything `diameter2vp` does with an AVP that has a number. -/
theorem outcomeOf_cases (hn : decodedNumber a = some attr) :
    (paircreate cfg attr .octets = none
        ∧ outcomeOf cfg challenge a = .ok (.refused []))
      ∨ ∃ vp, paircreate cfg attr .octets = some vp
        ∧ ((wrongSize cfg attr a.value.length = true
            ∧ outcomeOf cfg challenge a = .error (.memory .nullDeref))
          ∨ (wrongSize cfg attr a.value.length = false
            ∧ ∃ vp', Stored vp a.value vp'
              ∧ outcomeOf cfg challenge a
                = .ok (checkAvp challenge vp'))) := by
  obtain ⟨hnum, hstd, hsize⟩ := decodedNumber_eq_some.mp hn
  have hrun : outcomeOf cfg challenge a
      = avpPair cfg challenge a.value 0 attr a.value.length := by
    rw [outcomeOf, hnum]
  rw [hrun, avpPair, if_neg hstd, if_neg (by omega)]
  cases hvp : paircreate cfg attr .octets with
  | none => exact Or.inl ⟨rfl, rfl⟩
  | some vp =>
      have hf := paircreate_fresh hvp
      refine Or.inr ⟨vp, rfl, ?_⟩
      simp only
      split
      next heap =>
        -- one EAP message, which `checkAvp` lets through
        have hst : Stored vp a.value
            ({ vp with length := a.value.length }.setOctets a.value) :=
          stored_setOctets rfl hf.data rfl Iff.rfl
        refine Or.inr ⟨?_, _, hst, ?_⟩
        · rw [Bool.eq_false_iff]
          intro hw
          have hc := ((wrongSize_fresh hf).mp hw).1
          rw [heap.1] at hc
          cases hc
        · have hattr : (ValuePair.setOctets { vp with
              length := a.value.length } a.value).attr = 79 :=
            hf.number.trans heap.2
          rw [eapMessageLoop_single hsize, fetchN_all, checkAvp, hattr]
          rfl
      next =>
        have hreads : Reads cfg attr vp a.value
            (avpValue cfg a.value 0 a.value.length vp) := avpValue_reads hf
        rcases hreads with ⟨hw, hv⟩ | ⟨hw, vp', hst, hv⟩
        · refine Or.inl ⟨hw, ?_⟩
          rw [hv]
          rfl
        · refine Or.inr ⟨hw, vp', hst, ?_⟩
          rw [hv]
          rfl

end WinRadius
