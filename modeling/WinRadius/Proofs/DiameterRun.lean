/-
`diameter2vp` on a framed list of AVPs, as a run over the records.

`outcomeOf` is the body of the loop with the value of one record in hand
and no buffer, `runAvps` the loop over a list of records. On a framed
string the code's loop is that run (`diameter2vp_wire`): it steps from
record to record, so it neither leaves the buffer nor trips its
assertions, and what is left to say is what single records do.
-/
import WinRadius.Proofs.Diameter

namespace WinRadius

open Lib

variable {cfg : Config} {challenge : AuthVector}

-- ======== one AVP

/-- The attribute number made of the code and the vendor; `none` for
`goto next_attr`. -/
def numberOf (a : Avp) : Option Nat :=
  match a.vendorId with
  | none => some a.code.toNat
  | some vendor =>
      if 65535 < a.code.toNat ∨ 65535 < vendor.toNat then none
      else some (a.code.toNat ||| vendor.toNat <<< 16)

/-- The body of the loop, reading the value alone. -/
def outcomeOf (cfg : Config) (challenge : AuthVector) (a : Avp) :
    Except DiameterFault AvpOutcome :=
  match numberOf a with
  | none => .ok .skipped
  | some attr =>
      avpPair cfg challenge a.value 0 attr a.value.length

theorem onMemory_ok {α : Type} (x : α) :
    onMemory (.ok x) = .ok x := by
  simp only [onMemory, Except.mapError]

/-- A value of at most 253 bytes is one piece of an EAP message. -/
theorem eapMessageLoop_single {data : List UInt8} {attr fuel size : Nat}
    {pos : Int} {vp : ValuePair} (h : size ≤ 253) :
    eapMessageLoop cfg data attr (fuel + 1) pos size vp []
      = (onMemory (fetchN data pos size)).map fun bytes =>
          .linked [{ vp with length := size }.setOctets bytes] := by
  rw [eapMessageLoop]
  simp only [Nat.min_eq_left h, Nat.sub_self, if_true]
  cases onMemory (fetchN data pos size) with
  | error e => rfl
  | ok bytes => rfl

/-- The body reads the value and nothing else. -/
theorem avpPair_congr {data data' : List UInt8} {pos pos' : Int}
    {attr size : Nat} (h : fetchN data pos size = fetchN data' pos' size) :
    avpPair cfg challenge data pos attr size
      = avpPair cfg challenge data' pos' attr size := by
  unfold avpPair
  split
  next => rfl
  next =>
  split
  next => rfl
  next hsize =>
  cases paircreate cfg attr .octets with
  | none => rfl
  | some vp =>
      simp only
      rw [eapMessageLoop_single (by omega),
        eapMessageLoop_single (by omega), h]
      have hvalue : avpValue cfg data pos size vp
          = avpValue cfg data' pos' size vp := by
        unfold avpValue
        simp only [fixedAvp, rawAvp, h]
      rw [hvalue]

theorem avpNumber_record {front rest : List UInt8} {a : Avp} :
    avpNumber (front ++ (a.bytes ++ rest)) front.length a.code.toNat
        a.lengthField.toNat
      = .ok (a.offset, numberOf a) := by
  unfold avpNumber numberOf
  cases hv : a.vendorId with
  | none =>
      rw [if_neg (by rw [a.lengthField_sign, hv]; decide), Avp.offset, hv]
      rfl
  | some v =>
      rw [if_pos (by rw [a.lengthField_sign, hv]; rfl),
        fetchN_vendorField a front rest hv, Avp.offset, hv]
      simp only [onMemory_ok, ok_bind, ofBe32_be32]
      rfl

/-- The value of a record, read where it lies. -/
theorem fetchN_value {front rest : List UInt8} {a : Avp} :
    fetchN (front ++ (a.bytes ++ rest)) ((front.length : Int) + a.offset)
        a.value.length
      = fetchN a.value 0 a.value.length := by
  obtain ⟨before, after, hdata, hbefore⟩ := value_in_buffer a front rest
  have hown : fetchN a.value 0 a.value.length = .ok a.value := by
    rw [fetchN_eq_ok]
    exact ⟨by omega, by omega, by omega, by simp⟩
  rw [hdata, fetchN_append (by omega) rfl, hown]

/-- The `size_t` difference is the length of the value. -/
theorem avpSize_record (a : Avp) :
    avpSize a.length a.offset = a.value.length := by
  unfold avpSize
  have hlen := a.length_lt
  have hl : a.length = a.offset + a.value.length := rfl
  omega

/-- One AVP that is there. -/
theorem avpAt_record {front rest : List UInt8} {a : Avp} :
    avpAt cfg challenge (front ++ (a.bytes ++ rest)) front.length
      = (outcomeOf cfg challenge a).map
          fun outcome => (a.offset, a.length, outcome) := by
  rw [avpAt, fetchN_code, onMemory_ok, ok_bind, fetchN_lengthField,
    onMemory_ok, ok_bind, ofBe32_be32, ofBe32_be32]
  dsimp only
  rw [a.lengthField_mod, avpNumber_record, ok_bind]
  dsimp only
  rw [avpSize_record]
  unfold outcomeOf
  cases numberOf a with
  | none => simp only [Except.map]
  | some attr =>
      simp only
      rw [avpPair_congr fetchN_value]
      cases avpPair cfg challenge a.value 0 attr a.value.length with
      | error e => simp only [Except.map, error_bind]
      | ok o => simp only [Except.map, ok_bind]

-- ======== the run

/-- The loop over records. -/
def runAvps (cfg : Config) (challenge : AuthVector) :
    Nat → List Avp → List Int → List (Int × ValuePair) →
      Except DiameterFault Decoded
  | _, [], visited, first => .ok ⟨visited, some first⟩
  | pos, a :: as, visited, first => do
      let outcome ← outcomeOf cfg challenge a
      let first := first ++ outcome.vps.map fun vp => ((pos : Int), vp)
      if outcome.refuses then
        refuseAvp (visited ++ [(pos : Int)]) (first.map Prod.snd)
      else
        runAvps cfg challenge (pos + a.bytes.length) as
          (visited ++ [(pos : Int)]) first

/-- The code's loop over a framed string is the run over its records. -/
theorem diameter2vpLoop_wire {front : List UInt8} {as : List Avp}
    {fuel : Nat} {visited : List Int} {first : List (Int × ValuePair)}
    (has : Framed as) (hfuel : as.length < fuel) :
    diameter2vpLoop cfg challenge (front ++ avpWire as) fuel front.length
        (avpWire as).length visited first
      = runAvps cfg challenge front.length as visited first := by
  induction as generalizing front fuel visited first with
  | nil =>
      obtain ⟨fuel, rfl⟩ : ∃ n, fuel = n + 1 := ⟨fuel - 1, by omega⟩
      rw [diameter2vpLoop, avpWire_nil, List.length_nil, if_pos rfl, runAvps]
  | cons a as ih =>
      rw [List.length_cons] at hfuel
      obtain ⟨fuel, rfl⟩ : ∃ n, fuel = n + 2 := ⟨fuel - 2, by omega⟩
      have hb := a.bytes_length
      have ho := a.offset_le
      have hl : a.length = a.offset + a.value.length := rfl
      rw [diameter2vpLoop, runAvps, avpWire_cons, avpAt_record,
        if_neg (by rw [List.length_append]; omega),
        if_neg (by rw [@List.length_append _ front]; omega)]
      cases outcomeOf cfg challenge a with
      | error e => rfl
      | ok outcome =>
          simp only [Except.map, ok_bind]
          split
          next => rfl
          next =>
          rcases has with ⟨ha, has⟩ | ⟨rfl, hp, hv⟩
          · rw [Avp.Padded, ← hb] at ha
            have hle := le_roundUp4 a.length
            have hrest : (a.bytes ++ avpWire as).length
                = roundUp4 a.length + (avpWire as).length := by
              rw [List.length_append, ha]
            rw [hrest]
            split
            next hall =>
              -- nothing is left to go through
              have hnil : as = [] := by
                have := length_le_avpWire as
                exact List.length_eq_zero_iff.mp (by omega)
              rw [hnil, runAvps]
            next =>
              have hpos : (front.length : Int) + a.offset
                    + (roundUp4 a.length - a.offset)
                  = (front ++ a.bytes).length := by
                rw [List.length_append, ha]
                omega
              rw [if_neg (by omega), Nat.add_sub_cancel_left, hpos,
                ← List.append_assoc, ih has (by omega),
                List.length_append]
          · have hall : (a.bytes ++ avpWire []).length = a.length := by
              rw [avpWire_nil, List.append_nil, hb, hp]
              rfl
            rw [if_pos hall, runAvps]

/-- `diameter2vp` of a framed string is the run over its records. -/
theorem diameter2vp_wire {as : List Avp} (has : Framed as) :
    diameter2vp cfg challenge (avpWire as)
      = runAvps cfg challenge 0 as [] [] := by
  have hfuel : as.length < (avpWire as).length + 1 :=
    Nat.lt_succ_of_le (length_le_avpWire as)
  have hrun : diameter2vpLoop cfg challenge ([] ++ avpWire as)
      ((avpWire as).length + 1) ([] : List UInt8).length
      (avpWire as).length [] []
    = runAvps cfg challenge ([] : List UInt8).length as [] [] :=
    diameter2vpLoop_wire has hfuel
  exact hrun

end WinRadius
