/-
`diameter_verify` accepts exactly the byte strings that are a framed list
of AVPs, and goes through the offsets at which they start.

One step of the loop over a record that is there is an equation
(`verify_padded`, `verify_last`); a step that the code lets pass is over
such a record (`verify_record`). The two directions of `diameterVerify_iff`
are inductions on the list and on the number of steps.
-/
import WinRadius.Model.Ttls

namespace WinRadius

open Lib

variable {front rest : List UInt8} {a : Avp} {seen s : List Int}
  {fuel : Nat}

-- ======== steps of the loop

/-- What the loop makes of a record that is there. -/
theorem verify_step :
    diameterVerifyLoop (front ++ (a.bytes ++ rest)) (fuel + 1)
        front.length (a.bytes ++ rest).length seen
      = if (a.bytes ++ rest).length < a.offset + 4 then .ok none
        else if (a.bytes ++ rest).length = a.length then
          .ok (some (seen ++ [(front.length : Int)]))
        else if (a.bytes ++ rest).length < roundUp4 a.length then .ok none
        else diameterVerifyLoop (front ++ (a.bytes ++ rest)) fuel
          (front.length + roundUp4 a.length)
          ((a.bytes ++ rest).length - roundUp4 a.length)
          (seen ++ [(front.length : Int)]) := by
  have hlen := a.bytes_length
  have hoff := a.offset_le
  have hne := a.nonempty
  have hl : a.length = a.offset + a.value.length := rfl
  have hhdr : (if a.flags &&& 0x80 ≠ 0 then 16 else 12) = a.offset + 4 := by
    unfold Avp.offset
    by_cases hv : a.vendorId.isSome = true
    · rw [if_pos ((flags_vendor a).mpr hv), if_pos hv]
    · rw [if_neg (mt (flags_vendor a).mp hv), if_neg hv]
  have hrem : a.length ≤ (a.bytes ++ rest).length := by
    rw [List.length_append]
    omega
  rw [diameterVerifyLoop]
  simp only [fetchN_code, fetchN_lengthField, fetch_flags, ok_bind,
    ofBe32_be32, a.lengthField_mod, hhdr]
  rw [if_neg (by omega)]
  by_cases h12 : (a.bytes ++ rest).length < 12
  · rw [if_pos h12, if_pos (by omega)]
  · rw [if_neg h12]
    by_cases hh : (a.bytes ++ rest).length < a.offset + 4
    · rw [if_pos hh, if_pos hh]
    · rw [if_neg hh, if_neg hh, if_neg (by omega), if_neg (by omega)]

/-- A padded record takes the loop behind it. -/
theorem verify_padded (ha : a.Padded) :
    diameterVerifyLoop (front ++ (a.bytes ++ rest)) (fuel + 2)
        front.length (a.bytes ++ rest).length seen
      = diameterVerifyLoop (front ++ (a.bytes ++ rest)) (fuel + 1)
          (front.length + a.bytes.length) rest.length
          (seen ++ [(front.length : Int)]) := by
  have hlen := a.bytes_length
  have hoff := a.offset_le
  have hne := a.nonempty
  have hl : a.length = a.offset + a.value.length := rfl
  have hround := roundUp4_mod a.length
  have hoff4 : a.offset % 4 = 0 := by
    unfold Avp.offset
    split <;> rfl
  have hbytes : a.bytes.length = roundUp4 a.length := by
    rw [hlen, ha]
  have hrest : (a.bytes ++ rest).length
      = roundUp4 a.length + rest.length := by
    rw [List.length_append, hbytes]
  have hle := le_roundUp4 a.length
  rw [verify_step, if_neg (by omega), hrest]
  by_cases h : roundUp4 a.length + rest.length = a.length
  · -- nothing is left, which the next step finds out too
    have h0 : rest.length = 0 := by omega
    rw [if_pos h, diameterVerifyLoop, if_pos h0]
  · rw [if_neg h, if_neg (by omega), Nat.add_sub_cancel_left, hbytes]

/-- A last record without its padding ends the loop. -/
theorem verify_last (hp : a.pad = []) (hv : 4 ≤ a.value.length) :
    diameterVerifyLoop (front ++ (a.bytes ++ [])) (fuel + 1) front.length
        (a.bytes ++ []).length seen
      = .ok (some (seen ++ [(front.length : Int)])) := by
  have hl : a.length = a.offset + a.value.length := rfl
  have hlen : (a.bytes ++ []).length = a.length := by
    rw [List.append_nil, a.bytes_length, hp]
    rfl
  rw [verify_step, if_neg (by omega), if_pos hlen]

-- ======== runs

/-- The flag byte is the top byte of the length word. -/
theorem flags_of_field {field : List UInt8} {flags : UInt8}
    (hfield : field = (rest.drop 4).take 4)
    (hflags : fetch (front ++ rest) (front.length + 4) = .ok flags) :
    flags &&& 0x80 ≠ 0 ↔ 2147483648 ≤ (ofBe32 field).toNat := by
  obtain ⟨-, hget⟩ := fetch_eq_ok.mp hflags
  rw [show ((front.length : Int) + 4).toNat = front.length + 4 by omega,
    List.getElem?_append_right (by omega), Nat.add_sub_cancel_left]
    at hget
  have hhead : field.getD 0 0 = flags := by
    rw [hfield, List.getD_eq_getElem?_getD, List.getElem?_take,
      if_pos (by omega), List.getElem?_drop, hget]
    rfl
  have h1 := (field.getD 1 0).toNat_lt
  have h2 := (field.getD 2 0).toNat_lt
  have h3 := (field.getD 3 0).toNat_lt
  have hf := flags.toNat_lt
  rw [top_bit, ofBe32, hhead, UInt32.toNat_ofNat']
  omega

/-- The loop goes through a framed list of records. -/
theorem verify_framed {as : List Avp} (has : Framed as)
    (hfuel : as.length < fuel) :
    diameterVerifyLoop (front ++ avpWire as) fuel front.length
        (avpWire as).length seen
      = .ok (some (seen ++ avpOffsets front.length as)) := by
  induction as generalizing front seen fuel with
  | nil =>
      obtain ⟨fuel, rfl⟩ : ∃ n, fuel = n + 1 := ⟨fuel - 1, by omega⟩
      simp [diameterVerifyLoop, avpOffsets]
  | cons a as ih =>
      rw [List.length_cons] at hfuel
      obtain ⟨fuel, rfl⟩ : ∃ n, fuel = n + 2 := ⟨fuel - 2, by omega⟩
      rcases has with ⟨ha, has⟩ | ⟨rfl, hp, hv⟩
      · have hnext : diameterVerifyLoop ((front ++ a.bytes) ++ avpWire as)
            (fuel + 1) (front ++ a.bytes).length (avpWire as).length
            (seen ++ [(front.length : Int)])
          = .ok (some (seen ++ [(front.length : Int)]
              ++ avpOffsets (front ++ a.bytes).length as)) :=
          ih has (by omega)
        rw [List.append_assoc, List.length_append, Nat.cast_add,
          List.append_assoc] at hnext
        rw [avpWire_cons, verify_padded ha, hnext]
        rfl
      · rw [avpWire_cons, avpWire_nil, verify_last hp hv]
        rfl

/-- What the loop lets pass is a framed list of records. -/
theorem framed_of_verify
    (h : diameterVerifyLoop (front ++ rest) fuel front.length rest.length
      seen = .ok (some s)) :
    ∃ as, Framed as ∧ rest = avpWire as
      ∧ s = seen ++ avpOffsets front.length as := by
  induction fuel generalizing front rest seen with
  | zero => cases h
  | succ fuel ih =>
      rw [diameterVerifyLoop] at h
      split at h
      next h0 =>
        cases h
        exact ⟨[], trivial, List.length_eq_zero_iff.mp h0,
          (List.append_nil _).symm⟩
      next h0 =>
      split at h
      next => cases h
      next h12 =>
      obtain ⟨code, -, h⟩ := bind_eq_ok.mp h
      obtain ⟨field, hfield, h⟩ := bind_eq_ok.mp h
      obtain ⟨flags, hflags, h⟩ := bind_eq_ok.mp h
      obtain ⟨-, -, -, hword⟩ := fetchN_eq_ok.mp hfield
      rw [show ((front.length : Int) + 4).toNat = front.length + 4 by omega,
        show (4 : Int).toNat = 4 by rfl, ← List.drop_drop,
        List.drop_left] at hword
      have hflag := flags_of_field hword hflags
      generalize hw : ofBe32 field = w at h hflag
      generalize hhdr : (if flags &&& 0x80 ≠ 0 then 16 else 12)
        = hdrLen at h
      have hoff : hdrLen - 4
          = if 2147483648 ≤ w.toNat then 12 else 8 := by
        simp only [hflag] at hhdr
        rw [← hhdr]
        split <;> rfl
      simp only at h
      split at h
      next => cases h
      next hhdr =>
      split at h
      next => cases h
      next hshort =>
      split at h
      next => cases h
      next hlong =>
      have hw' : w = ofBe32 ((rest.drop 4).take 4) := by
        rw [← hw, hword]
      split at h
      next hall =>
        -- the record ends the string
        obtain ⟨a, hao, hal, hpad, hrest⟩ := exists_avp (n := 0) hw' hoff
          (by omega) (by omega)
        have hl : a.length = a.offset + a.value.length := rfl
        rw [List.drop_of_length_le (by omega)] at hrest
        cases h
        refine ⟨[a], Or.inr ⟨rfl, List.length_eq_zero_iff.mp hpad, ?_⟩,
          hrest, rfl⟩
        omega
      next hmore =>
        split at h
        next => cases h
        next hroom =>
          have hle := le_roundUp4 (w.toNat % 16777216)
          obtain ⟨a, hao, hal, hpad, hrest⟩ :=
            exists_avp (n := roundUp4 (w.toNat % 16777216)
              - w.toNat % 16777216) hw' hoff (by omega) (by omega)
          rw [Nat.add_sub_cancel' hle] at hrest
          have hbytes : a.bytes.length = roundUp4 (w.toNat % 16777216) := by
            rw [a.bytes_length]
            omega
          have hnext : diameterVerifyLoop ((front ++ a.bytes)
                ++ rest.drop (roundUp4 (w.toNat % 16777216))) fuel
              (front ++ a.bytes).length
              (rest.drop (roundUp4 (w.toNat % 16777216))).length
              (seen ++ [(front.length : Int)]) = .ok (some s) := by
            rw [List.append_assoc, ← hrest, List.length_append, hbytes,
              Nat.cast_add, List.length_drop]
            exact h
          obtain ⟨as, has, htail, hs⟩ := ih hnext
          refine ⟨a :: as, Or.inl ⟨?_, has⟩, ?_, ?_⟩
          · rw [Avp.Padded, ← a.bytes_length, hbytes, hal]
          · rw [avpWire_cons, ← htail]
            exact hrest
          · rw [hs, avpOffsets, List.length_append, List.append_assoc]
            rfl

/-- `diameter_verify` accepts the framed lists of records, and sees each
of them once. -/
theorem diameterVerify_iff {data : List UInt8} :
    diameterVerify data = .ok (some s)
      ↔ ∃ as, Framed as ∧ data = avpWire as ∧ s = avpOffsets 0 as := by
  constructor
  · intro h
    have hrun : diameterVerifyLoop ([] ++ data) (data.length + 1)
        ([] : List UInt8).length data.length [] = .ok (some s) := h
    exact framed_of_verify hrun
  · rintro ⟨as, has, rfl, rfl⟩
    have hfuel : as.length < (avpWire as).length + 1 :=
      Nat.lt_succ_of_le (length_le_avpWire as)
    have hrun : diameterVerifyLoop ([] ++ avpWire as)
        ((avpWire as).length + 1) ([] : List UInt8).length
        (avpWire as).length [] = .ok (some ([] ++ avpOffsets 0 as)) :=
      verify_framed has hfuel
    exact hrun

end WinRadius
