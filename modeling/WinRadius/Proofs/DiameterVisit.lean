/-
Which AVPs `diameter2vp` looks at, and when it does not get that far.

On a string that `diameter_verify` accepts the two loops step alike, so
`diameter2vp` never reads outside the string, never trips an assertion
and always ends. It goes through the records up to the first it refuses:
one whose pair cannot be allocated, or a challenge that is not the
session's. Two things can still stop it, both of them about a single
record: an attribute of the dictionary with a type of one size, sent with
another size (`raw:` asks for a pair it cannot have), and, when the pairs
made so far are freed, a TLV pair whose pointer the value was written
over.
-/
import WinRadius.Lib.Run
import WinRadius.Proofs.DiameterPairs

namespace WinRadius

open Lib

variable {cfg : Config} {challenge : AuthVector} {a : Avp} {attr : Nat}
  {vp : ValuePair} {value : List UInt8} {as : List Avp} {pos : Nat}

-- ======== single records

/-- The function returns `NULL` over the AVP. -/
def refusesAvp (cfg : Config) (challenge : AuthVector) (a : Avp) : Bool :=
  (decodedNumber a).any fun attr : Nat =>
    (paircreate cfg attr .octets).isNone
      || (decide (attr = pwChapChallenge ∨ attr = pwMschapChallenge)
        && !decide (8 ≤ a.value.length ∧ a.value.length ≤ 16
          ∧ challenge.bytes.take a.value.length = a.value))

/-- The AVP has a number of bytes its type does not have. -/
def wrongSizeAvp (cfg : Config) (a : Avp) : Bool :=
  (decodedNumber a).any fun attr : Nat =>
    wrongSize cfg attr a.value.length

/-- The value of the AVP is written over the pointer of a TLV pair. -/
def overPointer (cfg : Config) (a : Avp) : Bool :=
  (decodedNumber a).any fun attr : Nat =>
    (cfg.dict.attrbyvalue attr).any (fun da : DictAttr =>
      decide (da.type = .tlv))
      && (a.value.take 4).any fun b : UInt8 => b != 0

theorem any_padTake (n : Nat) (bs : List UInt8) :
    (padTake n bs).any (fun b : UInt8 => b != 0)
      = (bs.take n).any fun b : UInt8 => b != 0 := by
  rw [padTake, List.any_append]
  have h : (List.replicate (n - bs.length) (0 : UInt8)).any
      (fun b : UInt8 => b != 0) = false := by
    rw [List.any_eq_false]
    intro b hb
    rw [List.eq_of_mem_replicate hb]
    decide
  rw [h, Bool.or_false]

/-- A zero byte behind the value is not seen by `free`. -/
theorem any_take_append_zero (n : Nat) (bs : List UInt8) :
    ((bs ++ [0]).take n).any (fun b : UInt8 => b != 0)
      = (bs.take n).any fun b : UInt8 => b != 0 := by
  rw [List.take_append, List.any_append]
  have h : (([0] : List UInt8).take (n - bs.length)).any
      (fun b : UInt8 => b != 0) = false := by
    rw [List.any_eq_false]
    intro b hb
    rw [List.mem_singleton.mp (List.mem_of_mem_take hb)]
    decide
  rw [h, Bool.or_false]

/-- `free` of a stored pair's pointer. -/
theorem badFree_stored {r : ValuePair} (h : Stored vp value r) :
    r.badFree = (decide (vp.type = .tlv)
      && (value.take 4).any fun b : UInt8 => b != 0) := by
  unfold ValuePair.badFree ValuePair.octets
  rw [any_padTake]
  by_cases ht : r.type = .tlv
  · rw [h.pointed ht, ht, h.pointer.mp ht]
  · rw [decide_eq_false ht, decide_eq_false (mt h.pointer.mpr ht)]
    rfl

/-- Ending a password at its first zero leaves the pointer. -/
theorem badFree_password {r : ValuePair} (h : Stored vp value r) :
    ValuePair.badFree { r.setByte value.length 0 with
        length := (r.setByte value.length 0).strlen } = r.badFree := by
  unfold ValuePair.badFree
  change (decide (r.type = .tlv) && _) = _
  by_cases ht : r.type = .tlv
  · have hdata : (r.setByte value.length 0).data = value ++ [0] := by
      unfold ValuePair.setByte
      simp only [h.pointed ht, padTake_self]
      rw [List.drop_of_length_le (by omega)]
    simp only [ValuePair.octets, any_padTake, hdata, h.pointed ht,
      any_take_append_zero]
  · rw [decide_eq_false ht]
    rfl

/-- `checkAvp` refuses a wrong challenge only, and keeps number and
pointer of the pair. -/
theorem checkAvp_spec (challenge : AuthVector) {r : ValuePair}
    (h : Stored vp value r) :
    ∃ w, (checkAvp challenge r).vps = [w] ∧ w.attr = vp.attr
      ∧ w.badFree = r.badFree
      ∧ (checkAvp challenge r).refuses
        = (decide (vp.attr = pwChapChallenge ∨ vp.attr = pwMschapChallenge)
          && !decide (8 ≤ value.length ∧ value.length ≤ 16
            ∧ challenge.bytes.take value.length = value)) := by
  unfold checkAvp
  rw [h.number, h.length]
  split
  next hpw =>
    refine ⟨_, rfl, h.number, badFree_password h, ?_⟩
    rw [hpw]
    rfl
  next hpw =>
    split
    next hch =>
      rw [decide_eq_true hch]
      split
      next hlen =>
        refine ⟨r, rfl, h.number, rfl, ?_⟩
        rw [decide_eq_false (by omega)]
        rfl
      next hlen =>
        split
        next hne =>
          refine ⟨r, rfl, h.number, rfl, ?_⟩
          rw [h.octets (by omega)] at hne
          rw [decide_eq_false (fun hall => hne hall.2.2)]
          rfl
        next heq =>
          refine ⟨r, rfl, h.number, rfl, ?_⟩
          rw [h.octets (by omega), not_not] at heq
          rw [decide_eq_true (by exact ⟨by omega, by omega, heq⟩)]
          rfl
    next hch =>
      refine ⟨r, rfl, h.number, rfl, ?_⟩
      rw [decide_eq_false hch]
      rfl

theorem wrongSize_unknown (h : cfg.dict.attrbyvalue attr = none)
    {n : Nat} : wrongSize cfg attr n = false := by
  rw [wrongSize, h]
  rfl

theorem tlv_fresh (h : Fresh cfg attr vp) :
    decide (vp.type = .tlv)
      = (cfg.dict.attrbyvalue attr).any fun da : DictAttr =>
          decide (da.type = .tlv) := by
  cases hda : cfg.dict.attrbyvalue attr with
  | none =>
      rw [h.unknown hda]
      rfl
  | some da =>
      rw [(h.known da hda).1]
      rfl

/-- What the body of the loop does with a record. -/
theorem outcomeOf_spec (cfg : Config) (challenge : AuthVector) (a : Avp) :
    (wrongSizeAvp cfg a = true
        ∧ outcomeOf cfg challenge a = .error (.memory .nullDeref))
      ∨ (wrongSizeAvp cfg a = false
        ∧ ∃ o, outcomeOf cfg challenge a = .ok o
          ∧ o.refuses = refusesAvp cfg challenge a
          ∧ o.vps.any ValuePair.badFree = overPointer cfg a) := by
  unfold wrongSizeAvp refusesAvp overPointer
  cases hn : decodedNumber a with
  | none => exact Or.inr ⟨rfl, .skipped, outcomeOf_skipped hn, rfl, rfl⟩
  | some attr =>
      simp only [Option.any_some]
      rcases outcomeOf_cases hn with
        ⟨hnone, hrun⟩ | ⟨vp, hvp, ⟨hw, hrun⟩ | ⟨hw, r, hst, hrun⟩⟩
      · refine Or.inr ⟨?_, .refused [], hrun, ?_, ?_⟩
        · exact wrongSize_unknown (unknown_of_paircreate hnone)
        · rw [hnone]
          rfl
        · rw [unknown_of_paircreate hnone]
          rfl
      · exact Or.inl ⟨hw, hrun⟩
      · obtain ⟨w, hvps, -, hbad, href⟩ := checkAvp_spec challenge hst
        have hf := paircreate_fresh hvp
        refine Or.inr ⟨hw, _, hrun, ?_, ?_⟩
        · rw [href, hvp, hf.number]
          rfl
        · rw [hvps, List.any_cons, List.any_nil, Bool.or_false, hbad,
            badFree_stored hst, tlv_fresh hf]

-- ======== runs

/-- The records `diameter2vp` gets to. -/
def reachedAvps (cfg : Config) (challenge : AuthVector) (as : List Avp) :
    List Avp :=
  upToFirst (refusesAvp cfg challenge) as

/-- No record on the way has a wrong size, and where one is refused no
TLV pair is freed with a value over its pointer. -/
def Harmless (cfg : Config) (challenge : AuthVector) (as : List Avp) :
    Prop :=
  (reachedAvps cfg challenge as).any (wrongSizeAvp cfg) = false
    ∧ (as.any (refusesAvp cfg challenge) = true →
      (reachedAvps cfg challenge as).any (overPointer cfg) = false)

instance : Decidable (Harmless cfg challenge as) :=
  inferInstanceAs (Decidable (_ ∧ _))

variable {visited : List Int} {first : List (Int × ValuePair)}

/-- How a run over records ends. -/
theorem runAvps_cases :
    ((reachedAvps cfg challenge as).any (wrongSizeAvp cfg) = true
        ∧ runAvps cfg challenge pos as visited first
          = .error (.memory .nullDeref))
      ∨ (as.any (refusesAvp cfg challenge) = true
        ∧ ((first.map Prod.snd).any ValuePair.badFree
          || (reachedAvps cfg challenge as).any (overPointer cfg)) = true
        ∧ runAvps cfg challenge pos as visited first = .error .badFree)
      ∨ ((reachedAvps cfg challenge as).any (wrongSizeAvp cfg) = false
        ∧ (as.any (refusesAvp cfg challenge) = true →
          ((first.map Prod.snd).any ValuePair.badFree
            || (reachedAvps cfg challenge as).any (overPointer cfg))
              = false)
        ∧ ∃ d, runAvps cfg challenge pos as visited first = .ok d
          ∧ d.visited
            = visited ++ avpOffsets pos (reachedAvps cfg challenge as)
          ∧ (d.vps = none
            ↔ as.any (refusesAvp cfg challenge) = true)) := by
  induction as generalizing pos visited first with
  | nil =>
      refine Or.inr (Or.inr ⟨rfl, fun h => (nomatch h), _, rfl, ?_, ?_⟩)
      · exact (List.append_nil _).symm
      · constructor <;> intro h <;> cases h
  | cons a as ih =>
      rcases outcomeOf_spec cfg challenge a with
        ⟨hw, hrun⟩ | ⟨hw, o, hrun, href, hbad⟩
      · refine Or.inl ⟨?_, ?_⟩
        · rw [reachedAvps, upToFirst]
          split <;> rw [List.any_cons, hw, Bool.true_or]
        · rw [runAvps, hrun]
          rfl
      · have hfreed : ((first ++ o.vps.map fun vp => ((pos : Int), vp)).map
              Prod.snd).any ValuePair.badFree
            = ((first.map Prod.snd).any ValuePair.badFree
              || overPointer cfg a) := by
          rw [List.map_append, List.any_append, List.map_map, ← hbad]
          simp only [Function.comp_def, List.map_id']
        rw [runAvps, hrun, ok_bind]
        dsimp only
        rw [href, reachedAvps, upToFirst]
        cases hr : refusesAvp cfg challenge a with
        | true =>
            simp only [if_true, List.any_cons, List.any_nil, Bool.or_false,
              hr, hw, Bool.true_or, refuseAvp, hfreed]
            by_cases hb : ((first.map Prod.snd).any ValuePair.badFree
              || overPointer cfg a) = true
            · rw [if_pos hb]
              exact Or.inr (Or.inl ⟨trivial, hb, rfl⟩)
            · rw [if_neg hb]
              refine Or.inr (Or.inr ⟨trivial, fun _ => by simpa using hb,
                _, rfl, ?_, ?_⟩)
              · rfl
              · exact ⟨fun _ => trivial, fun _ => rfl⟩
        | false =>
            have hnext := @ih (pos + a.bytes.length)
              (visited ++ [(pos : Int)])
              (first ++ o.vps.map fun vp => ((pos : Int), vp))
            rw [hfreed] at hnext
            simp only [Bool.false_eq_true, if_false, List.any_cons, hr, hw,
              Bool.false_or]
            simpa only [reachedAvps, Bool.or_assoc, avpOffsets,
              List.append_assoc, List.singleton_append] using hnext

-- ======== the whole string

theorem avpOffsets_length (as : List Avp) :
    (avpOffsets pos as).length = as.length := by
  induction as generalizing pos with
  | nil => rfl
  | cons a as ih => rw [avpOffsets, List.length_cons, ih, List.length_cons]

/-- Going through a front part is going through all of it exactly when
nothing is left out. -/
theorem avpOffsets_reached :
    avpOffsets pos (reachedAvps cfg challenge as) = avpOffsets pos as
      ↔ reachedAvps cfg challenge as = as := by
  constructor
  · intro h
    apply (upToFirst_front _ as).eq_of_length
    have hlen := congrArg List.length h
    rwa [avpOffsets_length, avpOffsets_length] at hlen
  · intro h
    rw [h]

theorem not_ok_of_error {ε α : Type} {e : ε} (P : α → Prop) :
    ¬ ∃ d, (Except.error e : Except ε α) = .ok d ∧ P d := by
  intro ⟨d, hd, _⟩
  cases hd

/-- On a string that `diameter_verify` accepts, `diameter2vp` can only go
wrong over a single record: it never leaves the string, trips an
assertion or goes on for ever. It returns, having gone through the
records up to the first it refuses, exactly when the records are
harmless; and through all that `diameter_verify` saw, exactly when
besides none but the last is refused. -/
theorem diameter2vp_visits (cfg : Config) (challenge : AuthVector)
    {data : List UInt8} {seen : List Int}
    (h : diameterVerify data = .ok (some seen)) :
    (∀ e, diameter2vp cfg challenge data = .error e →
      e = .memory .nullDeref ∨ e = .badFree)
    ∧ ∃ as, Framed as ∧ data = avpWire as ∧ seen = avpOffsets 0 as
      ∧ ((∃ d, diameter2vp cfg challenge data = .ok d
            ∧ d.visited = avpOffsets 0 (reachedAvps cfg challenge as)
            ∧ (d.vps ≠ none → d.visited = seen))
          ↔ Harmless cfg challenge as)
      ∧ ((∃ d, diameter2vp cfg challenge data = .ok d
            ∧ d.visited = seen)
          ↔ Harmless cfg challenge as
            ∧ reachedAvps cfg challenge as = as) := by
  obtain ⟨as, has, rfl, rfl⟩ := diameterVerify_iff.mp h
  rw [diameter2vp_wire has]
  have hcases := @runAvps_cases cfg challenge as 0 [] []
  simp only [List.map_nil, List.any_nil, Bool.false_or,
    List.nil_append] at hcases
  rcases hcases with ⟨hw, hrun⟩ | ⟨hr, hb, hrun⟩ | ⟨hw, hb, d, hrun, hv, hn⟩
  · have hharm : ¬ Harmless cfg challenge as := by
      intro hh
      cases hw.symm.trans hh.1
    rw [hrun]
    refine ⟨?_, as, has, rfl, rfl, ?_, ?_⟩
    · intro e he
      cases he
      exact Or.inl rfl
    · exact iff_of_false (not_ok_of_error _) hharm
    · exact iff_of_false (not_ok_of_error _) fun hh => hharm hh.1
  · have hharm : ¬ Harmless cfg challenge as := by
      intro hh
      cases hb.symm.trans (hh.2 hr)
    rw [hrun]
    refine ⟨?_, as, has, rfl, rfl, ?_, ?_⟩
    · intro e he
      cases he
      exact Or.inr rfl
    · exact iff_of_false (not_ok_of_error _) hharm
    · exact iff_of_false (not_ok_of_error _) fun hh => hharm hh.1
  · have hharm : Harmless cfg challenge as := ⟨hw, hb⟩
    rw [hrun]
    refine ⟨?_, as, has, rfl, rfl, iff_of_true ?_ hharm, ?_⟩
    · intro e he
      cases he
    · refine ⟨d, rfl, hv, ?_⟩
      intro hsome
      have hnone : as.any (refusesAvp cfg challenge) = false := by
        rw [Bool.eq_false_iff]
        intro hyes
        exact hsome (hn.mpr hyes)
      rw [hv, reachedAvps, upToFirst_of_none hnone]
    · constructor
      · intro ⟨d', hd, hv'⟩
        cases hd
        exact ⟨hharm, avpOffsets_reached.mp (hv.symm.trans hv')⟩
      · intro ⟨_, hall⟩
        exact ⟨d, rfl, by rw [hv, hall]⟩

/-- A dictionary with `Session-Timeout`, an integer. -/
def timeoutConfig : Config :=
  { bareConfig with dict := .ofEntries [⟨27, .integer, 0, {}⟩] [] }

/-- `Session-Timeout` with one byte of value, padded. -/
def shortTimeout : List UInt8 := [0, 0, 0, 27, 0x40, 0, 0, 9, 1, 0, 0, 0]

/-- Not every accepted string is gone through: a `Session-Timeout` of one
byte is accepted, and `diameter2vp` writes through `NULL` over it. -/
theorem diameter2vp_misses :
    ¬ ∀ (cfg : Config) (challenge : AuthVector) (data : List UInt8)
        (seen : List Int), diameterVerify data = .ok (some seen) →
      ∃ d, diameter2vp cfg challenge data = .ok d ∧ d.visited = seen := by
  intro h
  have hrun : diameter2vp timeoutConfig .zero shortTimeout
      = .error (.memory .nullDeref) := rfl
  obtain ⟨d, hd, -⟩ := h timeoutConfig .zero shortTimeout [0] rfl
  rw [hrun] at hd
  cases hd

/-- A `Session-Timeout` and an unknown attribute without its padding. -/
def twoAvps : List UInt8 :=
  [0, 0, 0, 27, 0x40, 0, 0, 12, 0, 0, 1, 44]
    ++ [0, 0, 0, 200, 0x40, 0, 0, 13, 1, 2, 3, 4, 5]

/-- Two attributes that are gone through, so neither has a wrong size nor
is refused. -/
theorem diameter2vp_visits_twoAvps :
    diameterVerify twoAvps = .ok (some [0, 12])
    ∧ ∃ as, Framed as ∧ twoAvps = avpWire as
      ∧ (∃ d, diameter2vp timeoutConfig .zero twoAvps = .ok d
        ∧ d.visited = [0, 12])
      ∧ Harmless timeoutConfig .zero as
      ∧ reachedAvps timeoutConfig .zero as = as := by
  have hv : diameterVerify twoAvps = .ok (some [0, 12]) := rfl
  have hrun : ∃ d, diameter2vp timeoutConfig .zero twoAvps = .ok d
      ∧ d.visited = [0, 12] := ⟨_, rfl, rfl⟩
  obtain ⟨-, as, has, hdata, -, -, hiff⟩ :=
    diameter2vp_visits timeoutConfig .zero hv
  exact ⟨rfl, as, has, hdata, hrun, hiff.mp hrun⟩

end WinRadius
