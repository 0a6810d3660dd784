/-
The order `paircmp` and `radius_compare_vps` give 32-bit values.

Both keep the difference of two unsigned values in an `int`. Its sign is
that of the order as long as the values are less than 2^31 apart, on both
sides of that exactly the opposite (`cInt_sub`).
-/
import WinRadius.Model.Compare

namespace WinRadius

open Lib

variable {a b : UInt32} {op : FrToken} {one check : ValuePair}

-- ======== ordering

/-- An ordering operator, on numbers: the one in front is the request's. -/
def OpHolds (op : FrToken) (x y : Int) : Prop :=
  match op with
  | .opLt => x < y
  | .opGt => y < x
  | .opLe => x ≤ y
  | .opGe => y ≤ x
  | _ => False

/-- The types whose value is a 32-bit number. -/
def OrderType (type : PwType) : Prop :=
  type = .integer ∨ type = .date ∨ type = .ipaddr

/-- The operators that order. -/
def OrderOp (op : FrToken) : Prop :=
  op = .opLt ∨ op = .opGt ∨ op = .opLe ∨ op = .opGe

/-- The value of a pair as an unsigned number: an address in host order. -/
def ValuePair.number (type : PwType) (vp : ValuePair) : Int :=
  if type = .ipaddr then (byteSwap32 vp.lvalue).toNat else vp.lvalue.toNat

/-- Two values less than 2^31 apart, or 2^31 with the second greater. -/
def Near (x y : Int) : Prop := -2147483648 ≤ x - y ∧ x - y < 2147483648

instance (x y : Int) : Decidable (Near x y) :=
  inferInstanceAs (Decidable (_ ∧ _))

-- ======== differences

/-- The difference in an `int`, and the one of the numbers. -/
theorem cInt_sub (a b : UInt32) :
    (Near a.toNat b.toNat ∧ cInt (a - b) = (a.toNat : Int) - b.toNat)
      ∨ (2147483648 ≤ (a.toNat : Int) - b.toNat ∧ cInt (a - b) < 0)
      ∨ ((a.toNat : Int) - b.toNat < -2147483648 ∧ 0 < cInt (a - b)) := by
  have ha := a.toNat_lt
  have hb := b.toNat_lt
  unfold Near cInt
  rw [UInt32.toNat_sub]
  split
  · omega
  · omega

/-- The sign of the difference is the order of the values exactly when they
are near. -/
theorem opAsks_sub_iff (hop : OrderOp op) :
    (opAsks op (cInt (a - b)) = true ↔ OpHolds op a.toNat b.toNat)
      ↔ Near a.toNat b.toNat := by
  have hcases := cInt_sub a b
  unfold Near at hcases ⊢
  obtain h | h | h | h := hop
  · subst h
    simp only [opAsks, OpHolds, decide_eq_true_eq]
    omega
  · subst h
    simp only [opAsks, OpHolds, decide_eq_true_eq]
    omega
  · subst h
    simp only [opAsks, OpHolds, decide_eq_true_eq]
    omega
  · subst h
    simp only [opAsks, OpHolds, decide_eq_true_eq]
    omega

-- ======== the functions

/-- `paircmp` of an ordering operator looks at the sign of the
difference. -/
theorem paircmp_order (two : ValuePair) (htype : OrderType one.type) (hop : OrderOp one.op) :
    ∃ a b : UInt32, (a.toNat : Int) = two.number one.type
      ∧ (b.toNat : Int) = one.number one.type
      ∧ paircmp one (some two)
        = some (if opAsks one.op (cInt (a - b)) then 1 else 0) := by
  have hvalue : ∃ a b : UInt32, (a.toNat : Int) = two.number one.type
      ∧ (b.toNat : Int) = one.number one.type
      ∧ paircmpValue one two = some (cInt (a - b)) := by
    unfold ValuePair.number paircmpValue
    obtain h | h | h := htype
    · rw [h]
      exact ⟨two.lvalue, one.lvalue, rfl, rfl, rfl⟩
    · rw [h]
      exact ⟨two.lvalue, one.lvalue, rfl, rfl, rfl⟩
    · rw [h]
      exact ⟨byteSwap32 two.lvalue, byteSwap32 one.lvalue, rfl, rfl, rfl⟩
  obtain ⟨a, b, ha, hb, hcmp⟩ := hvalue
  refine ⟨a, b, ha, hb, ?_⟩
  unfold paircmp
  obtain h | h | h | h := hop
  · rw [h]
    simp only [hcmp]
  · rw [h]
    simp only [hcmp]
  · rw [h]
    simp only [hcmp]
  · rw [h]
    simp only [hcmp]

/-- The tags that `radius_compare_vps` compares before the values. -/
def TagsDiffer (check vp : ValuePair) : Prop :=
  check.flags.hasTag = true ∧ vp.flags.tag ≠ check.flags.tag

instance (check vp : ValuePair) : Decidable (TagsDiffer check vp) :=
  inferInstanceAs (Decidable (_ ∧ _))

/-- `radius_compare_vps` gives the difference of the tags, where they
differ, else that of the values. -/
theorem radiusCompareVps_order (vp : ValuePair)
    (htype : OrderType check.type)
    (hop : OrderOp check.op) :
    ∃ a b : UInt32, (a.toNat : Int) = vp.number check.type
      ∧ (b.toNat : Int) = check.number check.type
      ∧ radiusCompareVps check vp =
        if TagsDiffer check vp then
          (vp.flags.tag.toNat : Int) - check.flags.tag.toNat
        else cInt (a - b) := by
  have hvalue : ∃ a b : UInt32, (a.toNat : Int) = vp.number check.type
      ∧ (b.toNat : Int) = check.number check.type
      ∧ ∀ ret, compareTypes check vp ret = cInt (a - b) := by
    unfold ValuePair.number compareTypes
    obtain h | h | h := htype
    · rw [h]
      exact ⟨vp.lvalue, check.lvalue, rfl, rfl, fun _ => rfl⟩
    · rw [h]
      exact ⟨vp.lvalue, check.lvalue, rfl, rfl, fun _ => rfl⟩
    · rw [h]
      exact ⟨byteSwap32 vp.lvalue, byteSwap32 check.lvalue, rfl, rfl,
        fun _ => rfl⟩
  obtain ⟨a, b, ha, hb, hcmp⟩ := hvalue
  have htrue : check.op ≠ .opCmpTrue := by
    intro heq
    unfold OrderOp at hop
    rw [heq] at hop
    simp at hop
  have hfalse : check.op ≠ .opCmpFalse := by
    intro heq
    unfold OrderOp at hop
    rw [heq] at hop
    simp at hop
  refine ⟨a, b, ha, hb, ?_⟩
  unfold radiusCompareVps
  rw [if_neg htrue, if_neg hfalse, hcmp]
  by_cases htag : check.flags.hasTag = true
  · rw [if_pos htag]
    by_cases hsame : vp.flags.tag = check.flags.tag
    · have hnot : ¬ TagsDiffer check vp := fun h => h.2 hsame
      rw [if_neg (by rw [hsame]; omega), if_neg hnot, hcmp]
    · have hne : (vp.flags.tag.toNat : Int) - check.flags.tag.toNat ≠ 0 := by
        intro hzero
        apply hsame
        apply UInt8.toNat_inj.mp
        omega
      have hdiffer : TagsDiffer check vp := ⟨htag, hsame⟩
      rw [if_pos hne, if_pos hdiffer]
  · have hnot : ¬ TagsDiffer check vp := fun h => htag h.1
    rw [if_neg htag, if_neg hnot]

/-- For a pair of one of the types, and every ordering operator: both
functions follow the order of the unsigned values exactly when the values
are near and, where the tags differ, these happen to have the same
order. -/
theorem compare_order_iff (check vp : ValuePair)
    (htype : OrderType check.type) (hop : OrderOp check.op) :
    ((paircmp check (some vp) = some 1
          ↔ OpHolds check.op (vp.number check.type)
            (check.number check.type))
        ∧ (opAsks check.op (radiusCompareVps check vp) = true
          ↔ OpHolds check.op (vp.number check.type)
            (check.number check.type)))
      ↔ Near (vp.number check.type) (check.number check.type)
        ∧ (TagsDiffer check vp →
          (OpHolds check.op vp.flags.tag.toNat check.flags.tag.toNat
            ↔ OpHolds check.op (vp.number check.type)
              (check.number check.type))) := by
  obtain ⟨a, b, ha, hb, hpair⟩ := paircmp_order vp htype hop
  obtain ⟨a', b', ha', hb', hvps⟩ := radiusCompareVps_order vp htype hop
  have haa : a' = a := UInt32.toNat_inj.mp (by omega)
  have hbb : b' = b := UInt32.toNat_inj.mp (by omega)
  subst haa hbb
  rw [hpair, hvps, ← ha, ← hb]
  have hone : (some (if opAsks check.op (cInt (a' - b')) = true then (1 : Int)
      else 0) = some 1) ↔ opAsks check.op (cInt (a' - b')) = true := by
    split
    · next h => simp [h]
    · next h => simp [h]
  have htags : opAsks check.op ((vp.flags.tag.toNat : Int)
      - check.flags.tag.toNat) = true
      ↔ OpHolds check.op vp.flags.tag.toNat check.flags.tag.toNat := by
    obtain h | h | h | h := hop
    · rw [h]
      simp only [opAsks, OpHolds, decide_eq_true_eq]
      omega
    · rw [h]
      simp only [opAsks, OpHolds, decide_eq_true_eq]
      omega
    · rw [h]
      simp only [opAsks, OpHolds, decide_eq_true_eq]
      omega
    · rw [h]
      simp only [opAsks, OpHolds, decide_eq_true_eq]
      omega
  rw [hone, opAsks_sub_iff hop]
  by_cases hdiffer : TagsDiffer check vp
  · rw [if_pos hdiffer, htags]
    constructor
    · exact fun ⟨hnear, htag⟩ => ⟨hnear, fun _ => htag⟩
    · exact fun ⟨hnear, htag⟩ => ⟨hnear, htag hdiffer⟩
  · rw [if_neg hdiffer, opAsks_sub_iff hop]
    constructor
    · exact fun ⟨hnear, _⟩ => ⟨hnear, fun h => absurd h hdiffer⟩
    · exact fun ⟨hnear, _⟩ => ⟨hnear, hnear⟩

/-- A check item `Session-Timeout > 0`. -/
def moreThanZero : ValuePair where
  attr := 27
  type := .integer
  length := 4
  op := .opGt

/-- A timeout of `2^32 - 1`. -/
def farTimeout : ValuePair where
  attr := 27
  type := .integer
  length := 4
  lvalue := 4294967295

/-- The greater value is taken to be less, by both functions. -/
theorem farTimeout_not_more :
    OpHolds moreThanZero.op (farTimeout.number .integer)
        (moreThanZero.number .integer)
      ∧ paircmp moreThanZero (some farTimeout) = some 0
      ∧ opAsks moreThanZero.op (radiusCompareVps moreThanZero farTimeout)
        = false := by
  refine ⟨?_, by decide, by decide⟩
  have hmore : moreThanZero.number .integer < farTimeout.number .integer := by
    decide
  exact hmore

/-- A timeout of five is near enough: both functions say that it is
more. -/
theorem compare_order_iff_five :
    paircmp moreThanZero (some { farTimeout with lvalue := 5 }) = some 1
      ∧ opAsks moreThanZero.op (radiusCompareVps moreThanZero
        { farTimeout with lvalue := 5 }) = true
      ∧ ¬ Near (farTimeout.number .integer) (moreThanZero.number .integer)
      := by
  have hmore : OpHolds moreThanZero.op
      (({ farTimeout with lvalue := 5 } : ValuePair).number .integer)
      (moreThanZero.number .integer) := by
    show (0 : Int) < 5
    decide
  obtain ⟨hpair, hvps⟩ := (compare_order_iff moreThanZero
    { farTimeout with lvalue := 5 } (.inl rfl) (.inr (.inl rfl))).mpr
      ⟨by decide, fun htags => absurd htags.1 (by decide)⟩
  exact ⟨hpair.mpr hmore, hvps.mpr hmore, by decide⟩

end WinRadius
