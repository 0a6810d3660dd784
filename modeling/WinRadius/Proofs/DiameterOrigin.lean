/-
Where the pairs of `diameter2vp` come from.

A run that returns a list has made one pair of every record that has a
number, in order, under that number (`runAvps_pairs`). So whether a pair
tells the truth about its record is a matter of the number alone
(`declares_iff`), and the number says too little in two cases: a code
above 65535 without the vendor flag spills into the vendor's half, and
code 0 is let through.
-/
import WinRadius.Proofs.DiameterVisit

namespace WinRadius

open Lib

variable {cfg : Config} {challenge : AuthVector} {a : Avp} {attr : Nat}
  {as : List Avp} {pos : Nat}

-- ======== numbers

/-- The provenance a pair should have: a vendor's attribute from a record
of that vendor, any other from a record of a standard code without
vendor. -/
def Declares (a : Avp) (attr : Nat) : Prop :=
  (vendorOf attr ≠ 0 →
    ∃ v, a.vendorId = some v ∧ v.toNat = vendorOf attr)
  ∧ (vendorOf attr = 0 →
    1 ≤ a.code.toNat ∧ a.code.toNat ≤ 255
      ∧ (a.vendorId = none ∨ a.vendorId = some 0))

/-- The code of the record is one its flags account for: below 65536
without the vendor flag, and 0 for a vendor's attribute only. -/
def WellNumbered (a : Avp) : Prop :=
  a.value.length ≤ 253 →
    (a.vendorId.isSome = true ∨ a.code.toNat < 65536)
    ∧ (a.code.toNat = 0 → ∃ v, a.vendorId = some v ∧ v ≠ 0)

theorem vendorOf_eq {n : Nat} (h : n < 4294967296) :
    vendorOf n = n / 65536 := by
  rw [vendorOf, Nat.shiftRight_eq_div_pow]
  omega

theorem or_shift {m n : Nat} (h : m < 65536) :
    m ||| n <<< 16 = n * 65536 + m := by
  rw [Nat.or_comm, ← Nat.shiftLeft_add_eq_or_of_lt h,
    Nat.shiftLeft_eq]

/-- A record that is skipped is well numbered. -/
theorem wellNumbered_of_skipped (h : decodedNumber a = none) :
    WellNumbered a := by
  intro hsize
  have hcode := a.code.toNat_lt
  rw [decodedNumber, Option.filter_eq_none_iff] at h
  cases hv : a.vendorId with
  | none =>
      have hnum : numberOf a = some a.code.toNat := by
        rw [numberOf, hv]
      have hskip := h _ hnum
      simp only [Bool.not_eq_true', Bool.not_eq_false, Bool.or_eq_true,
        decide_eq_true_eq, vendorOf_eq hcode] at hskip
      refine ⟨Or.inr (by omega), ?_⟩
      intro h0
      omega
  | some v =>
      refine ⟨Or.inl rfl, ?_⟩
      intro h0
      refine ⟨v, rfl, ?_⟩
      rintro rfl
      have hnum : numberOf a = some 0 := by
        rw [numberOf, hv, h0]
        rfl
      have hskip := h _ hnum
      simp only [Bool.not_eq_true', Bool.not_eq_false, Bool.or_eq_true,
        decide_eq_true_eq] at hskip
      omega

/-- The number tells where it comes from when the record is well
numbered. -/
theorem declares_iff (h : decodedNumber a = some attr) :
    Declares a attr ↔ WellNumbered a := by
  obtain ⟨hnum, hstd, hsize⟩ := decodedNumber_eq_some.mp h
  have hcode := a.code.toNat_lt
  unfold Declares WellNumbered
  unfold numberOf at hnum
  cases hv : a.vendorId with
  | none =>
      rw [hv] at hnum
      cases hnum
      rw [vendorOf_eq hcode] at hstd ⊢
      simp only [reduceCtorEq, false_and, exists_false, Option.isSome_none,
        Bool.false_eq_true, true_or, and_true, false_or]
      constructor
      · intro ⟨hno, hstd'⟩ _
        have h0 := hstd' (not_not.mp hno)
        exact ⟨by omega, by omega⟩
      · intro hwell
        obtain ⟨hlt, hne⟩ := hwell hsize
        have h1 : 1 ≤ a.code.toNat := Nat.pos_of_ne_zero hne
        exact ⟨by omega, by omega⟩
  | some v =>
      rw [hv] at hnum
      simp only at hnum
      split at hnum
      next => cases hnum
      next hle =>
      rw [not_or, not_lt, not_lt] at hle
      rw [Option.some.injEq, or_shift (by omega)] at hnum
      subst hnum
      have hvendor : vendorOf (v.toNat * 65536 + a.code.toNat)
          = v.toNat := by
        rw [vendorOf_eq (by omega)]
        omega
      have hzero : v = 0 ↔ v.toNat = 0 := by
        rw [← UInt32.toNat_inj]
        rfl
      rw [hvendor] at hstd ⊢
      simp only [Option.some.injEq, exists_eq_left', reduceCtorEq,
        false_or, Option.isSome_some, true_or, true_and, hzero, ne_eq]
      constructor
      · intro ⟨_, hstd'⟩ _ h0 hv0
        have := (hstd' hv0).1
        omega
      · intro hwell
        have hne := hwell hsize
        refine ⟨fun _ => trivial, ?_⟩
        intro hv0
        have h1 : 1 ≤ a.code.toNat :=
          Nat.pos_of_ne_zero fun h0 => hne h0 hv0
        exact ⟨h1, by omega, hv0⟩

-- ======== pairs

/-- What the code makes of one record. -/
def pairsOf (cfg : Config) (challenge : AuthVector) (a : Avp) :
    List ValuePair :=
  match outcomeOf cfg challenge a with
  | .ok o => o.vps
  | .error _ => []

/-- A record that is not refused gives one pair under its number, or none
when it has no number. -/
theorem pairsOf_cases {o : AvpOutcome}
    (hrun : outcomeOf cfg challenge a = .ok o) (href : o.refuses = false) :
    (decodedNumber a = none ∧ o.vps = [])
      ∨ ∃ w, decodedNumber a = some w.attr ∧ o.vps = [w] := by
  cases hn : decodedNumber a with
  | none =>
      rw [outcomeOf_skipped hn] at hrun
      cases hrun
      exact Or.inl ⟨rfl, rfl⟩
  | some attr =>
      rcases outcomeOf_cases hn with
        ⟨-, hrun'⟩ | ⟨vp, hvp, ⟨-, hrun'⟩ | ⟨-, r, hst, hrun'⟩⟩
      · rw [hrun] at hrun'
        cases hrun'
        cases href
      · rw [hrun] at hrun'
        cases hrun'
      · rw [hrun] at hrun'
        cases hrun'
        obtain ⟨w, hvps, hattr, -, -⟩ := checkAvp_spec challenge hst
        exact Or.inr ⟨w, by rw [hattr, paircreate_attr hvp], hvps⟩

/-- The pairs of a list of records, each with the offset of its own. -/
def locatedPairs (cfg : Config) (challenge : AuthVector) :
    Nat → List Avp → List (Int × ValuePair)
  | _, [] => []
  | pos, a :: as =>
      (pairsOf cfg challenge a).map (fun vp => ((pos : Int), vp))
        ++ locatedPairs cfg challenge (pos + a.bytes.length) as

/-- A list that is returned holds the pairs of all records, none of which
was refused. -/
theorem runAvps_pairs {visited : List Int}
    {first vps : List (Int × ValuePair)} {d : Decoded}
    (h : runAvps cfg challenge pos as visited first = .ok d)
    (hd : d.vps = some vps) :
    d.visited = visited ++ avpOffsets pos as
      ∧ vps = first ++ locatedPairs cfg challenge pos as
      ∧ ∀ a ∈ as, ∃ o, outcomeOf cfg challenge a = .ok o
        ∧ o.refuses = false := by
  induction as generalizing pos visited first with
  | nil =>
      cases h
      cases hd
      exact ⟨(List.append_nil _).symm, (List.append_nil _).symm,
        fun a ha => absurd ha List.not_mem_nil⟩
  | cons a as ih =>
      rw [runAvps] at h
      obtain ⟨o, ho, h⟩ := bind_eq_ok.mp h
      dsimp only at h
      split at h
      next =>
        unfold refuseAvp at h
        split at h
        · cases h
        · cases h
          cases hd
      next href =>
        obtain ⟨hvisited, hvps, hall⟩ := ih h
        rw [List.append_assoc] at hvisited hvps
        refine ⟨hvisited, ?_, ?_⟩
        · rw [hvps, locatedPairs, pairsOf, ho]
        · intro b hb
          rcases List.mem_cons.mp hb with rfl | hb
          · exact ⟨o, ho, by simpa using href⟩
          · exact hall b hb

-- ======== origins

/-- The records of a list, each with its offset. -/
def locatedAvps (pos : Nat) (as : List Avp) : List (Int × Avp) :=
  (avpOffsets pos as).zip as

theorem locatedAvps_cons (pos : Nat) (a : Avp) (as : List Avp) :
    locatedAvps pos (a :: as)
      = ((pos : Int), a) :: locatedAvps (pos + a.bytes.length) as := rfl

theorem locatedAvps_ge {p : Int × Avp} (h : p ∈ locatedAvps pos as) :
    (pos : Int) ≤ p.1 := by
  induction as generalizing pos with
  | nil => cases h
  | cons a as ih =>
      rw [locatedAvps_cons] at h
      rcases List.mem_cons.mp h with rfl | h
      · exact Int.le_refl _
      · have := ih h
        omega

theorem locatedPairs_ge {p : Int × ValuePair}
    (h : p ∈ locatedPairs cfg challenge pos as) : (pos : Int) ≤ p.1 := by
  induction as generalizing pos with
  | nil => cases h
  | cons a as ih =>
      rw [locatedPairs] at h
      rcases List.mem_append.mp h with h | h
      · obtain ⟨vp, -, rfl⟩ := List.mem_map.mp h
        exact Int.le_refl _
      · have := ih h
        omega

theorem bytes_pos (a : Avp) : 0 < a.bytes.length := by
  have := a.bytes_length
  have := a.offset_le
  have hl : a.length = a.offset + a.value.length := rfl
  omega

/-- Every pair has the provenance its record declares exactly when every
record is well numbered. -/
theorem origin_iff (h : ∀ a ∈ as, ∃ o, outcomeOf cfg challenge a = .ok o
      ∧ o.refuses = false) :
    (∀ p ∈ locatedPairs cfg challenge pos as,
        ∃ a, (p.1, a) ∈ locatedAvps pos as ∧ Declares a p.2.attr)
      ↔ ∀ a ∈ as, WellNumbered a := by
  induction as generalizing pos with
  | nil =>
      apply iff_of_true
      · intro p hp
        cases hp
      · intro a ha
        cases ha
  | cons a as ih =>
      obtain ⟨o, ho, href⟩ := h a List.mem_cons_self
      have hpos := bytes_pos a
      have htail := @ih (pos + a.bytes.length)
        fun b hb => h b (List.mem_cons_of_mem a hb)
      have hpairs : pairsOf cfg challenge a = o.vps := by
        rw [pairsOf, ho]
      rw [List.forall_mem_cons, ← htail, locatedPairs, locatedAvps_cons,
        hpairs]
      simp only [List.mem_append, List.mem_map]
      constructor
      · intro hall
        constructor
        · rcases pairsOf_cases ho href with ⟨hn, -⟩ | ⟨w, hn, hvps⟩
          · exact wellNumbered_of_skipped hn
          · obtain ⟨b, hb, hdecl⟩ := hall ((pos : Int), w)
              (Or.inl ⟨w, by rw [hvps]; exact List.mem_singleton_self w,
                rfl⟩)
            rcases List.mem_cons.mp hb with hb | hb
            · cases hb
              exact (declares_iff hn).mp hdecl
            · have := locatedAvps_ge hb
              simp only at this
              omega
        · intro p hp
          obtain ⟨b, hb, hdecl⟩ := hall p (Or.inr hp)
          rcases List.mem_cons.mp hb with hb | hb
          · have hp1 : p.1 = (pos : Int) := congrArg Prod.fst hb
            have := locatedPairs_ge hp
            omega
          · exact ⟨b, hb, hdecl⟩
      · intro ⟨hwell, hall⟩ p hp
        rcases hp with ⟨vp, hvp, rfl⟩ | hp
        · rcases pairsOf_cases ho href with ⟨-, hvps⟩ | ⟨w, hn, hvps⟩
          · rw [hvps] at hvp
            cases hvp
          · rw [hvps, List.mem_singleton] at hvp
            subst hvp
            exact ⟨a, List.mem_cons_self, (declares_iff hn).mpr hwell⟩
        · obtain ⟨b, hb, hdecl⟩ := hall p hp
          exact ⟨b, List.mem_cons_of_mem _ hb, hdecl⟩

/-- On a string that `diameter_verify` accepts, every pair of the list
`diameter2vp` returns has the provenance its AVP declares exactly when
every AVP of at most 253 bytes of value is well numbered: its code is
below 65536 or it has the vendor flag, and code 0 comes with a vendor
other than 0. -/
theorem diameter2vp_origin {data : List UInt8} {seen : List Int}
    {d : Decoded} {vps : List (Int × ValuePair)}
    (h : diameterVerify data = .ok (some seen))
    (hrun : diameter2vp cfg challenge data = .ok d)
    (hvps : d.vps = some vps) :
    ∃ as, Framed as ∧ data = avpWire as ∧ seen = avpOffsets 0 as
      ∧ ((∀ p ∈ vps,
            ∃ a, (p.1, a) ∈ locatedAvps 0 as ∧ Declares a p.2.attr)
          ↔ ∀ a ∈ as, WellNumbered a) := by
  obtain ⟨as, has, rfl, rfl⟩ := diameterVerify_iff.mp h
  rw [diameter2vp_wire has] at hrun
  obtain ⟨-, rfl, hall⟩ := runAvps_pairs hrun hvps
  exact ⟨as, has, rfl, rfl, origin_iff hall⟩

/-- Code `0x00090001`, without the vendor flag. -/
def forgedAvp : Avp :=
  { code := 589825, flags := 0, vendorId := none,
    value := [97, 98, 99, 100], pad := [], vendor_flag := by decide,
    nonempty := by decide, fits := by decide }

/-- The pair of an attribute that is not in the dictionary. -/
def octetsPair (attr : Nat) (bytes : List UInt8) : ValuePair :=
  { attr := attr, vendor := vendorOf attr, type := .octets
    length := bytes.length
    flags := { unknownAttr := true }
    data := bytes }

/-- Not every pair has the provenance of its AVP: an AVP without the
vendor flag whose code is 9 * 65536 + 1 comes out as attribute 1 of
vendor 9. -/
theorem diameter2vp_forges :
    ¬ ∀ (cfg : Config) (challenge : AuthVector) (as : List Avp)
        (seen : List Int) (d : Decoded) (vps : List (Int × ValuePair)),
      diameterVerify (avpWire as) = .ok (some seen) →
      diameter2vp cfg challenge (avpWire as) = .ok d → d.vps = some vps →
      ∀ p ∈ vps,
        ∃ a, (p.1, a) ∈ locatedAvps 0 as ∧ Declares a p.2.attr := by
  intro h
  have hrun : diameter2vp bareConfig .zero (avpWire [forgedAvp])
      = .ok ⟨[0], some [(0, octetsPair 589825 [97, 98, 99, 100])]⟩ := rfl
  obtain ⟨a, ha, hdecl⟩ := h bareConfig .zero [forgedAvp] [0] _ _ rfl hrun
    rfl _ List.mem_cons_self
  have ha' : a = forgedAvp := by
    rcases List.mem_cons.mp ha with ha | ha
    · exact congrArg Prod.snd ha
    · cases ha
  subst ha'
  obtain ⟨v, hv, -⟩ := hdecl.1 (by decide)
  cases hv

/-- `User-Name` and attribute 1 of vendor 9, as they should be. -/
def honestAvps : List Avp :=
  [{ code := 1, flags := 64, vendorId := none, value := [97, 98, 99, 100],
     pad := [], vendor_flag := by decide, nonempty := by decide,
     fits := by decide },
   { code := 1, flags := 192, vendorId := some 9, value := [97],
     pad := [0, 0, 0], vendor_flag := by decide, nonempty := by decide,
     fits := by decide }]

/-- Both have code 1, so their pairs say where they come from. -/
theorem diameter2vp_origin_honest : ∃ as, Framed as
    ∧ avpWire honestAvps = avpWire as ∧ [0, 12] = avpOffsets 0 as
    ∧ ∀ p ∈ [((0 : Int), octetsPair 1 [97, 98, 99, 100]),
          (12, octetsPair 589825 [97])],
        ∃ a, (p.1, a) ∈ locatedAvps 0 as ∧ Declares a p.2.attr := by
  have hseen : diameterVerify (avpWire honestAvps) = .ok (some [0, 12]) :=
    rfl
  have hrun : diameter2vp bareConfig .zero (avpWire honestAvps)
      = .ok ⟨[0, 12], some [(0, octetsPair 1 [97, 98, 99, 100]),
          (12, octetsPair 589825 [97])]⟩ := rfl
  obtain ⟨as, has, hwire, hoff, hiff⟩ := diameter2vp_origin hseen hrun rfl
  refine ⟨as, has, hwire, hoff, hiff.mpr ?_⟩
  have hone {a : Avp} (h : be32 1 = be32 a.code) : WellNumbered a := by
    have hcode : a.code = 1 := by rw [← ofBe32_be32 a.code, ← h]; rfl
    exact fun _ => ⟨.inr (by rw [hcode]; decide), fun h0 => by
      rw [hcode] at h0
      cases h0⟩
  rcases as with - | ⟨a, - | ⟨b, - | ⟨c, cs⟩⟩⟩
  · cases hoff
  · cases hoff
  · have hsecond : (12 : Int) = (0 + a.bytes.length : Nat) := by
      simpa [avpOffsets] using hoff
    have ha := fetchN_code a [] (avpWire [b])
    have hb := fetchN_code b a.bytes []
    rw [List.nil_append, ← avpWire_cons, ← hwire] at ha
    rw [List.append_nil, show a.bytes ++ b.bytes = avpWire [a, b] by simp,
      ← hwire, show (a.bytes.length : Int) = 12 by omega] at hb
    intro x hx
    rcases List.mem_pair.mp hx with rfl | rfl
    · exact hone (Except.ok.inj ha)
    · exact hone (Except.ok.inj hb)
  · simp [avpOffsets] at hoff

end WinRadius
