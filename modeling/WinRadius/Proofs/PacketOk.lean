/-
Exactly what `rad_packet_ok` accepts.

`WellFormed` says it without the walk: bounds on the header, and a cut of
the bytes behind it into attributes. The walk over a string of attributes
is a sum over the list (`okWalk_wire`), and a walk that reaches the end has
found such a list (`okWalk_tiles`), so the two agree.
-/
import WinRadius.Proofs.Received

namespace WinRadius

open Lib

variable {cfg : Config} {packet q : RadiusPacket} {flags : Bool}

/-- The attribute is of this type. -/
def Tlv.is (a : Tlv) (type : Nat) : Bool := a.type.toNat == type

/-- A received byte string that is a RADIUS packet. -/
structure WellFormed (cfg : Config) (data : List UInt8) (flags : Bool) :
    Prop where
  received : authHdrLen ≤ data.length ∧ data.length ≤ maxPacketLen
  code : 0 < (data.getD 0 0).toNat
    ∧ (data.getD 0 0).toNat < frMaxPacketCode
  length : authHdrLen ≤ lengthField data ∧ lengthField data ≤ maxPacketLen
    ∧ lengthField data ≤ data.length
  attributes : ∃ as : List Tlv,
    (data.take (lengthField data)).drop authHdrLen = wire as
      ∧ (∀ a ∈ as, a.type ≠ 0)
      ∧ (∀ a ∈ as, Tlv.is a pwMessageAuthenticator = true →
          a.value.length + 2 = 18)
      ∧ ((∃ a ∈ as, Tlv.is a pwEapMessage = true)
          ∨ (data.getD 0 0).toNat = pwStatusServer ∨ flags = true →
        ∃ a ∈ as, Tlv.is a pwMessageAuthenticator = true)
      ∧ (0 < cfg.maxAttributes → as.length ≤ cfg.maxAttributes)

-- ======== the walk

/-- What the walk finds in a list of attributes. -/
def okSum (w : OkWalk) (as : List Tlv) : OkWalk :=
  { requireMa := w.requireMa || as.any fun a => Tlv.is a pwEapMessage
    seenMa := w.seenMa || as.any fun a => Tlv.is a pwMessageAuthenticator
    numAttributes := w.numAttributes + as.length }

/-- An attribute that may pass adds itself to the sum. -/
theorem okAttr_received {w : OkWalk} {a : Tlv}
    (hma : a.type.toNat = pwMessageAuthenticator →
      a.value.length = authVectorLen) :
    ∃ w', okAttr w a.type.toNat (a.value.length + 2) = .ok w'
      ∧ { w' with numAttributes := w'.numAttributes + 1 } = okSum w [a] := by
  have hne : pwEapMessage ≠ pwMessageAuthenticator := by decide
  unfold okAttr okSum Tlv.is
  by_cases heap : a.type.toNat = pwEapMessage
  · rw [if_pos heap]
    refine ⟨_, rfl, ?_⟩
    simp [heap, hne]
  · rw [if_neg heap]
    by_cases hm : a.type.toNat = pwMessageAuthenticator
    · have hlen : ¬ a.value.length + 2 ≠ 2 + authVectorLen := by
        rw [hma hm]
        omega
      rw [if_pos hm, if_neg hlen]
      refine ⟨_, rfl, ?_⟩
      simp [hm, hne.symm]
    · rw [if_neg hm]
      refine ⟨_, rfl, ?_⟩
      simp [heap, hm]

theorem okSum_cons (w : OkWalk) (a : Tlv) (as : List Tlv) :
    okSum w (a :: as) = okSum (okSum w [a]) as := by
  simp only [okSum, List.any_cons, List.any_nil, Bool.or_false,
    Bool.or_assoc, List.length_cons, List.length_nil, OkWalk.mk.injEq,
    true_and]
  omega

/-- The walk over attributes that may pass. -/
theorem okWalk_wire {fuel : Nat} {w : OkWalk} {as : List Tlv}
    (hfuel : (wire as).length ≤ fuel) (has : ∀ a ∈ as, Tlv.Received a) :
    okWalk fuel w (wire as) = .ok (okSum w as) := by
  induction as generalizing fuel w with
  | nil =>
      rw [wire_nil]
      cases fuel <;> simp [okWalk, okSum]
  | cons a as ih =>
      obtain ⟨hzero, hma⟩ := has a List.mem_cons_self
      obtain ⟨w', hw', hsum⟩ := okAttr_received (w := w) hma
      have hlen := a.lenByte_toNat
      have hfits := a.fits
      rw [wire_cons, List.length_append, Tlv.bytes_length] at hfuel
      obtain ⟨fuel, rfl⟩ : ∃ f, fuel = f + 1 := ⟨fuel - 1, by omega⟩
      rw [wire_cons, Tlv.bytes, List.cons_append, List.cons_append, okWalk,
        if_neg hzero, if_neg, if_neg, hlen, hw', ok_bind, hsum,
        show a.value.length + 2 - 2 = a.value.length by omega,
        List.drop_left, ih (by omega) fun b hb => has b
          (List.mem_cons_of_mem a hb), ← okSum_cons]
      · rw [hlen, List.length_append]
        omega
      · rw [UInt8.lt_iff_toNat_lt, hlen]
        show ¬ a.value.length + 2 < 2
        omega

/-- The checks on the sum. -/
theorem okCounts_ok_iff {w : OkWalk} :
    okCounts cfg w = .ok () ↔
      (0 < cfg.maxAttributes → w.numAttributes ≤ cfg.maxAttributes)
        ∧ (w.requireMa = true → w.seenMa = true) := by
  unfold okCounts
  by_cases hmany : 0 < cfg.maxAttributes
      ∧ cfg.maxAttributes < w.numAttributes
  · rw [if_pos hmany]
    constructor
    · intro h
      cases h
    · intro ⟨h, _⟩
      have hle := h hmany.1
      omega
  · rw [if_neg hmany]
    cases hreq : w.requireMa <;> cases hseen : w.seenMa <;> simp <;> omega

-- ======== the check

/-- The header is accepted exactly within its bounds. -/
theorem okHeader_ok_iff {cut : RadiusPacket} :
    okHeader packet = .ok cut ↔
      (authHdrLen ≤ packet.data.length ∧ packet.data.length ≤ maxPacketLen)
        ∧ (0 < (packet.data.getD 0 0).toNat
          ∧ (packet.data.getD 0 0).toNat < frMaxPacketCode)
        ∧ (authHdrLen ≤ lengthField packet.data
          ∧ lengthField packet.data ≤ maxPacketLen
          ∧ lengthField packet.data ≤ packet.data.length)
        ∧ cut = { packet with
            data := packet.data.take (lengthField packet.data) } := by
  unfold okHeader
  dsimp only
  -- each test that fails breaks one of the bounds
  split_ifs with h1 h2 h3 h4 h5 h6
  any_goals
    apply iff_of_false (by intro h; cases h)
    omega
  rw [Except.ok.injEq, eq_comm]
  constructor
  · intro hcut
    exact ⟨by omega, by omega, by omega, hcut⟩
  · intro ⟨_, _, _, hcut⟩
    exact hcut

/-- Acceptance, as the three parts of the check give it. -/
theorem radPacketOk_accepts_iff :
    (radPacketOk cfg packet flags).2 = none ↔
      ∃ cut w, okHeader packet = .ok cut
        ∧ okWalk cut.data.length
            { requireMa := decide ((cut.data.getD 0 0).toNat = pwStatusServer)
                || flags } (cut.data.drop authHdrLen) = .ok w
        ∧ okCounts cfg w = .ok () := by
  unfold radPacketOk
  cases hheader : okHeader packet with
  | error e => simp
  | ok cut =>
      dsimp only
      cases hwalk : okWalk cut.data.length
          { requireMa := decide ((cut.data.getD 0 0).toNat = pwStatusServer)
              || flags } (cut.data.drop authHdrLen) with
      | error e =>
          simp only [reduceCtorEq, false_iff]
          intro ⟨cut', w, hcut, hw, _⟩
          cases hcut
          rw [hwalk] at hw
          cases hw
      | ok w =>
          dsimp only
          cases hcounts : okCounts cfg w with
          | error e =>
              simp only [reduceCtorEq, false_iff]
              intro ⟨cut', w', hcut, hw, hc⟩
              cases hcut
              rw [hwalk] at hw
              cases hw
              rw [hcounts] at hc
              cases hc
          | ok u =>
              simp only [true_iff]
              exact ⟨cut, w, rfl, hwalk, hcounts⟩

/-- A rejected packet keeps code, id and vector. -/
theorem radPacketOk_rejected (h : (radPacketOk cfg packet flags).2 ≠ none) :
    (radPacketOk cfg packet flags).1.code = packet.code
      ∧ (radPacketOk cfg packet flags).1.id = packet.id
      ∧ (radPacketOk cfg packet flags).1.vector = packet.vector := by
  revert h
  unfold radPacketOk
  split
  · intro _
    exact ⟨rfl, rfl, rfl⟩
  · next cut hcut =>
      obtain ⟨-, -, -, rfl⟩ := okHeader_ok_iff.mp hcut
      dsimp only
      split
      · intro _
        exact ⟨rfl, rfl, rfl⟩
      · split
        · intro _
          exact ⟨rfl, rfl, rfl⟩
        · intro h
          exact absurd rfl h

/-- An accepted packet is cut to its length field. -/
theorem radPacketOk_length (h : (radPacketOk cfg packet flags).2 = none) :
    (radPacketOk cfg packet flags).1.data.length
      = lengthField packet.data := by
  obtain ⟨cut, w, hcut, hwalk, hcounts⟩ := radPacketOk_accepts_iff.mp h
  obtain ⟨-, -, ⟨-, -, hle⟩, rfl⟩ := okHeader_ok_iff.mp hcut
  unfold radPacketOk
  rw [hcut]
  dsimp only at hwalk ⊢
  rw [hwalk]
  dsimp only
  rw [hcounts]
  show (packet.data.take (lengthField packet.data)).length = _
  rw [List.length_take]
  omega

/-- What the sum says about a list. -/
theorem okSum_start {code : Nat} {as : List Tlv} :
    ((okSum { requireMa := decide (code = pwStatusServer) || flags }
          as).requireMa = true
        → (okSum { requireMa := decide (code = pwStatusServer) || flags }
          as).seenMa = true)
      ↔ ((∃ a ∈ as, Tlv.is a pwEapMessage = true)
          ∨ code = pwStatusServer ∨ flags = true →
        ∃ a ∈ as, Tlv.is a pwMessageAuthenticator = true) := by
  simp only [okSum, Bool.or_eq_true, decide_eq_true_eq, List.any_eq_true,
    Bool.false_or]
  rw [or_comm]

/-- The code is read from what the packet is cut to. -/
theorem getD_take_code {data : List UInt8} {n : Nat}
    (h : authHdrLen ≤ n) : (data.take n).getD 0 0 = data.getD 0 0 := by
  have hhdr : authHdrLen = 20 := rfl
  rw [List.getD_eq_getElem?_getD, List.getElem?_take, if_pos (by omega),
    List.getD_eq_getElem?_getD]

/-- `rad_packet_ok` accepts exactly the well-formed byte strings, cut to
their length field; a rejected packet keeps code, id and vector. -/
theorem radPacketOk_iff (cfg : Config) (packet : RadiusPacket)
    (flags : Bool) :
    ((radPacketOk cfg packet flags).2 = none
        ↔ WellFormed cfg packet.data flags)
      ∧ ((radPacketOk cfg packet flags).2 = none →
          (radPacketOk cfg packet flags).1.data.length
            = lengthField packet.data)
      ∧ ((radPacketOk cfg packet flags).2 ≠ none →
          (radPacketOk cfg packet flags).1.code = packet.code
            ∧ (radPacketOk cfg packet flags).1.id = packet.id
            ∧ (radPacketOk cfg packet flags).1.vector = packet.vector) := by
  refine ⟨?_, radPacketOk_length, radPacketOk_rejected⟩
  have hvlen : authVectorLen = 16 := rfl
  have hsum : ∀ as : List Tlv,
      (okSum { requireMa := decide ((packet.data.getD 0 0).toNat
        = pwStatusServer) || flags } as).numAttributes = as.length :=
    fun as => Nat.zero_add _
  rw [radPacketOk_accepts_iff]
  constructor
  · intro ⟨cut, w, hcut, hwalk, hcounts⟩
    obtain ⟨hreceived, hcode, hlength, rfl⟩ := okHeader_ok_iff.mp hcut
    obtain ⟨as, htiles, has, _⟩ :=
      okWalk_tiles (by rw [List.length_drop]; omega) hwalk
    dsimp only at htiles hwalk
    rw [getD_take_code hlength.1, htiles, okWalk_wire
        (by rw [← htiles, List.length_drop]; omega) has] at hwalk
    cases hwalk
    obtain ⟨hmax, hseen⟩ := okCounts_ok_iff.mp hcounts
    rw [hsum] at hmax
    refine ⟨hreceived, hcode, hlength, as, htiles, fun a ha => (has a ha).1,
      fun a ha hma => ?_, okSum_start.mp hseen, hmax⟩
    rw [(has a ha).2 (beq_iff_eq.mp hma), hvlen]
  · intro h
    obtain ⟨as, htiles, hzero, hma, hreq, hcount⟩ := h.attributes
    have has : ∀ a ∈ as, Tlv.Received a := by
      intro a ha
      refine ⟨hzero a ha, fun ht => ?_⟩
      have h18 := hma a ha (beq_iff_eq.mpr ht)
      omega
    refine ⟨_, _, okHeader_ok_iff.mpr ⟨h.received, h.code, h.length, rfl⟩,
      ?_, okCounts_ok_iff.mpr ⟨?_, okSum_start.mpr hreq⟩⟩
    · dsimp only
      rw [getD_take_code h.length.1, htiles, okWalk_wire
        (by rw [← htiles, List.length_drop]; omega) has]
    · rw [hsum]
      exact hcount

/-- A Status-Server packet without a Message-Authenticator. -/
example :
    (radPacketOk bareConfig
      { data := [12, 1, 0, 20] ++ List.replicate 16 7 } false).2 ≠ none := by
  decide

end WinRadius
