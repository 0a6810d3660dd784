/-
The calls of `rad_continuation2vp` that `rad_decode` makes, over whole
runs of its loop.

`Placed` is what every iteration keeps, whatever the vendor formats: the
read position only moves forward, and what is left is counted from it to
the packet's end. With a continued vendor whose length field has two
bytes the loop leaves the boundaries of the attributes, so nothing
stronger holds of every run.

A call stays inside the packet if and only if its arguments do what
`CallInside` says, and so do all the calls of a run.
-/
import WinRadius.Proofs.Coalesce

namespace WinRadius

open Lib

variable {ctx : DecCtx} {s s' : DecState}

-- ======== every run

/-- The read position between two iterations. -/
structure Placed (s : DecState) : Prop where
  nonneg : 0 ≤ s.ptr
  ends : s.ptr + s.packetLength = s.buf.length
  inside : s.vendorcode ≠ 0 → s.vendorlen ≠ 0

/-- From `s` an iteration has come to a value of `attrlen` bytes at
`s'`. -/
structure Advances (s s' : DecState) (attrlen : Int) : Prop where
  same : s'.buf = s.buf
  pairs : s'.vps = s.vps
  total : s'.ptr + s'.packetLength = s.ptr + s.packetLength
  forward : s.ptr ≤ s'.ptr
  behind : s.ptr ≤ s'.ptr + attrlen
  inside : s'.vendorcode ≠ 0 → s'.vendorlen ≠ 0

/-- What an iteration has come to; one that breaks off keeps its
pairs. -/
def StepKind.Advances (s : DecState) : StepKind → Prop
  | .stop s' | .broken s' => s'.vps = s.vps
  | .skip s' attrlen => WinRadius.Advances s s' attrlen
  | .pair s' _ attrlen => WinRadius.Advances s s' attrlen
  | .cont call => WinRadius.Advances s call.s call.attrlen

theorem Advances.trans {s0 : DecState} {attrlen n : Int}
    (h : Advances s0 s n) (h' : Advances s s' attrlen) :
    Advances s0 s' attrlen :=
  ⟨h'.same.trans h.same, h'.pairs.trans h.pairs, h'.total.trans h.total,
    h.forward.trans h'.forward, h.forward.trans h'.behind, h'.inside⟩

theorem StepKind.Advances.trans {s0 : DecState} {n : Int} {k : StepKind}
    (hk : k.Advances s) (h : WinRadius.Advances s0 s n) :
    k.Advances s0 := by
  cases k with
  | stop s' | broken s' => exact Eq.trans hk h.pairs
  | skip s' m => exact WinRadius.Advances.trans h hk
  | pair s' attr m => exact WinRadius.Advances.trans h hk
  | cont call => exact WinRadius.Advances.trans h hk

/-- A header takes at least its own bytes off, value and all. -/
theorem subHeader_behind {number : Nat} {attrlen : Int}
    (h : subHeader s = .ok (some (number, attrlen))) :
    0 ≤ ((s.vsaTlen + s.vsaLlen + s.vsaOffset : Nat) : Int)
      + attrlen := by
  unfold subHeader at h
  obtain ⟨number?, -, h⟩ := bind_eq_ok.mp h
  cases number? with
  | none => cases h
  | some number =>
      obtain ⟨attrlen?, hlen, h⟩ := bind_eq_ok.mp h
      cases attrlen? with
      | none => cases h
      | some attrlen =>
          cases h
          unfold subLength at hlen
          split at hlen
          · next hl =>
              obtain ⟨len, -, hlen⟩ := bind_eq_ok.mp hlen
              cases hlen
              push_cast
              omega
          · next hl =>
              obtain ⟨len, -, hlen⟩ := bind_eq_ok.mp hlen
              cases hlen
              push_cast
              omega
          · cases hlen

theorem pastSubHeader_advances {number : Nat} {attrlen : Int}
    (h : subHeader s = .ok (some (number, attrlen))) :
    Advances s (pastSubHeader s attrlen) attrlen := by
  have hb := subHeader_behind h
  push_cast at hb
  refine ⟨rfl, rfl, ?_, ?_, ?_, ?_⟩
  · simp only [pastSubHeader]
    omega
  · simp only [pastSubHeader]
    omega
  · simp only [pastSubHeader]
    omega
  · simp only [pastSubHeader]
    intro h hz
    rw [if_pos hz] at h
    exact h rfl

/-- Every sub-attribute ends behind its header. -/
theorem subKind_advances {k : StepKind} (h : subKind ctx s = .ok k) :
    k.Advances s := by
  unfold subKind at h
  obtain ⟨header, hh, h⟩ := bind_eq_ok.mp h
  match header, hh, h with
  | none, hh, h =>
      cases h
      rfl
  | some (number, attrlen), hh, h =>
      have hadv := pastSubHeader_advances hh
      simp only at h
      split at h
      · cases h
        exact hadv
      · split at h
        · cases h
          exact hadv
        · split at h
          · obtain ⟨cont, -, h⟩ := bind_eq_ok.mp h
            split at h
            · cases h
              exact hadv
            · cases h
              exact hadv
          · cases h
            exact hadv

theorem vendorSpecific_advances {attr : Nat} {attrlen : Int}
    {k : StepKind} (hcode : s.vendorcode = 0) (hlen : 4 < attrlen)
    (h : vendorSpecific ctx s attr attrlen = .ok k) : k.Advances s := by
  have hin : ∀ {t : DecState}, t.vendorcode = s.vendorcode →
      t.vendorcode ≠ 0 → t.vendorlen ≠ 0 :=
    fun ht hne => absurd (ht.trans hcode) hne
  unfold vendorSpecific at h
  obtain ⟨vk, hvk, h⟩ := bind_eq_ok.mp h
  unfold vsaKind at hvk
  obtain ⟨id, -, hvk⟩ := bind_eq_ok.mp hvk
  simp only at hvk
  split at hvk
  · cases hvk
    cases h
    exact ⟨rfl, rfl, rfl, le_refl _, by omega, hin rfl⟩
  · split at hvk
    · cases hvk
      cases h
      exact ⟨rfl, rfl, rfl, le_refl _, by omega, hin rfl⟩
    · obtain ⟨sw, -, hvk⟩ := bind_eq_ok.mp hvk
      cases sw with
      | raw =>
          cases hvk
          cases h
          exact ⟨rfl, rfl, rfl, le_refl _, by simp only; omega, hin rfl⟩
      | flat myattr =>
          cases hvk
          cases h
          refine ⟨rfl, rfl, ?_, ?_, ?_, hin rfl⟩
          · simp only
            omega
          · simp only
            omega
          · simp only
            omega
      | fits =>
          cases hvk
          simp only at h
          have hk := subKind_advances h
          refine hk.trans (n := 0) ⟨rfl, rfl, ?_, ?_, ?_, ?_⟩
          · simp only
            omega
          · simp only
            omega
          · simp only
            omega
          · simp only
            omega

/-- No iteration moves back. -/
theorem stepKind_advances {k : StepKind} (hp : Placed s)
    (h : stepKind ctx s = .ok k) : k.Advances s := by
  unfold stepKind at h
  split at h
  · next hcode =>
      obtain ⟨header, hh, h⟩ := bind_eq_ok.mp h
      match header, hh, h with
      | none, hh, h =>
          cases h
          rfl
      | some (attr, attrlen), hh, h =>
          have hpast : ∀ vl n, 0 ≤ n → Advances s { s with
              ptr := s.ptr + 2
              packetLength := s.packetLength - 2
              vendorlen := vl } n := by
            intro vl n hn
            refine ⟨rfl, rfl, ?_, ?_, ?_, fun hne => absurd hcode hne⟩
            · simp only
              omega
            · simp only
              omega
            · simp only
              omega
          have hlen : 0 ≤ attrlen := by
            unfold attrHeader at hh
            split at hh
            · cases hh
            obtain ⟨type, -, hh⟩ := bind_eq_ok.mp hh
            split at hh
            · cases hh
            obtain ⟨len, -, hh⟩ := bind_eq_ok.mp hh
            split at hh
            · cases hh
            next h2 =>
            split at hh
            · cases hh
            cases hh
            have := UInt8.le_iff_toNat_le.mp (UInt8.not_lt.mp h2)
            have h22 : (2 : UInt8).toNat = 2 := rfl
            omega
          simp only at h
          split at h
          · cases h
            exact hpast s.vendorlen attrlen hlen
          · split at h
            · cases h
              exact hpast s.vendorlen attrlen hlen
            · next hgt =>
                have hk := vendorSpecific_advances (by exact hcode)
                  (not_le.mp hgt) h
                exact hk.trans (hpast 0 0 (le_refl _))
  · next hcode =>
      rw [if_neg (hp.inside hcode)] at h
      exact subKind_advances h

/-- The call leaves the packet's length alone. -/
theorem ContCall.run_length {c : ContCall} {vps : List ValuePair}
    {buf : List UInt8} (h0 : 0 ≤ c.s.ptr)
    (hend : c.s.ptr + c.s.packetLength = c.s.buf.length)
    (h : c.run ctx = .ok (vps, buf)) : buf.length = c.s.buf.length := by
  unfold ContCall.run radContinuation2vp at h
  split at h
  · obtain ⟨⟨block, buf'⟩, hco, h⟩ := bind_eq_ok.mp h
    obtain ⟨vps', -, h⟩ := bind_eq_ok.mp h
    cases h
    exact radCoalesce_length h0 hend hco
  · obtain ⟨vps', -, h⟩ := bind_eq_ok.mp h
    cases h
    rfl

/-- How an iteration goes on: past bytes it makes nothing of, past a value
it made a pair of, or past one it made a call for. -/
theorem decGoes_cases (h : DecGoes ctx s s') :
    (∃ s1 n, (stepKind ctx s = .ok (.skip s1 n)
          ∨ ∃ attr, stepKind ctx s = .ok (.pair s1 attr n))
        ∧ s' = pastValue s1 n s1.vps s1.numAttributes)
      ∨ (∃ s1 attr n vp, stepKind ctx s = .ok (.pair s1 attr n)
        ∧ radAttr2vp ctx attr n s1.buf s1.ptr = .ok (some vp)
        ∧ s' = pastValue s1 n (s1.vps ++ [vp]) (s1.numAttributes + 1))
      ∨ ∃ call pairs buf, stepKind ctx s = .ok (.cont call)
        ∧ call.run ctx = .ok (pairs, buf)
        ∧ s' = pastValue { call.s with buf := buf } call.attrlen
          (call.s.vps ++ pairs)
          (call.s.numAttributes + pairs.length) := by
  obtain ⟨-, h⟩ := h
  unfold decodeStep at h
  obtain ⟨k, hk, h⟩ := bind_eq_ok.mp h
  cases k with
  | stop s1 => cases h
  | broken s1 => cases h
  | skip s1 n =>
      cases h
      exact Or.inl ⟨s1, n, Or.inl hk, rfl⟩
  | pair s1 attr n =>
      simp only [StepKind.finish] at h
      unfold createPair at h
      split at h
      · cases h
        exact Or.inl ⟨s1, n, Or.inr ⟨attr, hk⟩, rfl⟩
      · obtain ⟨vp, hvp, h⟩ := bind_eq_ok.mp h
        cases vp with
        | none => cases h
        | some vp =>
            simp only [createdPair, pure_eq_ok, Except.ok.injEq] at h
            split at h
            · cases h
            · cases h
              exact Or.inr (Or.inl ⟨s1, attr, n, vp, hk, hvp, rfl⟩)
  | cont call =>
      simp only [StepKind.finish] at h
      obtain ⟨⟨pairs, buf⟩, hrun, h⟩ := bind_eq_ok.mp h
      simp only [createdPair, pure_eq_ok, Except.ok.injEq] at h
      split at h
      · cases h
      · cases h
        exact Or.inr (Or.inr ⟨call, pairs, buf, hk, hrun, rfl⟩)

/-- An iteration that ends the loop has added nothing, or freed
everything. -/
theorem decodeStep_ends {s1 : DecState} (hp : Placed s)
    (h : decodeStep ctx s = .ok (.done s1)
      ∨ decodeStep ctx s = .ok (.fail s1)) :
    s1.vps = [] ∨ s1.vps = s.vps := by
  unfold decodeStep at h
  rw [bind_eq_ok, bind_eq_ok, ← exists_or] at h
  obtain ⟨k, h⟩ := h
  rw [← and_or_left] at h
  obtain ⟨hk, h⟩ := h
  have hadv := stepKind_advances hp hk
  cases k with
  | stop s2 | broken s2 =>
      simp only [StepKind.finish, pure_eq_ok, Except.ok.injEq,
        DecNext.done.injEq, DecNext.fail.injEq, reduceCtorEq, or_false,
        false_or] at h
      rw [← h]
      exact Or.inr hadv
  | skip s2 n =>
      simp only [StepKind.finish, decSkip, pure_eq_ok, Except.ok.injEq,
        reduceCtorEq, or_self] at h
  | pair s2 attr n =>
      left
      simp only [StepKind.finish, createPair] at h
      split at h
      · simp only [decSkip, pure_eq_ok, Except.ok.injEq, reduceCtorEq,
          or_self] at h
      · rw [bind_eq_ok, bind_eq_ok, ← exists_or] at h
        obtain ⟨vp, h⟩ := h
        rw [← and_or_left] at h
        obtain ⟨-, h⟩ := h
        cases vp with
        | none =>
            simp only [pure_eq_ok, Except.ok.injEq, reduceCtorEq,
              DecNext.fail.injEq, false_or] at h
            rw [← h]
        | some vp =>
            simp only [createdPair, decSkip, pure_eq_ok,
              Except.ok.injEq] at h
            split at h
            · simp only [reduceCtorEq, DecNext.fail.injEq, false_or] at h
              rw [← h]
            · simp only [reduceCtorEq, or_self] at h
  | cont call =>
      left
      simp only [StepKind.finish] at h
      rw [bind_eq_ok, bind_eq_ok, ← exists_or] at h
      obtain ⟨res, h⟩ := h
      rw [← and_or_left] at h
      obtain ⟨-, h⟩ := h
      simp only [createdPair, decSkip, pure_eq_ok, Except.ok.injEq] at h
      split at h
      · simp only [reduceCtorEq, DecNext.fail.injEq, false_or] at h
        rw [← h]
      · simp only [reduceCtorEq, or_self] at h

/-- The loop goes on from a placed state to a placed one, in a packet of
the same length. -/
theorem decGoes_placed (hp : Placed s) (h : DecGoes ctx s s') :
    Placed s' ∧ s'.buf.length = s.buf.length := by
  -- behind the value
  have hend {s1 : DecState} {n : Int} {buf : List UInt8}
      {vps : List ValuePair} {num : Nat} (ha : Advances s s1 n)
      (hlen : buf.length = s1.buf.length) :
      Placed (pastValue { s1 with buf := buf } n vps num)
        ∧ (pastValue { s1 with buf := buf } n vps num).buf.length
          = s.buf.length := by
    have h0 := hp.nonneg
    have h1 := hp.ends
    have h2 := ha.behind
    have h3 := ha.total
    refine ⟨⟨?_, ?_, ha.inside⟩, ?_⟩
    · simp only [pastValue]
      omega
    · simp only [pastValue, hlen, ha.same]
      omega
    · simp only [pastValue, hlen, ha.same]
  rcases decGoes_cases h with ⟨s1, n, hk | ⟨attr, hk⟩, rfl⟩
    | ⟨s1, attr, n, vp, hk, -, rfl⟩ | ⟨call, pairs, buf, hk, hrun, rfl⟩
  · exact hend (stepKind_advances hp hk) rfl
  · exact hend (stepKind_advances hp hk) rfl
  · exact hend (stepKind_advances hp hk) rfl
  · have ha : Advances s call.s call.attrlen := stepKind_advances hp hk
    have hlen := ContCall.run_length (hp.nonneg.trans ha.forward)
      (by rw [ha.total, hp.ends, ha.same]) hrun
    exact hend ha hlen

theorem Accepted.placed {cfg : Config} {packet : RadiusPacket}
    {as : List Tlv} (h : Accepted cfg packet as) :
    Placed (decodeInit packet) := by
  have hh := h.header
  refine ⟨?_, ?_, fun hne => absurd rfl hne⟩
  · show (0 : Int) ≤ (authHdrLen : Nat)
    omega
  · show (authHdrLen : Int) + ((packet.data.length : Int) - authHdrLen)
      = packet.data.length
    omega

-- ======== the calls

/-- The arguments of a call keep its walks inside the packet: the value
lies in it; with the continuation bit the walk for the fragments ends
there, and the joined value is walked inside its own block; without it
the value is walked where it lies. -/
structure CallInside (ctx : DecCtx) (c : ContCall) : Prop where
  length : 0 ≤ c.attrlen
  value : c.s.ptr + c.attrlen ≤ c.s.buf.length
  joined : c.flag = true → ∃ joined,
    Joins c.attr (c.s.buf.drop (c.s.ptr + c.attrlen).toNat) joined
      ∧ TlvInside ctx c.attr
        ((c.s.buf.drop c.s.ptr.toNat).take c.attrlen.toNat ++ joined) 0
        (c.attrlen + joined.length) c.da
  single : c.flag = false →
    TlvInside ctx c.attr c.s.buf c.s.ptr c.attrlen c.da

/-- A call returns if and only if its arguments keep it inside. -/
theorem ContCall.run_ok_iff {c : ContCall} (h0 : 0 ≤ c.s.ptr)
    (hend : c.s.ptr + c.s.packetLength = c.s.buf.length) :
    (∃ res, c.run ctx = .ok res) ↔ CallInside ctx c := by
  unfold ContCall.run radContinuation2vp
  cases hflag : c.flag with
  | false =>
      simp only [Bool.false_eq_true, if_false]
      constructor
      · rintro ⟨res, h⟩
        obtain ⟨vps, hvps, -⟩ := bind_eq_ok.mp h
        have hbytes := hvps
        unfold tlvPairs at hbytes
        obtain ⟨bytes, hbytes, -⟩ := bind_eq_ok.mp hbytes
        obtain ⟨-, hlen, hle, -⟩ := fetchN_eq_ok.mp hbytes
        refine ⟨hlen, hle, fun h => ?_, fun _ =>
          (tlvPairs_ok_iff h0 hlen hle).mp ⟨vps, hvps⟩⟩
        rw [hflag] at h
        cases h
      · intro h
        obtain ⟨vps, hvps⟩ := (tlvPairs_ok_iff h0 h.length h.value).mpr
          (h.single hflag)
        rw [hvps, ok_bind]
        exact ⟨_, rfl⟩
  | true =>
      simp only [if_true]
      -- the joined value lies in a block of its own
      have hblock {joined : List UInt8} (hlen : 0 ≤ c.attrlen)
          (hle : c.s.ptr + c.attrlen ≤ c.s.buf.length) :
          ((((c.s.buf.drop c.s.ptr.toNat).take c.attrlen.toNat
            ++ joined).length : Nat) : Int)
            = c.attrlen + joined.length := by
        rw [List.length_append, List.length_take, List.length_drop]
        omega
      constructor
      · rintro ⟨res, h⟩
        obtain ⟨⟨block, buf⟩, hco, h⟩ := bind_eq_ok.mp h
        obtain ⟨vps, hvps, -⟩ := bind_eq_ok.mp h
        obtain ⟨hlen, hle, joined, hj, rfl⟩ :=
          (radCoalesce_ok_iff h0 hend).mp ⟨buf, hco⟩
        have hin := (tlvPairs_ok_iff (le_refl 0) (by omega)
          (by omega)).mp ⟨vps, hvps⟩
        rw [hblock hlen hle] at hin
        refine ⟨hlen, hle, fun _ => ⟨joined, hj, hin⟩, fun h => ?_⟩
        rw [hflag] at h
        cases h
      · intro h
        obtain ⟨joined, hj, hin⟩ := h.joined hflag
        obtain ⟨buf, hco⟩ := (radCoalesce_ok_iff h0
          hend).mpr ⟨h.length, h.value, joined, hj, rfl⟩
        rw [← hblock h.length h.value] at hin
        obtain ⟨vps, hvps⟩ := (tlvPairs_ok_iff (le_refl 0) (by omega)
          (by omega)).mpr hin
        rw [hco, ok_bind]
        simp only [hvps, ok_bind]
        exact ⟨_, rfl⟩

/-- The loop started at `s0` comes to a call. -/
def CallsFrom (ctx : DecCtx) (s0 : DecState) (call : ContCall) : Prop :=
  ∃ s, Reaches (DecGoes ctx) s0 s ∧ 0 < s.packetLength
    ∧ stepKind ctx s = .ok (.cont call)

/-- For any dictionary, the walks that `rad_decode` makes for continued
attributes of an accepted packet all return, having read only the packet,
if and only if each call is given arguments that keep it inside. -/
theorem radDecode_walks_iff (cfg : Config) (packet received : RadiusPacket)
    (flags : Bool) (original : Option RadiusPacket)
    (secret : Option (List UInt8))
    (hok : radPacketOk cfg packet flags = (received, none)) :
    (∀ call, CallsFrom (decodeCtx cfg received original secret)
        (decodeInit received) call →
      ∃ res, call.run (decodeCtx cfg received original secret) = .ok res)
      ↔ ∀ call, CallsFrom (decodeCtx cfg received original secret)
          (decodeInit received) call →
        CallInside (decodeCtx cfg received original secret) call := by
  obtain ⟨as, hacc⟩ := radPacketOk_accepted hok
  refine forall_congr' fun call => imp_congr_right fun hcall => ?_
  obtain ⟨s, hreach, -, hk⟩ := hcall
  have hp : Placed s := hreach.invariant _ hacc.placed fun _ _ h hg =>
    (decGoes_placed h hg).1
  have ha : Advances s call.s call.attrlen := stepKind_advances hp hk
  refine ContCall.run_ok_iff (hp.nonneg.trans ha.forward) ?_
  rw [ha.total, hp.ends, ha.same]

/-- A dictionary with a continued vendor. -/
def continuedConfig : Config :=
  { bareConfig with
    dict := .ofEntries [] [.ofPec 24757 true (by decide)] }

/-- A request with an attribute in two fragments, the second giving its
length as `vlen`. -/
def fragments (vlen : UInt8) : RadiusPacket :=
  (radPacketOk continuedConfig (requestOf
    [26, 10, 0, 0, 0x60, 0xb5, 1, 4, 0x80, 65,
      26, 10, 0, 0, 0x60, 0xb5, 1, vlen, 0, 66]) false).1

/-- What is decoded of it, without a secret. -/
def fragmentsCtx (vlen : UInt8) : DecCtx :=
  decodeCtx continuedConfig (fragments vlen) none none

/-- The state an iteration goes on with. -/
def stepped (ctx : DecCtx) (s : DecState) : DecState :=
  match decodeStep ctx s with
  | .ok (.loop s') => s'
  | _ => s

theorem DecGoes.stepped_eq (h : DecGoes ctx s s') : stepped ctx s = s' := by
  unfold stepped
  rw [h.2]

/-- The call an iteration comes to returns, if it comes to one. -/
def callReturns (ctx : DecCtx) (s : DecState) : Bool :=
  match stepKind ctx s with
  | .ok (.cont call) => (call.run ctx).isOk
  | _ => true

theorem honestFragments_inside :
    (radPacketOk continuedConfig (requestOf
        [26, 10, 0, 0, 0x60, 0xb5, 1, 4, 0x80, 65,
          26, 10, 0, 0, 0x60, 0xb5, 1, 4, 0, 66]) false).2 = none
      ∧ ∀ call, CallsFrom (fragmentsCtx 4) (decodeInit (fragments 4))
          call →
        CallInside (fragmentsCtx 4) call := by
  refine ⟨rfl, (radDecode_walks_iff continuedConfig (requestOf
    [26, 10, 0, 0, 0x60, 0xb5, 1, 4, 0x80, 65,
      26, 10, 0, 0, 0x60, 0xb5, 1, 4, 0, 66]) (fragments 4) false none none
    rfl).mp ?_⟩
  rintro call ⟨s, hreach, -, hk⟩
  -- the loop passes three states, the last at the end of the packet
  have hs : s = decodeInit (fragments 4)
      ∨ s = stepped (fragmentsCtx 4) (decodeInit (fragments 4))
      ∨ s = stepped (fragmentsCtx 4)
        (stepped (fragmentsCtx 4) (decodeInit (fragments 4))) := by
    refine hreach.invariant (fun s => s = _ ∨ s = _ ∨ s = _)
      (Or.inl rfl) fun a b ha hgo => ?_
    have hb := hgo.stepped_eq
    rcases ha with rfl | rfl | rfl
    · exact Or.inr (Or.inl hb.symm)
    · exact Or.inr (Or.inr hb.symm)
    · exact absurd hgo.1 (by decide)
  have hret : callReturns (fragmentsCtx 4) s = true := by
    rcases hs with rfl | rfl | rfl <;> decide
  unfold callReturns at hret
  rw [show stepKind (fragmentsCtx 4) s = .ok (.cont call) from hk] at hret
  cases hrun : call.run (fragmentsCtx 4) with
  | ok res => exact ⟨res, hrun⟩
  | error e =>
      simp only [hrun] at hret
      cases hret

/-- A fragment that claims more than the packet has is copied all the
same. -/
theorem lyingFragment_overread :
    (radPacketOk continuedConfig (requestOf
        [26, 10, 0, 0, 0x60, 0xb5, 1, 4, 0x80, 65,
          26, 10, 0, 0, 0x60, 0xb5, 1, 255, 0, 66]) false).2 = none
      ∧ ∃ call, CallsFrom (fragmentsCtx 255)
          (decodeInit (fragments 255)) call
        ∧ call.run (fragmentsCtx 255) = .error .overread :=
  ⟨rfl, _, ⟨_, .refl, by decide, rfl⟩, rfl⟩

end WinRadius
