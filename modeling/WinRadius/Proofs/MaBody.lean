/-
The attributes numbered 80 in an encoded packet: at most the one
Message-Authenticator of the list, sixteen zero bytes at the offset kept
for `rad_sign`.

# What can go out numbered 80

A pair is sent under its own number, with two exceptions the list has to
be kept clear of. A Raw-Attribute of a debug build puts down any bytes at
all. And when `rad_vp2tlv` gives no packed pair, the pair behind the
sub-TLV is sent without any of the preparation, whatever its number.
`Sendable` excludes both and asks for the Message-Authenticator the
dictionary's definition.

# The list changes under the loop

`rad_vp2tlv` marks pairs behind the one the loop is at. `Packed` is all it
can do to one, and everything `Sendable` says survives it.
-/
import WinRadius.Proofs.EncodeSound

namespace WinRadius

open Lib

variable {cfg : Config} {packet : RadiusPacket}
  {original : Option RadiusPacket} {secret : List UInt8}

-- ======== numbers and masks

theorem vendorOf_parent (a : Nat) :
    vendorOf (a &&& 0xffff00ff) = vendorOf a := by
  unfold vendorOf
  rw [Nat.shiftRight_and_distrib]
  show ((a >>> 16) &&& (2 ^ 16 - 1)) % 65536 = _
  rw [Nat.and_two_pow_sub_one_eq_mod, Nat.mod_mod_of_dvd _ (by decide)]

/-- The pair goes out numbered 80 when it is handed to `rad_vp2attr`. -/
def sendsAs80 (vp : ValuePair) : Prop :=
  vendorOf vp.attr = 0 ∧ vp.attr % 256 = 80

theorem wireType_ne_80 {vp : ValuePair} (h : ¬sendsAs80 vp) :
    wireType vp ≠ 80 := by
  intro hwt
  unfold wireType at hwt
  split_ifs at hwt with hv
  · have := congrArg UInt8.toNat hwt
    rw [UInt8.toNat_ofNat'] at this
    exact h ⟨hv, this⟩
  · exact absurd hwt (by decide)

/-- Below 2^32, a number with vendor part 0 that is sent is a byte. -/
theorem attr_le_of_wire {vp : ValuePair} (h32 : vp.attr < 4294967296)
    (hw : nonWire vp = false) (hv : vendorOf vp.attr = 0) :
    vp.attr ≤ 255 := by
  simp only [nonWire, hv, true_and, decide_eq_false_iff_not] at hw
  simp only [vendorOf, Nat.shiftRight_eq_div_pow] at hv
  omega

-- ======== packing sub-TLVs

/-- What `rad_vp2tlv` can do to a pair of the list. -/
def Packed (cfg : Config) (a a' : ValuePair) : Prop :=
  a' = a ∨ (a.flags.isTlv = true
    ∧ (a' = { a with flags := { a.flags with encoded := true } }
      ∨ (vpSource a = none ∧ a' = { a with length := cfg.strayLength })))

theorem Packed.attr {a a' : ValuePair} (h : Packed cfg a a') :
    a'.attr = a.attr := by
  rcases h with rfl | ⟨-, rfl | ⟨-, rfl⟩⟩ <;> rfl

theorem vp2data_eq_none {r : Rand} {vp : ValuePair} {room : Nat}
    (henc : vp.flags.encrypt = .none)
    (h : vp2data cfg r packet original secret vp room = none) :
    vpSource vp = none := by
  unfold vp2data at h
  split at h
  · next hsrc => exact hsrc
  · simp [henc] at h

theorem forall₂_packed_refl (l : List ValuePair) :
    List.Forall₂ (Packed cfg) l l :=
  List.forall₂_same.mpr fun _ _ => Or.inl rfl

theorem tlvMember_flags {parent m : Nat} {vp : ValuePair}
    (h : tlvMember parent m vp = true) :
    vp.flags.isTlv = true ∧ vp.flags.encrypt = .none := by
  simp only [tlvMember, Bool.and_eq_true, decide_eq_true_eq] at h
  exact ⟨h.1.1.1.1, h.1.1.2⟩

theorem tlvPack_list (parent total m w : Nat) (l : List ValuePair) :
    List.Forall₂ (Packed cfg) l
      (tlvPack cfg parent total m w l).2.1 := by
  induction l generalizing m w with
  | nil => exact .nil
  | cons vp rest ih =>
      simp only [tlvPack]
      split
      · next hm =>
          obtain ⟨htlv, henc⟩ := tlvMember_flags hm
          split
          · next hnone =>
              exact .cons (Or.inr ⟨htlv,
                Or.inr ⟨vp2data_eq_none henc hnone, rfl⟩⟩)
                (forall₂_packed_refl rest)
          · next data _ _ =>
              split
              · exact forall₂_packed_refl _
              · exact .cons (Or.inr ⟨htlv, Or.inl rfl⟩) (ih _ _)
      · exact forall₂_packed_refl _

variable (cfg) in
/-- `rad_vp2tlv` leaves the list in place, pair by pair. -/
theorem radVp2tlv_list (l : List ValuePair) :
    List.Forall₂ (Packed cfg) l (radVp2tlv cfg l).2 := by
  cases l with
  | nil => exact .nil
  | cons first rest =>
      simp only [radVp2tlv]
      split
      · exact forall₂_packed_refl _
      · split_ifs
        · exact forall₂_packed_refl _
        · split <;> exact tlvPack_list _ _ _ _ _

/-- The packed pair has the parent's number. -/
theorem radVp2tlv_attr {first tlv : ValuePair} {rest l : List ValuePair}
    (h : radVp2tlv cfg (first :: rest) = (some tlv, l)) :
    tlv.attr = first.attr &&& 0xffff00ff := by
  simp only [radVp2tlv] at h
  split at h
  · cases h
  · next t ht =>
      have hattr := paircreate_attr ht
      split_ifs at h
      · cases h
      · split at h
        · cases h
        · cases h
          exact hattr
        · cases h
          exact hattr

variable (cfg) in
/-- A number below 256 is no sub-TLV's: there is nothing to pack. -/
theorem radVp2tlv_small {first : ValuePair} (rest : List ValuePair)
    (h : first.attr ≤ 255) : (radVp2tlv cfg (first :: rest)).1 = none := by
  have hmask : first.attr &&& 0xff00 = 0 := by
    have hle : first.attr &&& 0xff00 ≤ first.attr := Nat.and_le_left
    have hmod : (first.attr &&& 0xff00) % 2 ^ 8 = 0 := by
      rw [Nat.and_mod_two_pow]
      show first.attr % 2 ^ 8 &&& 0 = 0
      rw [Nat.and_zero]
    omega
  have hlen (parent : Nat) : tlvLength parent (first.attr &&& 0xff)
      (first :: rest) = 0 := by
    simp [tlvLength, tlvMember, hmask]
  simp only [radVp2tlv]
  split
  · rfl
  · rw [hlen]
    rfl

/-- Whether a sub-TLV followed by a pair with vendor part 0 can be packed
depends on the sub-TLV alone. -/
theorem radVp2tlv_alone {a b : ValuePair} (rest : List ValuePair)
    (ha : vendorOf a.attr ≠ 0) (hb : vendorOf b.attr = 0) :
    (radVp2tlv cfg (a :: b :: rest)).1 = none
      ↔ (radVp2tlv cfg [a]).1 = none := by
  have hnot (m : Nat) :
      tlvMember (a.attr &&& 0xffff00ff) m b = false := by
    have hne : b.attr &&& 0xffff00ff ≠ a.attr &&& 0xffff00ff := by
      intro heq
      have := congrArg vendorOf heq
      rw [vendorOf_parent, vendorOf_parent, hb] at this
      exact ha this.symm
    simp [tlvMember, hne]
  have hlen : tlvLength (a.attr &&& 0xffff00ff) (a.attr &&& 0xff)
      (a :: b :: rest) = tlvLength (a.attr &&& 0xffff00ff)
      (a.attr &&& 0xff) [a] := by
    simp [tlvLength, hnot]
  have hend (total : Nat) :
      (tlvPack cfg (a.attr &&& 0xffff00ff) total (a.attr &&& 0xff) 0
        (a :: b :: rest)).2.2
      = (tlvPack cfg (a.attr &&& 0xffff00ff) total (a.attr &&& 0xff) 0
        [a]).2.2 := by
    simp only [tlvPack, hnot, Bool.false_eq_true, if_false]
    split
    · split
      · rfl
      · split <;> rfl
    · rfl
  simp only [radVp2tlv, hlen]
  split
  · simp
  · split_ifs
    · simp
    · rw [← hend]
      split <;> split <;> simp_all

/-- A sub-TLV whose value has no wire form can be packed all the same,
whatever its length says. -/
theorem radVp2tlv_stray {a : ValuePair} {n : Nat}
    (hsrc : vpSource a = none)
    (h : (radVp2tlv cfg [{ a with length := n }]).1 = none) :
    (radVp2tlv cfg [a]).1 = none := by
  have hsrc' : vpSource { a with length := n } = none := by
    unfold vpSource at hsrc ⊢
    cases htype : a.type <;> simp_all
  have hdata (vp : ValuePair) (hvp : vpSource vp = none) (room : Nat) :
      vp2data cfg ⟨fun _ => 0, 0, 0⟩ {} none [] vp room = none := by
    unfold vp2data
    rw [hvp]
  have hmem : tlvMember (a.attr &&& 0xffff00ff) (a.attr &&& 0xff)
      { a with length := n }
      = tlvMember (a.attr &&& 0xffff00ff) (a.attr &&& 0xff) a := rfl
  simp only [radVp2tlv] at h ⊢
  split
  · rfl
  · next t ht =>
      rw [ht] at h
      cases hm : tlvMember (a.attr &&& 0xffff00ff) (a.attr &&& 0xff) a
      · simp [tlvLength, hm]
      · simp [tlvLength, tlvPack, hmem, hm, hdata _ hsrc'] at h

-- ======== lists to be sent

/-- A pair that can be in the list. -/
structure PairOk (cfg : Config) (vp : ValuePair) : Prop where
  range : vp.attr < 4294967296
  raw : cfg.ndebug = true ∨ vp.attr ≠ pwRawAttribute
  plain : vp.attr = pwMessageAuthenticator →
    vp.type = .octets ∧ vp.flags.encrypt = .none
      ∧ vp.flags.isTlv = false ∧ vp.flags.encoded = false

/-- No sub-TLV that cannot be packed stands before a pair that would go
out numbered 80. -/
def NoSlip (cfg : Config) (a b : ValuePair) : Prop :=
  a.flags.isTlv = true → a.flags.encoded = false →
    (radVp2tlv cfg [a]).1 = none → ¬sendsAs80 b

/-- The lists whose Message-Authenticator can be relied on. -/
structure Sendable (cfg : Config) (l : List ValuePair) : Prop where
  pairs : ∀ vp ∈ l, PairOk cfg vp
  chain : l.IsChain (NoSlip cfg)

def isMa (vp : ValuePair) : Bool :=
  decide (vp.attr = pwMessageAuthenticator)

theorem Sendable.tail {a : ValuePair} {l : List ValuePair}
    (h : Sendable cfg (a :: l)) : Sendable cfg l :=
  ⟨fun vp hvp => h.pairs vp (List.mem_cons_of_mem _ hvp),
    h.chain.tail⟩

theorem Packed.pairOk {a a' : ValuePair} (h : Packed cfg a a')
    (hok : PairOk cfg a) : PairOk cfg a' := by
  rcases h with rfl | ⟨htlv, h⟩
  · exact hok
  · have hne : a.attr ≠ pwMessageAuthenticator := by
      intro hma
      rw [(hok.plain hma).2.2.1] at htlv
      cases htlv
    rcases h with rfl | ⟨-, rfl⟩
    · exact ⟨hok.range, hok.raw, fun hma => absurd hma hne⟩
    · exact ⟨hok.range, hok.raw, fun hma => absurd hma hne⟩

theorem Packed.noSlip {a a' b b' : ValuePair} (ha : Packed cfg a a')
    (hb : Packed cfg b b') (h : NoSlip cfg a b) : NoSlip cfg a' b' := by
  have hsend : sendsAs80 b' → sendsAs80 b := by
    unfold sendsAs80
    rw [hb.attr]
    exact id
  rcases ha with rfl | ⟨-, rfl | ⟨hsrc, rfl⟩⟩
  · exact fun h1 h2 h3 h4 => h h1 h2 h3 (hsend h4)
  · intro _ henc
    cases henc
  · exact fun h1 h2 h3 h4 =>
      h h1 h2 (radVp2tlv_stray hsrc h3) (hsend h4)

/-- What `rad_vp2tlv` leaves can still be sent, with as many
Message-Authenticators. -/
theorem Sendable.packed {l l' : List ValuePair}
    (hp : List.Forall₂ (Packed cfg) l l') (h : Sendable cfg l) :
    Sendable cfg l' ∧ l'.countP isMa = l.countP isMa := by
  induction hp with
  | nil => exact ⟨h, rfl⟩
  | @cons a a' l l' ha hl ih =>
      obtain ⟨htail, hcount⟩ := ih h.tail
      refine ⟨⟨fun vp hvp => ?_, ?_⟩, ?_⟩
      · rcases List.mem_cons.mp hvp with rfl | hvp
        · exact ha.pairOk (h.pairs a (by simp))
        · exact htail.pairs vp hvp
      · cases hl with
        | nil => exact .singleton _
        | @cons b b' l l' hb hl =>
            refine List.IsChain.cons_cons ?_ htail.chain
            exact ha.noSlip hb (List.isChain_cons_cons.mp h.chain).1
      · have hma : isMa a' = isMa a := by
          rw [isMa, isMa, ha.attr]
        rw [List.countP_cons, List.countP_cons, hcount, hma]

-- ======== the invariant

/-- No attribute numbered 80. -/
def No80 (as : List Tlv) : Prop := ∀ a ∈ as, a.type ≠ 80

/-- The Message-Authenticator before it is signed. -/
def blankMa : Tlv := ⟨80, List.replicate 16 0, by simp⟩

/-- The attributes of the body and the offset: no attribute 80 and no
offset, or the one blank Message-Authenticator at the offset. -/
inductive MaAt : List Tlv → Nat → Prop where
  | absent {as : List Tlv} : No80 as → MaAt as 0
  | placed {front back : List Tlv} : No80 front → No80 back →
      MaAt (front ++ blankMa :: back) (authHdrLen + (wire front).length)

theorem MaAt.append {as bs : List Tlv} {offset : Nat}
    (h : MaAt as offset) (hb : No80 bs) : MaAt (as ++ bs) offset := by
  have happ (cs : List Tlv) (hc : No80 cs) : No80 (cs ++ bs) := by
    intro a ha
    rcases List.mem_append.mp ha with ha | ha
    · exact hc a ha
    · exact hb a ha
  cases h with
  | absent h => exact .absent (happ as h)
  | @placed front back hf hk =>
      rw [List.append_assoc, List.cons_append]
      exact .placed hf (happ back hk)

/-- The loop's state and what is left of the list: a
Message-Authenticator still to come means none was sent. -/
structure MaInv (cfg : Config) (st : EncState) (l : List ValuePair) :
    Prop where
  total : st.totalLength = authHdrLen + st.body.length
  small : st.totalLength ≤ maxPacketLen
  sendable : Sendable cfg l
  once : l.countP isMa ≤ 1
  body : ∃ as, st.body = wire as ∧ MaAt as st.offset
    ∧ (0 < l.countP isMa → No80 as)

-- ======== one round

variable {st st' : EncState} {reply vp : ValuePair}
  {rest left : List ValuePair}

theorem zeroMa_of_ne (h : reply.attr ≠ pwMessageAuthenticator) :
    zeroMa reply = reply := if_neg h

/-- The Message-Authenticator of the dictionary goes out blank. -/
theorem radVp2attr_ma {r : Rand} {out : AttrOut}
    (hma : reply.attr = pwMessageAuthenticator) (hok : PairOk cfg reply)
    (h : radVp2attr cfg r packet original secret (zeroMa reply)
      = some out) : out.bytes = blankMa.bytes := by
  obtain ⟨htype, henc, -, -⟩ := hok.plain hma
  have hz : zeroMa reply
      = { reply.setOctets (List.replicate authVectorLen 0) with
          length := authVectorLen, tlv := none } := if_pos hma
  have hv : vendorOf (zeroMa reply).attr = 0 := by
    rw [zeroMa_attr, hma]
    rfl
  have hdata : padTake 16 (List.replicate 16 0 ++ List.drop 16 reply.data)
      = List.replicate 16 0 := by
    have := padTake_append (List.replicate 16 0) (List.drop 16 reply.data)
    simpa using this
  simp only [radVp2attr, if_pos hv] at h
  simp only [hz, finishAttr, taggedData, vp2data, vpSource,
    ValuePair.setOctets, htype, henc, authVectorLen, List.length_replicate,
    reduceCtorEq, decide_false, Bool.and_false, Bool.false_and,
    Bool.false_eq_true, if_false, Option.map_some, hdata,
    show ¬(255 - 2 < 16) by omega] at h
  rw [if_neg (by simp)] at h
  cases h
  simp only [hma]
  rfl

/-- The rest of the list after a round that sends a pair. -/
theorem SentAs.left_sendable (h : Sendable cfg (reply :: rest))
    (hne : reply.flags.isTlv = true →
      reply.attr ≠ pwMessageAuthenticator)
    (hs : SentAs cfg reply rest vp left) :
    Sendable cfg left ∧ left.countP isMa ≤ rest.countP isMa := by
  cases hs with
  | self => exact ⟨h.tail, Nat.le_refl _⟩
  | @packed tlv vps htlv hp =>
      have hlist := radVp2tlv_list cfg (zeroMa reply :: rest)
      rw [hp, zeroMa_of_ne (hne htlv)] at hlist
      cases hlist with
      | cons _ hl =>
          obtain ⟨hs, hc⟩ := h.tail.packed hl
          exact ⟨hs, Nat.le_of_eq hc⟩
  | @slipped next vps left htlv hp hd =>
      have hlist := radVp2tlv_list cfg (zeroMa reply :: rest)
      rw [hp, zeroMa_of_ne (hne htlv)] at hlist
      cases hlist with
      | cons _ hl =>
          obtain ⟨hs, hc⟩ := h.tail.packed hl
          simp only [List.drop_succ_cons, List.drop_zero] at hd
          rw [hd] at hs hc
          rw [List.countP_cons] at hc
          exact ⟨hs.tail, by omega⟩

/-- Apart from the Message-Authenticator itself, no pair is sent under the
number 80. -/
theorem SentAs.not_80 (h : Sendable cfg (reply :: rest))
    (hw : nonWire reply = false) (henc : reply.flags.encoded = false)
    (hne : reply.attr ≠ pwMessageAuthenticator)
    (hs : SentAs cfg reply rest vp left) : ¬sendsAs80 vp := by
  have hrange := (h.pairs reply (by simp)).range
  cases hs with
  | self =>
      rintro ⟨hv, h80⟩
      rw [zeroMa_attr] at hv h80
      have := attr_le_of_wire hrange hw hv
      have h80' : pwMessageAuthenticator = 80 := rfl
      omega
  | @packed tlv vps htlv hp =>
      rintro ⟨hv, -⟩
      rw [radVp2tlv_attr hp, zeroMa_attr, vendorOf_parent] at hv
      have hle := attr_le_of_wire hrange hw hv
      have := radVp2tlv_small cfg rest
        (by rw [zeroMa_attr]; exact hle)
      rw [hp] at this
      cases this
  | @slipped next vps left htlv hp hd =>
      intro h80
      rw [zeroMa_of_ne hne] at hp
      have hlist := radVp2tlv_list cfg (reply :: rest)
      rw [hp] at hlist
      cases hlist with
      | cons _ hl =>
          simp only [List.drop_succ_cons, List.drop_zero] at hd
          rw [hd] at hl
          cases hl with
          | @cons b _ rest' _ hb _ =>
              have hb80 : sendsAs80 b := by
                unfold sendsAs80 at h80 ⊢
                rw [hb.attr] at h80
                exact h80
              refine (List.isChain_cons_cons.mp h.chain).1 htlv henc ?_
                hb80
              by_cases hv : vendorOf reply.attr = 0
              · exact radVp2tlv_small _ []
                  (attr_le_of_wire hrange hw hv)
              · refine (radVp2tlv_alone rest' hv hb80.1).mp ?_
                rw [hp]

/-- A round that goes on keeps the invariant. -/
theorem MaInv.round (h : MaInv cfg st (reply :: rest))
    (hr : encodeRound cfg packet original secret st reply rest
      = .ok (.go st' left)) : MaInv cfg st' left := by
  have hok := h.sendable.pairs reply (by simp)
  have hcount := List.countP_cons (p := isMa) (a := reply) (l := rest)
  have honce := h.once
  obtain ⟨as, has, hat, hno⟩ := h.body
  have hskip : MaInv cfg st rest :=
    ⟨h.total, h.small, h.sendable.tail, by omega,
      as, has, hat, fun h0 => hno (by omega)⟩
  rcases encodeRound_cases hr with ⟨-, -, hres⟩ | ⟨hraw, hres⟩
    | ⟨hw, henc, hres⟩ | ⟨hw, henc, vp, seen, left', hvp, hres⟩
  · cases hres
    exact ⟨hskip.total, hskip.small, hskip.sendable, hskip.once,
      hskip.body⟩
  · simp only [rawSent, Bool.and_eq_true, Bool.not_eq_true',
      decide_eq_true_eq] at hraw
    rcases hok.raw with hnd | hne
    · rw [hraw.1.2] at hnd
      cases hnd
    · exact absurd hraw.2 hne
  · cases hres
    have hne : reply.attr ≠ pwMessageAuthenticator := by
      intro hma
      rw [(hok.plain hma).2.2.2] at henc
      cases henc
    rw [markMa_of_ne hne]
    exact ⟨hskip.total, hskip.small, hskip.sendable, hskip.once,
      hskip.body⟩
  · have hne : reply.flags.isTlv = true →
        reply.attr ≠ pwMessageAuthenticator := by
      intro htlv hma
      rw [(hok.plain hma).2.2.1] at htlv
      cases htlv
    obtain ⟨hleft, hleftc⟩ := hvp.left_sendable h.sendable hne
    simp only [encodeOne, encodeAttr, markMa_rand, markMa_total] at hres
    cases hout : radVp2attr cfg st.rand packet original secret vp with
    | none => simp [hout] at hres
    | some out =>
        have htot := h.total
        have hmax : maxPacketLen = 4096 := rfl
        obtain ⟨bs, hbs, -⟩ := radVp2attr_tiles hout
        simp only [hout] at hres
        by_cases hlong : maxPacketLen < st.totalLength + out.bytes.length
        · simp [if_pos hlong] at hres
        · simp only [if_neg hlong, EncRound.go.injEq] at hres
          obtain ⟨rfl, rfl⟩ := hres
          have hmod : (st.totalLength + out.bytes.length) % 65536
              = st.totalLength + out.bytes.length :=
            Nat.mod_eq_of_lt (by omega)
          refine ⟨?_, ?_, hleft, by omega, ?_⟩
          · simp only [EncState.advance, hmod, markMa_body,
              List.length_append]
            omega
          · simp only [EncState.advance, hmod]
            omega
          · simp only [EncState.advance, markMa_body]
            by_cases hma : reply.attr = pwMessageAuthenticator
            · have hpos : isMa reply = true := by simp [isMa, hma]
              rw [hpos, if_pos rfl] at hcount
              have hself : vp = zeroMa reply := by
                cases hvp with
                | self => rfl
                | packed htlv => exact absurd hma (hne htlv)
                | slipped htlv => exact absurd hma (hne htlv)
              rw [hself] at hout
              rw [radVp2attr_ma hma hok hout, markMa_of_eq hma]
              refine ⟨as ++ [blankMa], by rw [has]; simp, ?_, by omega⟩
              show MaAt _ st.totalLength
              rw [htot, has]
              exact .placed (hno (by omega)) (by simp [No80])
            · have hb80 : No80 bs := by
                intro a ha
                rw [hbs.types a ha]
                exact wireType_ne_80
                  (hvp.not_80 h.sendable hw henc hma)
              rw [markMa_of_ne hma]
              refine ⟨as ++ bs, by rw [has, hbs.bytes]; simp,
                hat.append hb80, fun h0 => ?_⟩
              have has80 := hno (by omega)
              intro a ha
              rcases List.mem_append.mp ha with ha | ha
              · exact has80 a ha
              · exact hb80 a ha

-- ======== the run

/-- A round that stops has discarded something. -/
theorem round_stop_overflow
    (h : encodeRound cfg packet original secret st reply rest
      = .ok (.stop st' left)) : st'.overflow = true := by
  rcases encodeRound_cases h with ⟨-, -, hres⟩ | ⟨-, hres⟩
    | ⟨-, -, hres⟩ | ⟨-, -, vp, seen, left', -, hres⟩
  · cases hres
  · cases hres
  · cases hres
  · simp only [encodeOne, encodeAttr] at hres
    split at hres
    · cases hres
    · next st1 h1 =>
        split at h1
        · cases h1
        · split at h1
          · cases h1
            cases hres
            rfl
          · cases h1
    · cases hres

/-- The state the loop ends in when nothing was discarded. -/
theorem MaInv.loop {fuel : Nat} {stf : EncState} {l : List ValuePair}
    (h : MaInv cfg st l)
    (hl : encodeLoop cfg packet original secret fuel st l
      = .ok (some stf)) (hfit : stf.overflow = false) :
    ∃ l', MaInv cfg stf l' := by
  induction fuel generalizing st l with
  | zero =>
      cases hl
      exact ⟨l, h⟩
  | succ fuel ih =>
      cases l with
      | nil =>
          cases hl
          exact ⟨[], h⟩
      | cons reply rest =>
          simp only [encodeLoop] at hl
          obtain ⟨res, hres, hl⟩ := bind_eq_ok.mp hl
          cases res with
          | fail => cases hl
          | stop st' left =>
              cases hl
              rw [round_stop_overflow hres] at hfit
              cases hfit
          | go st' left => exact ih (h.round hres) hl

/-- The packet `rad_encode` hands to `rad_sign`. -/
theorem radEncode_maAt {r : Rand} {out : EncodeOut}
    (hs : Sendable cfg packet.vps) (honce : packet.vps.countP isMa ≤ 1)
    (h : radEncode cfg r packet original secret = .ok (some out))
    (hfit : out.overflow = false) :
    ∃ as offset vps, MaAt as offset
      ∧ authHdrLen + (wire as).length ≤ maxPacketLen
      ∧ out.packet = { encodePacket packet with
          data := encodeHeader (encodePacket packet)
            (authHdrLen + (wire as).length) ++ wire as
          offset := (offset : Int)
          vps := vps } := by
  unfold radEncode at h
  split at h
  · cases h
  · have hvps : (encodePacket packet).vps = packet.vps := by
      unfold encodePacket
      split_ifs <;> rfl
    obtain ⟨res, hres, h⟩ := bind_eq_ok.mp h
    cases res with
    | none => cases h
    | some stf =>
        cases h
        rw [hvps] at hres
        have hstart : MaInv cfg { rand := r } packet.vps :=
          ⟨rfl, by show (20 : Nat) ≤ 4096; omega, hs, honce, [], rfl,
            .absent (by simp [No80]), by simp [No80]⟩
        obtain ⟨l, hinv⟩ := hstart.loop hres hfit
        obtain ⟨as, has, hat, -⟩ := hinv.body
        have htot := hinv.total
        have hsmall := hinv.small
        rw [has] at htot
        refine ⟨as, stf.offset, stf.vps, hat, by omega, ?_⟩
        rw [encodeOut, encodeData_eq _ hinv.total, has, htot]

end WinRadius
