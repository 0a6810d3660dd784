/-
Where the pairs of `rad_decode` come from.

# Entitled numbers

An attribute number carries its vendor in the upper half. `NumberOf a n`
says that `n` is a number the attribute `a` on the wire entitles a pair
to: its own type, or, for a Vendor-Specific attribute, any number with
exactly its vendor id above.

# The invariant

`Sits as s` locates the loop's read position in the attributes `as` of the
packet as it was received. The buffer does not stay as it was received:
`rad_coalesce` zeroes the vendor type of the fragments it takes, so the
bytes ahead are those of other attributes with the same heads
(`SameHead`): type, length and vendor id.

# Where it breaks

A vendor id with the top bit set becomes negative and is not refused; a
two-byte length with a continuation byte moves the loop off the
boundaries; a sub-TLV that `data2vp` makes raw gets the bare number of
the sub-TLV; a fragment taken from the middle of an attribute is zeroed
there. `StepSound` is that none of this happens in an iteration.
-/
import WinRadius.Proofs.Continuation
import WinRadius.Proofs.Sortvp

namespace WinRadius

open Lib

variable {ctx : DecCtx} {s : DecState}

-- ======== the numbers

/-- The number `n` is one the attribute `a` entitles a pair to. -/
def NumberOf (a : Tlv) (n : Nat) : Prop :=
  (vendorOf n = 0 → n = a.type.toNat)
    ∧ (vendorOf n ≠ 0 → a.type.toNat = pwVendorSpecific
      ∧ (ofBe32 (a.value.take 4)).toNat = vendorOf n)

/-- What is put into the lower half leaves the vendor alone. -/
theorem vendorOf_or {n m : Nat} (hm : m < 65536) :
    vendorOf (n ||| m) = vendorOf n := by
  unfold vendorOf
  rw [Nat.shiftRight_or_distrib, Nat.shiftRight_eq_div_pow m,
    Nat.div_eq_of_lt (by omega), Nat.or_zero]

theorem vendorOf_vendorAttr {code number : Nat} (hc : code < 65536)
    (hn : number < 65536) : vendorOf (vendorAttr code number) = code := by
  unfold vendorAttr
  rw [vendorOf_or hn]
  unfold vendorOf
  rw [Nat.shiftLeft_eq, Nat.shiftRight_eq_div_pow]
  omega

/-- A top-level attribute is entitled to its own type. -/
theorem numberOf_type (a : Tlv) : NumberOf a a.type.toNat := by
  have h := a.type.toNat_lt
  have hz : vendorOf a.type.toNat = 0 := by
    unfold vendorOf
    rw [Nat.shiftRight_eq_div_pow]
    omega
  exact ⟨fun _ => rfl, fun hne => absurd hz hne⟩

/-- A vendor id that the decoder takes as it is. -/
theorem vendorBits_small {id : List UInt8} (hz : signedVendor id ≠ 0)
    (hle : signedVendor id ≤ 65535) (hs : (ofBe32 id).toNat < 2147483648) :
    vendorBits (signedVendor id) = (ofBe32 id).toNat
      ∧ 0 < (ofBe32 id).toNat ∧ (ofBe32 id).toNat < 65536 := by
  unfold signedVendor at hz hle ⊢
  rw [if_pos hs] at hz hle ⊢
  unfold vendorBits
  omega

theorem numberOf_vendorAttr {a : Tlv} {number : Nat}
    (ht : a.type.toNat = pwVendorSpecific)
    (hz : signedVendor (a.value.take 4) ≠ 0)
    (hle : signedVendor (a.value.take 4) ≤ 65535)
    (hs : (ofBe32 (a.value.take 4)).toNat < 2147483648)
    (hn : number < 65536) :
    NumberOf a (vendorAttr (vendorBits (signedVendor (a.value.take 4)))
        number)
      ∧ vendorOf (vendorAttr (vendorBits (signedVendor (a.value.take 4)))
        number) ≠ 0 := by
  obtain ⟨hbits, hpos, hlt⟩ := vendorBits_small hz hle hs
  rw [hbits]
  have hv := vendorOf_vendorAttr hlt hn
  refine ⟨⟨fun h0 => ?_, fun _ => ⟨ht, hv.symm⟩⟩, ?_⟩
  · rw [hv] at h0
    omega
  · rw [hv]
    omega

-- ======== the pairs

/-- `data2vp` goes to `raw:` with this value. -/
def GoesRaw (ctx : DecCtx) (length : Int) (buf : List UInt8) (data : Int)
    (vp : ValuePair) : Prop :=
  ∃ vp' offset value bytes res,
    vpTag buf data { vp with op := .opEq } = .ok (vp', offset)
      ∧ fetchN buf (data + offset) (clipLength length - offset) = .ok value
      ∧ fetchN buf data (clipLength length) = .ok bytes
      ∧ decryptVp ctx buf data
        { vp'.setOctets value with length := value.length } = .ok res
      ∧ res.bind (typedVp ctx.cfg bytes) = none

section pair

variable {attr : Nat} {length data : Int} {buf : List UInt8}
  {vp v : ValuePair}

theorem vpTag_attr {vp' : ValuePair} {offset : Int}
    (h : vpTag buf data vp = .ok (vp', offset)) : vp'.attr = vp.attr := by
  unfold vpTag at h
  split at h
  · obtain ⟨b, -, h⟩ := bind_eq_ok.mp h
    split at h
    · simp only at h
      split at h
      · cases h
        rfl
      · cases h
        rfl
    · cases h
      rfl
  · cases h
    rfl

theorem decryptVp_attr (h : decryptVp ctx buf data vp = .ok (some v)) :
    v.attr = vp.attr := by
  unfold decryptVp at h
  split at h
  · cases h
    rfl
  · split at h
    · simp only at h
      split at h
      · cases h
        rfl
      · cases h
        rfl
    · split at h
      · cases h
      · split at h
        · cases h
        · cases h
          rfl
    · split at h
      · cases h
      · obtain ⟨value, -, h⟩ := bind_eq_ok.mp h
        cases h
        rfl
    · cases h
      rfl
    · cases h
      rfl

theorem typedVp_attr {cfg : Config} {bytes : List UInt8}
    (h : typedVp cfg bytes vp = some v) : v.attr = vp.attr := by
  have hinj {w : ValuePair} (hw : some w = some v)
      (hattr : w.attr = vp.attr) : v.attr = vp.attr := by
    rw [← Option.some.inj hw, hattr]
  cases hty : vp.type with
  | string | octets | abinary | tlv =>
      simp only [typedVp, hty] at h
      exact hinj h rfl
  | byte | short | date | ipaddr | ifid | ipv6addr | signed =>
      simp only [typedVp, hty] at h
      split at h
      · cases h
      · exact hinj h rfl
  | integer =>
      simp only [typedVp, hty] at h
      split at h
      · cases h
      · split at h
        · exact hinj h rfl
        · exact hinj h rfl
  | ipv6Prefix =>
      simp only [typedVp, hty] at h
      split at h
      · cases h
      · split at h
        · cases h
        · exact hinj h rfl
  | comboIp =>
      simp only [typedVp, hty] at h
      split at h
      · exact hinj h rfl
      · split at h
        · exact hinj h rfl
        · cases h
  | ethernet =>
      simp only [typedVp, hty] at h
      cases h

theorem rawPair_attr {cfg : Config} {bytes : List UInt8}
    (h : rawPair cfg attr bytes = some v) : v.attr = attr := by
  obtain ⟨w, hw, rfl⟩ := Option.map_eq_some_iff.mp h
  unfold paircreateRaw at hw
  split at hw
  · cases hw
  · split at hw
    · cases hw
      rfl
    · cases hw

/-- A pair has the number it was created with, unless it is raw: then it
has the number `data2vp` was given. -/
theorem data2vp_attr (h : data2vp ctx attr length buf data vp
      = .ok (some v)) :
    v.attr = vp.attr ∨ v.attr = attr ∧ GoesRaw ctx length buf data vp := by
  unfold data2vp at h
  simp only at h
  obtain ⟨⟨vp', offset⟩, htag, h⟩ := bind_eq_ok.mp h
  obtain ⟨value, hvalue, h⟩ := bind_eq_ok.mp h
  obtain ⟨bytes, hbytes, h⟩ := bind_eq_ok.mp h
  obtain ⟨res, hres, h⟩ := bind_eq_ok.mp h
  simp only [pure_eq_ok, Except.ok.injEq] at h
  unfold typedOrRaw at h
  split at h
  · next w hw =>
      cases h
      obtain ⟨u, rfl, hu⟩ := Option.bind_eq_some_iff.mp hw
      have hv := vpTag_attr htag
      have hd := decryptVp_attr hres
      exact Or.inl ((typedVp_attr hu).trans (hd.trans hv))
  · next hraw =>
      exact Or.inr ⟨rawPair_attr h, vp', offset, value, bytes, res, htag,
        hvalue, hbytes, hres, hraw⟩

/-- `create_pair` makes a pair of the number it is at. -/
theorem radAttr2vp_attr (h : radAttr2vp ctx attr length buf data
      = .ok (some v)) : v.attr = attr := by
  unfold radAttr2vp at h
  split at h
  · cases h
  · next vp hvp =>
      rcases data2vp_attr h with hv | ⟨hv, -⟩
      · exact hv.trans (paircreate_attr hvp)
      · exact hv

end pair

-- ======== sub-TLVs

/-- No sub-TLV from `p` on goes raw. -/
def SubsTyped (ctx : DecCtx) (attr : Nat) (buf : List UInt8) :
    Int → List Tlv → Prop
  | _, [] => True
  | p, a :: subs =>
      (∀ vp, paircreate ctx.cfg (attr ||| (a.type.toNat <<< 8)) .octets
          = some vp →
        ¬GoesRaw ctx a.value.length buf (p + 2) vp)
        ∧ SubsTyped ctx attr buf (p + (a.value.length + 2)) subs

/-- None of the value of `length` bytes at `p` does. -/
def TlvTyped (ctx : DecCtx) (attr : Nat) (buf : List UInt8) (p : Int)
    (length : Int) (da : Option DictAttr) : Prop :=
  da.map (·.type) = some .tlv →
    ∀ subs, (buf.drop p.toNat).take length.toNat = wire subs →
      SubsTyped ctx attr buf p subs

section subs

variable {attr : Nat} {buf after : List UInt8} {p : Int}

/-- A number of the TLV's own vendor. -/
def NumberUnder (attr n : Nat) : Prop :=
  n = attr ∨ ∃ sub : UInt8, n = attr ||| (sub.toNat <<< 8)

theorem NumberUnder.of {a : Tlv} {n : Nat} (h : NumberUnder attr n)
    (ha : NumberOf a attr) (hv : vendorOf attr ≠ 0) : NumberOf a n := by
  rcases h with rfl | ⟨sub, rfl⟩
  · exact ha
  · have hlt : sub.toNat <<< 8 < 65536 := by
      have := sub.toNat_lt
      rw [Nat.shiftLeft_eq]
      omega
    have heq := vendorOf_or (n := attr) hlt
    refine ⟨fun hz => absurd (heq.symm.trans hz) hv, fun _ => ?_⟩
    rw [heq]
    exact ha.2 hv

/-- The pairs of the second walk have the TLV's vendor. -/
theorem subTlvs_numbers {subs : List Tlv} {fuel : Nat}
    {vps : List ValuePair} (h0 : 0 ≤ p)
    (hbuf : buf.drop p.toNat = wire subs ++ after)
    (htyped : SubsTyped ctx attr buf p subs)
    (h : subTlvs ctx attr buf fuel p (wire subs).length
      = .ok (some vps)) :
    ∀ v ∈ vps, NumberUnder attr v.attr := by
  induction subs generalizing p fuel vps with
  | nil =>
      cases fuel with
      | zero => cases h
      | succ fuel =>
          cases h
          simp
  | cons a subs ih =>
      cases fuel with
      | zero => cases h
      | succ fuel =>
          rw [wire_cons, List.append_assoc] at hbuf
          have htype : fetch buf p = .ok a.type := by
            have := fetch_drop h0 hbuf 0 (b := a.type)
              (by simp [Tlv.bytes])
            simpa using this
          have hlen : fetch buf (p + 1)
              = .ok (UInt8.ofNat (a.value.length + 2)) :=
            fetch_drop h0 hbuf 1 (by simp [Tlv.bytes])
          have hnext : buf.drop (p + (a.value.length + 2)).toNat
              = wire subs ++ after := by
            have := drop_step h0 hbuf (a.value.length + 2)
            push_cast at this
            rw [this]
            exact List.drop_left' (by simp)
          have hleft : a.bytes.length + (wire subs).length
              - (a.value.length + 2) = (wire subs).length := by
            rw [Tlv.bytes_length]
            omega
          rw [subTlvs, wire_cons, List.length_append,
            if_neg (by rw [Tlv.bytes_length]; omega), htype, ok_bind,
            hlen, ok_bind, a.lenByte_toNat, hleft] at h
          push_cast at h
          rw [show ((a.value.length : Int) + 2 - 2) = a.value.length
            by omega] at h
          split at h
          · cases h
          · next vp hvp =>
              obtain ⟨res, hres, h⟩ := bind_eq_ok.mp h
              cases res with
              | none => cases h
              | some w =>
                  obtain ⟨more, hmore, h⟩ := bind_eq_ok.mp h
                  cases more with
                  | none => cases h
                  | some more =>
                      cases h
                      intro v hv
                      rcases List.mem_cons.mp hv with rfl | hv
                      · rcases data2vp_attr hres with hw | ⟨-, hraw⟩
                        · exact Or.inr ⟨a.type,
                            hw.trans (paircreate_attr hvp)⟩
                        · exact absurd hraw (htyped.1 vp hvp)
                      · exact ih (by omega) hnext htyped.2 hmore v hv

/-- `rad_sortvp` neither makes, drops nor changes pairs. -/
theorem radSortvp_perm (l : List ValuePair) : (radSortvp l).Perm l := by
  have hpass (l : List ValuePair) : (sortPass l).1.Perm l := by
    rw [sortPass_eq]
    exact exchangePass_perm signedAttr l
  have hgo : ∀ fuel l, (radSortvp.go fuel l).Perm l := by
    intro fuel
    induction fuel with
    | zero => exact fun l => .refl l
    | succ fuel ih =>
        intro l
        rw [radSortvp.go]
        split
        · exact (ih _).trans (hpass l)
        · exact .refl l
  exact hgo _ l

theorem wholeTlv_numbers {cfg : Config} {bytes : List UInt8} :
    ∀ v ∈ wholeTlv cfg attr bytes, NumberUnder attr v.attr := by
  intro v hv
  unfold wholeTlv at hv
  split at hv
  · simp at hv
  · next vp hvp =>
      rw [List.mem_singleton] at hv
      have hattr : v.attr = vp.attr := by rw [hv]
      exact Or.inl (hattr.trans (paircreate_attr hvp))

theorem tlvPairs_numbers {length : Int} {da : Option DictAttr}
    {vps : List ValuePair} (htyped : TlvTyped ctx attr buf p length da)
    (h : tlvPairs ctx attr buf p length da = .ok vps) :
    ∀ v ∈ vps, NumberUnder attr v.attr := by
  unfold tlvPairs at h
  obtain ⟨bytes, hbytes, h⟩ := bind_eq_ok.mp h
  obtain ⟨h0, hlen, hle, hbytes⟩ := fetchN_eq_ok.mp hbytes
  have hbuf : buf.drop p.toNat
      = bytes ++ (buf.drop p.toNat).drop length.toNat := by
    rw [hbytes, List.take_append_drop]
  split at h
  · cases h
    exact wholeTlv_numbers
  · next hty =>
      obtain ⟨b, hb, hiff⟩ := tlvWellFormed_eq (bytes.length + 1) h0 hbuf
        (by omega)
      rw [hb, ok_bind] at h
      split at h
      · cases h
        exact wholeTlv_numbers
      · next hwell =>
          obtain ⟨subs, hsubs⟩ := hiff.mp (by simpa using hwell)
          obtain ⟨res, hres, h⟩ := bind_eq_ok.mp h
          cases res with
          | none =>
              cases h
              exact wholeTlv_numbers
          | some res =>
              cases h
              intro v hv
              rw [hsubs] at hres hbuf
              exact subTlvs_numbers h0 hbuf
                (htyped (not_not.mp hty) subs (by rw [← hbytes, hsubs]))
                hres v ((radSortvp_perm _).mem_iff.mp hv)

end subs

-- ======== the heads

/-- `a'` is `a` but for bytes that no head has. -/
structure SameHead (a a' : Tlv) : Prop where
  type : a'.type = a.type
  length : a'.value.length = a.value.length
  vendor : a'.value.take 4 = a.value.take 4

/-- The attributes ahead have the heads they were received with. -/
abbrev SameHeads (fs fs' : List Tlv) : Prop := List.Forall₂ SameHead fs fs'

theorem SameHeads.refl (fs : List Tlv) : SameHeads fs fs :=
  List.forall₂_same.mpr fun _ _ => ⟨rfl, rfl, rfl⟩

theorem SameHeads.wire_length {fs fs' : List Tlv} (h : SameHeads fs fs') :
    (wire fs').length = (wire fs).length := by
  induction h with
  | nil => rfl
  | cons ha _ ih =>
      simp only [wire_cons, List.length_append, Tlv.bytes_length, ih,
        ha.length]

/-- A boundary of one is a boundary of the other. -/
theorem SameHeads.split {es gs fs' : List Tlv}
    (h : SameHeads (es ++ gs) fs') :
    ∃ es' gs', fs' = es' ++ gs' ∧ SameHeads es es' ∧ SameHeads gs gs' := by
  induction es generalizing fs' with
  | nil => exact ⟨[], fs', rfl, .nil, h⟩
  | cons e es ih =>
      cases h with
      | cons he h =>
          obtain ⟨es', gs', rfl, hes, hgs⟩ := ih h
          exact ⟨_ :: es', gs', rfl, .cons he hes, hgs⟩

theorem SameHeads.append {es es' gs gs' : List Tlv}
    (h : SameHeads es es') (h' : SameHeads gs gs') :
    SameHeads (es ++ gs) (es' ++ gs') := by
  induction h with
  | nil => exact h'
  | cons he _ ih => exact .cons he ih

/-- A string that ends at the packet's end and starts where one of the
attributes `as` does. -/
def StartsAttr (as : List Tlv) (f : List UInt8) : Prop :=
  ∃ gs, gs <:+ as ∧ f.length = (wire gs).length

/-- Behind the start of `a` the boundaries are those of what follows. -/
theorem suffix_of_short {as ds fs gs : List Tlv} {a : Tlv}
    (has : as = ds ++ a :: fs) (hg : gs <:+ as)
    (hlen : (wire gs).length < (wire (a :: fs)).length) : gs <:+ fs := by
  have hf : (a :: fs) <:+ as := ⟨ds, has.symm⟩
  rcases List.suffix_or_suffix_of_suffix hg hf with h | h
  · rcases List.suffix_cons_iff.mp h with h | h
    · rw [h] at hlen
      omega
    · exact h
  · obtain ⟨es, rfl⟩ := h
    rw [wire_append, List.length_append] at hlen
    omega

section zero

variable {as ds fs fs' : List Tlv} {a : Tlv} {buf region : List UInt8}
  {attr q : Nat} {p : Int}

/-- A byte of the value behind the vendor id is no part of the head. -/
theorem zeroed_head {g : Tlv} (h : 5 ≤ g.value.length)
    (front back : List UInt8) :
    ∃ g', SameHead g g' ∧ overlay (front ++ (g.bytes ++ back))
      (front.length + 6) [0] = front ++ (g'.bytes ++ back) := by
  obtain ⟨x, xs, hx⟩ : ∃ x xs, g.value.drop 4 = x :: xs := by
    cases hd : g.value.drop 4 with
    | nil =>
        have := congrArg List.length hd
        rw [List.length_drop] at this
        simp only [List.length_nil] at this
        omega
    | cons x xs => exact ⟨x, xs, rfl⟩
  have hval : g.value = g.value.take 4 ++ x :: xs := by
    rw [← hx, List.take_append_drop]
  have h4 : (g.value.take 4).length = 4 := by
    rw [List.length_take]
    omega
  have hlen : (g.value.take 4 ++ 0 :: xs).length = g.value.length := by
    conv_rhs => rw [hval]
    simp
  have hfits := g.fits
  refine ⟨⟨g.type, g.value.take 4 ++ 0 :: xs, by omega⟩, ⟨rfl, hlen, ?_⟩,
    ?_⟩
  · rw [List.take_left' h4]
  · have hbytes : g.bytes = g.type :: UInt8.ofNat (g.value.length + 2)
        :: (g.value.take 4 ++ x :: xs) := by
      rw [Tlv.bytes, ← hval]
    have hsplit : front ++ (g.bytes ++ back)
        = (front ++ (g.type :: UInt8.ofNat (g.value.length + 2)
          :: g.value.take 4)) ++ ([x] ++ (xs ++ back)) := by
      rw [hbytes]
      simp
    have hpos : front.length + 6
        = (front ++ (g.type :: UInt8.ofNat (g.value.length + 2)
          :: g.value.take 4)).length := by
      simp only [List.length_append, List.length_cons, h4]
    rw [hsplit, hpos, overlay_append_mid [x] [0] rfl,
      Tlv.bytes]
    simp only [hlen]
    simp

/-- A position ahead where an attribute starts splits the attributes
ahead. -/
theorem starts_split (has : as = ds ++ a :: fs) (hheads : SameHeads fs fs')
    (hbuf : buf.drop q = region ++ wire fs')
    (hregion : region.length < a.bytes.length) (hqp : q ≤ p.toNat)
    (hne : buf.drop p.toNat ≠ [])
    (hstart : StartsAttr as (buf.drop p.toNat)) :
    ∃ es es' g g' gs gs', fs = es ++ g :: gs ∧ SameHeads es es'
      ∧ SameHead g g' ∧ SameHeads gs gs'
      ∧ buf.drop p.toNat = wire (g' :: gs')
      ∧ (buf.take p.toNat).drop q = region ++ wire es' := by
  obtain ⟨gs, hgs, hlen⟩ := hstart
  have hpos := List.length_pos_iff.mpr hne
  have hpdrop : buf.drop p.toNat
      = (region ++ wire fs').drop (p.toNat - q) := by
    rw [← hbuf, List.drop_drop]
    congr 1
    omega
  have hwl := hheads.wire_length
  have hgs : gs <:+ fs := by
    apply suffix_of_short has hgs
    rw [← hlen, hpdrop, List.length_drop, List.length_append, wire_cons,
      List.length_append, hwl]
    omega
  obtain ⟨es, rfl⟩ := hgs
  obtain ⟨es', gs', rfl, hes, hgs'⟩ := hheads.split
  have hgl := hgs'.wire_length
  have hp : buf.drop p.toNat = wire gs' := by
    have hk : p.toNat - q = (region ++ wire es').length := by
      have := congrArg List.length hpdrop
      rw [hlen, ← hgl, wire_append, List.length_drop] at this
      simp only [List.length_append] at this ⊢
      omega
    rw [hpdrop, hk, wire_append, ← List.append_assoc, List.drop_left]
  have hsplit : buf.drop q
      = (buf.take p.toNat).drop q ++ wire gs' := by
    rw [List.length_drop] at hpos
    conv_lhs => rw [← List.take_append_drop p.toNat buf, hp]
    rw [List.drop_append_of_le_length (by rw [List.length_take]; omega)]
  rw [hbuf, wire_append, ← List.append_assoc] at hsplit
  have hmid := (List.append_inj_left' hsplit rfl).symm
  cases hgs' with
  | nil =>
      rw [hp] at hne
      exact absurd rfl hne
  | @cons g g' gs gs' hg hgs' =>
      exact ⟨es, es', g, g', gs, gs', rfl, hes, hg, hgs', hp, hmid⟩

/-- Zeroing the vendor type of a fragment that starts an attribute ahead
leaves the heads ahead alone. -/
theorem zero_fragment {vlen : Nat} {more : Bool}
    (has : as = ds ++ a :: fs) (hheads : SameHeads fs fs')
    (hbuf : buf.drop q = region ++ wire fs')
    (hregion : region.length < a.bytes.length) (h0 : 0 ≤ p)
    (hqp : q ≤ p.toNat)
    (hfrag : fragmentAt attr (buf.drop p.toNat) 0 = .ok (.take vlen more))
    (hstart : StartsAttr as (buf.drop p.toNat)) :
    ∃ fs1, (overlay buf (p + 6).toNat [0]).drop q = region ++ wire fs1
      ∧ SameHeads fs fs1 := by
  obtain ⟨h3, h9, len, hlenb, hlen9⟩ := fragmentAt_take hfrag
  obtain ⟨es, es', g, g', gs, gs', rfl, hes, hg, hgs, hp, hmid⟩ :=
    starts_split has hheads hbuf hregion hqp
      (Joins.ne_nil_of_fragment hfrag) hstart
  have hg5 : 5 ≤ g'.value.length := by
    rw [hp, wire_cons, Tlv.bytes] at hlenb
    simp only [List.cons_append, List.getElem?_cons_succ,
      List.getElem?_cons_zero, Option.some.injEq] at hlenb
    have := g'.lenByte_toNat
    rw [hlenb] at this
    omega
  have htl : (buf.take p.toNat).length = p.toNat := by
    rw [List.length_drop] at h9
    rw [List.length_take]
    omega
  obtain ⟨g1, hg1, hov⟩ := zeroed_head hg5 (buf.take p.toNat) (wire gs')
  rw [← wire_cons, ← hp, List.take_append_drop, htl,
    show p.toNat + 6 = (p + 6).toNat by omega] at hov
  refine ⟨es' ++ g1 :: gs', ?_, hes.append (.cons ?_ hgs)⟩
  · rw [hov, List.drop_append_of_le_length (by omega), hmid]
    simp
  · exact ⟨hg1.type.trans hg.type, hg1.length.trans hg.length,
      hg1.vendor.trans hg.vendor⟩

/-- The walk over `rest` takes the fragment that `f` begins with. -/
inductive Takes (attr : Nat) : List UInt8 → List UInt8 → Prop where
  | here {rest : List UInt8} {vlen : Nat} {more : Bool} :
      fragmentAt attr rest 0 = .ok (.take vlen more) → Takes attr rest rest
  | past {rest f : List UInt8} {vlen : Nat} {len : UInt8} :
      fragmentAt attr rest 0 = .ok (.take vlen true) →
      rest[1]? = some len → Takes attr (rest.drop len.toNat) f →
      Takes attr rest f
  | skip {rest f : List UInt8} {len : UInt8} :
      fragmentAt attr rest 0 = .ok .skip → rest[1]? = some len →
      Takes attr (rest.drop len.toNat) f → Takes attr rest f

/-- A walk that only takes fragments that start an attribute leaves the
heads ahead alone. -/
theorem coalesceCopy_heads {fuel : Nat} {joined buf' : List UInt8}
    (has : as = ds ++ a :: fs) (hheads : SameHeads fs fs')
    (hbuf : buf.drop q = region ++ wire fs')
    (hregion : region.length < a.bytes.length) (h0 : 0 ≤ p)
    (hqp : q ≤ p.toNat)
    (htakes : ∀ f, Takes attr (buf.drop p.toNat) f → StartsAttr as f)
    (h : coalesceCopy attr buf.length fuel buf p = .ok (joined, buf')) :
    ∃ fs1, buf'.drop q = region ++ wire fs1 ∧ SameHeads fs fs1 := by
  induction fuel generalizing buf p joined fs' with
  | zero => cases h
  | succ fuel ih =>
      have hple := (coalesceCopy_joins h0 h).1
      rw [coalesceCopy] at h
      split at h
      · cases h
        exact ⟨fs', hbuf, hheads⟩
      · obtain ⟨f, hfrag, h⟩ := bind_eq_ok.mp h
        rw [fragmentAt_shift h0 hple] at hfrag
        cases f with
        | stop =>
            cases h
            exact ⟨fs', hbuf, hheads⟩
        | skip =>
            simp only at h
            obtain ⟨len, hlen, h⟩ := bind_eq_ok.mp h
            have hlen1 : (buf.drop p.toNat)[1]? = some len := by
              have := (fetch_eq_ok.mp hlen).2
              rw [show (p + 1).toNat = p.toNat + 1 by omega] at this
              rw [List.getElem?_drop]
              exact this
            refine ih hheads hbuf (by omega) (by omega) (fun f hf => ?_) h
            rw [drop_step h0 rfl] at hf
            exact htakes f (.skip hfrag hlen1 hf)
        | take vlen more =>
          cases more with
          | false =>
            obtain ⟨piece, -, h⟩ := bind_eq_ok.mp h
            cases h
            exact zero_fragment has hheads hbuf hregion h0 hqp hfrag
              (htakes _ (.here hfrag))
          | true =>
            obtain ⟨h3, h9, len, hlen, hlen9⟩ := fragmentAt_take hfrag
            rw [List.length_drop] at h9
            have hq : (p + 6).toNat < buf.length := by omega
            obtain ⟨piece, -, h⟩ := bind_eq_ok.mp h
            simp only [fetch_lenByte_zeroed h0 rfl hq hlen,
              ok_bind] at h
            obtain ⟨⟨more, buf1⟩, hrec, h⟩ := bind_eq_ok.mp h
            cases h
            obtain ⟨fs1, hbuf1, hheads1⟩ := zero_fragment has hheads hbuf
              hregion h0 hqp hfrag (htakes _ (.here hfrag))
            have hdrop : (overlay buf (p + 6).toNat [0]).drop
                (p + len.toNat).toNat
                = (buf.drop p.toNat).drop len.toNat := by
              rw [drop_zeroed hq (by omega), drop_step h0 rfl]
            rw [← zeroed_length hq] at hrec
            refine ih hheads1 hbuf1 (by omega) (by omega)
              (fun f hf => ?_) hrec
            rw [hdrop] at hf
            exact htakes f (.past hfrag hlen hf)

end zero

-- ======== the invariant

/-- The loop is inside the Vendor-Specific attribute `a`, with the
sub-attributes `region` of it ahead. -/
structure Open (a : Tlv) (s : DecState) (region : List UInt8) : Prop where
  type : a.type.toNat = pwVendorSpecific
  nonzero : signedVendor (a.value.take 4) ≠ 0
  le : signedVendor (a.value.take 4) ≤ 65535
  sign : (ofBe32 (a.value.take 4)).toNat < 2147483648
  code : s.vendorcode = vendorBits (signedVendor (a.value.take 4))
  room : region.length + 4 ≤ a.value.length
  ahead : region ≠ []
  vendorlen : s.vendorlen = region.length
  format : s.vsaOffset = 0 ∨ s.vsaLlen = 1
  tiles : SubTiles s.vsaTlen s.vsaLlen s.vsaOffset region

/-- The read position in terms of the attributes that were received. -/
inductive Sits (as : List Tlv) (s : DecState) : Prop where
  /-- at the start of an attribute, or at the end -/
  | outer (ds fs fs' : List Tlv) : as = ds ++ fs → SameHeads fs fs' →
      s.buf.drop s.ptr.toNat = wire fs' → s.vendorcode = 0 → Sits as s
  /-- at the start of a sub-attribute -/
  | inner (ds fs fs' : List Tlv) (a : Tlv) (region : List UInt8) :
      as = ds ++ a :: fs → SameHeads fs fs' →
      s.buf.drop s.ptr.toNat = region ++ wire fs' → Open a s region →
      Sits as s

/-- `n` bytes behind `s'`, still inside `a`, there is a boundary; the
attributes from there on may have had bytes zeroed meanwhile. -/
def Behind (as fs : List Tlv) (a : Tlv) (s' : DecState) (n : Int) :
    Prop :=
  ∃ region fs', region.length < a.bytes.length ∧ SameHeads fs fs'
    ∧ s'.buf.drop (s'.ptr + n).toNat = region ++ wire fs'
    ∧ ∀ buf fs1 vps num,
      buf.drop (s'.ptr + n).toNat = region ++ wire fs1 →
      SameHeads fs fs1 →
      Sits as { s' with
        buf := buf
        ptr := s'.ptr + n
        packetLength := s'.packetLength - n
        vps := vps
        numAttributes := num }

/-- What an iteration inside `a` has come to. -/
def KindIn (as fs : List Tlv) (a : Tlv) : StepKind → Prop
  | .stop _ | .broken _ => True
  | .skip s' n => Behind as fs a s' n
  | .pair s' attr n => NumberOf a attr ∧ Behind as fs a s' n
  | .cont call => NumberOf a call.attr ∧ vendorOf call.attr ≠ 0
      ∧ Behind as fs a call.s call.attrlen

section step

variable {as ds fs fs' : List Tlv} {a : Tlv} {region : List UInt8}

/-- Behind a sub-attribute. -/
theorem sub_behind {sub more : List UInt8} (has : as = ds ++ a :: fs)
    (hheads : SameHeads fs fs') (h0 : 0 ≤ s.ptr)
    (hbuf : s.buf.drop s.ptr.toNat = sub ++ (more ++ wire fs'))
    (ho : Open a s (sub ++ more))
    (hmore : SubTiles s.vsaTlen s.vsaLlen s.vsaOffset more) :
    Behind as fs a
      (pastSubHeader s ((sub.length : Int)
        - (s.vsaTlen + s.vsaLlen + s.vsaOffset)))
      ((sub.length : Int) - (s.vsaTlen + s.vsaLlen + s.vsaOffset)) := by
  have hroom := ho.room
  rw [List.length_append] at hroom
  have hptr : s.ptr + (s.vsaTlen + s.vsaLlen + s.vsaOffset)
      + ((sub.length : Int) - (s.vsaTlen + s.vsaLlen + s.vsaOffset))
      = s.ptr + sub.length := by
    omega
  have hvl : s.vendorlen - (s.vsaTlen + s.vsaLlen + s.vsaOffset
      + ((sub.length : Int) - (s.vsaTlen + s.vsaLlen + s.vsaOffset)))
      = more.length := by
    rw [ho.vendorlen, List.length_append]
    push_cast
    omega
  refine ⟨more, fs', ?_, hheads, ?_, ?_⟩
  · rw [Tlv.bytes_length]
    omega
  · show s.buf.drop (s.ptr + _ + _).toNat = _
    rw [hptr, drop_step h0 hbuf, List.drop_left]
  · intro buf fs1 vps num hbuf1 hheads1
    by_cases hnil : more = []
    · subst hnil
      refine .outer (ds ++ [a]) fs fs1 (by rw [has]; simp) hheads1 hbuf1 ?_
      show (if _ then 0 else _) = 0
      rw [if_pos (by rw [hvl]; rfl)]
    · have hpos := List.length_pos_iff.mpr hnil
      refine .inner ds fs fs1 a more has hheads1 hbuf1 ⟨ho.type,
        ho.nonzero, ho.le, ho.sign, ?_, by omega, hnil, hvl, ho.format,
        hmore⟩
      show (if _ then 0 else _) = _
      rw [if_neg (by rw [hvl]; omega)]
      exact ho.code

/-- The iteration inside a Vendor-Specific attribute. -/
theorem subKind_in {k : StepKind} (has : as = ds ++ a :: fs)
    (hheads : SameHeads fs fs') (h0 : 0 ≤ s.ptr)
    (hbuf : s.buf.drop s.ptr.toNat = region ++ wire fs')
    (ho : Open a s region) (h : subKind ctx s = .ok k) :
    KindIn as fs a k := by
  obtain ⟨sub, more, rfl, hsub, hmore⟩ := ho.tiles.cons_inv ho.ahead
  rw [List.append_assoc] at hbuf
  have hbehind := sub_behind has hheads h0 hbuf ho hmore
  unfold subKind at h
  rcases subHeader_ok h0 hbuf ho.format hsub with
    hnone | ⟨-, number, hlt, hsome⟩
  · rw [hnone, ok_bind] at h
    cases h
    exact trivial
  · obtain ⟨hnum, hvend⟩ := numberOf_vendorAttr ho.type
      ho.nonzero ho.le ho.sign hlt
    rw [← ho.code] at hnum hvend
    rw [hsome, ok_bind] at h
    simp only at h
    split at h
    · cases h
      exact hbehind
    · split at h
      · cases h
        exact hbehind
      · split at h
        · obtain ⟨cont, -, h⟩ := bind_eq_ok.mp h
          split at h
          · cases h
            exact ⟨hnum, hbehind⟩
          · cases h
            exact ⟨hnum, hvend, hbehind⟩
        · cases h
          exact ⟨hnum, hbehind⟩

/-- Behind a whole attribute, `k` bytes into its value. -/
theorem whole_behind {value : List UInt8} {n : Nat}
    (has : as = ds ++ a :: fs) (hheads : SameHeads fs fs')
    (h0 : 0 ≤ s.ptr) (hbuf : s.buf.drop s.ptr.toNat = value ++ wire fs')
    (hv : s.vendorcode = 0) (t l o : Nat) :
    Behind as fs a
      { s with
        vsaTlen := t, vsaLlen := l, vsaOffset := o
        ptr := s.ptr + n, packetLength := s.packetLength - n }
      (value.length - n) := by
  have hptr : s.ptr + n + ((value.length : Int) - n)
      = s.ptr + value.length := by
    omega
  refine ⟨[], fs', by rw [Tlv.bytes_length]; simp, hheads, ?_, ?_⟩
  · show s.buf.drop (s.ptr + n + _).toNat = _
    rw [hptr, drop_step h0 hbuf, List.drop_left, List.nil_append]
  · intro buf fs1 vps num hbuf1 hheads1
    exact .outer (ds ++ [a]) fs fs1 (by rw [has]; simp) hheads1 hbuf1 hv

/-- A vendor attribute without a length field: the number has two bytes,
and the vendor a format of its own. -/
theorem sweep_flat {buf : List UInt8} {t l o fuel myattr : Nat}
    {subptr sublen : Int}
    (h : sweep buf t l o fuel subptr sublen = .ok (.flat myattr)) :
    l = 0 ∧ myattr < 65536 := by
  induction fuel generalizing subptr sublen with
  | zero => cases h
  | succ fuel ih =>
      rw [sweep] at h
      split at h
      · cases h
      · obtain ⟨num, hnum, h⟩ := bind_eq_ok.mp h
        cases num with
        | none => cases h
        | some num =>
            simp only at h
            split at h
            · next hl =>
                cases h
                refine ⟨hl, ?_⟩
                unfold sweepNumber at hnum
                split at hnum
                · obtain ⟨b, -, hnum⟩ := bind_eq_ok.mp hnum
                  cases hnum
                  have := b.toNat_lt
                  omega
                · obtain ⟨hi, -, hnum⟩ := bind_eq_ok.mp hnum
                  obtain ⟨lo, -, hnum⟩ := bind_eq_ok.mp hnum
                  cases hnum
                  exact two_bytes_lt hi lo
                · obtain ⟨b0, -, hnum⟩ := bind_eq_ok.mp hnum
                  split at hnum
                  · cases hnum
                  obtain ⟨b1, -, hnum⟩ := bind_eq_ok.mp hnum
                  split at hnum
                  · cases hnum
                  obtain ⟨hi, -, hnum⟩ := bind_eq_ok.mp hnum
                  obtain ⟨lo, -, hnum⟩ := bind_eq_ok.mp hnum
                  cases hnum
                  exact two_bytes_lt hi lo
                · cases hnum
            · obtain ⟨len, -, h⟩ := bind_eq_ok.mp h
              cases len with
              | none => cases h
              | some len =>
                  simp only at h
                  split at h
                  · exact ih h
                  · cases h

/-- A vendor with a format of its own is in the dictionary, and so has an
id that stays positive. -/
theorem sign_of_format {id : List UInt8} {t l : Nat} {c : Bool}
    (h : vendorFormat ctx.cfg.dict (signedVendor id) = (t, l, c))
    (hne : (t, l, c) ≠ (1, 1, false)) :
    (ofBe32 id).toNat < 2147483648 := by
  unfold vendorFormat at h
  cases hdv : ctx.cfg.dict.vendorbyvalue (signedVendor id) with
  | none =>
      rw [hdv] at h
      exact absurd h.symm hne
  | some dv =>
      have hkey := ctx.cfg.dict.vendor_key _ _ hdv
      have hlt := (ofBe32 id).toNat_lt
      unfold signedVendor at hkey
      split at hkey
      · assumption
      · omega

/-- The iteration at `s` begins to decode a Vendor-Specific attribute with
the vendor id `id` into sub-attributes of format `t`, `l`, `c`. -/
def Opens (ctx : DecCtx) (s : DecState) (id : List UInt8) (t l : Nat)
    (c : Bool) : Prop :=
  s.vendorcode = 0 ∧ ∃ n, attrHeader s = .ok (some (pwVendorSpecific, n))
    ∧ 4 < n ∧ fetchN s.buf (s.ptr + 2) 4 = .ok id
    ∧ signedVendor id ≠ 0 ∧ signedVendor id ≤ 65535
    ∧ vendorFormat ctx.cfg.dict (signedVendor id) = (t, l, c)
    ∧ sweep s.buf t l (if c then 1 else 0) (n.toNat + 1) (s.ptr + 2 + 4)
      (n - 4) = .ok .fits

/-- The iteration at a Vendor-Specific attribute; `s` is past its
header. -/
theorem vendorSpecific_in {a' : Tlv} {k : StepKind}
    (has : as = ds ++ a :: fs) (hhead : SameHead a a')
    (hheads : SameHeads fs fs') (h0 : 0 ≤ s.ptr)
    (hp : s.ptr ≤ s.buf.length)
    (hbuf : s.buf.drop s.ptr.toNat = a'.value ++ wire fs')
    (hv : s.vendorcode = 0) (ht : a.type.toNat = pwVendorSpecific)
    (h4 : 4 < a'.value.length)
    (hopens : ∀ t l c, signedVendor (a'.value.take 4) ≠ 0 →
      signedVendor (a'.value.take 4) ≤ 65535 →
      vendorFormat ctx.cfg.dict (signedVendor (a'.value.take 4))
        = (t, l, c) →
      sweep s.buf t l (if c then 1 else 0) ((a'.value.length : Int).toNat
        + 1) (s.ptr + 4) (a'.value.length - 4) = .ok .fits →
      (ofBe32 (a'.value.take 4)).toNat < 2147483648
        ∧ ¬(l = 2 ∧ c = true ∧ t ≠ 4))
    (h : vendorSpecific ctx s pwVendorSpecific a'.value.length = .ok k) :
    KindIn as fs a k := by
  have hnum : NumberOf a pwVendorSpecific := ht ▸ numberOf_type a
  have hwhole (t l o : Nat) := whole_behind (n := 0) has hheads h0 hbuf hv
    t l o
  simp only [Nat.cast_zero, Int.add_zero, Int.sub_zero] at hwhole
  have hid : fetchN s.buf s.ptr 4 = .ok (a'.value.take 4) := by
    have := fetchN_drop _ _ [] _
      h0
      hp (by
        rw [hbuf, ← List.append_assoc (a'.value.take 4),
          List.take_append_drop]
        rfl)
    simpa [List.length_take, Nat.min_eq_left (by omega :
      4 ≤ a'.value.length)] using this
  unfold vendorSpecific vsaKind at h
  rw [hid, ok_bind] at h
  simp only at h
  by_cases hz : signedVendor (a'.value.take 4) = 0
  · rw [if_pos hz] at h
    cases h
    exact ⟨hnum, hwhole _ _ _⟩
  rw [if_neg hz] at h
  by_cases hbig : 65535 < signedVendor (a'.value.take 4)
  · rw [if_pos hbig] at h
    cases h
    exact ⟨hnum, hwhole _ _ _⟩
  rw [if_neg hbig] at h
  obtain ⟨t, l, c, hfmt⟩ : ∃ t l c, vendorFormat ctx.cfg.dict
      (signedVendor (a'.value.take 4)) = (t, l, c) := ⟨_, _, _, rfl⟩
  rw [hfmt] at h
  simp only at h
  obtain ⟨vk, hvk, h⟩ := bind_eq_ok.mp h
  obtain ⟨sw, hsw, hvk⟩ := bind_eq_ok.mp hvk
  have hrest : s.buf.drop (s.ptr + 4).toNat
      = a'.value.drop 4 ++ wire fs' := by
    have := drop_step h0 hbuf 4
    rw [List.drop_append_of_le_length (by omega)] at this
    simpa using this
  have hrl : ((a'.value.drop 4).length : Int) = a'.value.length - 4 := by
    rw [List.length_drop]
    omega
  cases sw with
  | raw =>
      cases hvk
      cases h
      exact ⟨hnum, hwhole _ _ _⟩
  | flat myattr =>
      cases hvk
      cases h
      obtain ⟨hl, hlt⟩ := sweep_flat hsw
      have hsign := sign_of_format hfmt (by rw [hl]; simp)
      rw [hhead.vendor] at hz hbig hsign ⊢
      refine ⟨(numberOf_vendorAttr ht hz (by omega) hsign hlt).1, ?_⟩
      have := whole_behind (n := 4 + t) has hheads h0 hbuf hv t l
        (if c = true then 1 else 0)
      push_cast at this
      exact this
  | fits =>
      cases hvk
      simp only at h
      obtain ⟨hsign, hform⟩ := hopens t l c hz (by omega) hfmt hsw
      obtain ⟨res, hres, hfits, -⟩ := sweep_ok
        ((a'.value.length : Int).toNat + 1) (t := t)
        (l := l) (o := if c then 1 else 0) (by omega)
        hrest (by omega)
      rw [hrl, hsw] at hres
      cases hres
      obtain ⟨-, hne, htiles⟩ := hfits rfl
      by_cases ht4 : l = 2 ∧ c = true
      · -- a four-byte type with a length: the second switch returns -1
        have ht4 : t = 4 := by
          by_contra hne4
          exact hform ⟨ht4.1, ht4.2, hne4⟩
        rw [subKind] at h
        simp only [subHeader, subNumber, ht4, pure_eq_ok, ok_bind] at h
        cases h
        exact trivial
      · rw [hhead.vendor] at hz hbig hsign h
        have hl12 : l = 1 ∨ l = 2 := by
          obtain ⟨subs, hsubs, hall⟩ := htiles
          cases subs with
          | nil => exact absurd hsubs hne
          | cons sub subs =>
              rcases (hall sub (by simp)).counted with ⟨hl, -⟩ | ⟨hl, -⟩
              · exact Or.inl hl
              · exact Or.inr hl
        refine subKind_in has hheads (by show 0 ≤ s.ptr + 4; omega) hrest
          ⟨ht, hz, by omega, hsign, rfl, ?_, hne, hrl.symm, ?_, htiles⟩ h
        · rw [List.length_drop, hhead.length]
          have := hhead.length
          omega
        · show (if c = true then 1 else 0) = 0 ∨ l = 1
          rcases hl12 with hl | hl
          · exact Or.inr hl
          · left
            rw [if_neg fun hc => ht4 ⟨hl, hc⟩]

/-- The call makes no raw sub-TLV. -/
def CallTyped (ctx : DecCtx) (c : ContCall) : Prop :=
  if c.flag then
    ∀ joined,
      Joins c.attr (c.s.buf.drop (c.s.ptr + c.attrlen).toNat) joined →
      TlvTyped ctx c.attr
        ((c.s.buf.drop c.s.ptr.toNat).take c.attrlen.toNat ++ joined) 0
        (c.attrlen + joined.length) c.da
  else TlvTyped ctx c.attr c.s.buf c.s.ptr c.attrlen c.da

/-- What the iteration at `s` must be spared for its pairs to have the
numbers the wire says. -/
structure StepSound (ctx : DecCtx) (as : List Tlv) (s : DecState) :
    Prop where
  sign : ∀ id t l c, Opens ctx s id t l c →
    (ofBe32 id).toNat < 2147483648
  format : ∀ id t l c, Opens ctx s id t l c →
    ¬(l = 2 ∧ c = true ∧ t ≠ 4)
  typed : ∀ call, stepKind ctx s = .ok (.cont call) → CallTyped ctx call
  aligned : ∀ call, stepKind ctx s = .ok (.cont call) →
    call.flag = true → ∀ f,
      Takes call.attr
        (call.s.buf.drop (call.s.ptr + call.attrlen).toNat) f →
      StartsAttr as f

/-- The byte at `p` of the received packet belongs to the attribute
`a`. -/
def AttrAt (as : List Tlv) (p : Int) (a : Tlv) : Prop :=
  ∃ ds fs, as = ds ++ a :: fs ∧ authHdrLen + (wire ds).length ≤ p
    ∧ p < authHdrLen + (wire (ds ++ [a])).length

/-- An iteration that is spared stays inside the attribute it is at. -/
theorem stepKind_in {k : StepKind} (htypes : ∀ a ∈ as, a.type ≠ 0)
    (hlen : s.buf.length = authHdrLen + (wire as).length)
    (hp : Placed s) (hpos : 0 < s.packetLength) (hs : Sits as s)
    (hsound : StepSound ctx as s) (h : stepKind ctx s = .ok k) :
    ∃ fs a, AttrAt as s.ptr a ∧ (∃ ds, as = ds ++ a :: fs)
      ∧ KindIn as fs a k := by
  have h0 := hp.nonneg
  have hend := hp.ends
  cases hs with
  | outer ds fs fs' has hheads hbuf hv =>
      have hwl := hheads.wire_length
      have hblen := congrArg List.length hbuf
      rw [List.length_drop] at hblen
      cases hheads with
      | nil =>
          simp only [wire_nil, List.length_nil] at hblen
          omega
      | @cons a a' fs fs' hhead hheads =>
          rw [wire_cons] at hbuf hblen
          have hat : AttrAt as s.ptr a := by
            refine ⟨ds, fs, has, ?_, ?_⟩
            · rw [has] at hlen
              simp only [wire_append, wire_cons, List.length_append,
                Tlv.bytes_length] at hlen hblen hwl
              omega
            · rw [has] at hlen
              simp only [wire_append, wire_cons, List.length_append,
                Tlv.bytes_length, wire_nil,
                List.length_nil] at hlen hblen hwl ⊢
              omega
          refine ⟨fs, a, hat, ⟨ds, has⟩, ?_⟩
          have hpl : s.packetLength = (a'.bytes ++ wire fs').length := by
            omega
          have ht : a'.type ≠ 0 := by
            rw [hhead.type]
            exact htypes a (by rw [has]; simp)
          have hdrop2 : s.buf.drop (s.ptr + 2).toNat
              = a'.value ++ wire fs' := by
            have := drop_step h0 hbuf 2
            simpa [Tlv.bytes] using this
          by_cases hvsa : a'.type.toNat ≠ pwVendorSpecific
              ∨ a'.value.length ≤ 4
          · rw [stepKind_standard _ hv h0 hbuf hpl ht hvsa] at h
            cases h
            have hb := whole_behind (n := 0) (s := { s with
              ptr := s.ptr + 2, packetLength := s.packetLength - 2 })
              has hheads (by show 0 ≤ s.ptr + 2; omega) hdrop2 hv
              s.vsaTlen s.vsaLlen s.vsaOffset
            simp only [Nat.cast_zero, Int.add_zero, Int.sub_zero] at hb
            exact ⟨hhead.type ▸ numberOf_type a, hb⟩
          · rw [not_or, not_not, not_le] at hvsa
            have hid : fetchN s.buf (s.ptr + 2) 4
                = .ok (a'.value.take 4) := by
              have hfl : (a'.value.take 4).length = 4 := by
                rw [List.length_take]
                omega
              have := fetchN_drop s.buf _
                [a'.type, UInt8.ofNat (a'.value.length + 2)] _
                h0 (by omega) (by
                  rw [hbuf, Tlv.bytes,
                    ← List.append_assoc (a'.value.take 4),
                    List.take_append_drop]
                  rfl)
              rw [hfl] at this
              exact this
            rw [stepKind_vsa _ hv h0 hbuf hpl hvsa.1 hvsa.2] at h
            refine vendorSpecific_in (s := { s with
                ptr := s.ptr + 2, packetLength := s.packetLength - 2
                vendorlen := 0 }) has hhead hheads
              (by show 0 ≤ s.ptr + 2; omega)
              (by
                rw [List.length_append, Tlv.bytes_length] at hpl
                show s.ptr + 2 ≤ (s.buf.length : Int)
                omega) hdrop2 hv (hhead.type ▸ hvsa.1) hvsa.2 ?_ h
            intro t l c hz hle hfmt hsw
            have hop : Opens ctx s (a'.value.take 4) t l c :=
              ⟨hv, a'.value.length, by
                rw [attrHeader_tlv h0 hbuf hpl ht, hvsa.1], by omega, hid,
                hz, hle, hfmt, hsw⟩
            exact ⟨hsound.sign _ t l c hop, hsound.format _ t l c hop⟩
  | inner ds fs fs' a region has hheads hbuf ho =>
      have hblen := congrArg List.length hbuf
      rw [List.length_drop, List.length_append,
        hheads.wire_length] at hblen
      have hreg := List.length_pos_iff.mpr ho.ahead
      have hroom := ho.room
      have hat : AttrAt as s.ptr a := by
        refine ⟨ds, fs, has, ?_, ?_⟩
        · rw [has] at hlen
          simp only [wire_append, wire_cons, List.length_append,
            Tlv.bytes_length] at hlen
          omega
        · rw [has] at hlen
          simp only [wire_append, wire_cons, List.length_append,
            Tlv.bytes_length, wire_nil, List.length_nil] at hlen ⊢
          omega
      refine ⟨fs, a, hat, ⟨ds, has⟩, ?_⟩
      have hcode : ¬s.vendorcode = 0 := by
        rw [ho.code]
        exact vendorBits_ne_zero ho.nonzero
      rw [stepKind, if_neg hcode, if_neg (by rw [ho.vendorlen]; omega)] at h
      exact subKind_in has hheads h0 hbuf ho h

/-- The pairs of a call have its attribute's vendor. -/
theorem ContCall.run_numbers {c : ContCall} {vps : List ValuePair}
    {buf : List UInt8} (h0 : 0 ≤ c.s.ptr)
    (hend : c.s.ptr + c.s.packetLength = c.s.buf.length)
    (htyped : CallTyped ctx c) (h : c.run ctx = .ok (vps, buf)) :
    ∀ v ∈ vps, NumberUnder c.attr v.attr := by
  unfold ContCall.run radContinuation2vp at h
  unfold CallTyped at htyped
  split at h
  · next hflag =>
      rw [if_pos hflag] at htyped
      obtain ⟨⟨block, buf'⟩, hco, h⟩ := bind_eq_ok.mp h
      obtain ⟨vps', hvps, h⟩ := bind_eq_ok.mp h
      cases h
      obtain ⟨hl, hle, joined, hj, rfl⟩ :=
        (radCoalesce_ok_iff h0 hend).mp ⟨buf, hco⟩
      refine tlvPairs_numbers ?_ hvps
      have hblock : ((((c.s.buf.drop c.s.ptr.toNat).take c.attrlen.toNat
          ++ joined).length : Nat) : Int) = c.attrlen + joined.length := by
        rw [List.length_append, List.length_take, List.length_drop]
        omega
      rw [hblock]
      exact htyped joined hj
  · next hflag =>
      rw [if_neg hflag] at htyped
      obtain ⟨vps', hvps, h⟩ := bind_eq_ok.mp h
      cases h
      exact tlvPairs_numbers htyped hvps

/-- Behind a call the heads ahead are as they were received. -/
theorem ContCall.run_sits {c : ContCall} {vps vps' : List ValuePair}
    {buf : List UInt8} {num : Nat} (h0 : 0 ≤ c.s.ptr)
    (hend : c.s.ptr + c.s.packetLength = c.s.buf.length)
    (has : ∃ ds, as = ds ++ a :: fs)
    (hb : Behind as fs a c.s c.attrlen)
    (htakes : c.flag = true → ∀ f,
      Takes c.attr (c.s.buf.drop (c.s.ptr + c.attrlen).toNat) f →
      StartsAttr as f)
    (h : c.run ctx = .ok (vps, buf)) :
    Sits as { c.s with
      buf := buf
      ptr := c.s.ptr + c.attrlen
      packetLength := c.s.packetLength - c.attrlen
      vps := vps'
      numAttributes := num } := by
  obtain ⟨ds, has⟩ := has
  obtain ⟨region, fs', hregion, hheads, hbuf, hnext⟩ := hb
  unfold ContCall.run radContinuation2vp at h
  split at h
  · next hflag =>
      obtain ⟨⟨block, buf'⟩, hco, h⟩ := bind_eq_ok.mp h
      obtain ⟨vps', -, h⟩ := bind_eq_ok.mp h
      cases h
      have hlen := ((radCoalesce_ok_iff h0 hend).mp ⟨buf, hco⟩).1
      unfold radCoalesce at hco
      simp only [hend] at hco
      obtain ⟨n, -, hco⟩ := bind_eq_ok.mp hco
      obtain ⟨first, -, hco⟩ := bind_eq_ok.mp hco
      obtain ⟨⟨rest, buf1⟩, hcopy, hco⟩ := bind_eq_ok.mp hco
      cases hco
      obtain ⟨fs1, hbuf1, hheads1⟩ := coalesceCopy_heads has hheads hbuf
        hregion (by omega) (le_refl _) (htakes hflag) hcopy
      exact hnext _ fs1 _ _ hbuf1 hheads1
  · obtain ⟨vps', -, h⟩ := bind_eq_ok.mp h
    cases h
    exact hnext _ fs' _ _ hbuf hheads

/-- What an iteration that is spared adds, and where it leaves the
loop. -/
theorem decGoes_sourced {s' : DecState} (htypes : ∀ a ∈ as, a.type ≠ 0)
    (hlen : s.buf.length = authHdrLen + (wire as).length)
    (hp : Placed s) (hs : Sits as s) (hsound : StepSound ctx as s)
    (h : DecGoes ctx s s') :
    Sits as s' ∧ ∃ a new, AttrAt as s.ptr a ∧ s'.vps = s.vps ++ new
      ∧ ∀ v ∈ new, NumberOf a v.attr := by
  have hk {k : StepKind} := stepKind_in (k := k) htypes hlen hp h.1 hs
    hsound
  -- a step that leaves the buffer alone
  have hstay {fs : List Tlv} {a : Tlv} {s1 : DecState} {n : Int}
      (hb : Behind as fs a s1 n) (vps : List ValuePair) (num : Nat) :
      Sits as (pastValue s1 n vps num) := by
    obtain ⟨region, fs', -, hheads, hbuf, hnext⟩ := hb
    exact hnext s1.buf fs' vps num hbuf hheads
  rcases decGoes_cases h with ⟨s1, n, hs1 | ⟨attr, hs1⟩, rfl⟩
    | ⟨s1, attr, n, vp, hs1, hvp, rfl⟩ | ⟨call, pairs, buf, hs1, hrun, rfl⟩
  · obtain ⟨fs, a, hat, -, hin⟩ := hk hs1
    have ha : Advances s s1 n := stepKind_advances hp hs1
    exact ⟨hstay hin _ _, a, [], hat,
      by rw [List.append_nil]; exact ha.pairs, by simp⟩
  · obtain ⟨fs, a, hat, -, hin⟩ := hk hs1
    have ha : Advances s s1 n := stepKind_advances hp hs1
    exact ⟨hstay hin.2 _ _, a, [], hat,
      by rw [List.append_nil]; exact ha.pairs, by simp⟩
  · obtain ⟨fs, a, hat, -, hin⟩ := hk hs1
    have ha : Advances s s1 n := stepKind_advances hp hs1
    refine ⟨hstay hin.2 _ _, a, [vp], hat, by rw [← ha.pairs]; rfl, ?_⟩
    intro v hv
    rw [List.mem_singleton] at hv
    rw [hv, radAttr2vp_attr hvp]
    exact hin.1
  · obtain ⟨fs, a, hat, has, hnum, hvend, hb⟩ := hk hs1
    have ha : Advances s call.s call.attrlen := stepKind_advances hp hs1
    have h0 := hp.nonneg.trans ha.forward
    have hend : call.s.ptr + call.s.packetLength
        = call.s.buf.length := by
      rw [ha.total, hp.ends, ha.same]
    have hnumbers := ContCall.run_numbers h0 hend
      (hsound.typed call hs1) hrun
    exact ⟨ContCall.run_sits h0 hend has hb (hsound.aligned call hs1)
      hrun, a, pairs, hat, by rw [← ha.pairs]; rfl,
      fun v hv => (hnumbers v hv).of hnum hvend⟩

end step

-- ======== the fragments

section fragments

variable {attr : Nat} {rest f : List UInt8}

/-- What is taken is a fragment further on. -/
theorem Takes.fragment (h : Takes attr rest f) :
    (∃ n, f = rest.drop n)
      ∧ ∃ vlen more, fragmentAt attr f 0 = .ok (.take vlen more) := by
  induction h with
  | here hfrag => exact ⟨⟨0, rfl⟩, _, _, hfrag⟩
  | past _ _ _ ih =>
      obtain ⟨⟨n, hn⟩, hf⟩ := ih
      exact ⟨⟨_, by rw [hn, List.drop_drop]⟩, hf⟩
  | skip _ _ _ ih =>
      obtain ⟨⟨n, hn⟩, hf⟩ := ih
      exact ⟨⟨_, by rw [hn, List.drop_drop]⟩, hf⟩

/-- A fragment of `attr` has the type and the vendor id for it. -/
theorem fragmentAt_vendor {vlen : Nat} {more : Bool}
    (h : fragmentAt attr f 0 = .ok (.take vlen more)) :
    ∃ b, f[0]? = some b ∧ b.toNat = pwVendorSpecific
      ∧ (ofBe32 ((f.drop 2).take 4)).toNat = vendorOf attr := by
  unfold fragmentAt at h
  obtain ⟨b0, hb0, h⟩ := bind_eq_ok.mp h
  split at h
  · cases h
  next htype =>
  obtain ⟨len, hlen, h⟩ := bind_eq_ok.mp h
  split at h
  · cases h
  obtain ⟨b2, hb2, h⟩ := bind_eq_ok.mp h
  split at h
  · cases h
  next hz2 =>
  obtain ⟨b3, hb3, h⟩ := bind_eq_ok.mp h
  split at h
  · cases h
  next hz3 =>
  obtain ⟨vendor, hvendor, h⟩ := bind_eq_ok.mp h
  obtain ⟨number, hnumber, h⟩ := bind_eq_ok.mp h
  simp only at h
  split at h
  · cases h
  next hattr =>
  rw [not_not] at htype hz2 hz3 hattr
  refine ⟨b0, by simpa using (fetch_eq_ok.mp hb0).2, htype, ?_⟩
  have hv : vendor = (f.drop 2).take 4 := by
    simpa using (fetchN_eq_ok.mp hvendor).2.2.2
  have hv0 : vendor.getD 0 0 = 0 := by
    have := (fetch_eq_ok.mp hb2).2
    rw [hv]
    simp only [zero_add, Int.reduceToNat] at this
    simp [List.getD_eq_getElem?_getD, List.getElem?_drop, this, hz2]
  have hv1 : vendor.getD 1 0 = 0 := by
    have := (fetch_eq_ok.mp hb3).2
    rw [hv]
    simp only [zero_add, Int.reduceToNat] at this
    simp [List.getD_eq_getElem?_getD, List.getElem?_drop, this, hz3]
  have hlt : (ofBe32 vendor).toNat < 65536 := by
    have h2 := (vendor.getD 2 0).toNat_lt
    have h3 := (vendor.getD 3 0).toNat_lt
    unfold ofBe32
    rw [hv0, hv1, UInt32.toNat_ofNat']
    simp only [UInt8.toNat_zero, zero_mul, zero_add]
    omega
  have hnum := number.toNat_lt
  rw [← hv, ← hattr]
  exact (vendorOf_vendorAttr hlt (by omega)).symm

/-- Every fragment a call joins is a Vendor-Specific attribute of the
packet with the call's vendor. -/
def FragmentsSourced (as : List Tlv) (call : ContCall) : Prop :=
  call.flag = true → ∀ f,
    Takes call.attr
      (call.s.buf.drop (call.s.ptr + call.attrlen).toNat) f →
    ∃ g gs, (g :: gs) <:+ as ∧ f.length = (wire (g :: gs)).length
      ∧ NumberOf g call.attr

theorem fragments_sourced {as ds fs : List Tlv} {a : Tlv} {c : ContCall}
    (has : as = ds ++ a :: fs) (hvend : vendorOf c.attr ≠ 0)
    (h0 : 0 ≤ c.s.ptr + c.attrlen) (hb : Behind as fs a c.s c.attrlen)
    (htakes : c.flag = true → ∀ f,
      Takes c.attr (c.s.buf.drop (c.s.ptr + c.attrlen).toNat) f →
      StartsAttr as f) : FragmentsSourced as c := by
  intro hflag f hf
  obtain ⟨region, fs', hregion, hheads, hbuf, -⟩ := hb
  obtain ⟨⟨n, hn⟩, vlen, more, hfrag⟩ := hf.fragment
  have hdrop : c.s.buf.drop (c.s.ptr + c.attrlen + n).toNat = f := by
    rw [hn, drop_step h0 rfl]
  have hstart := htakes hflag f hf
  rw [← hdrop] at hstart hfrag
  obtain ⟨es, es', g, g', gs, gs', rfl, -, hg, hgs, hp, -⟩ :=
    starts_split has hheads hbuf hregion (by omega)
      (Joins.ne_nil_of_fragment hfrag) hstart
  rw [hp] at hfrag
  obtain ⟨b, hb0, hbt, hid⟩ := fragmentAt_vendor hfrag
  obtain ⟨-, h9, len, hlenb, hlen9⟩ := fragmentAt_take hfrag
  simp only [wire_cons, Tlv.bytes, List.cons_append,
    List.getElem?_cons_succ, List.getElem?_cons_zero,
    Option.some.injEq] at hb0 hlenb
  have hg4 : 4 ≤ g'.value.length := by
    have := g'.lenByte_toNat
    rw [hlenb] at this
    omega
  have hid' : ((wire (g' :: gs')).drop 2).take 4 = g.value.take 4 := by
    rw [wire_cons, Tlv.bytes, ← hg.vendor]
    simp only [List.cons_append, List.drop_succ_cons, List.drop_zero]
    exact List.take_append_of_le_length hg4
  refine ⟨g, gs, ⟨ds ++ a :: es, by rw [has]; simp⟩, ?_, ?_⟩
  · rw [← hdrop, hp, wire_cons, wire_cons, List.length_append,
      List.length_append, Tlv.bytes_length, Tlv.bytes_length, hg.length,
      hgs.wire_length]
  · refine ⟨fun hz => absurd hz hvend, fun _ => ⟨?_, ?_⟩⟩
    · rw [← hbt, ← hb0, hg.type]
    · rw [← hid', hid]

end fragments

-- ======== the run

section run

variable {as : List Tlv} {s0 : DecState}

/-- Along a run of spared iterations the loop sits in the packet. -/
theorem sits_reaches (htypes : ∀ a ∈ as, a.type ≠ 0)
    (hlen : s0.buf.length = authHdrLen + (wire as).length)
    (hp : Placed s0) (hs : Sits as s0)
    (hsteps : ∀ s, Reaches (DecGoes ctx) s0 s → 0 < s.packetLength →
      StepSound ctx as s)
    (h : Reaches (DecGoes ctx) s0 s) :
    Placed s ∧ Sits as s
      ∧ s.buf.length = authHdrLen + (wire as).length := by
  induction h with
  | refl => exact ⟨hp, hs, hlen⟩
  | step hr hgo ih =>
      obtain ⟨hp', hs', hl'⟩ := ih
      obtain ⟨hp'', hbl⟩ := decGoes_placed hp' hgo
      exact ⟨hp'', (decGoes_sourced htypes hl' hp' hs'
        (hsteps _ hr hgo.1) hgo).1, hbl.trans hl'⟩

/-- The loop ends with the pairs of a state it passed, or with none. -/
theorem decodeLoop_vps {fuel : Nat} {rc : Int} {s' : DecState}
    (hp : Placed s) (h : decodeLoop ctx fuel s = .ok (rc, s')) :
    s'.vps = [] ∨ ∃ t, Reaches (DecGoes ctx) s t ∧ s'.vps = t.vps := by
  induction fuel generalizing s with
  | zero => cases h
  | succ fuel ih =>
      rw [decodeLoop] at h
      split at h
      · cases h
        exact Or.inr ⟨_, .refl, rfl⟩
      · next hpos =>
          obtain ⟨res, hres, h⟩ := bind_eq_ok.mp h
          cases res with
          | loop s1 =>
              have hgo : DecGoes ctx s s1 := ⟨by omega, hres⟩
              rcases ih (decGoes_placed hp hgo).1 h with hnil | ⟨t, ht, hv⟩
              · exact Or.inl hnil
              · exact Or.inr ⟨t, .head hgo ht, hv⟩
          | done s1 =>
              cases h
              rcases decodeStep_ends hp (Or.inl hres) with hnil | hv
              · exact Or.inl hnil
              · exact Or.inr ⟨s, .refl, hv⟩
          | fail s1 =>
              cases h
              rcases decodeStep_ends hp (Or.inr hres) with hnil | hv
              · exact Or.inl hnil
              · exact Or.inr ⟨s, .refl, hv⟩

end run

/-- In every run of the loop on an accepted packet whose iterations are
all spared, an iteration adds pairs only with numbers that the attribute
at its read position entitles them to, the fragments it joins are
attributes of the same vendor, and so every pair `rad_decode` leaves in
the packet has the provenance its number says. -/
theorem radDecode_provenance (cfg : Config)
    (packet received : RadiusPacket) (flags : Bool)
    (original : Option RadiusPacket) (secret : Option (List UInt8))
    (as : List Tlv)
    (hok : radPacketOk cfg packet flags = (received, none))
    (hbody : received.data.drop authHdrLen = wire as)
    (hsteps : ∀ s, Reaches
        (DecGoes (decodeCtx cfg received original secret))
        (decodeInit received) s → 0 < s.packetLength →
      StepSound (decodeCtx cfg received original secret) as s) :
    (∀ s s', Reaches (DecGoes (decodeCtx cfg received original secret))
        (decodeInit received) s →
      DecGoes (decodeCtx cfg received original secret) s s' →
      ∃ a new, AttrAt as s.ptr a ∧ s'.vps = s.vps ++ new
        ∧ ∀ v ∈ new, NumberOf a v.attr)
      ∧ (∀ call, CallsFrom (decodeCtx cfg received original secret)
          (decodeInit received) call → FragmentsSourced as call)
      ∧ ∀ rc out, radDecode cfg received original secret
          = .ok (rc, out) →
        ∀ v ∈ out.vps, v ∈ received.vps
          ∨ ∃ a ∈ as, NumberOf a v.attr := by
  obtain ⟨as', hacc⟩ := radPacketOk_accepted hok
  have has : as' = as := wire_injective (hacc.body.symm.trans hbody)
  subst has
  have hh := hacc.header
  have htypes : ∀ a ∈ as', a.type ≠ 0 := fun a ha =>
    (hacc.received a ha).1
  have hlen : (decodeInit received).buf.length
      = authHdrLen + (wire as').length := by
    rw [← hbody, List.length_drop]
    show received.data.length = _
    omega
  have hsits : Sits as' (decodeInit received) :=
    .outer [] as' as' rfl (SameHeads.refl as') hbody rfl
  have hall {s : DecState} := sits_reaches (s := s) htypes hlen
    hacc.placed hsits hsteps
  have hadds : ∀ s s', Reaches
      (DecGoes (decodeCtx cfg received original secret))
        (decodeInit received) s →
      DecGoes (decodeCtx cfg received original secret) s s' →
      ∃ a new, AttrAt as' s.ptr a ∧ s'.vps = s.vps ++ new
        ∧ ∀ v ∈ new, NumberOf a v.attr := by
    intro s s' hr hgo
    obtain ⟨hp, hs, hl⟩ := hall hr
    exact (decGoes_sourced htypes hl hp hs (hsteps s hr hgo.1) hgo).2
  refine ⟨hadds, ?_, ?_⟩
  · rintro call ⟨s, hr, hpos, hk⟩
    obtain ⟨hp, hs, hl⟩ := hall hr
    have hsound := hsteps s hr hpos
    obtain ⟨fs, a, -, ⟨ds, has⟩, hin⟩ := stepKind_in htypes hl hp hpos hs
      hsound hk
    have ha : Advances s call.s call.attrlen := stepKind_advances hp hk
    exact fragments_sourced has hin.2.1 (hp.nonneg.trans ha.behind)
      hin.2.2 (hsound.aligned call hk)
  · intro rc out hrun v hv
    unfold radDecode at hrun
    obtain ⟨⟨rc', s'⟩, hloop, hrun⟩ := bind_eq_ok.mp hrun
    cases hrun
    -- every pair of a state passed is old or has its source
    have hpairs : ∀ t, Reaches
        (DecGoes (decodeCtx cfg received original secret))
          (decodeInit received) t →
        ∀ v ∈ t.vps, v ∈ received.vps
          ∨ ∃ a ∈ as', NumberOf a v.attr := by
      intro t ht
      induction ht with
      | refl => exact fun v hv => Or.inl hv
      | step hr hgo ih =>
          obtain ⟨a, new, ⟨ds, fs, has, -⟩, hvps, hnew⟩ :=
            hadds _ _ hr hgo
          intro v hv
          rw [hvps] at hv
          rcases List.mem_append.mp hv with hv | hv
          · exact ih v hv
          · exact Or.inr ⟨a, by rw [has]; simp, hnew v hv⟩
    rcases decodeLoop_vps hacc.placed hloop with hnil | ⟨t, ht, hvps⟩
    · rw [show s'.vps = [] from hnil] at hv
      cases hv
    · exact hpairs t ht v (hvps ▸ hv)

/-- A request with one attribute of the vendor `id`, received. -/
def vendorRequest (id : List UInt8) : RadiusPacket :=
  (radPacketOk bareConfig (requestOf ([26, 9] ++ id ++ [1, 3, 65]))
    false).1

/-- The attribute on its wire. -/
def vendorTlv (id : List UInt8) (h : id.length = 4) : Tlv :=
  ⟨26, id ++ [1, 3, 65], by rw [List.length_append, h]; decide⟩

theorem vendorRequest_sourced :
    (radPacketOk bareConfig
        (requestOf ([26, 9] ++ [0, 0, 0, 9] ++ [1, 3, 65])) false).2
        = none
      ∧ ∀ rc out, radDecode bareConfig (vendorRequest [0, 0, 0, 9]) none
          none = .ok (rc, out) →
        ∀ v ∈ out.vps, v ∈ (vendorRequest [0, 0, 0, 9]).vps
          ∨ ∃ a ∈ [vendorTlv [0, 0, 0, 9] rfl], NumberOf a v.attr := by
  have hok : radPacketOk bareConfig
      (requestOf ([26, 9] ++ [0, 0, 0, 9] ++ [1, 3, 65])) false
        = (vendorRequest [0, 0, 0, 9], none) := rfl
  have hbody : (vendorRequest [0, 0, 0, 9]).data.drop authHdrLen
      = wire [vendorTlv [0, 0, 0, 9] rfl] := rfl
  refine ⟨rfl, (radDecode_provenance bareConfig
    (requestOf ([26, 9] ++ [0, 0, 0, 9] ++ [1, 3, 65]))
    (vendorRequest [0, 0, 0, 9]) false none none
    [vendorTlv [0, 0, 0, 9] rfl] hok hbody ?_).2.2⟩
  intro s hreach hpos
  -- one iteration takes the loop to the end of the packet
  have hs : s = decodeInit (vendorRequest [0, 0, 0, 9])
      ∨ s.packetLength = 0 := by
    refine hreach.invariant (fun s => s = _ ∨ s.packetLength = 0)
      (Or.inl rfl) fun a b ha hgo => ?_
    rcases ha with rfl | ha
    · rw [← hgo.stepped_eq]
      exact Or.inr (by decide)
    · have := hgo.1
      omega
  rcases hs with rfl | hs
  · refine ⟨?_, ?_, ?_, ?_⟩
    · rintro id t l c ⟨-, n, -, -, hid, -⟩
      cases hid
      decide
    · rintro id t l c ⟨-, n, -, -, -, -, -, hfmt, -⟩
      cases hfmt
      decide
    · intro call h
      cases h
    · intro call h
      cases h
  · omega

/-- A vendor id with the top bit set and nothing below makes User-Name of
a sub-attribute. -/
theorem forgedUserName_unsourced :
    (radPacketOk bareConfig
        (requestOf ([26, 9] ++ [0x80, 0, 0, 0] ++ [1, 3, 65])) false).2
        = none
      ∧ (vendorRequest [0x80, 0, 0, 0]).vps = []
      ∧ (vendorRequest [0x80, 0, 0, 0]).data.drop authHdrLen
        = wire [vendorTlv [0x80, 0, 0, 0] rfl]
      ∧ ∃ out v, radDecode bareConfig (vendorRequest [0x80, 0, 0, 0]) none
          none = .ok (0, out) ∧ v ∈ out.vps ∧ v.attr = 1
        ∧ ¬NumberOf (vendorTlv [0x80, 0, 0, 0] rfl) v.attr := by
  refine ⟨rfl, rfl, rfl, _, _, rfl, List.mem_singleton.mpr rfl, rfl, ?_⟩
  intro h
  exact absurd (h.1 (by decide)) (by decide)

end WinRadius
