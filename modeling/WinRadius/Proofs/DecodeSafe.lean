/-
Memory safety and termination of the decoder's loop.

# Reads

`data2vp` reads the bytes of its attribute, and one thing more: to reveal
an Ascend secret `make_secret` takes sixteen bytes from the packet
whatever the attribute's length. `ascendReads` says when it comes to
that; a value in bounds is read safely if and only if those sixteen bytes
are in bounds too (`createPair_safe`, `createPair_overreads`).

# The loop

`Boundary` is the loop's invariant. Between iterations the read position
is at the start of a string of attributes, or, inside a Vendor-Specific
attribute, at the start of a string of sub-attributes that ends where the
attribute does (`SubTiles`), which is what the sweep checked.
-/
import WinRadius.Proofs.DecodeStep
import WinRadius.Proofs.Received

namespace WinRadius

open Lib

variable {ctx : DecCtx} {s : DecState} {buf : List UInt8}

-- ======== one value

/-- `data2vp` gets to `make_secret` with a pair of these flags. -/
def ascendReads (ctx : DecCtx) (flags : AttrFlags) : Prop :=
  ctx.secret.isSome = true ∧ ctx.original.isSome = true
    ∧ flags.encrypt = .ascendSecret

theorem fetchN_isOk {i n : Int} (h0 : 0 ≤ i) (hn : 0 ≤ n)
    (h : i + n ≤ buf.length) :
    fetchN buf i n = .ok ((buf.drop i.toNat).take n.toNat) :=
  fetchN_eq_ok.mpr ⟨h0, hn, h, rfl⟩

/-- The tag is read from the value's own first byte. -/
theorem vpTag_ok {data length : Int} (vp : ValuePair) (h0 : 0 ≤ data)
    (hlen : 0 ≤ length) (hin : data + length ≤ buf.length)
    (htag : vp.flags.hasTag = true → 1 ≤ length) :
    ∃ vp' offset, vpTag buf data vp = .ok (vp', offset)
      ∧ 0 ≤ offset ∧ offset ≤ length
      ∧ vp'.flags.encrypt = vp.flags.encrypt := by
  unfold vpTag
  by_cases ht : vp.flags.hasTag = true
  · have h1 := htag ht
    obtain ⟨b, hb⟩ : ∃ b, fetch buf data = .ok b :=
      fetch_isOk h0 (by omega)
    rw [if_pos ht, hb, ok_bind]
    split_ifs
    · exact ⟨_, 1, rfl, by omega, h1, rfl⟩
    · exact ⟨_, 0, rfl, by omega, by omega, rfl⟩
    · exact ⟨_, 0, rfl, by omega, by omega, rfl⟩
  · rw [if_neg ht]
    exact ⟨_, 0, rfl, by omega, hlen, rfl⟩

theorem decryptVp_ok {data : Int} {vp : ValuePair} (h0 : 0 ≤ data)
    (h : ascendReads ctx vp.flags → data + 16 ≤ buf.length) :
    ∃ res, decryptVp ctx buf data vp = .ok res := by
  unfold decryptVp
  cases hsec : ctx.secret with
  | none => exact ⟨_, rfl⟩
  | some secret =>
      simp only
      cases henc : vp.flags.encrypt with
      | none | unknown => exact ⟨_, rfl⟩
      | userPassword =>
          simp only
          split_ifs
          · exact ⟨_, rfl⟩
          · exact ⟨_, rfl⟩
      | tunnelPassword =>
          cases ctx.original with
          | none => exact ⟨_, rfl⟩
          | some o =>
              simp only
              split
              · exact ⟨_, rfl⟩
              · exact ⟨_, rfl⟩
      | ascendSecret =>
          cases hor : ctx.original with
          | none => exact ⟨_, rfl⟩
          | some o =>
              have hin := h ⟨by rw [hsec]; rfl, by rw [hor]; rfl, henc⟩
              rw [fetchN_isOk h0 (by omega) hin]
              exact ⟨_, rfl⟩

theorem decryptVp_overreads {data : Int} {vp : ValuePair}
    (ha : ascendReads ctx vp.flags) (h : (buf.length : Int) < data + 16) :
    decryptVp ctx buf data vp = .error .overread := by
  obtain ⟨hsec, hor, henc⟩ := ha
  obtain ⟨secret, hsec⟩ := Option.isSome_iff_exists.mp hsec
  obtain ⟨o, hor⟩ := Option.isSome_iff_exists.mp hor
  have herr : fetchN buf data 16 = .error .overread :=
    fetchN_eq_error.mpr ⟨rfl, Or.inr (Or.inr h)⟩
  simp only [decryptVp, hsec, henc, hor, herr, error_bind]

section value

variable {attr : Nat} {length data : Int} {vp : ValuePair}

/-- The reads of `data2vp` up to decryption. -/
theorem data2vp_eq (h0 : 0 ≤ data) (hlen : 0 ≤ length)
    (h253 : length ≤ 253) (hin : data + length ≤ buf.length)
    (htag : vp.flags.hasTag = true → 1 ≤ length) :
    ∃ vp' bytes, vp'.flags.encrypt = vp.flags.encrypt
      ∧ data2vp ctx attr length buf data vp
        = decryptVp ctx buf data vp' >>= fun res =>
          pure (typedOrRaw ctx.cfg attr bytes res) := by
  have hclip : clipLength length = length := by
    unfold clipLength
    rw [if_neg (by omega)]
  obtain ⟨vp1, offset, htagok, ho0, hole, henc⟩ := vpTag_ok
    { vp with op := .opEq } h0 hlen hin htag
  obtain ⟨value, hval⟩ : ∃ value,
      fetchN buf (data + offset) (length - offset) = .ok value :=
    ⟨_, fetchN_isOk (by omega) (by omega) (by omega)⟩
  obtain ⟨bytes, hbytes⟩ : ∃ bytes, fetchN buf data length = .ok bytes :=
    ⟨_, fetchN_isOk h0 hlen hin⟩
  refine ⟨{ vp1.setOctets value with length := value.length }, bytes,
    henc, ?_⟩
  simp only [data2vp, hclip, htagok, ok_bind, hval, hbytes]

variable (attr) in
theorem data2vp_ok (h0 : 0 ≤ data) (hlen : 0 ≤ length)
    (h253 : length ≤ 253) (hin : data + length ≤ buf.length)
    (htag : vp.flags.hasTag = true → 1 ≤ length)
    (hasc : ascendReads ctx vp.flags → data + 16 ≤ buf.length) :
    ∃ res, data2vp ctx attr length buf data vp = .ok res := by
  obtain ⟨vp', bytes, henc, heq⟩ := data2vp_eq
    h0 hlen h253 hin htag
  have hasc' : ascendReads ctx vp'.flags → data + 16 ≤ buf.length := by
    unfold ascendReads
    rw [henc]
    exact hasc
  obtain ⟨res, hres⟩ := decryptVp_ok h0 hasc'
  rw [heq, hres, ok_bind]
  exact ⟨_, rfl⟩

theorem data2vp_overreads (h0 : 0 ≤ data) (hlen : 0 ≤ length)
    (h253 : length ≤ 253) (hin : data + length ≤ buf.length)
    (htag : vp.flags.hasTag = true → 1 ≤ length)
    (hasc : ascendReads ctx vp.flags)
    (h : (buf.length : Int) < data + 16) :
    data2vp ctx attr length buf data vp = .error .overread := by
  obtain ⟨vp', bytes, henc, heq⟩ := data2vp_eq
    h0 hlen h253 hin htag
  have hasc' : ascendReads ctx vp'.flags := by
    unfold ascendReads
    rw [henc]
    exact hasc
  rw [heq, decryptVp_overreads hasc' h, error_bind]

end value

-- ======== one pair

/-- The flags the pair for a number starts with. -/
def startFlags (cfg : Config) (attr : Nat) : AttrFlags :=
  match cfg.dict.attrbyvalue attr with
  | some da => da.flags
  | none => {}

theorem paircreate_flags {cfg : Config} {attr : Nat} {vp : ValuePair}
    (h : paircreate cfg attr .octets = some vp) :
    vp.flags.hasTag = (startFlags cfg attr).hasTag
      ∧ vp.flags.encrypt = (startFlags cfg attr).encrypt := by
  unfold paircreate at h
  unfold startFlags
  cases hda : cfg.dict.attrbyvalue attr with
  | some da =>
      rw [hda] at h
      cases h
      exact ⟨rfl, rfl⟩
  | none =>
      rw [hda] at h
      simp only [paircreateRaw, pairalloc, Bool.not_true,
        Bool.false_eq_true, if_false] at h
      split at h
      · cases h
        exact ⟨rfl, rfl⟩
      · cases h

/-- A value in the packet that `create_pair` is to make a pair of. -/
structure ValueAt (ctx : DecCtx) (s : DecState) (attr : Nat)
    (attrlen : Int) : Prop where
  ptr_nonneg : 0 ≤ s.ptr
  len_nonneg : 0 ≤ attrlen
  len_le : attrlen ≤ 253
  inside : s.ptr + attrlen ≤ s.buf.length

/-- `create_pair` runs off the packet: it makes a pair, the pair is an
Ascend secret, and fewer than sixteen bytes are left. -/
def ascendShort (ctx : DecCtx) (s : DecState) (attr : Nat)
    (attrlen : Int) : Prop :=
  (attrlen ≠ 0 ∨ attr = pwChargeableUserIdentity)
    ∧ (∃ da, ctx.cfg.dict.attrbyvalue attr = some da
      ∧ ascendReads ctx da.flags)
    ∧ (s.buf.length : Int) < s.ptr + 16

/-- How an iteration that makes a pair ends: the loop goes on behind the
value, or `rad_decode` returns -1. -/
def AfterPair (s : DecState) (attrlen : Int) (res : DecNext) : Prop :=
  (∃ s', res = .fail s') ∨ ∃ vps num, res = .loop { s with
    ptr := s.ptr + attrlen
    packetLength := s.packetLength - attrlen
    vps := vps
    numAttributes := num }

theorem createdPair_after (ctx : DecCtx) (s : DecState)
    (pairs : List ValuePair) (attrlen : Int) :
    AfterPair s attrlen (createdPair ctx s pairs attrlen) := by
  unfold createdPair
  simp only
  split_ifs
  · exact Or.inl ⟨_, rfl⟩
  · exact Or.inr ⟨_, _, rfl⟩

variable {attr : Nat} {attrlen : Int}

theorem createPair_safe (h : ValueAt ctx s attr attrlen)
    (hcui : (startFlags ctx.cfg pwChargeableUserIdentity).hasTag = false)
    (hno : ¬ascendShort ctx s attr attrlen) :
    ∃ res, createPair ctx s attr attrlen = .ok res
      ∧ AfterPair s attrlen res := by
  have hlen := h.len_nonneg
  unfold createPair
  by_cases hz : attrlen = 0 ∧ attr ≠ pwChargeableUserIdentity
  · rw [if_pos hz]
    exact ⟨_, rfl, Or.inr ⟨s.vps, s.numAttributes, rfl⟩⟩
  · rw [if_neg hz]
    have hmade : attrlen ≠ 0 ∨ attr = pwChargeableUserIdentity := by
      by_contra hc
      exact hz (by simpa using hc)
    unfold radAttr2vp
    cases hvp : paircreate ctx.cfg attr .octets with
    | none => exact ⟨_, rfl, Or.inl ⟨_, rfl⟩⟩
    | some vp =>
        obtain ⟨htag, henc⟩ := paircreate_flags hvp
        have htag1 : vp.flags.hasTag = true → 1 ≤ attrlen := by
          intro ht
          rcases hmade with hne | hc
          · omega
          · rw [htag, hc, hcui] at ht
            cases ht
        have hasc : ascendReads ctx vp.flags →
            s.ptr + 16 ≤ s.buf.length := by
          intro ha
          by_contra hshort
          refine hno ⟨hmade, ?_, by omega⟩
          cases hda : ctx.cfg.dict.attrbyvalue attr with
          | none =>
              have := ha.2.2
              rw [henc, startFlags, hda] at this
              cases this
          | some da =>
              refine ⟨da, rfl, ha.1, ha.2.1, ?_⟩
              rw [← ha.2.2, henc, startFlags, hda]
        obtain ⟨res, hres⟩ := data2vp_ok attr
          h.ptr_nonneg hlen h.len_le h.inside htag1 hasc
        simp only [hres, ok_bind]
        cases res with
        | none => exact ⟨_, rfl, Or.inl ⟨_, rfl⟩⟩
        | some v => exact ⟨_, rfl, createdPair_after _ _ _ _⟩

theorem createPair_overreads (h : ValueAt ctx s attr attrlen)
    (hcui : (startFlags ctx.cfg pwChargeableUserIdentity).hasTag = false)
    (hshort : ascendShort ctx s attr attrlen) :
    createPair ctx s attr attrlen = .error .overread := by
  obtain ⟨hmade, ⟨da, hda, ha⟩, hlt⟩ := hshort
  have hlen := h.len_nonneg
  have hz : ¬(attrlen = 0 ∧ attr ≠ pwChargeableUserIdentity) := by
    rintro ⟨h1, h2⟩
    rcases hmade with h3 | h3
    · exact h3 h1
    · exact h2 h3
  have hvp : paircreate ctx.cfg attr .octets
      = some { pairalloc (some da) with op := .opEq } := by
    unfold paircreate
    rw [hda]
  have htag : ({ pairalloc (some da) with
      op := .opEq } : ValuePair).flags.hasTag = true → 1 ≤ attrlen := by
    intro ht
    rcases hmade with hne | hc
    · omega
    · rw [hc] at hda
      rw [startFlags, hda] at hcui
      change da.flags.hasTag = true at ht
      rw [hcui] at ht
      cases ht
  rw [createPair, if_neg hz, radAttr2vp, hvp]
  simp only
  rw [data2vp_overreads h.ptr_nonneg hlen h.len_le h.inside htag ha hlt,
    error_bind]

-- ======== the sweep

/-- One sub-attribute of a Vendor-Specific attribute: room for the header
and a length field that counts the whole. -/
structure SubAttr (t l o : Nat) (sub : List UInt8) : Prop where
  header : t + l ≤ sub.length
  header_cont : l = 1 → t + l + o ≤ sub.length
  counted : (l = 1 ∧ ∃ b, sub[t]? = some b ∧ b.toNat = sub.length)
    ∨ (l = 2 ∧ ∃ b, sub[t + 1]? = some b ∧ b.toNat = sub.length)

/-- A string of sub-attributes. -/
def SubTiles (t l o : Nat) (region : List UInt8) : Prop :=
  ∃ subs : List (List UInt8), region = subs.flatten
    ∧ ∀ sub ∈ subs, SubAttr t l o sub

section sweep

variable {region rest : List UInt8} {p : Int} {t l o : Nat}

/-- A byte of a region that lies in the buffer. -/
theorem fetch_region (h0 : 0 ≤ p)
    (hbuf : buf.drop p.toNat = region ++ rest) (k : Nat)
    (hk : k < region.length) :
    ∃ b, region[k]? = some b ∧ fetch buf (p + k) = .ok b := by
  have hb : (region ++ rest)[k]? = some region[k] := by
    rw [List.getElem?_append_left hk, List.getElem?_eq_getElem hk]
  exact ⟨region[k], List.getElem?_eq_getElem hk, fetch_drop h0 hbuf k hb⟩

theorem sweepNumber_ok (h0 : 0 ≤ p)
    (hbuf : buf.drop p.toNat = region ++ rest) (ht : t ≤ region.length) :
    ∃ res, sweepNumber buf t p = .ok res := by
  unfold sweepNumber
  split
  · obtain ⟨b, -, hb⟩ := fetch_region h0 hbuf 0 (by omega)
    rw [Int.ofNat_zero, Int.add_zero] at hb
    rw [hb]
    exact ⟨_, rfl⟩
  · obtain ⟨b, -, hb⟩ := fetch_region h0 hbuf 0 (by omega)
    obtain ⟨b1, -, hb1⟩ := fetch_region h0 hbuf 1 (by omega)
    rw [Int.ofNat_zero, Int.add_zero] at hb
    rw [Int.ofNat_one] at hb1
    rw [hb, ok_bind, hb1]
    exact ⟨_, rfl⟩
  · obtain ⟨b, -, hb⟩ := fetch_region h0 hbuf 0 (by omega)
    obtain ⟨b1, -, hb1⟩ := fetch_region h0 hbuf 1 (by omega)
    obtain ⟨b2, -, hb2⟩ := fetch_region h0 hbuf 2 (by omega)
    obtain ⟨b3, -, hb3⟩ := fetch_region h0 hbuf 3 (by omega)
    rw [Int.ofNat_zero, Int.add_zero] at hb
    rw [Int.ofNat_one] at hb1
    rw [show ((2 : Nat) : Int) = 2 from rfl] at hb2
    rw [show ((3 : Nat) : Int) = 3 from rfl] at hb3
    rw [hb, ok_bind, hb1, ok_bind, hb2, ok_bind, hb3]
    split_ifs <;> exact ⟨_, rfl⟩
  · exact ⟨_, rfl⟩

/-- The length the sweep accepts is that of a sub-attribute at the front
of the region. -/
theorem sweepLength_ok (h0 : 0 ≤ p)
    (hbuf : buf.drop p.toNat = region ++ rest)
    (hroom : t + l + o ≤ region.length) :
    ∃ res, sweepLength buf t l o p region.length = .ok res
      ∧ ∀ n, res = some n → n ≤ region.length ∧ 1 ≤ n
        ∧ SubAttr t l o (region.take n) := by
  have hsub (k n : Nat) (b : UInt8) (hk : k < n) (hn : n ≤ region.length)
      (hb : region[k]? = some b) : (region.take n)[k]? = some b
        ∧ (region.take n).length = n := by
    rw [List.getElem?_take, if_pos hk, List.length_take]
    exact ⟨hb, by omega⟩
  unfold sweepLength
  split
  · obtain ⟨b, hb, hf⟩ := fetch_region h0 hbuf t (by omega)
    rw [hf, ok_bind]
    split_ifs with h1 h2 h3
    · exact ⟨_, rfl, by simp⟩
    · exact ⟨_, rfl, by simp⟩
    · obtain ⟨c, -, hc⟩ := fetch_region h0 hbuf (t + 1) (by omega)
      rw [Nat.cast_add, ← Int.add_assoc] at hc
      rw [hc, ok_bind]
      obtain ⟨hb', hl'⟩ := hsub t b.toNat b (by omega) (by omega) hb
      split_ifs
      · exact ⟨_, rfl, by simp⟩
      · refine ⟨_, rfl, ?_⟩
        rintro n ⟨⟩
        exact ⟨by omega, by omega, by omega, by omega,
          Or.inl ⟨rfl, b, hb', hl'.symm⟩⟩
    · obtain ⟨hb', hl'⟩ := hsub t b.toNat b (by omega) (by omega) hb
      refine ⟨_, rfl, ?_⟩
      rintro n ⟨⟩
      exact ⟨by omega, by omega, by omega, by omega,
        Or.inl ⟨rfl, b, hb', hl'.symm⟩⟩
  · obtain ⟨z, -, hz⟩ := fetch_region h0 hbuf t (by omega)
    rw [hz, ok_bind]
    split_ifs
    · exact ⟨_, rfl, by simp⟩
    · obtain ⟨b, hb, hf⟩ := fetch_region h0 hbuf (t + 1) (by omega)
      rw [Nat.cast_add, ← Int.add_assoc, Nat.cast_one] at hf
      rw [hf, ok_bind]
      split_ifs with h1 h2
      · exact ⟨_, rfl, by simp⟩
      · exact ⟨_, rfl, by simp⟩
      · obtain ⟨hb', hl'⟩ := hsub (t + 1) b.toNat b (by omega) (by omega)
          hb
        refine ⟨_, rfl, ?_⟩
        rintro n ⟨⟩
        exact ⟨by omega, by omega, by omega, by omega,
          Or.inr ⟨rfl, b, hb', hl'.symm⟩⟩
  · exact ⟨_, rfl, by simp⟩

/-- The sweep stays inside the attribute and ends; an exact fit means a
string of sub-attributes. -/
theorem sweep_ok (fuel : Nat) (h0 : 0 ≤ p)
    (hbuf : buf.drop p.toNat = region ++ rest)
    (hfuel : region.length < fuel) :
    ∃ res, sweep buf t l o fuel p region.length = .ok res
      ∧ (res = .fits → l ≠ 0 ∧ region ≠ [] ∧ SubTiles t l o region)
      ∧ (∀ n, res = .flat n → l = 0 ∧ t ≤ region.length) := by
  induction fuel generalizing p region with
  | zero => omega
  | succ fuel ih =>
      rw [sweep]
      by_cases hroom : (region.length : Int) < t + l + o
      · rw [if_pos hroom]
        exact ⟨_, rfl, by simp, by simp⟩
      · obtain ⟨num, hnum⟩ := sweepNumber_ok (t := t) h0 hbuf (by omega)
        rw [if_neg hroom, hnum, ok_bind]
        cases num with
        | none => exact ⟨_, rfl, by simp, by simp⟩
        | some myattr =>
            simp only
            by_cases hl : l = 0
            · rw [if_pos hl]
              refine ⟨_, rfl, by simp, fun n _ => ⟨hl, by omega⟩⟩
            · rw [if_neg hl]
              obtain ⟨res, hres, hgood⟩ := sweepLength_ok (t := t)
                (l := l) (o := o) h0 hbuf (by omega)
              rw [hres, ok_bind]
              cases res with
              | none => exact ⟨_, rfl, by simp, by simp⟩
              | some n =>
                  obtain ⟨hn, hn1, hsub⟩ := hgood n rfl
                  simp only
                  have hnil : region ≠ [] := by
                    intro h
                    rw [h] at hn
                    simp at hn
                    omega
                  split_ifs with hmore
                  · have hlen : (region.drop n).length
                        = region.length - n := List.length_drop
                    obtain ⟨r, hr, hfit, hflat⟩ := ih (p := p + n)
                      (by omega)
                      (by
                        rw [show (p + n).toNat = p.toNat + n by omega,
                          ← List.drop_drop, hbuf,
                          List.drop_append_of_le_length hn])
                      (by omega)
                    rw [show ((region.drop n).length : Int)
                      = region.length - n by omega] at hr
                    refine ⟨r, hr, fun hr' => ⟨hl, hnil, ?_⟩,
                      fun m hm => absurd (hflat m hm).1 hl⟩
                    obtain ⟨-, -, subs, hsubs, hall⟩ := hfit hr'
                    refine ⟨region.take n :: subs, ?_, ?_⟩
                    · rw [List.flatten_cons, ← hsubs,
                        List.take_append_drop]
                    · intro sub hmem
                      rcases List.mem_cons.mp hmem with rfl | hmem
                      · exact hsub
                      · exact hall sub hmem
                  · refine ⟨_, rfl, fun _ => ⟨hl, hnil, ?_⟩, by simp⟩
                    have heq : n = region.length := by omega
                    rw [heq, List.take_length] at hsub
                    exact ⟨[region], by simp, by simpa using hsub⟩

end sweep

theorem SubTiles.cons_inv {t l o : Nat} {region : List UInt8}
    (h : SubTiles t l o region) (hne : region ≠ []) :
    ∃ sub rest, region = sub ++ rest ∧ SubAttr t l o sub
      ∧ SubTiles t l o rest := by
  obtain ⟨subs, rfl, hall⟩ := h
  cases subs with
  | nil => exact absurd rfl hne
  | cons sub subs =>
      exact ⟨sub, subs.flatten, rfl, hall sub (by simp), subs, rfl,
        fun u hu => hall u (by simp [hu])⟩

-- ======== the invariant

/-- Where the loop is between iterations. -/
inductive Boundary (s : DecState) : Prop where
  /-- at the start of a top-level attribute, or at the end -/
  | outer (as : List Tlv) : s.vendorcode = 0 → 0 ≤ s.ptr →
      s.ptr + s.packetLength = s.buf.length →
      s.buf.drop s.ptr.toNat = wire as → (∀ a ∈ as, a.type ≠ 0) →
      Boundary s
  /-- at the start of a sub-attribute -/
  | inner (region : List UInt8) (as : List Tlv) : s.vendorcode ≠ 0 →
      0 ≤ s.ptr → s.ptr + s.packetLength = s.buf.length →
      s.buf.drop s.ptr.toNat = region ++ wire as →
      (∀ a ∈ as, a.type ≠ 0) → region ≠ [] →
      s.vendorlen = region.length → s.vsaOffset = 0 →
      SubTiles s.vsaTlen s.vsaLlen 0 region → Boundary s

/-- The state once `attrlen` bytes of value have been dealt with. -/
def pastValue (s : DecState) (attrlen : Int) (vps : List ValuePair)
    (num : Nat) : DecState :=
  { s with
    ptr := s.ptr + attrlen
    packetLength := s.packetLength - attrlen
    vps := vps
    numAttributes := num }

/-- From `s` an iteration has come to a value of `attrlen` bytes at
`s'`, and there is a boundary behind it. -/
structure Ready (ctx : DecCtx) (s s' : DecState) (attr : Nat)
    (attrlen : Int) : Prop where
  value : ValueAt ctx s' attr attrlen
  same : s'.buf = s.buf
  shorter : s'.packetLength - attrlen < s.packetLength
  next : ∀ vps num, Boundary (pastValue s' attrlen vps num)

/-- What an iteration can come to. -/
inductive Lands (ctx : DecCtx) (s : DecState) : StepKind → Prop where
  | broken {s' : DecState} : Lands ctx s (.broken s')
  | skip {s' : DecState} {attr : Nat} {attrlen : Int} :
      Ready ctx s s' attr attrlen → Lands ctx s (.skip s' attrlen)
  | pair {s' : DecState} {attr : Nat} {attrlen : Int} :
      Ready ctx s s' attr attrlen → Lands ctx s (.pair s' attr attrlen)

theorem Ready.of_shorter {s0 s1 s' : DecState}
    (h : Ready ctx s1 s' attr attrlen) (hb : s1.buf = s0.buf)
    (hl : s1.packetLength ≤ s0.packetLength) :
    Ready ctx s0 s' attr attrlen :=
  ⟨h.value, h.same.trans hb, lt_of_lt_of_le h.shorter hl, h.next⟩

theorem Lands.of_shorter {s0 s1 : DecState} {k : StepKind}
    (h : Lands ctx s1 k) (hb : s1.buf = s0.buf)
    (hl : s1.packetLength ≤ s0.packetLength) : Lands ctx s0 k := by
  cases h with
  | broken => exact .broken
  | skip hr => exact .skip (hr.of_shorter hb hl)
  | pair hr => exact .pair (hr.of_shorter hb hl)

-- ======== one sub-attribute

theorem two_bytes_lt (hi lo : UInt8) :
    (hi.toNat <<< 8) ||| lo.toNat < 65536 := by
  have h1 := hi.toNat_lt
  have h2 := lo.toNat_lt
  rw [← Nat.shiftLeft_add_eq_or_of_lt (by omega), Nat.shiftLeft_eq]
  omega

/-- The number of a sub-attribute has two bytes at most. -/
theorem subNumber_lt {number : Nat}
    (h : subNumber s = .ok (some number)) : number < 65536 := by
  unfold subNumber at h
  split at h
  · obtain ⟨b, -, h⟩ := bind_eq_ok.mp h
    cases h
    have := b.toNat_lt
    omega
  · obtain ⟨hi, -, h⟩ := bind_eq_ok.mp h
    obtain ⟨lo, -, h⟩ := bind_eq_ok.mp h
    cases h
    exact two_bytes_lt hi lo
  · cases h

/-- The header of the sub-attribute at the front of a region. A two-byte
length does not count the continuation byte, so only a one-byte length may
have one. -/
theorem subHeader_ok {sub more : List UInt8} (h0 : 0 ≤ s.ptr)
    (hbuf : s.buf.drop s.ptr.toNat = sub ++ more)
    (ho : s.vsaOffset = 0 ∨ s.vsaLlen = 1)
    (hsub : SubAttr s.vsaTlen s.vsaLlen s.vsaOffset sub) :
    subHeader s = .ok none
      ∨ (1 ≤ s.vsaTlen ∧ ∃ number < 65536,
        subHeader s = .ok (some (number, (sub.length : Int)
          - (s.vsaTlen + s.vsaLlen + s.vsaOffset)))) := by
  have hlen : subLength s = .ok (some ((sub.length : Int)
      - (s.vsaTlen + s.vsaLlen + s.vsaOffset))) := by
    unfold subLength
    have hh := hsub.header
    rcases hsub.counted with ⟨hl, b, hb, hbn⟩ | ⟨hl, b, hb, hbn⟩
    · have hf := fetch_drop h0 hbuf s.vsaTlen (b := b) (by
        rw [List.getElem?_append_left (by omega), hb])
      simp only [hl, hf, ok_bind, hbn, pure_eq_ok]
    · have hf := fetch_drop h0 hbuf (s.vsaTlen + 1) (b := b) (by
        rw [List.getElem?_append_left (by omega), hb])
      rw [Nat.cast_add, ← Int.add_assoc, Nat.cast_one] at hf
      have ho0 : s.vsaOffset = 0 := by omega
      simp only [hl, hf, ok_bind, hbn, pure_eq_ok, ho0]
      simp
  have hh := hsub.header
  by_cases ht : s.vsaTlen = 1 ∨ s.vsaTlen = 2
  · right
    refine ⟨by omega, ?_⟩
    obtain ⟨number, hnum⟩ : ∃ number,
        subNumber s = .ok (some number) := by
      unfold subNumber
      rcases ht with ht | ht
      · obtain ⟨b, -, hb⟩ := fetch_region h0 hbuf 0 (by omega)
        rw [Int.ofNat_zero, Int.add_zero] at hb
        simp only [ht, hb, ok_bind]
        exact ⟨_, rfl⟩
      · obtain ⟨b, -, hb⟩ := fetch_region h0 hbuf 0 (by omega)
        obtain ⟨b1, -, hb1⟩ := fetch_region h0 hbuf 1 (by omega)
        rw [Int.ofNat_zero, Int.add_zero] at hb
        rw [Int.ofNat_one] at hb1
        simp only [ht, hb, hb1, ok_bind]
        exact ⟨_, rfl⟩
    exact ⟨number, subNumber_lt hnum, by simp only [subHeader, hnum, hlen,
      ok_bind, pure_eq_ok]⟩
  · left
    have hnone : subNumber s = .ok none := by
      unfold subNumber
      split
      · next h => exact absurd (Or.inl h) ht
      · next h => exact absurd (Or.inr h) ht
      · rfl
    simp only [subHeader, hnone, ok_bind, pure_eq_ok]

variable (ctx attr) in
/-- Past the header of a sub-attribute that ends before its attribute
does, or with it. -/
theorem subAttr_ready {sub region : List UInt8} {as : List Tlv}
    (hv : s.vendorcode ≠ 0) (h0 : 0 ≤ s.ptr)
    (hend : s.ptr + s.packetLength = s.buf.length)
    (hbuf : s.buf.drop s.ptr.toNat = (sub ++ region) ++ wire as)
    (htypes : ∀ a ∈ as, a.type ≠ 0)
    (hvlen : s.vendorlen = (sub ++ region).length)
    (ho : s.vsaOffset = 0) (ht : 1 ≤ s.vsaTlen)
    (hsub : SubAttr s.vsaTlen s.vsaLlen 0 sub)
    (htiles : SubTiles s.vsaTlen s.vsaLlen 0 region) :
    Ready ctx s
      (pastSubHeader s ((sub.length : Int) - (s.vsaTlen + s.vsaLlen)))
      attr ((sub.length : Int) - (s.vsaTlen + s.vsaLlen)) := by
  have hh := hsub.header
  have hl1 : 1 ≤ s.vsaLlen := by
    rcases hsub.counted with ⟨hl, -⟩ | ⟨hl, -⟩ <;> omega
  have h255 : sub.length ≤ 255 := by
    rcases hsub.counted with ⟨-, b, -, hb⟩ | ⟨-, b, -, hb⟩
    · have := b.toNat_lt
      omega
    · have := b.toNat_lt
      omega
  have hblen := congrArg List.length hbuf
  simp only [List.length_drop, List.length_append] at hblen hvlen
  have hvl' : s.vendorlen - (s.vsaTlen + s.vsaLlen + s.vsaOffset
      + ((sub.length : Int) - (s.vsaTlen + s.vsaLlen)))
      = region.length := by
    rw [hvlen, ho]
    push_cast
    omega
  refine ⟨⟨?_, by omega, by omega, ?_⟩, rfl, ?_, fun vps num => ?_⟩
  · show 0 ≤ s.ptr + (s.vsaTlen + s.vsaLlen + s.vsaOffset)
    omega
  · show s.ptr + (s.vsaTlen + s.vsaLlen + s.vsaOffset)
      + _ ≤ (s.buf.length : Int)
    rw [ho]
    push_cast
    omega
  · show s.packetLength - (s.vsaTlen + s.vsaLlen + s.vsaOffset) - _ < _
    rw [ho]
    push_cast
    omega
  · have hptr : s.ptr + (s.vsaTlen + s.vsaLlen + s.vsaOffset)
        + ((sub.length : Int) - (s.vsaTlen + s.vsaLlen))
        = s.ptr + sub.length := by
      rw [ho]
      push_cast
      omega
    have hplen : s.packetLength - (s.vsaTlen + s.vsaLlen + s.vsaOffset)
        - ((sub.length : Int) - (s.vsaTlen + s.vsaLlen))
        = s.packetLength - sub.length := by
      rw [ho]
      push_cast
      omega
    have hdrop : s.buf.drop (s.ptr + sub.length).toNat
        = region ++ wire as := by
      rw [show (s.ptr + (sub.length : Int)).toNat
        = s.ptr.toNat + sub.length by omega, ← List.drop_drop, hbuf,
        List.append_assoc, List.drop_left]
    by_cases hreg : region = []
    · refine .outer as ?_ ?_ ?_ ?_ htypes
      · show (if _ then 0 else _) = 0
        rw [if_pos (by rw [hvl', hreg]; rfl)]
      · show 0 ≤ s.ptr + _ + _
        rw [hptr]
        omega
      · show s.ptr + _ + _ + (s.packetLength - _ - _) = _
        rw [hptr, hplen]
        show _ = (s.buf.length : Int)
        omega
      · show s.buf.drop (s.ptr + _ + _).toNat = _
        rw [hptr, hdrop, hreg, List.nil_append]
    · have hpos := List.length_pos_iff.mpr hreg
      refine .inner region as ?_ ?_ ?_ ?_ htypes hreg ?_ ho htiles
      · show (if _ then 0 else _) ≠ 0
        rw [if_neg (by rw [hvl']; omega)]
        exact hv
      · show 0 ≤ s.ptr + _ + _
        rw [hptr]
        omega
      · show s.ptr + _ + _ + (s.packetLength - _ - _) = _
        rw [hptr, hplen]
        show _ = (s.buf.length : Int)
        omega
      · show s.buf.drop (s.ptr + _ + _).toNat = _
        rw [hptr, hdrop]
      · exact hvl'

/-- The iteration inside a Vendor-Specific attribute. -/
theorem subKind_lands {region : List UInt8} {as : List Tlv}
    (hv : s.vendorcode ≠ 0) (h0 : 0 ≤ s.ptr)
    (hend : s.ptr + s.packetLength = s.buf.length)
    (hbuf : s.buf.drop s.ptr.toNat = region ++ wire as)
    (htypes : ∀ a ∈ as, a.type ≠ 0) (hne : region ≠ [])
    (hvlen : s.vendorlen = region.length) (ho : s.vsaOffset = 0)
    (htiles : SubTiles s.vsaTlen s.vsaLlen 0 region) :
    ∃ k, subKind ctx s = .ok k ∧ Lands ctx s k := by
  obtain ⟨sub, more, rfl, hsub, hmore⟩ := htiles.cons_inv hne
  unfold subKind
  have hsub' : SubAttr s.vsaTlen s.vsaLlen s.vsaOffset sub := by
    rw [ho]
    exact hsub
  rcases subHeader_ok h0 (hbuf.trans (List.append_assoc ..))
      (Or.inl ho) hsub' with hnone | ⟨ht, number, -, hsome⟩
  · rw [hnone, ok_bind]
    exact ⟨_, rfl, .broken⟩
  · have hready (attr : Nat) := subAttr_ready ctx attr
      hv h0 hend hbuf htypes hvlen ho ht hsub hmore
    have hoff : (pastSubHeader s ((sub.length : Int)
        - (s.vsaTlen + s.vsaLlen))).vsaOffset = 0 := ho
    rw [ho, Nat.cast_zero, Int.add_zero] at hsome
    rw [hsome, ok_bind]
    simp only [hoff, ne_eq, not_true_eq_false, if_false]
    split_ifs
    · exact ⟨_, rfl, .skip (hready 0)⟩
    · exact ⟨_, rfl, .skip (hready 0)⟩
    · exact ⟨_, rfl, .pair (hready _)⟩

-- ======== iterations

theorem vendorBits_ne_zero {bs : List UInt8}
    (h : signedVendor bs ≠ 0) : vendorBits (signedVendor bs) ≠ 0 := by
  have hlt := (ofBe32 bs).toNat_lt
  unfold signedVendor at h ⊢
  unfold vendorBits
  split_ifs at h ⊢ <;> omega

section loop

variable (hcont : ∀ v dv, ctx.cfg.dict.vendorbyvalue v = some dv →
    dv.flags = false)
  (hcui : (startFlags ctx.cfg pwChargeableUserIdentity).hasTag = false)

include hcont in
theorem vendorFormat_plain (v : Int) :
    ∃ t l, vendorFormat ctx.cfg.dict v = (t, l, false) := by
  unfold vendorFormat
  cases h : ctx.cfg.dict.vendorbyvalue v with
  | none => exact ⟨1, 1, rfl⟩
  | some dv => exact ⟨dv.type, dv.length, by simp only [hcont v dv h]⟩

include hcont in
/-- The iteration at a Vendor-Specific attribute; `s` is past the
attribute's header, `value` its value. -/
theorem vendorSpecific_lands {value : List UInt8} {as : List Tlv}
    (hv : s.vendorcode = 0) (h0 : 0 ≤ s.ptr)
    (hend : s.ptr + s.packetLength = s.buf.length)
    (hbuf : s.buf.drop s.ptr.toNat = value ++ wire as)
    (htypes : ∀ a ∈ as, a.type ≠ 0) (h4 : 4 < value.length)
    (h253 : value.length ≤ 253) :
    ∃ k, vendorSpecific ctx s pwVendorSpecific value.length = .ok k
      ∧ Lands ctx { s with packetLength := s.packetLength + 2 } k := by
  have hblen := congrArg List.length hbuf
  simp only [List.length_drop, List.length_append] at hblen
  -- a value of this attribute, cut `k` bytes in, ends at a boundary
  have hready (attr k : Nat) (t l o : Nat) (hk : k ≤ value.length) :
      Ready ctx { s with packetLength := s.packetLength + 2 }
        { s with
          vsaTlen := t, vsaLlen := l, vsaOffset := o
          ptr := s.ptr + k, packetLength := s.packetLength - k }
        attr (value.length - k) := by
    refine ⟨⟨?_, by omega, by omega, ?_⟩, rfl, ?_, fun vps num => ?_⟩
    · show 0 ≤ s.ptr + k
      omega
    · show s.ptr + k + (value.length - k) ≤ (s.buf.length : Int)
      omega
    · show s.packetLength - k - (value.length - k) < s.packetLength + 2
      omega
    · refine .outer as hv ?_ ?_ ?_ htypes
      · show 0 ≤ s.ptr + k + (value.length - k)
        omega
      · show s.ptr + k + (value.length - k)
          + (s.packetLength - k - (value.length - k))
          = (s.buf.length : Int)
        omega
      · show s.buf.drop (s.ptr + k + (value.length - k)).toNat = _
        rw [show (s.ptr + k + ((value.length : Int) - k)).toNat
          = s.ptr.toNat + value.length by omega, ← List.drop_drop, hbuf,
          List.drop_left]
  have hwhole (attr t l o : Nat) := hready attr 0 t l o (by omega)
  simp only [Nat.cast_zero, Int.add_zero, Int.sub_zero] at hwhole
  have hid : fetchN s.buf s.ptr 4 = .ok (value.take 4) := by
    have := fetchN_drop s.buf _ [] _
      h0
      (by omega) (by
        rw [hbuf, ← List.append_assoc (value.take 4),
          List.take_append_drop]
        rfl)
    simpa [List.length_take, Nat.min_eq_left (by omega :
      4 ≤ value.length)] using this
  unfold vendorSpecific vsaKind
  rw [hid, ok_bind]
  simp only
  by_cases hz : signedVendor (value.take 4) = 0
  · rw [if_pos hz]
    exact ⟨_, rfl, .pair (hwhole _ s.vsaTlen s.vsaLlen s.vsaOffset)⟩
  · rw [if_neg hz]
    by_cases hbig : 65535 < signedVendor (value.take 4)
    · rw [if_pos hbig]
      exact ⟨_, rfl, .pair (hwhole _ s.vsaTlen s.vsaLlen s.vsaOffset)⟩
    · rw [if_neg hbig]
      obtain ⟨t, l, hfmt⟩ := vendorFormat_plain hcont
        (signedVendor (value.take 4))
      rw [hfmt]
      simp only [Bool.false_eq_true, if_false]
      have hrest : s.buf.drop (s.ptr + 4).toNat
          = value.drop 4 ++ wire as := by
        rw [show (s.ptr + 4).toNat = s.ptr.toNat + 4 by omega,
          ← List.drop_drop, hbuf, List.drop_append_of_le_length
          (by omega)]
      have hrl : ((value.drop 4).length : Int) = value.length - 4 := by
        rw [List.length_drop]
        omega
      obtain ⟨res, hres, hfits, hflat⟩ := sweep_ok
        ((value.length : Int).toNat + 1) (t := t) (l := l)
        (o := 0) (by omega)
        hrest (by omega)
      rw [hrl] at hres
      rw [hres, ok_bind]
      cases res with
      | raw => exact ⟨_, rfl, .pair (hwhole _ t l 0)⟩
      | flat myattr =>
          obtain ⟨-, htl⟩ := hflat myattr rfl
          have hk : 4 + t ≤ value.length := by omega
          have := hready (vendorAttr (vendorBits (signedVendor
            (value.take 4))) myattr) (4 + t) t l 0 hk
          push_cast at this
          exact ⟨_, rfl, .pair this⟩
      | fits =>
          obtain ⟨-, hne, htiles⟩ := hfits rfl
          obtain ⟨k, hk, hl⟩ := subKind_lands
            (s := { s with
              vsaTlen := t, vsaLlen := l, vsaOffset := 0
              vendorcode := vendorBits (signedVendor (value.take 4))
              vendorlen := value.length - 4
              packetLength := s.packetLength - 4
              ptr := s.ptr + 4 })
            (vendorBits_ne_zero hz) (by show 0 ≤ s.ptr + 4; omega)
            (by
              show s.ptr + 4 + (s.packetLength - 4) = s.buf.length
              omega) hrest htypes hne hrl.symm rfl htiles
          exact ⟨k, hk, hl.of_shorter rfl (by
            show s.packetLength - 4 ≤ s.packetLength + 2
            omega)⟩

include hcont in
/-- An iteration never reads outside the packet before it makes a pair,
and always comes to a whole value. -/
theorem stepKind_lands (hb : Boundary s) (hpos : 0 < s.packetLength) :
    ∃ k, stepKind ctx s = .ok k ∧ Lands ctx s k := by
  cases hb with
  | outer as hv h0 hend hbuf htypes =>
      have hblen := congrArg List.length hbuf
      rw [List.length_drop] at hblen
      match as, hbuf, htypes, hblen with
      | [], _, _, hblen =>
          simp only [wire_nil, List.length_nil] at hblen
          omega
      | a :: as, hbuf, htypes, hblen =>
          rw [wire_cons] at hbuf hblen
          simp only [List.length_append, Tlv.bytes_length] at hblen
          have ht := htypes a (by simp)
          have hfits := a.fits
          have hlen : s.packetLength = (a.bytes ++ wire as).length := by
            rw [List.length_append, Tlv.bytes_length]
            omega
          have hdrop2 : s.buf.drop (s.ptr + 2).toNat
              = a.value ++ wire as := by
            rw [show (s.ptr + 2).toNat = s.ptr.toNat + 2 by omega,
              ← List.drop_drop, hbuf]
            rfl
          by_cases hvsa : a.type.toNat ≠ pwVendorSpecific
              ∨ a.value.length ≤ 4
          · rw [stepKind_standard _ hv h0 hbuf hlen ht hvsa]
            refine ⟨_, rfl, .pair ⟨⟨?_, by omega, by omega, ?_⟩, rfl, ?_,
              fun vps num => ?_⟩⟩
            · show 0 ≤ s.ptr + 2
              omega
            · show s.ptr + 2 + _ ≤ (s.buf.length : Int)
              omega
            · show s.packetLength - 2 - _ < s.packetLength
              omega
            · refine .outer as hv ?_ ?_ ?_
                (fun b hb => htypes b (by simp [hb]))
              · show 0 ≤ s.ptr + 2 + _
                omega
              · show s.ptr + 2 + _ + (s.packetLength - 2 - _)
                  = (s.buf.length : Int)
                omega
              · show s.buf.drop (s.ptr + 2 + _).toNat = _
                rw [show (s.ptr + 2 + (a.value.length : Int)).toNat
                  = (s.ptr + 2).toNat + a.value.length by omega,
                  ← List.drop_drop, hdrop2, List.drop_left]
          · rw [not_or, not_not, not_le] at hvsa
            rw [stepKind_vsa _ hv h0 hbuf hlen hvsa.1 hvsa.2]
            obtain ⟨k, hk, hl⟩ := vendorSpecific_lands hcont
              (s := { s with
                ptr := s.ptr + 2, packetLength := s.packetLength - 2
                vendorlen := 0 }) hv
              (by show 0 ≤ s.ptr + 2; omega)
              (by
                show s.ptr + 2 + (s.packetLength - 2)
                  = (s.buf.length : Int)
                omega) hdrop2 (fun b hb => htypes b (by simp [hb]))
              hvsa.2 hfits
            exact ⟨k, hk, hl.of_shorter rfl (by
              show s.packetLength - 2 + 2 ≤ s.packetLength
              omega)⟩
  | inner region as hv h0 hend hbuf htypes hne hvlen ho htiles =>
      have hvl : ¬s.vendorlen = 0 := by
        have := List.length_pos_iff.mpr hne
        omega
      rw [stepKind, if_neg hv, if_neg hvl]
      exact subKind_lands hv h0 hend hbuf htypes hne hvlen ho htiles

include hcont hcui in
variable (ctx) in
/-- An iteration ends without a fault if and only if it does not come to a
short Ascend secret; it never breaks off in the middle. -/
theorem decodeStep_lands (hb : Boundary s) (hpos : 0 < s.packetLength) :
    (∃ s' attr attrlen, stepKind ctx s = .ok (.pair s' attr attrlen)
        ∧ ascendShort ctx s' attr attrlen
        ∧ decodeStep ctx s = .error .overread)
      ∨ ((∀ s' attr attrlen,
          stepKind ctx s = .ok (.pair s' attr attrlen) →
            ¬ascendShort ctx s' attr attrlen)
        ∧ ∃ res, decodeStep ctx s = .ok res
          ∧ ((∃ s', res = .fail s')
            ∨ ∃ s', res = .loop s' ∧ Boundary s'
              ∧ s'.packetLength < s.packetLength
              ∧ 0 ≤ s'.packetLength)) := by
  -- behind a value the loop is at a boundary again
  have hafter {s1 : DecState} {attr : Nat} {attrlen : Int}
      (hr : Ready ctx s s1 attr attrlen) (vps : List ValuePair)
      (num : Nat) : Boundary (pastValue s1 attrlen vps num)
        ∧ (pastValue s1 attrlen vps num).packetLength < s.packetLength
        ∧ 0 ≤ (pastValue s1 attrlen vps num).packetLength := by
    have hnext := hr.next vps num
    have hin := hr.value.inside
    have hend : (pastValue s1 attrlen vps num).ptr
        + (pastValue s1 attrlen vps num).packetLength
        = (pastValue s1 attrlen vps num).buf.length := by
      cases hnext with
      | outer as _ _ hend => exact hend
      | inner region as _ _ hend => exact hend
    refine ⟨hnext, hr.shorter, ?_⟩
    simp only [pastValue] at hend ⊢
    omega
  obtain ⟨k, hk, hl⟩ := stepKind_lands hcont hb hpos
  cases hl with
  | @broken s1 =>
      right
      refine ⟨fun s' a n h => ?_, .fail s1, ?_, Or.inl ⟨s1, rfl⟩⟩
      · rw [hk] at h
        cases h
      · rw [decodeStep, hk]
        rfl
  | @skip s1 attr attrlen hr =>
      right
      refine ⟨fun s' a n h => ?_,
        .loop (pastValue s1 attrlen s1.vps s1.numAttributes), ?_,
        Or.inr ⟨_, rfl, hafter hr _ _⟩⟩
      · rw [hk] at h
        cases h
      · rw [decodeStep, hk]
        rfl
  | @pair s1 attr attrlen hr =>
      by_cases hshort : ascendShort ctx s1 attr attrlen
      · left
        refine ⟨s1, attr, attrlen, hk, hshort, ?_⟩
        rw [decodeStep, hk, ok_bind]
        exact createPair_overreads hr.value hcui hshort
      · right
        obtain ⟨res, hres, hend⟩ := createPair_safe hr.value hcui hshort
        refine ⟨fun s' a n h => ?_, res, ?_, ?_⟩
        · rw [hk] at h
          cases h
          exact hshort
        · rw [decodeStep, hk, ok_bind]
          exact hres
        · rcases hend with hfail | ⟨vps, num, rfl⟩
          · exact Or.inl hfail
          · exact Or.inr ⟨_, rfl, hafter hr vps num⟩

/-- No iteration of the loop started at `s0` comes to a short Ascend
secret. -/
def NoShortSecret (ctx : DecCtx) (s0 : DecState) : Prop :=
  ∀ s s' attr attrlen, Reaches (DecGoes ctx) s0 s → 0 < s.packetLength →
    stepKind ctx s = .ok (.pair s' attr attrlen) →
      ¬ascendShort ctx s' attr attrlen

/-- The loop returns, and if it returns 0 it has consumed everything. -/
def RunsWithin (ctx : DecCtx) (fuel : Nat) (s : DecState) : Prop :=
  ∃ rc s', decodeLoop ctx fuel s = .ok (rc, s')
    ∧ (rc = 0 → s'.ptr = s'.buf.length ∧ s'.packetLength = 0
      ∧ s'.vendorcode = 0)

include hcont hcui in
theorem decodeLoop_within {fuel : Nat} (hb : Boundary s)
    (h0 : 0 ≤ s.packetLength) (hfuel : s.packetLength < fuel)
    (hno : NoShortSecret ctx s) : RunsWithin ctx fuel s := by
  induction fuel generalizing s with
  | zero => omega
  | succ fuel ih =>
      by_cases hdone : s.packetLength ≤ 0
      · refine ⟨0, s, by rw [decodeLoop, if_pos hdone]; rfl, fun _ => ?_⟩
        cases hb with
        | outer as hv hp hend hbuf htypes =>
            exact ⟨by omega, by omega, hv⟩
        | inner region as hv hp hend hbuf htypes hne =>
            have hlen := congrArg List.length hbuf
            have := List.length_pos_iff.mpr hne
            simp only [List.length_drop, List.length_append] at hlen
            omega
      · rcases decodeStep_lands _ hcont hcui hb (by omega) with
          ⟨s', attr, attrlen, hk, hshort, -⟩ | ⟨-, res, hres, hend⟩
        · exact absurd hshort
            (hno s s' attr attrlen .refl (by omega) hk)
        · unfold RunsWithin
          rw [decodeLoop, if_neg hdone, hres, ok_bind]
          rcases hend with ⟨s', rfl⟩ | ⟨s', rfl, hb', hlt, hge⟩
          · exact ⟨-1, s', rfl, fun h => absurd h (by decide)⟩
          · refine ih hb' hge (by omega) fun u u' a n hu => ?_
            exact hno u u' a n (Reaches.head ⟨by omega, hres⟩ hu)

/-- A run that returns passes through the states it reaches. -/
theorem decodeLoop_reaches {fuel : Nat} {s0 s : DecState}
    {res : Int × DecState} (hok : decodeLoop ctx fuel s0 = .ok res)
    (h : Reaches (DecGoes ctx) s0 s) :
    ∃ fuel', decodeLoop ctx fuel' s = .ok res := by
  induction h with
  | refl => exact ⟨fuel, hok⟩
  | step _ hgo ih =>
      obtain ⟨fuel', hf⟩ := ih
      obtain ⟨hpos, hstep⟩ := hgo
      cases fuel' with
      | zero => cases hf
      | succ fuel' =>
          rw [decodeLoop, if_neg (by omega), hstep, ok_bind] at hf
          exact ⟨fuel', hf⟩

include hcont hcui in
theorem boundary_reaches {s0 : DecState} (hb : Boundary s0)
    (h : Reaches (DecGoes ctx) s0 s) : Boundary s := by
  refine h.invariant _ hb fun a b ha hgo => ?_
  obtain ⟨hpos, hstep⟩ := hgo
  rcases decodeStep_lands _ hcont hcui ha hpos with
    ⟨-, -, -, -, -, herr⟩ | ⟨-, res, hres, hend⟩
  · rw [hstep] at herr
    cases herr
  · rw [hstep] at hres
    cases hres
    rcases hend with ⟨s', hs'⟩ | ⟨s', hs', hb', -⟩
    · cases hs'
    · cases hs'
      exact hb'

end loop

/-- The loop is at a boundary when it starts on an accepted packet. -/
theorem Accepted.boundary {cfg : Config} {packet : RadiusPacket}
    {as : List Tlv} (h : Accepted cfg packet as) :
    Boundary (decodeInit packet) := by
  have hh := h.header
  refine .outer as rfl ?_ ?_ h.body fun a ha => (h.received a ha).1
  · show (0 : Int) ≤ (authHdrLen : Nat)
    omega
  · show (authHdrLen : Int) + ((packet.data.length : Int) - authHdrLen)
      = packet.data.length
    omega

/-- With no continued vendor and an untagged Chargeable-User-Identity, the
loop of `rad_decode` on an accepted packet returns, reads only the packet
and consumes it exactly, if and only if it never comes to an Ascend secret
with fewer than sixteen bytes left in the packet. -/
theorem radDecode_within_iff (cfg : Config) (packet received : RadiusPacket)
    (flags : Bool) (original : Option RadiusPacket)
    (secret : Option (List UInt8))
    (hcont : ∀ v dv, cfg.dict.vendorbyvalue v = some dv →
      dv.flags = false)
    (hcui : ∀ da, cfg.dict.attrbyvalue pwChargeableUserIdentity = some da →
      da.flags.hasTag = false)
    (hok : radPacketOk cfg packet flags = (received, none)) :
    RunsWithin (decodeCtx cfg received original secret)
        (received.data.length + 1) (decodeInit received)
      ↔ NoShortSecret (decodeCtx cfg received original secret)
        (decodeInit received) := by
  obtain ⟨as, hacc⟩ := radPacketOk_accepted hok
  have hcui' : (startFlags cfg pwChargeableUserIdentity).hasTag
      = false := by
    unfold startFlags
    cases h : cfg.dict.attrbyvalue pwChargeableUserIdentity with
    | none => rfl
    | some da => exact hcui da h
  have hb := hacc.boundary
  have hh := hacc.header
  constructor
  · rintro ⟨rc, s', hrun, -⟩ s s1 attr attrlen hreach hpos hk hshort
    obtain ⟨fuel, hf⟩ := decodeLoop_reaches hrun hreach
    have hbs := boundary_reaches hcont hcui' hb hreach
    rcases decodeStep_lands (decodeCtx cfg received original secret) hcont
      hcui' hbs hpos with ⟨-, -, -, -, -, herr⟩ | ⟨hno, -⟩
    · cases fuel with
      | zero => cases hf
      | succ fuel =>
          rw [decodeLoop, if_neg (by omega), herr, error_bind] at hf
          cases hf
    · exact hno s1 attr attrlen hk hshort
  · intro hno
    refine decodeLoop_within hcont hcui' hb ?_ ?_ hno
    · show (0 : Int) ≤ (received.data.length : Int) - authHdrLen
      omega
    · show (received.data.length : Int) - authHdrLen
        < ((received.data.length + 1 : Nat) : Int)
      push_cast
      omega

/-- A request as it comes from the network, with these bytes behind the
header. -/
def requestOf (body : List UInt8) : RadiusPacket :=
  { data := [1, 7, 0, UInt8.ofNat (20 + body.length)]
      ++ List.replicate 16 0 ++ body }

theorem userName_within :
    RunsWithin (decodeCtx bareConfig
        (radPacketOk bareConfig (requestOf [1, 3, 65]) false).1 none none)
      24 (decodeInit
        (radPacketOk bareConfig (requestOf [1, 3, 65]) false).1) := by
  refine (radDecode_within_iff bareConfig (requestOf [1, 3, 65])
    (radPacketOk bareConfig (requestOf [1, 3, 65]) false).1 false none none
    (fun _ _ h => nomatch h) (fun _ h => nomatch h) rfl).mpr ?_
  intro _ _ _ _ _ _ _ h
  obtain ⟨-, ⟨da, hda, -⟩, -⟩ := h
  cases hda

/-- A dictionary with an Ascend secret. -/
def secretConfig : Config :=
  { bareConfig with
    dict := .ofEntries
      [⟨200, .string, 0, { encrypt := .ascendSecret }⟩] [] }

/-- A one-byte Ascend secret at the end of the packet is read past. -/
theorem shortSecret_overread :
    (∀ v dv, secretConfig.dict.vendorbyvalue v = some dv →
        dv.flags = false)
      ∧ (∀ da, secretConfig.dict.attrbyvalue pwChargeableUserIdentity
          = some da → da.flags.hasTag = false)
      ∧ (radPacketOk secretConfig (requestOf [200, 3, 65]) false).2 = none
      ∧ decodeLoop (decodeCtx secretConfig
          (radPacketOk secretConfig (requestOf [200, 3, 65]) false).1
          (some {}) (some [115])) 24 (decodeInit
          (radPacketOk secretConfig (requestOf [200, 3, 65]) false).1)
        = .error .overread := by
  refine ⟨fun v dv h => ?_, fun da h => ?_, rfl, rfl⟩
  · cases h
  · cases h

end WinRadius
