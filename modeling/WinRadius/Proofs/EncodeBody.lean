/-
What `rad_vp2attr` puts on the wire: whole attributes, never longer than
their length byte can say.

The results are about lengths and type bytes only, so they hold for every
digest function, secret and random stream. `AttrTiles` is the summary the
loop invariants use: the attributes the bytes are made of, the number
they carry, and how far the writing went.
-/
import WinRadius.Model.Encode
import WinRadius.Lib.Tlv

namespace WinRadius

open Lib

variable {cfg : Config} {r r' : Rand} {packet : RadiusPacket}
  {original : Option RadiusPacket} {secret : List UInt8}
  {vp : ValuePair}

-- ======== value lengths

theorem passwdLen_le (n : Nat) : passwdLen n ≤ 128 := by
  have hmax : maxPassLen = 128 := rfl
  simp only [passwdLen]
  split_ifs <;> omega

theorem makePasswd_length_le (input : List UInt8) (v : AuthVector) :
    (makePasswd cfg input secret v).length ≤ 128 := by
  rw [makePasswd, hideBlocks_length]
  have := passwdLen_le input.length
  omega

variable (cfg secret) in
/-- The salt and the blocks stay inside the room. -/
theorem makeTunnelPasswd_length_le (room : Nat) (input : List UInt8)
    (v : AuthVector) (h18 : 18 ≤ room) :
    (makeTunnelPasswd cfg r input room secret v).1.length ≤ room := by
  simp only [makeTunnelPasswd, List.length_append, hideBlocks_length,
    Rand.salt, Rand.next, List.length_cons, List.length_nil, tunnelRoom]
  split_ifs <;> omega

theorem makeSecret_length (v : AuthVector) (value : List UInt8) :
    (makeSecret cfg v secret value).length = 16 := by
  rw [makeSecret, xorBytes_length, padTake_length, AuthVector.len]
  rfl

/-- A value fits the room it is given, as long as that holds a whole
password. -/
theorem vp2data_length_le {room : Nat} {data : List UInt8}
    (hroom : 128 ≤ room)
    (h : vp2data cfg r packet original secret vp room
      = some (data, r')) : data.length ≤ room := by
  unfold vp2data at h
  cases hsrc : vpSource vp with
  | none => simp [hsrc] at h
  | some src =>
      obtain ⟨src, len⟩ := src
      simp only [hsrc] at h
      cases henc : vp.flags.encrypt with
      | none | unknown =>
          simp only [henc, Option.some.injEq, Prod.mk.injEq] at h
          rw [← h.1, padTake_length]
          split_ifs <;> omega
      | userPassword =>
          simp only [henc, Option.some.injEq, Prod.mk.injEq] at h
          rw [← h.1]
          exact le_trans (makePasswd_length_le _ _) hroom
      | ascendSecret =>
          simp only [henc, Option.some.injEq, Prod.mk.injEq] at h
          rw [← h.1, makeSecret_length]
          omega
      | tunnelPassword =>
          simp only [henc, if_neg (show ¬room < 18 by omega)] at h
          split at h
          · cases h
          · next v hv =>
              simp only [Option.some.injEq] at h
              have := makeTunnelPasswd_length_le cfg secret room (r := r)
                (padTake (if room < len then room else len) src) v
                (by omega)
              rw [h] at this
              exact this

/-- So does a value with its tag. -/
theorem taggedData_length_le {room : Nat} {data : List UInt8}
    (hroom : 129 ≤ room)
    (h : taggedData cfg r packet original secret vp room
      = some (data, r')) : data.length ≤ room := by
  simp only [taggedData, Option.map_eq_some_iff] at h
  obtain ⟨⟨d1, r1⟩, hd1, hout⟩ := h
  have hd1len : d1.length ≤ room := by
    split at hd1
    · simp only [Option.map_eq_some_iff] at hd1
      obtain ⟨⟨d0, r0⟩, hd0, heq⟩ := hd1
      cases heq
      have := vp2data_length_le (by omega) hd0
      show d0.length + 1 ≤ room
      omega
    · exact vp2data_length_le (by omega) hd1
  split at hout
  · cases hout
    cases d1 with
    | nil => exact hd1len
    | cons b d1 => exact hd1len
  · cases hout
    exact hd1len

-- ======== one attribute

/-- The number an attribute carries on the wire. -/
def wireType (vp : ValuePair) : UInt8 :=
  if vendorOf vp.attr = 0 then UInt8.ofNat vp.attr
  else UInt8.ofNat pwVendorSpecific

/-- What `rad_vp2attr` writes: attributes of the pair's wire number, all
within the written extent. -/
structure AttrTiles (vp : ValuePair) (out : AttrOut) (as : List Tlv) :
    Prop where
  bytes : out.bytes = wire as
  types : ∀ a ∈ as, a.type = wireType vp
  single : vendorOf vp.attr = 0 → as.length ≤ 1
  inside : out.bytes.length ≤ out.extent

/-- `rad_vp2attr` takes the continuation path for the pair. -/
def continued (cfg : Config) (vp : ValuePair) : Bool :=
  let (tlen, llen, offset) := vendorFormat cfg.dict (vendorOf vp.attr)
  offset && decide (vendorOf vp.attr ≠ 0)
    && decide (254 - (6 + tlen + llen) < vp.length)

theorem continued_eq {tlen llen : Nat} {offset : Bool}
    (h : vendorFormat cfg.dict (vendorOf vp.attr)
      = (tlen, llen, offset)) :
    continued cfg vp = (offset && decide (vendorOf vp.attr ≠ 0)
      && decide (254 - (6 + tlen + llen) < vp.length)) := by
  simp only [continued, h]

/-- The end of `rad_vp2attr`: nothing, or one attribute. The header
ends on `tail`, after the number and a length byte that counts all. -/
theorem finishAttr_tiles {hsize : Nat} {out : AttrOut} {t : UInt8}
    {tail : Nat → List UInt8} (hlo : 2 ≤ hsize) (hhi : hsize ≤ 126)
    (htail : ∀ n, (tail n).length + 2 = hsize)
    (h : finishAttr cfg r packet original secret vp hsize
      (fun n => t :: UInt8.ofNat (hsize + n) :: tail n) = some out) :
    ∃ as, out.bytes = wire as ∧ (∀ a ∈ as, a.type = t)
      ∧ as.length ≤ 1 ∧ out.bytes.length ≤ out.extent
      ∧ out.extent ≤ 255 := by
  unfold finishAttr at h
  split at h
  · cases h
  · next data r' hdata =>
      have hlen := taggedData_length_le (by omega) hdata
      split at h
      · cases h
        exact ⟨[], rfl, by simp, by simp, by simp,
          by show hsize ≤ 255; omega⟩
      · cases h
        have ht := htail data.length
        refine ⟨[⟨t, tail data.length ++ data, ?_⟩], ?_, ?_,
          Nat.le_refl 1, ?_, ?_⟩
        · rw [List.length_append]
          omega
        · simp only [wire_singleton, Tlv.bytes, List.cons_append,
            List.length_append]
          congr 3
          omega
        · intro a ha
          rw [List.mem_singleton.mp ha]
        · simp only [List.length_append, List.length_cons]
          omega
        · simp only
          omega

-- ======== continuations

/-- A fragment's header, as the first two bytes and the rest. -/
theorem contHeader_eq {hdr : List UInt8} {t l : UInt8}
    {rest : List UInt8} (hh : hdr = t :: l :: rest)
    (hrest : rest ≠ []) (piece : Nat) :
    ∃ rest', contHeader hdr piece
        = t :: UInt8.ofNat (hdr.length + piece + 1) :: rest'
      ∧ rest'.length = rest.length := by
  subst hh
  obtain ⟨n, hn⟩ : ∃ n, rest.length = n + 1 :=
    ⟨rest.length - 1, by
      have := List.length_pos_iff.mpr hrest
      omega⟩
  refine ⟨rest.set n
    (UInt8.ofNat ((t :: l :: rest).length - 6 + 1 + piece)), ?_,
    by simp⟩
  simp only [contHeader, List.length_cons, hn]
  rfl

/-- The fragments of a continued attribute tile. -/
theorem contPieces_tiles {hdr : List UInt8} {t l : UInt8}
    {rest : List UInt8} (hh : hdr = t :: l :: rest) (hrest : rest ≠ [])
    (hlen : hdr.length ≤ 253) (left : Nat) (data : List UInt8) :
    ∃ as, contPieces hdr left data = wire as
      ∧ ∀ a ∈ as, a.type = t := by
  induction left generalizing data with
  | zero => exact ⟨[], rfl, by simp⟩
  | succ left ih =>
      by_cases hnil : data = []
      · exact ⟨[], by simp [contPieces, hnil], by simp⟩
      · simp only [contPieces, if_neg hnil]
        generalize hp : (if 254 - hdr.length < data.length then
          254 - hdr.length else data.length) = piece
        have hpiece : piece ≤ 254 - hdr.length
            ∧ piece ≤ data.length := by
          subst hp
          split_ifs <;> omega
        obtain ⟨as, has, htypes⟩ := ih (data.drop piece)
        obtain ⟨rest', hhdr, hrl⟩ := contHeader_eq hh hrest piece
        have hhl : hdr.length = rest.length + 2 := by
          rw [hh]
          rfl
        have htake : (data.take piece).length = piece := by
          rw [List.length_take]
          omega
        refine ⟨⟨t, rest' ++ (if 254 - hdr.length < data.length then 0x80
          else 0x00) :: data.take piece, ?_⟩ :: as, ?_, ?_⟩
        · simp only [List.length_append, List.length_cons, htake, hrl]
          omega
        · rw [wire_cons, ← has, hhdr]
          simp only [Tlv.bytes, List.cons_append, List.append_assoc,
            List.length_append, List.length_cons, htake, hrl]
          congr 3
          omega
        · intro a ha
          rcases List.mem_cons.mp ha with rfl | ha
          · rfl
          · exact htypes a ha

theorem radVp2continuation_tiles (hdr : List UInt8) {t l : UInt8}
    {rest : List UInt8} (hh : hdr = t :: l :: rest) (hrest : rest ≠ [])
    (hlen : hdr.length ≤ 253) :
    ∃ as, radVp2continuation vp hdr = wire as
      ∧ ∀ a ∈ as, a.type = t := by
  have hnil : ∃ as, ([] : List UInt8) = wire as
      ∧ ∀ a ∈ as, a.type = t := ⟨[], rfl, by simp⟩
  unfold radVp2continuation
  split
  · exact hnil
  · cases vp.type with
    | tlv => exact contPieces_tiles hh hrest hlen _ _
    | octets => exact contPieces_tiles hh hrest hlen _ _
    | string => exact contPieces_tiles hh hrest hlen _ _
    | _ => exact hnil

-- ======== the function

theorem typeField_length {tlen attr : Nat} {tf : List UInt8}
    (h : typeField tlen attr = some tf) :
    tf.length = tlen ∧ tlen ≤ 4 ∧ 1 ≤ tlen := by
  unfold typeField at h
  split at h <;> cases h <;> simp

theorem lenField_length {llen n : Nat} {lf : List UInt8}
    (h : lenField llen n = some lf) : lf.length = llen ∧ llen ≤ 2 := by
  unfold lenField at h
  split at h <;> cases h <;> simp

theorem lenField_getD_length {llen n m : Nat} {lf : List UInt8}
    (h : lenField llen n = some lf) :
    ((lenField llen m).getD []).length = llen := by
  unfold lenField at h ⊢
  split at h <;> cases h <;> rfl

theorem innerHeader_length (offset : Bool) (n : Nat) :
    (innerHeader vp offset n).length = innerLen vp offset := by
  unfold innerHeader innerLen
  split_ifs <;> rfl

variable (vp) in
theorem innerLen_le (offset : Bool) : innerLen vp offset ≤ 3 := by
  unfold innerLen
  split_ifs <;> omega

theorem vsaTail_length {tlen llen : Nat} {offset : Bool}
    {tf lf : List UInt8} (htf : tf.length = tlen)
    (hlf : lenField llen 0 = some lf) (n : Nat) :
    (vsaTail vp tlen llen offset tf n).length + 2
      = 6 + tlen + llen + innerLen vp offset := by
  simp only [vsaTail, List.length_append, be32_length, htf,
    lenField_getD_length hlf, innerHeader_length]
  omega

/-- What any successful call leaves behind. -/
theorem radVp2attr_tiles {out : AttrOut}
    (h : radVp2attr cfg r packet original secret vp = some out) :
    ∃ as, AttrTiles vp out as
      ∧ (continued cfg vp = false → out.extent ≤ 255) := by
  simp only [radVp2attr] at h
  by_cases hv : vendorOf vp.attr = 0
  · rw [if_pos hv] at h
    obtain ⟨as, hb, ht, h1, hin, hext⟩ := finishAttr_tiles
      (Nat.le_refl 2) (by omega) (by simp) h
    refine ⟨as, ⟨hb, fun a ha => ?_, fun _ => h1, hin⟩, fun _ => hext⟩
    rw [ht a ha, wireType, if_pos hv]
  · have hwt : wireType vp = UInt8.ofNat pwVendorSpecific := by
      rw [wireType, if_neg hv]
    rw [if_neg hv] at h
    obtain ⟨⟨tlen, llen, offset⟩, hfmt⟩ :
        ∃ f, vendorFormat cfg.dict (vendorOf vp.attr) = f := ⟨_, rfl⟩
    simp only [hfmt] at h
    split at h
    · cases h
      exact ⟨[], ⟨rfl, by simp, by simp, by simp⟩, fun _ => by simp⟩
    · next tf htf _ =>
        obtain ⟨-, ht4, -⟩ := typeField_length htf
        cases h
        refine ⟨[], ⟨rfl, by simp, by simp, by simp⟩, fun _ => ?_⟩
        show 6 + tlen ≤ 255
        omega
    · next tf lf htf hlf =>
        obtain ⟨htl, ht4, -⟩ := typeField_length htf
        obtain ⟨hll, hl2⟩ := lenField_length hlf
        have hi3 := innerLen_le vp offset
        split at h
        · next hcont =>
            cases h
            obtain ⟨as, hb, ht⟩ := radVp2continuation_tiles
              (UInt8.ofNat pwVendorSpecific :: 6 :: be32
                (UInt32.ofNat (vendorOf vp.attr)) ++ tf ++ lf)
              (t := UInt8.ofNat pwVendorSpecific) (l := 6) rfl
              (by simp [be32])
              (by
                simp only [List.cons_append, List.length_cons,
                  List.length_append, be32_length]
                omega)
            refine ⟨as, ⟨hb, fun a ha => by rw [ht a ha, hwt],
              fun h0 => absurd h0 hv, Nat.le_max_right _ _⟩,
              fun hno => ?_⟩
            rw [continued_eq hfmt] at hno
            simp only [Bool.and_eq_true, decide_eq_true_eq,
              List.cons_append, List.length_cons, List.length_append,
              be32_length, htl, hll] at hcont
            simp only [hcont.1, Bool.true_and, ne_eq, hv,
              not_false_eq_true, decide_true,
              decide_eq_false_iff_not] at hno
            omega
        · obtain ⟨as, hb, ht, -, hin, hext⟩ := finishAttr_tiles
            (by omega) (by omega) (vsaTail_length htl hlf) h
          exact ⟨as, ⟨hb, fun a ha => by rw [ht a ha, hwt],
            fun h0 => absurd h0 hv, hin⟩, fun _ => hext⟩

end WinRadius
