/-
The walks of `rad_coalesce` and `rad_continuation2vp`.

# What the walk trusts

`rad_coalesce` starts behind the value of one sub-attribute and takes
what it finds there for attributes, stepping by their length bytes until
it stands exactly at the packet's end. Nothing has checked these lengths
for that alignment. `Joins` is the set of byte strings on which such a
walk ends inside the packet, with the bytes it collects; a walk returns
if and only if its bytes are in that set (`coalesceCopy_joins`,
`Joins.coalesceCopy`).

# The sub-TLVs

`rad_continuation2vp` checks the lengths of the sub-TLVs before it walks
them, so only what `data2vp` reads beside a value can leave the buffer:
the tag of an empty value, and the sixteen bytes of an Ascend secret.
-/
import WinRadius.Proofs.DecodeSafe

namespace WinRadius

open Lib

variable {ctx : DecCtx} {attr : Nat} {buf : List UInt8} {p : Int}

-- ======== reading a tail

variable (buf) in
theorem fetch_shift (h0 : 0 ≤ p) (k : Nat) :
    fetch buf (p + k) = fetch (buf.drop p.toNat) k := by
  have hk : ¬p + k < 0 := by omega
  have hk' : ¬(k : Int) < 0 := by omega
  have hto : (p + k).toNat = p.toNat + k := by omega
  simp only [fetch, if_neg hk, if_neg hk', hto, List.getElem?_drop,
    Int.toNat_natCast]

theorem fetch_shift_zero (h0 : 0 ≤ p) :
    fetch buf p = fetch (buf.drop p.toNat) 0 := by
  simpa using fetch_shift _ h0 0

theorem fetchN_shift (h0 : 0 ≤ p) (hp : p ≤ buf.length) (k : Nat)
    (n : Int) :
    fetchN buf (p + k) n = fetchN (buf.drop p.toNat) k n := by
  unfold fetchN
  simp only [List.length_drop, List.drop_drop]
  rw [show (p + k).toNat = p.toNat + (k : Int).toNat by omega]
  exact if_congr (by omega) rfl rfl

/-- The tests at `ptr` see only the bytes from there on. -/
theorem fragmentAt_shift (h0 : 0 ≤ p) (hp : p ≤ buf.length) :
    fragmentAt attr buf p = fragmentAt attr (buf.drop p.toNat) 0 := by
  have hn := fetchN_shift h0 hp 2 4
  have h1 := fetch_shift buf h0 1
  have h2 := fetch_shift buf h0 2
  have h3 := fetch_shift buf h0 3
  have h6 := fetch_shift buf h0 6
  have h7 := fetch_shift buf h0 7
  have h8 := fetch_shift buf h0 8
  simp only [Nat.cast_ofNat, Nat.cast_one] at hn h1 h2 h3 h6 h7 h8
  unfold fragmentAt
  simp only [fetch_shift_zero h0, hn, h1, h2, h3, h6, h7, h8, zero_add]

/-- A fragment that is taken has a header and an honest minimum of
length. -/
theorem fragmentAt_take {vlen : Nat} {more : Bool}
    (h : fragmentAt attr buf 0 = .ok (.take vlen more)) :
    3 ≤ vlen ∧ 9 ≤ buf.length
      ∧ ∃ len, buf[1]? = some len ∧ 9 ≤ len.toNat := by
  unfold fragmentAt at h
  obtain ⟨b0, hb0, h⟩ := bind_eq_ok.mp h
  split at h
  · cases h
  obtain ⟨len, hlen, h⟩ := bind_eq_ok.mp h
  split at h
  · cases h
  next hlen9 =>
  obtain ⟨b2, hb2, h⟩ := bind_eq_ok.mp h
  split at h
  · cases h
  obtain ⟨b3, hb3, h⟩ := bind_eq_ok.mp h
  split at h
  · cases h
  obtain ⟨vendor, hvendor, h⟩ := bind_eq_ok.mp h
  obtain ⟨number, hnumber, h⟩ := bind_eq_ok.mp h
  simp only at h
  split at h
  · cases h
  obtain ⟨vl, hvl, h⟩ := bind_eq_ok.mp h
  split at h
  · cases h
  next hvl3 =>
  obtain ⟨cont, hcont, h⟩ := bind_eq_ok.mp h
  cases h
  refine ⟨?_, ?_, len, ?_, by omega⟩
  · exact UInt8.le_iff_toNat_le.mp (UInt8.not_lt.mp hvl3)
  · obtain ⟨-, h8⟩ := fetch_eq_ok.mp hcont
    obtain ⟨hlt, -⟩ := List.getElem?_eq_some_iff.mp h8
    simp only [zero_add, Int.reduceToNat] at hlt
    omega
  · simpa using (fetch_eq_ok.mp hlen).2

/-- At the end of the buffer there is nothing to test. -/
theorem fragmentAt_nil : fragmentAt attr [] 0 = .error .overread := rfl

-- ======== the walk

/-- `Joins attr rest joined`: the walk for `attr` over the last bytes
`rest` of the packet ends, inside the packet, having collected
`joined`. -/
inductive Joins (attr : Nat) : List UInt8 → List UInt8 → Prop where
  /-- exactly at the end of the packet -/
  | done : Joins attr [] []
  /-- at a fragment with a vendor length too small -/
  | stop {rest : List UInt8} : fragmentAt attr rest 0 = .ok .stop →
      Joins attr rest []
  /-- with the last fragment -/
  | last {rest : List UInt8} {vlen : Nat} :
      fragmentAt attr rest 0 = .ok (.take vlen false) →
      6 + vlen ≤ rest.length →
      Joins attr rest ((rest.drop 9).take (vlen - 3))
  /-- behind a fragment with more to follow -/
  | more {rest joined : List UInt8} {vlen : Nat} {len : UInt8} :
      fragmentAt attr rest 0 = .ok (.take vlen true) →
      6 + vlen ≤ rest.length → rest[1]? = some len →
      len.toNat ≤ rest.length → Joins attr (rest.drop len.toNat) joined →
      Joins attr rest ((rest.drop 9).take (vlen - 3) ++ joined)
  /-- behind anything else -/
  | skip {rest joined : List UInt8} {len : UInt8} :
      fragmentAt attr rest 0 = .ok .skip → rest[1]? = some len →
      0 < len.toNat → len.toNat ≤ rest.length →
      Joins attr (rest.drop len.toNat) joined → Joins attr rest joined

theorem Joins.ne_nil_of_fragment {rest : List UInt8} {f : Fragment}
    (h : fragmentAt attr rest 0 = .ok f) : rest ≠ [] := by
  rintro rfl
  rw [fragmentAt_nil] at h
  cases h

section walk

variable {rest joined : List UInt8} {fuel : Nat}

/-- A position with bytes behind it is not the end. -/
theorem ne_stop (hrest : buf.drop p.toNat = rest)
    (hne : rest ≠ []) : p ≠ buf.length := by
  rintro rfl
  apply hne
  rw [← hrest, Int.toNat_natCast, List.drop_length]

/-- The byte that is read to step on. -/
theorem fetch_lenByte (h0 : 0 ≤ p) (hrest : buf.drop p.toNat = rest)
    {len : UInt8} (hlen : rest[1]? = some len) :
    fetch buf (p + 1) = .ok len :=
  fetch_drop h0 hrest 1 hlen

theorem drop_step (h0 : 0 ≤ p) (hrest : buf.drop p.toNat = rest)
    (n : Nat) : buf.drop (p + n).toNat = rest.drop n := by
  rw [show (p + n).toNat = p.toNat + n by omega, ← List.drop_drop, hrest]

variable (fuel) in
/-- The walk that adds the lengths up. -/
theorem Joins.coalesceLength (h : Joins attr rest joined) (h0 : 0 ≤ p)
    (hp : p ≤ buf.length) (hrest : buf.drop p.toNat = rest)
    (hf : rest.length < fuel) :
    WinRadius.coalesceLength attr buf buf.length fuel p
      = .ok joined.length := by
  have hlenr := congrArg List.length hrest
  rw [List.length_drop] at hlenr
  induction h generalizing p fuel with
  | done =>
      obtain ⟨fuel, rfl⟩ := Nat.exists_eq_succ_of_ne_zero (n := fuel)
        (by omega)
      have : p = buf.length := by
        simp only [List.length_nil] at hlenr
        omega
      rw [WinRadius.coalesceLength, if_pos this]
      rfl
  | stop hfrag =>
      obtain ⟨fuel, rfl⟩ := Nat.exists_eq_succ_of_ne_zero (n := fuel)
        (by omega)
      rw [WinRadius.coalesceLength,
        if_neg (ne_stop hrest (ne_nil_of_fragment hfrag)),
        fragmentAt_shift h0 hp, hrest, hfrag]
      rfl
  | last hfrag hin =>
      obtain ⟨fuel, rfl⟩ := Nat.exists_eq_succ_of_ne_zero (n := fuel)
        (by omega)
      obtain ⟨h3, -, -⟩ := fragmentAt_take hfrag
      rw [WinRadius.coalesceLength,
        if_neg (ne_stop hrest (ne_nil_of_fragment hfrag)),
        fragmentAt_shift h0 hp, hrest, hfrag, ok_bind]
      simp only [pure_eq_ok, List.length_take, List.length_drop]
      congr 1
      omega
  | @more rest joined vlen len hfrag hin hlen hle _ ih =>
      obtain ⟨fuel, rfl⟩ := Nat.exists_eq_succ_of_ne_zero (n := fuel)
        (by omega)
      obtain ⟨h3, -, len', hlen', h9⟩ := fragmentAt_take hfrag
      rw [hlen] at hlen'
      cases hlen'
      have hrec := @ih (p + len.toNat) fuel (by omega)
        (by omega) (drop_step h0 hrest _)
        (by rw [List.length_drop]; omega)
        (by rw [List.length_drop]; omega)
      rw [WinRadius.coalesceLength,
        if_neg (ne_stop hrest (ne_nil_of_fragment hfrag)),
        fragmentAt_shift h0 hp, hrest, hfrag, ok_bind]
      simp only [fetch_lenByte h0 hrest hlen, ok_bind, hrec, pure_eq_ok,
        List.length_append, List.length_take, List.length_drop]
      congr 2
      omega
  | @skip rest joined len hfrag hlen hpos hle _ ih =>
      obtain ⟨fuel, rfl⟩ := Nat.exists_eq_succ_of_ne_zero (n := fuel)
        (by omega)
      have hrec := @ih (p + len.toNat) fuel (by omega)
        (by omega) (drop_step h0 hrest _)
        (by rw [List.length_drop]; omega)
        (by rw [List.length_drop]; omega)
      rw [WinRadius.coalesceLength,
        if_neg (ne_stop hrest (ne_nil_of_fragment hfrag)),
        fragmentAt_shift h0 hp, hrest, hfrag, ok_bind]
      simp only [fetch_lenByte h0 hrest hlen, ok_bind, hrec]

/-- A write before the next position is not seen from there. -/
theorem drop_zeroed {q : Nat} (hq : q < buf.length) {n : Nat}
    (hn : q < n) : (overlay buf q [0]).drop n = buf.drop n := by
  apply List.ext_getElem?
  intro i
  rw [List.getElem?_drop, List.getElem?_drop,
    getElem?_overlay (by simpa using hq), if_neg (by simp; omega)]

theorem zeroed_length {q : Nat} (hq : q < buf.length) :
    (overlay buf q [0]).length = buf.length :=
  overlay_length (by simpa using hq)

/-- The byte behind a fragment's own type survives the zeroing. -/
theorem fetch_lenByte_zeroed (h0 : 0 ≤ p) (hrest : buf.drop p.toNat = rest)
    (hq : (p + 6).toNat < buf.length) {len : UInt8}
    (hlen : rest[1]? = some len) :
    fetch (overlay buf (p + 6).toNat [0]) (p + 1) = .ok len := by
  rw [fetch_eq_ok]
  refine ⟨by omega, ?_⟩
  rw [getElem?_overlay (by simpa using hq), if_neg (by omega),
    show (p + 1).toNat = p.toNat + 1 by omega, ← List.getElem?_drop,
    hrest, hlen]

/-- The piece a fragment contributes. -/
theorem fetchN_piece (h0 : 0 ≤ p) (hp : p ≤ buf.length)
    (hrest : buf.drop p.toNat = rest) {vlen : Nat} (h3 : 3 ≤ vlen) :
    fetchN buf (p + 9) (vlen - 3) = .ok ((rest.drop 9).take (vlen - 3))
      ↔ 6 + vlen ≤ rest.length := by
  have hlenr := congrArg List.length hrest
  rw [List.length_drop] at hlenr
  rw [fetchN_eq_ok, show (p + 9).toNat = p.toNat + 9 by omega,
    ← List.drop_drop, hrest,
    show ((vlen : Int) - 3).toNat = vlen - 3 by omega]
  constructor
  · rintro ⟨-, -, hle, -⟩
    omega
  · intro hle
    exact ⟨by omega, by omega, by omega, rfl⟩

/-- What `memcpy` gets of a fragment is its piece. -/
theorem piece_of_fetchN (h0 : 0 ≤ p) (hp : p ≤ buf.length) {vlen : Nat}
    (h3 : 3 ≤ vlen) {piece : List UInt8}
    (h : fetchN buf (p + 9) (vlen - 3) = .ok piece) :
    piece = ((buf.drop p.toNat).drop 9).take (vlen - 3)
      ∧ 6 + vlen ≤ (buf.drop p.toNat).length := by
  obtain rfl : piece
      = ((buf.drop p.toNat).drop 9).take (vlen - 3) := by
    rw [(fetchN_eq_ok.mp h).2.2.2, List.drop_drop]
    congr 2 <;> omega
  exact ⟨rfl, (fetchN_piece h0 hp rfl h3).mp h⟩

variable (fuel) in
/-- The walk that copies collects what `Joins` says. -/
theorem Joins.coalesceCopy (h : Joins attr rest joined) (h0 : 0 ≤ p)
    (hp : p ≤ buf.length) (hrest : buf.drop p.toNat = rest)
    (hf : rest.length < fuel) :
    ∃ buf', WinRadius.coalesceCopy attr buf.length fuel buf p
      = .ok (joined, buf') := by
  have hlenr := congrArg List.length hrest
  rw [List.length_drop] at hlenr
  obtain ⟨fuel, rfl⟩ := Nat.exists_eq_succ_of_ne_zero (n := fuel)
    (by omega)
  induction h generalizing buf p fuel with
  | done =>
      have hend : p = buf.length := by
        simp only [List.length_nil] at hlenr
        omega
      exact ⟨buf, by rw [WinRadius.coalesceCopy, if_pos hend]; rfl⟩
  | stop hfrag =>
      refine ⟨buf, ?_⟩
      rw [WinRadius.coalesceCopy,
        if_neg (ne_stop hrest (ne_nil_of_fragment hfrag)),
        fragmentAt_shift h0 hp, hrest, hfrag]
      rfl
  | last hfrag hin =>
      obtain ⟨h3, -, -⟩ := fragmentAt_take hfrag
      refine ⟨overlay buf (p + 6).toNat [0], ?_⟩
      rw [WinRadius.coalesceCopy,
        if_neg (ne_stop hrest (ne_nil_of_fragment hfrag)),
        fragmentAt_shift h0 hp, hrest, hfrag, ok_bind]
      simp only [(fetchN_piece h0 hp hrest h3).mpr hin, ok_bind,
        pure_eq_ok]
  | @more rest joined vlen len hfrag hin hlen hle _ ih =>
      obtain ⟨h3, hlen9, len', hlen', h9⟩ := fragmentAt_take hfrag
      rw [hlen] at hlen'
      cases hlen'
      have hq : (p + 6).toNat < buf.length := by omega
      have hzl := zeroed_length hq
      have hdrop : (overlay buf (p + 6).toNat [0]).drop
          (p + len.toNat).toNat = rest.drop len.toNat := by
        rw [drop_zeroed hq (by omega), drop_step h0 hrest]
      have hshort : (rest.drop len.toNat).length < fuel := by
        rw [List.length_drop]
        omega
      obtain ⟨fuel, rfl⟩ := Nat.exists_eq_succ_of_ne_zero (n := fuel)
        (by omega)
      obtain ⟨buf', hrec⟩ := ih
        (p := p + len.toNat)
        (by omega) (by rw [hzl]; omega) hdrop
        (by rw [List.length_drop, hzl]; omega) fuel hshort
      rw [hzl] at hrec
      refine ⟨buf', ?_⟩
      rw [WinRadius.coalesceCopy,
        if_neg (ne_stop hrest (ne_nil_of_fragment hfrag)),
        fragmentAt_shift h0 hp, hrest, hfrag, ok_bind]
      simp only [(fetchN_piece h0 hp hrest h3).mpr hin, ok_bind,
        fetch_lenByte_zeroed h0 hrest hq hlen, hrec, pure_eq_ok]
  | @skip rest joined len hfrag hlen hpos hle _ ih =>
      have hshort : (rest.drop len.toNat).length < fuel := by
        rw [List.length_drop]
        omega
      obtain ⟨fuel, rfl⟩ := Nat.exists_eq_succ_of_ne_zero (n := fuel)
        (by omega)
      obtain ⟨buf', hrec⟩ := ih (p := p + len.toNat)
        (by omega) (by omega) (drop_step h0 hrest _)
        (by rw [List.length_drop]; omega) fuel hshort
      refine ⟨buf', ?_⟩
      rw [WinRadius.coalesceCopy,
        if_neg (ne_stop hrest (ne_nil_of_fragment hfrag)),
        fragmentAt_shift h0 hp, hrest, hfrag, ok_bind]
      simp only [fetch_lenByte h0 hrest hlen, ok_bind, hrec]

/-- A walk that returns was in the packet all the way, and left the
packet's length alone. The induction is on the fuel: a step of length
zero only burns it, and a walk that returns has some left. -/
theorem coalesceCopy_joins {buf' : List UInt8} (h0 : 0 ≤ p)
    (h : coalesceCopy attr buf.length fuel buf p = .ok (joined, buf')) :
    p ≤ buf.length ∧ buf'.length = buf.length
      ∧ Joins attr (buf.drop p.toNat) joined := by
  induction fuel generalizing buf p joined with
  | zero => cases h
  | succ fuel ih =>
      rw [coalesceCopy] at h
      split at h
      · next hend =>
          cases h
          refine ⟨by omega, rfl, ?_⟩
          rw [hend, Int.toNat_natCast, List.drop_length]
          exact .done
      · obtain ⟨f, hfrag, h⟩ := bind_eq_ok.mp h
        have hlt : p < buf.length := by
          unfold fragmentAt at hfrag
          obtain ⟨b, hb, -⟩ := bind_eq_ok.mp hfrag
          obtain ⟨-, hb⟩ := fetch_eq_ok.mp hb
          obtain ⟨hlt, -⟩ := List.getElem?_eq_some_iff.mp hb
          omega
        rw [fragmentAt_shift h0 (by omega)] at hfrag
        -- the byte read to step on
        have hstep {b : List UInt8} {len : UInt8}
            (hlen : fetch b (p + 1) = .ok len)
            (hb : b[p.toNat + 1]? = buf[p.toNat + 1]?) :
            (buf.drop p.toNat)[1]? = some len := by
          have := (fetch_eq_ok.mp hlen).2
          rw [show (p + 1).toNat = p.toNat + 1 by omega, hb] at this
          rw [List.getElem?_drop]
          exact this
        match f, hfrag, h with
        | .stop, hfrag, h =>
            cases h
            exact ⟨by omega, rfl, .stop hfrag⟩
        | .take vlen false, hfrag, h =>
            obtain ⟨h3, h9, -⟩ := fragmentAt_take hfrag
            obtain ⟨piece, hpiece, h⟩ := bind_eq_ok.mp h
            rw [List.length_drop] at h9
            obtain ⟨rfl, hin⟩ := piece_of_fetchN h0 (by omega) h3 hpiece
            cases h
            exact ⟨by omega, zeroed_length (by omega), .last hfrag hin⟩
        | .take vlen true, hfrag, h =>
            obtain ⟨h3, h9, -⟩ := fragmentAt_take hfrag
            obtain ⟨piece, hpiece, h⟩ := bind_eq_ok.mp h
            rw [List.length_drop] at h9
            obtain ⟨rfl, hin⟩ := piece_of_fetchN h0 (by omega) h3 hpiece
            simp only at h
            obtain ⟨len, hlen, h⟩ := bind_eq_ok.mp h
            obtain ⟨⟨more, buf1⟩, hrec, h⟩ := bind_eq_ok.mp h
            cases h
            have hq : (p + 6).toNat < buf.length := by omega
            have hlen1 := hstep hlen (by
              rw [getElem?_overlay (by simpa using hq),
                if_neg (by omega)])
            obtain ⟨-, -, len', hlen', hlen9⟩ := fragmentAt_take hfrag
            rw [hlen1] at hlen'
            cases hlen'
            rw [← zeroed_length hq] at hrec
            obtain ⟨hle, hbl, hj⟩ := ih (by omega) hrec
            rw [zeroed_length hq] at hle hbl
            rw [drop_zeroed hq (by omega), drop_step h0 rfl] at hj
            exact ⟨by omega, hbl, .more hfrag hin hlen1
              (by rw [List.length_drop]; omega) hj⟩
        | .skip, hfrag, h =>
            simp only at h
            obtain ⟨len, hlen, h⟩ := bind_eq_ok.mp h
            obtain ⟨hle, hbl, hj⟩ := ih (by omega) h
            rw [drop_step h0 rfl] at hj
            refine ⟨by omega, hbl, ?_⟩
            by_cases hz : len.toNat = 0
            · rw [hz, List.drop_zero] at hj
              exact hj
            · exact .skip hfrag (hstep hlen rfl) (by omega)
                (by rw [List.length_drop]; omega) hj

end walk

-- ======== the joined value

section coalesce

variable {cfg : Config} {length data packetLength : Int}

/-- `rad_coalesce` returns if and only if its value is in the packet and
its walk ends there; it answers the value with the fragments behind. -/
theorem radCoalesce_ok_iff {block : List UInt8} (h0 : 0 ≤ data)
    (hend : data + packetLength = buf.length) :
    (∃ buf', radCoalesce cfg attr length buf data packetLength
        = .ok (block, buf'))
      ↔ 0 ≤ length ∧ data + length ≤ buf.length
        ∧ ∃ joined, Joins attr (buf.drop (data + length).toNat) joined
          ∧ block = (buf.drop data.toNat).take length.toNat ++ joined := by
  unfold radCoalesce
  simp only [hend]
  constructor
  · rintro ⟨buf', h⟩
    obtain ⟨n, hn, h⟩ := bind_eq_ok.mp h
    obtain ⟨first, hfirst, h⟩ := bind_eq_ok.mp h
    obtain ⟨⟨rest, buf1⟩, hcopy, h⟩ := bind_eq_ok.mp h
    obtain ⟨-, hlen, hle, hfirst⟩ := fetchN_eq_ok.mp hfirst
    obtain ⟨-, -, hj⟩ := coalesceCopy_joins (by omega) hcopy
    have hn' := hj.coalesceLength (buf.length + 1) (p := data + length)
      (by omega) hle rfl
      (by rw [List.length_drop]; omega)
    rw [hn] at hn'
    cases hn'
    refine ⟨hlen, hle, rest, hj, ?_⟩
    cases h
    rw [hfirst]
    exact List.take_left' (by rw [List.length_append])
  · rintro ⟨hlen, hle, joined, hj, rfl⟩
    have hn := hj.coalesceLength (buf.length + 1) (p := data + length)
      (by omega) hle rfl
      (by rw [List.length_drop]; omega)
    obtain ⟨buf', hcopy⟩ := hj.coalesceCopy (buf.length + 1)
      (p := data + length) (by omega) hle rfl
      (by rw [List.length_drop]; omega)
    refine ⟨buf', ?_⟩
    rw [hn, ok_bind, fetchN_isOk h0 hlen hle, ok_bind, hcopy, ok_bind]
    simp only [pure_eq_ok]
    rw [List.take_left' (by rw [List.length_append])]

theorem radCoalesce_length {block buf' : List UInt8} (h0 : 0 ≤ data)
    (hend : data + packetLength = buf.length)
    (h : radCoalesce cfg attr length buf data packetLength
      = .ok (block, buf')) : buf'.length = buf.length := by
  have hlen := ((radCoalesce_ok_iff h0 hend).mp ⟨buf', h⟩).1
  unfold radCoalesce at h
  simp only [hend] at h
  obtain ⟨n, -, h⟩ := bind_eq_ok.mp h
  obtain ⟨first, -, h⟩ := bind_eq_ok.mp h
  obtain ⟨⟨rest, buf1⟩, hcopy, h⟩ := bind_eq_ok.mp h
  cases h
  exact (coalesceCopy_joins (by omega) hcopy).2.1

end coalesce

-- ======== the sub-TLVs

/-- `data2vp` takes this byte off the front of a value. -/
def tagTaken (vp : ValuePair) (b : UInt8) : Prop :=
  (tagValid b = true ∨ vp.flags.encrypt = .tunnelPassword)
    ∧ (vp.type = .string ∨ vp.type = .octets)

/-- What `data2vp` reads for `value`, with `after` behind it in the
buffer, is there: a byte for the tag, which is only taken off a value that
has it, and sixteen bytes for an Ascend secret. -/
def ReadsInside (ctx : DecCtx) (vp : ValuePair)
    (value after : List UInt8) : Prop :=
  (vp.flags.hasTag = true → value = [] →
      ∃ b, after.head? = some b ∧ ¬tagTaken vp b)
    ∧ (ascendReads ctx vp.flags → 16 ≤ value.length + after.length)

section value

variable {value after : List UInt8} {vp : ValuePair}

variable (vp) in
/-- On an empty value the tag is the byte behind it. -/
theorem vpTag_empty (ht : vp.flags.hasTag = true) (h0 : 0 ≤ p)
    (hbuf : buf.drop p.toNat = after) :
    (∃ b, after.head? = some b ∧ tagTaken vp b
        ∧ ∃ vp', vpTag buf p vp = .ok (vp', 1))
      ∨ (∃ b, after.head? = some b ∧ ¬tagTaken vp b
        ∧ ∃ vp', vpTag buf p vp = .ok (vp', 0)
          ∧ vp'.flags.encrypt = vp.flags.encrypt)
      ∨ after.head? = none ∧ vpTag buf p vp = .error .overread := by
  unfold vpTag tagTaken
  rw [if_pos ht, fetch_shift_zero h0, hbuf]
  cases after with
  | nil => exact Or.inr (Or.inr ⟨rfl, rfl⟩)
  | cons b after =>
      have hb : fetch (b :: after) 0 = .ok b := rfl
      rw [hb, ok_bind]
      simp only [Bool.or_eq_true, decide_eq_true_eq, List.head?_cons,
        Option.some.injEq, exists_eq_left']
      by_cases hv : tagValid b = true ∨ vp.flags.encrypt = .tunnelPassword
      · rw [if_pos hv]
        by_cases hty : vp.type = .string ∨ vp.type = .octets
        · exact Or.inl ⟨⟨hv, hty⟩, _, by rw [if_pos hty]; rfl⟩
        · exact Or.inr (Or.inl ⟨fun h => hty h.2,
            { vp with flags := { vp.flags with tag := b } },
            by rw [if_neg hty]; rfl, rfl⟩)
      · rw [if_neg hv]
        exact Or.inr (Or.inl ⟨fun h => hv h.1, _, rfl, rfl⟩)

/-- Behind the tag only the Ascend secret is left to read. -/
theorem decryptVp_ok_iff {vp' : ValuePair}
    {g : Option ValuePair → Option ValuePair} (h0 : 0 ≤ p)
    (hlen : buf.length - p.toNat = value.length + after.length)
    (hp : p ≤ buf.length)
    (henc : vp'.flags.encrypt = vp.flags.encrypt) :
    (∃ res, (decryptVp ctx buf p vp' >>= fun r => pure (g r)) = .ok res)
      ↔ (ascendReads ctx vp.flags →
        16 ≤ value.length + after.length) := by
  have hasc : ascendReads ctx vp'.flags ↔ ascendReads ctx vp.flags := by
    unfold ascendReads
    rw [henc]
  by_cases hs : ascendReads ctx vp.flags ∧ (buf.length : Int) < p + 16
  · rw [decryptVp_overreads (hasc.mpr hs.1) hs.2, error_bind]
    simp only [reduceCtorEq, exists_false, false_iff, not_forall]
    exact ⟨hs.1, by omega⟩
  · have hin : ascendReads ctx vp.flags → p + 16 ≤ buf.length := by
      intro ha
      by_contra hlt
      exact hs ⟨ha, by omega⟩
    obtain ⟨r, hr⟩ := decryptVp_ok
      h0 fun ha => hin (hasc.mp ha)
    rw [hr, ok_bind]
    refine iff_of_true ⟨_, rfl⟩ fun ha => ?_
    have := hin ha
    omega

variable (ctx vp) in
/-- `data2vp` of a value in the buffer returns if and only if what it
reads beside the value is there. -/
theorem data2vp_ok_iff (number : Nat) (h0 : 0 ≤ p) (hp : p ≤ buf.length)
    (hbuf : buf.drop p.toNat = value ++ after)
    (h253 : value.length ≤ 253) :
    (∃ res, data2vp ctx number value.length buf p vp = .ok res)
      ↔ ReadsInside ctx vp value after := by
  have hlen := congrArg List.length hbuf
  rw [List.length_drop, List.length_append] at hlen
  have hin : p + value.length ≤ buf.length := by omega
  have hclip : clipLength (value.length : Int) = value.length := by
    unfold clipLength
    rw [if_neg (by omega)]
  unfold ReadsInside
  by_cases htag : vp.flags.hasTag = true ∧ value = []
  · obtain ⟨ht, rfl⟩ := htag
    rw [List.nil_append] at hbuf
    have heq : data2vp ctx number ([] : List UInt8).length buf p vp
        = (vpTag buf p { vp with op := .opEq } >>= fun x =>
          fetchN buf (p + x.2) (0 - x.2) >>= fun value =>
          fetchN buf p 0 >>= fun bytes =>
          decryptVp ctx buf p { x.1.setOctets value with
            length := value.length } >>= fun res =>
          pure (typedOrRaw ctx.cfg number bytes res)) := by
      unfold data2vp
      rw [hclip]
      rfl
    rw [heq]
    rcases vpTag_empty { vp with op := .opEq } ht h0 hbuf with
      ⟨b, hb, htk, vp', hv⟩ | ⟨b, hb, htk, vp', hv, henc⟩ | ⟨hb, hv⟩
    · have herr : fetchN buf (p + 1) (0 - 1) = .error .overread :=
        fetchN_eq_error.mpr ⟨rfl, by omega⟩
      rw [hv, ok_bind, herr, error_bind]
      simp only [reduceCtorEq, exists_false, false_iff, not_and]
      intro h
      obtain ⟨b', hb', hnt⟩ := h ht trivial
      rw [hb] at hb'
      cases hb'
      exact absurd htk hnt
    · rw [hv, ok_bind]
      simp only [add_zero, sub_zero]
      rw [fetchN_isOk h0 (by omega) (by omega), ok_bind, ok_bind,
        decryptVp_ok_iff h0 hlen hp (by exact henc)]
      constructor
      · exact fun h => ⟨fun _ _ => ⟨b, hb, htk⟩, h⟩
      · exact fun h => h.2
    · rw [hv, error_bind, hb]
      simp only [reduceCtorEq, exists_false, false_and, false_iff,
        not_and]
      intro h
      exact absurd trivial (h ht)
  · obtain ⟨vp', bytes, henc, heq⟩ := data2vp_eq
      h0 (by omega) (by omega) hin
      fun ht => by
        have : value ≠ [] := fun h => htag ⟨ht, h⟩
        have := List.length_pos_iff.mpr this
        omega
    rw [heq, decryptVp_ok_iff h0 hlen hp henc]
    constructor
    · exact fun h => ⟨fun ht hv => absurd ⟨ht, hv⟩ htag, h⟩
    · exact fun h => h.2

end value

/-- Every sub-TLV the second walk comes to, from `p` on, is read inside
the buffer. The walk ends early when no pair can be made of one. -/
def SubsInside (ctx : DecCtx) (attr : Nat) (buf : List UInt8) :
    Int → List Tlv → Prop
  | _, [] => True
  | p, a :: subs =>
      ∀ vp, paircreate ctx.cfg (attr ||| (a.type.toNat <<< 8)) .octets
          = some vp →
        ReadsInside ctx vp a.value
            (buf.drop (p + 2 + a.value.length).toNat)
          ∧ ∀ v, data2vp ctx a.type.toNat a.value.length buf (p + 2) vp
              = .ok (some v) →
            SubsInside ctx attr buf (p + (a.value.length + 2)) subs

/-- The walks of `rad_continuation2vp` over the `length` bytes at `p`
stay inside the buffer: it only walks a TLV that is made of sub-TLVs. -/
def TlvInside (ctx : DecCtx) (attr : Nat) (buf : List UInt8) (p : Int)
    (length : Int) (da : Option DictAttr) : Prop :=
  da.map (·.type) = some .tlv →
    ∀ subs, (buf.drop p.toNat).take length.toNat = wire subs →
      SubsInside ctx attr buf p subs

section subs

variable {after : List UInt8} {fuel left : Nat}

variable (fuel) in
/-- The check of the lengths: it returns, and says whether the bytes are
a string of sub-TLVs. -/
theorem tlvWellFormed_eq {bytes : List UInt8} (h0 : 0 ≤ p)
    (hbuf : buf.drop p.toNat = bytes ++ after)
    (hf : bytes.length < fuel) :
    ∃ b, tlvWellFormed buf fuel p bytes.length = .ok b
      ∧ (b = true ↔ ∃ subs, bytes = wire subs) := by
  induction fuel generalizing bytes p with
  | zero => omega
  | succ fuel ih =>
      rw [tlvWellFormed]
      match bytes, hbuf, hf with
      | [], hbuf, hf =>
          exact ⟨true, rfl, iff_of_true rfl ⟨[], rfl⟩⟩
      | [b], hbuf, hf =>
          refine ⟨false, rfl, iff_of_false (by decide) ?_⟩
          rintro ⟨subs, hsubs⟩
          cases subs with
          | nil => cases hsubs
          | cons a subs => cases hsubs
      | type :: len :: rest, hbuf, hf =>
          have hlen : fetch buf (p + 1) = .ok len :=
            fetch_drop h0 hbuf 1 rfl
          have hne : ¬(type :: len :: rest).length = 0 := by simp
          have hge : ¬(type :: len :: rest).length < 2 := by simp
          rw [if_neg hne, if_neg hge, hlen, ok_bind]
          simp only [List.length_cons, UInt8.lt_iff_toNat_lt] at hf ⊢
          have h2 : (2 : UInt8).toNat = 2 := rfl
          have h256 := len.toNat_lt
          rw [h2]
          by_cases hbad : len.toNat < 2 ∨ rest.length + 1 + 1 < len.toNat
          · rw [if_pos hbad]
            refine ⟨false, rfl, iff_of_false (by decide) ?_⟩
            rintro ⟨subs, hsubs⟩
            cases subs with
            | nil => cases hsubs
            | cons a subs =>
                obtain ⟨heq, hle, -⟩ := wire_cons_inv hsubs
                omega
          · rw [if_neg hbad]
            have hdrop : buf.drop (p + len.toNat).toNat
                = rest.drop (len.toNat - 2) ++ after := by
              rw [drop_step h0 hbuf,
                show len.toNat = len.toNat - 2 + 2 by omega]
              simp only [List.cons_append, List.drop_succ_cons]
              rw [show len.toNat - 2 + 2 - 2 = len.toNat - 2 by omega]
              exact List.drop_append_of_le_length (by omega)
            have hrest : (rest.drop (len.toNat - 2)).length
                = rest.length + 1 + 1 - len.toNat := by
              rw [List.length_drop]
              omega
            obtain ⟨b, hb, hiff⟩ := ih (p := p + len.toNat) (by omega)
              hdrop (by omega)
            rw [hrest] at hb
            refine ⟨b, hb, hiff.trans ?_⟩
            constructor
            · rintro ⟨subs, hsubs⟩
              obtain ⟨a, -, -, ha⟩ := exists_bytes_append _ len rest
                (by omega) (by omega)
              exact ⟨a :: subs, by rw [ha, hsubs, wire_cons]⟩
            · rintro ⟨subs, hsubs⟩
              cases subs with
              | nil => cases hsubs
              | cons a subs => exact ⟨subs, (wire_cons_inv hsubs).2.2⟩

variable (ctx attr fuel) in
/-- The second walk returns if and only if every sub-TLV it comes to is
read inside the buffer. -/
theorem subTlvs_ok_iff {subs : List Tlv} (h0 : 0 ≤ p)
    (hp : p ≤ buf.length) (hbuf : buf.drop p.toNat = wire subs ++ after)
    (hf : (wire subs).length < fuel) :
    (∃ res, subTlvs ctx attr buf fuel p (wire subs).length = .ok res)
      ↔ SubsInside ctx attr buf p subs := by
  induction subs generalizing p fuel with
  | nil =>
      obtain ⟨fuel, rfl⟩ := Nat.exists_eq_succ_of_ne_zero (n := fuel)
        (by omega)
      exact iff_of_true ⟨_, rfl⟩ trivial
  | cons a subs ih =>
      obtain ⟨fuel, rfl⟩ := Nat.exists_eq_succ_of_ne_zero (n := fuel)
        (by omega)
      have hlenb := congrArg List.length hbuf
      simp only [wire_cons, List.length_append, Tlv.bytes_length,
        List.length_drop] at hlenb hf
      rw [wire_cons, List.append_assoc] at hbuf
      have htype : fetch buf p = .ok a.type := by
        have := fetch_drop h0 hbuf 0 (b := a.type) (by simp [Tlv.bytes])
        simpa using this
      have hlen : fetch buf (p + 1)
          = .ok (UInt8.ofNat (a.value.length + 2)) :=
        fetch_drop h0 hbuf 1 (by simp [Tlv.bytes])
      have hval : buf.drop (p + 2).toNat
          = a.value ++ (wire subs ++ after) := by
        have := drop_step h0 hbuf 2
        simpa [Tlv.bytes] using this
      have hnext : buf.drop (p + (a.value.length + 2)).toNat
          = wire subs ++ after := by
        have := drop_step h0 hbuf (a.value.length + 2)
        push_cast at this
        rw [this]
        exact List.drop_left' (by simp)
      have hafter : buf.drop (p + 2 + a.value.length).toNat
          = wire subs ++ after := by
        rw [← hnext]
        congr 2
        omega
      have hleft : a.bytes.length + (wire subs).length
          - (a.value.length + 2) = (wire subs).length := by
        rw [Tlv.bytes_length]
        omega
      have hread := fun vp => data2vp_ok_iff ctx vp a.type.toNat
        (p := p + 2) (by omega) (by omega) hval
        a.fits
      have hrec := @ih (p + (a.value.length + 2)) fuel
        (by omega) (by omega) hnext (by omega)
      rw [subTlvs, SubsInside, wire_cons, List.length_append,
        if_neg (by rw [Tlv.bytes_length]; omega), htype, ok_bind, hlen,
        ok_bind, a.lenByte_toNat, hleft, hafter]
      push_cast
      rw [show ((a.value.length : Int) + 2 - 2) = a.value.length by omega]
      cases hvp : paircreate ctx.cfg (attr ||| a.type.toNat <<< 8)
          .octets with
      | none =>
          refine iff_of_true ⟨_, rfl⟩ ?_
          intro _ h
          cases h
      | some vp =>
          simp only [Option.some.injEq, forall_eq']
          rw [← hread vp]
          cases hd : data2vp ctx a.type.toNat a.value.length buf (p + 2)
              vp with
          | error e =>
              simp only [error_bind, reduceCtorEq, exists_false,
                false_and]
          | ok res =>
              rw [ok_bind]
              cases res with
              | none =>
                  refine iff_of_true ⟨_, rfl⟩ ⟨⟨_, rfl⟩, fun v h => ?_⟩
                  cases h
              | some v =>
                  simp only [Except.ok.injEq, exists_eq', true_and,
                    Option.some.injEq, forall_eq']
                  rw [← hrec]
                  cases subTlvs ctx attr buf fuel
                      (p + (a.value.length + 2)) (wire subs).length with
                  | error e =>
                      simp only [error_bind, reduceCtorEq, exists_false]
                  | ok more =>
                      rw [ok_bind]
                      refine iff_of_true ?_ ⟨_, rfl⟩
                      cases more with
                      | none => exact ⟨_, rfl⟩
                      | some more => exact ⟨_, rfl⟩

/-- The part behind the coalescing returns if and only if its walks stay
inside the buffer. -/
theorem tlvPairs_ok_iff {length : Int} {da : Option DictAttr}
    (h0 : 0 ≤ p) (hlen : 0 ≤ length) (hle : p + length ≤ buf.length) :
    (∃ res, tlvPairs ctx attr buf p length da = .ok res)
      ↔ TlvInside ctx attr buf p length da := by
  obtain ⟨bytes, hbytes⟩ :
      ∃ bytes, bytes = (buf.drop p.toNat).take length.toNat := ⟨_, rfl⟩
  have hbuf : buf.drop p.toNat
      = bytes ++ (buf.drop p.toNat).drop length.toNat := by
    rw [hbytes, List.take_append_drop]
  unfold tlvPairs TlvInside
  rw [fetchN_isOk h0 hlen hle, ok_bind, ← hbytes]
  by_cases hty : da.map (·.type) = some .tlv
  · obtain ⟨b, hb, hiff⟩ := tlvWellFormed_eq (bytes.length + 1) h0 hbuf
      (by omega)
    rw [if_neg (not_not.mpr hty), hb, ok_bind]
    cases b with
    | false =>
        refine iff_of_true ⟨_, rfl⟩ fun _ subs hsubs => ?_
        exact absurd (hiff.mpr ⟨subs, hsubs⟩) (by decide)
    | true =>
        obtain ⟨subs, hsubs⟩ := hiff.mp rfl
        have hwalk := subTlvs_ok_iff ctx attr (bytes.length + 1) h0
          (by omega) (hsubs ▸ hbuf)
          (by rw [← hsubs]; omega)
        rw [← hsubs] at hwalk
        have hall : (da.map (·.type) = some .tlv → ∀ subs',
            bytes = wire subs' → SubsInside ctx attr buf p subs')
              ↔ SubsInside ctx attr buf p subs := by
          constructor
          · exact fun h => h hty subs hsubs
          · intro h _ subs' hsubs'
            rwa [wire_injective (hsubs'.symm.trans hsubs)]
        rw [hall, ← hwalk]
        simp only [Bool.not_true, Bool.false_eq_true, if_false]
        cases subTlvs ctx attr buf (bytes.length + 1) p bytes.length with
        | error e => simp only [error_bind, reduceCtorEq, exists_false]
        | ok vps =>
            rw [ok_bind]
            refine iff_of_true ?_ ⟨_, rfl⟩
            cases vps with
            | none => exact ⟨_, rfl⟩
            | some vps => exact ⟨_, rfl⟩
  · rw [if_pos hty]
    exact iff_of_true ⟨_, rfl⟩ fun h => absurd h hty

end subs

end WinRadius
