/-
What `client_sane` leaves of an address: its first `prefix` bits.

The words of an IPv6 address are masked one by one, the later ones through
the cases the switch falls into; read bit by bit, all paths keep the bits
in front of the prefix length and clear the others (`clientSane_ok`). So
two addresses have one network at a prefix length exactly when they agree
in that many bits (`sameNetwork_iff`).
-/
import WinRadius.Model.Client
import WinRadius.Proofs.PacketKeys

namespace WinRadius

open Lib

variable {ip m : FrIpaddr} {p : Nat} {addr mask : List UInt8}

/-- The bits of an address of a known family. -/
def FrIpaddr.bits (ip : FrIpaddr) : Nat := if ip.af = afInet then 32 else 128

/-- Of a string, the bits in front of `p`, on the first `n`. -/
def KeepsBits (n p : Nat) (addr masked : List UInt8) : Prop :=
  masked.length = addr.length
    ∧ ∀ i < n, bitAt masked i = (bitAt addr i && decide (i < p))

theorem octets_length (hk : ip.Known) : 8 * ip.octets.length = ip.bits := by
  have hne : afInet6 ≠ afInet := by decide
  unfold FrIpaddr.octets FrIpaddr.bits
  rcases hk with h | h
  · rw [if_pos h, if_pos h, padTake_length]
  · rw [if_neg (by rw [h]; exact hne), if_pos h,
      if_neg (by rw [h]; exact hne), padTake_length]

theorem withOctets_octets {bs : List UInt8}
    (h : bs.length = ip.octets.length) : (ip.withOctets bs).octets = bs := by
  unfold FrIpaddr.octets at h
  unfold FrIpaddr.withOctets FrIpaddr.octets
  dsimp only
  split_ifs at h ⊢ with h4 h6
  · rw [padTake_length] at h
    rw [← h]
    exact padTake_append bs _
  · rw [padTake_length] at h
    rw [← h]
    exact padTake_append bs _
  · exact (List.length_eq_zero_iff.mp h).symm

-- ======== words

theorem andWord_length {j : Nat} (hmask : mask.length = 4)
    (h : 4 * j + 4 ≤ addr.length) :
    (andWord addr j mask).length = addr.length := by
  apply overlay_length
  rw [List.length_zipWith, slice_length h, hmask]
  omega

/-- The mask of the word the prefix ends in. -/
theorem bitAt_partialMask {i : Nat} (hi : i < 32) :
    bitAt (if p % 32 = 0 then List.replicate 4 0 else maskWord (p % 32)) i
      = decide (i < p % 32) := by
  split
  · next h =>
      rw [bitAt_zero, h]
      rfl
  · next h => exact bitAt_maskWord (by omega) (by omega) hi

theorem partialMask_length :
    (if p % 32 = 0 then List.replicate 4 0 else maskWord (p % 32)).length
      = 4 := by
  split
  · rfl
  · rfl

/-- A word cleared by falling through. -/
theorem bitAt_clearWord {i j : Nat} (h : 4 * j + 4 ≤ addr.length) :
    bitAt (andWord addr j (List.replicate 4 0)) i
      = (bitAt addr i && !decide (32 * j ≤ i ∧ i < 32 * j + 32)) := by
  rw [bitAt_andWord rfl h, bitAt_zero]
  split
  · next hin => simp [hin]
  · next hin => simp [hin]

/-- The switch keeps the bits in front of the prefix length. -/
theorem maskWords_keeps (hlen : addr.length = 16) (hp : p < 128) :
    KeepsBits 128 p addr (maskWords addr p) := by
  obtain ⟨mask, hmask⟩ : ∃ mask, mask = (if p % 32 = 0 then
      List.replicate 4 0 else maskWord (p % 32)) := ⟨_, rfl⟩
  have hmlen : mask.length = 4 := by
    rw [hmask]
    exact partialMask_length
  have hbits : ∀ i < 32, bitAt mask i = decide (i < p % 32) := by
    intro i hi
    rw [hmask]
    exact bitAt_partialMask hi
  have hzlen : (List.replicate 4 (0 : UInt8)).length = 4 := rfl
  -- the word the prefix ends in, at `j`
  have hword : ∀ j < 4, p / 32 = j → ∀ i < 128,
      bitAt (andWord addr j mask) i
        = (bitAt addr i && (decide (i < p) || decide (32 * j + 32 ≤ i))) := by
    intro j hj hpj i hi
    rw [bitAt_andWord hmlen (by omega)]
    split
    · next hin =>
        rw [hbits _ (by omega)]
        congr 1
        rw [Bool.eq_iff_iff]
        simp only [Bool.or_eq_true, decide_eq_true_eq]
        omega
    · next hin =>
        have hkeep : (decide (i < p) || decide (32 * j + 32 ≤ i)) = true := by
          simp only [Bool.or_eq_true, decide_eq_true_eq]
          omega
        rw [hkeep, Bool.and_true]
  have hl : ∀ {bs : List UInt8} {j : Nat} {w : List UInt8},
      bs.length = 16 → j < 4 → w.length = 4 →
      (andWord bs j w).length = 16 := by
    intro bs j w hbs hj hw
    rw [andWord_length hw (by omega), hbs]
  have hclear : ∀ {bs : List UInt8} {i j : Nat}, bs.length = 16 → j < 4 →
      bitAt (andWord bs j (List.replicate 4 0)) i
        = (bitAt bs i && !decide (32 * j ≤ i ∧ i < 32 * j + 32)) :=
    fun hbs hj => bitAt_clearWord (by omega)
  unfold KeepsBits
  rw [hlen]
  have hcases : p / 32 = 0 ∨ p / 32 = 1 ∨ p / 32 = 2 ∨ p / 32 = 3 := by omega
  rcases hcases with h | h | h | h
  · have h0 := hl hlen (show 0 < 4 by omega) hmlen
    have h1 := hl h0 (show 1 < 4 by omega) hzlen
    have h2 := hl h1 (show 2 < 4 by omega) hzlen
    have hword0 : maskWords addr p = maskWord0 addr mask := by
      rw [maskWords, ← hmask, h]
      rfl
    rw [hword0]
    dsimp only [maskWord0, maskWord1, maskWord2, maskWord3]
    refine ⟨hl h2 (by omega) hzlen, fun i hi => ?_⟩
    rw [hclear h2 (by omega), hclear h1 (by omega), hclear h0 (by omega),
      hword 0 (by omega) h i hi]
    simp only [Bool.and_assoc]
    congr 1
    rw [Bool.eq_iff_iff]
    simp only [Bool.and_eq_true, Bool.or_eq_true, Bool.not_eq_true',
      decide_eq_true_eq, decide_eq_false_iff_not]
    omega
  · have h1 := hl hlen (show 1 < 4 by omega) hmlen
    have h2 := hl h1 (show 2 < 4 by omega) hzlen
    have hword1 : maskWords addr p = maskWord1 addr mask := by
      rw [maskWords, ← hmask, h]
      rfl
    rw [hword1]
    dsimp only [maskWord1, maskWord2, maskWord3]
    refine ⟨hl h2 (by omega) hzlen, fun i hi => ?_⟩
    rw [hclear h2 (by omega), hclear h1 (by omega),
      hword 1 (by omega) h i hi]
    simp only [Bool.and_assoc]
    congr 1
    rw [Bool.eq_iff_iff]
    simp only [Bool.and_eq_true, Bool.or_eq_true, Bool.not_eq_true',
      decide_eq_true_eq, decide_eq_false_iff_not]
    omega
  · have h2 := hl hlen (show 2 < 4 by omega) hmlen
    have hword2 : maskWords addr p = maskWord2 addr mask := by
      rw [maskWords, ← hmask, h]
      rfl
    rw [hword2]
    dsimp only [maskWord2, maskWord3]
    refine ⟨hl h2 (by omega) hzlen, fun i hi => ?_⟩
    rw [hclear h2 (by omega), hword 2 (by omega) h i hi]
    simp only [Bool.and_assoc]
    congr 1
    rw [Bool.eq_iff_iff]
    simp only [Bool.and_eq_true, Bool.or_eq_true, Bool.not_eq_true',
      decide_eq_true_eq, decide_eq_false_iff_not]
    omega
  · have hword3 : maskWords addr p = maskWord3 addr mask := by
      rw [maskWords, ← hmask, h]
      rfl
    rw [hword3]
    dsimp only [maskWord3]
    refine ⟨hl hlen (by omega) hmlen, fun i hi => ?_⟩
    rw [hword 3 (by omega) h i hi]
    congr 1
    rw [Bool.eq_iff_iff]
    simp only [Bool.or_eq_true, decide_eq_true_eq]
    omega

-- ======== addresses

theorem keepsBits_zero (n : Nat) :
    KeepsBits n 0 addr (List.replicate addr.length 0) := by
  refine ⟨List.length_replicate, fun i hi => ?_⟩
  rw [bitAt_zero, decide_eq_false (by omega), Bool.and_false]

theorem keepsBits_all {n : Nat} (h : n ≤ p) : KeepsBits n p addr addr := by
  refine ⟨rfl, fun i hi => ?_⟩
  rw [decide_eq_true (by omega), Bool.and_true]

/-- `client_sane` of a prefix that fits the family: the address with the
bits in front of the prefix length. -/
theorem clientSane_ok (hk : ip.Known) (hp : p ≤ ip.bits) :
    ∃ m, clientSane ip p = some m ∧ m.af = ip.af ∧ m.scope = ip.scope
      ∧ KeepsBits ip.bits p ip.octets m.octets := by
  have hlen := octets_length hk
  have hne : afInet6 ≠ afInet := by decide
  unfold clientSane
  rcases hk with h | h
  · have hbits : ip.bits = 32 := by
      unfold FrIpaddr.bits
      rw [if_pos h]
    rw [if_pos h, if_neg (by omega)]
    by_cases h0 : p = 0
    · rw [if_pos h0, h0]
      refine ⟨_, rfl, rfl, rfl, ?_⟩
      rw [withOctets_octets (by rw [List.length_replicate]; omega),
        show 4 = ip.octets.length by omega]
      exact keepsBits_zero _
    · rw [if_neg h0]
      by_cases h32 : p < 32
      · have hroom : 4 * 0 + 4 ≤ ip.octets.length := by omega
        have hmask : (maskWord p).length = 4 := rfl
        rw [if_pos h32]
        refine ⟨_, rfl, rfl, rfl, ?_⟩
        rw [withOctets_octets (andWord_length hmask hroom), hbits]
        refine ⟨andWord_length hmask hroom, fun i hi => ?_⟩
        rw [bitAt_andWord hmask hroom, if_pos (by omega),
          bitAt_maskWord (by omega) h32 (by omega)]
        rfl
      · rw [if_neg h32]
        exact ⟨_, rfl, rfl, rfl, keepsBits_all (by omega)⟩
  · have hbits : ip.bits = 128 := by
      unfold FrIpaddr.bits
      rw [if_neg (by rw [h]; exact hne)]
    rw [if_neg (by rw [h]; exact hne), if_pos h, if_neg (by omega)]
    by_cases h0 : p = 0
    · rw [if_pos h0, h0]
      refine ⟨_, rfl, rfl, rfl, ?_⟩
      rw [withOctets_octets (by rw [List.length_replicate]; omega),
        show 16 = ip.octets.length by omega]
      exact keepsBits_zero _
    · rw [if_neg h0]
      by_cases h128 : p < 128
      · have hkeeps :=
          maskWords_keeps (show ip.octets.length = 16 by omega) h128
        rw [if_pos h128]
        refine ⟨_, rfl, rfl, rfl, ?_⟩
        rw [withOctets_octets hkeeps.1, hbits]
        exact hkeeps
      · rw [if_neg h128]
        exact ⟨_, rfl, rfl, rfl, keepsBits_all (by omega)⟩

/-- It returns 0 for any other. -/
theorem clientSane_some (h : clientSane ip p = some m) :
    ip.Known ∧ p ≤ ip.bits := by
  unfold clientSane at h
  unfold FrIpaddr.Known FrIpaddr.bits
  by_cases h4 : ip.af = afInet
  · rw [if_pos h4] at h ⊢
    by_cases hp : 32 < p
    · rw [if_pos hp] at h
      cases h
    · exact ⟨Or.inl h4, by omega⟩
  · rw [if_neg h4] at h ⊢
    by_cases h6 : ip.af = afInet6
    · rw [if_pos h6] at h
      by_cases hp : 128 < p
      · rw [if_pos hp] at h
        cases h
      · exact ⟨Or.inr h6, by omega⟩
    · rw [if_neg h6] at h
      cases h

/-- Two addresses of a family and scope are one network at a prefix length
exactly when they agree in that many bits. -/
theorem sameNetwork_iff {a b m n : FrIpaddr} (ha : clientSane a p = some m)
    (hb : clientSane b p = some n) (haf : a.af = b.af)
    (hscope : a.scope = b.scope) :
    ipKey m = ipKey n ↔ SamePrefix p a.octets b.octets := by
  obtain ⟨hka, hpa⟩ := clientSane_some ha
  obtain ⟨hkb, hpb⟩ := clientSane_some hb
  obtain ⟨m', hm', hmaf, hmscope, hmlen, hmbits⟩ := clientSane_ok hka hpa
  obtain ⟨n', hn', hnaf, hnscope, hnlen, hnbits⟩ := clientSane_ok hkb hpb
  rw [ha] at hm'
  rw [hb] at hn'
  cases hm'
  cases hn'
  have hbits : a.bits = b.bits := by
    unfold FrIpaddr.bits
    rw [haf]
  have hla := octets_length hka
  have hlb := octets_length hkb
  rw [ipKey_eq_iff]
  constructor
  · intro ⟨_, _, hoct⟩ i hi
    have hma := hmbits i (by omega)
    have hnb := hnbits i (by omega)
    rw [decide_eq_true hi, Bool.and_true] at hma hnb
    rw [← hma, ← hnb, hoct]
  · intro hsame
    refine ⟨by rw [hmaf, hnaf, haf], fun _ => by rw [hmscope, hnscope, hscope],
      eq_of_bitAt (by omega) fun i hi => ?_⟩
    rw [hmbits i (by omega), hnbits i (by omega)]
    by_cases hip : i < p
    · rw [hsame i hip]
    · rw [decide_eq_false hip, Bool.and_false, Bool.and_false]

end WinRadius
