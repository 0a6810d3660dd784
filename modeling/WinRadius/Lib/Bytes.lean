/-
Byte strings as program memory: the fixed-width integer codecs, the
checked reads of a buffer, and the in-place overwrite.

# Checked memory

A buffer is a `List UInt8` and a pointer into it an `Int` offset, since
pointer arithmetic on C `int` lengths can leave the buffer on either
side. A read is `fetch`/`fetchN` in `Mem`, which faults outside the
buffer: "reads only inside the buffer" is then "does not fault", for any
program written over these reads.

# Overwrites

`overlay buf pos bs` is `memcpy` into the middle of a buffer. What a
save/patch/restore sequence needs is the algebra at the end of the file:
overlays at one place collapse, overlays at disjoint places commute, and
putting back what was there is the identity.
-/
import Mathlib.Tactic

namespace WinRadius.Lib

-- ======== faults

/-- How a run of C code can go wrong instead of returning. -/
inductive Fault where
  /-- a read outside the buffer the pointer was taken from -/
  | overread
  /-- a write outside the buffer -/
  | overwrite
  /-- a dereference of `NULL` -/
  | nullDeref
  /-- a loop that makes no progress -/
  | hang
deriving Repr, DecidableEq

/-- A computation over checked memory. -/
abbrev Mem (α : Type) := Except Fault α

@[simp] theorem ok_bind {ε α β : Type} (a : α) (f : α → Except ε β) :
    ((Except.ok a : Except ε α) >>= f) = f a := rfl

@[simp] theorem error_bind {ε α β : Type} (e : ε) (f : α → Except ε β) :
    ((Except.error e : Except ε α) >>= f) = .error e := rfl

@[simp] theorem pure_eq_ok {ε α : Type} (a : α) :
    (pure a : Except ε α) = .ok a := rfl

@[simp] theorem throw_eq_error {ε α : Type} (e : ε) :
    (throw e : Except ε α) = .error e := rfl

/-- A sequence succeeds when both halves do: the peeling rule for
`do` blocks. -/
theorem bind_eq_ok {ε α β : Type} {x : Except ε α} {f : α → Except ε β}
    {b : β} : x >>= f = .ok b ↔ ∃ a, x = .ok a ∧ f a = .ok b := by
  cases x with
  | error e => simp
  | ok a => simp

/-- A sequence that fails does so in its first half or, past it, in its
second. -/
theorem bind_eq_error {ε α β : Type} {x : Except ε α}
    {f : α → Except ε β} {e : ε} :
    x >>= f = .error e ↔
      x = .error e ∨ ∃ a, x = .ok a ∧ f a = .error e := by
  cases x with
  | error e' => simp
  | ok a => simp

-- ======== checked reads

/-- `buf[i]`. -/
def fetch (buf : List UInt8) (i : Int) : Mem UInt8 :=
  if i < 0 then throw .overread
  else match buf[i.toNat]? with
    | some b => pure b
    | none => throw .overread

/-- `memcpy(_, buf + i, n)`: the `n` bytes from `i` on. A negative count
is a huge `size_t`. -/
def fetchN (buf : List UInt8) (i n : Int) : Mem (List UInt8) :=
  if i < 0 ∨ n < 0 ∨ (buf.length : Int) < i + n then throw .overread
  else pure ((buf.drop i.toNat).take n.toNat)

/-- A read inside the buffer, located by what precedes it. -/
theorem fetch_eq_ok {buf : List UInt8} {i : Int} {b : UInt8} :
    fetch buf i = .ok b ↔ 0 ≤ i ∧ buf[i.toNat]? = some b := by
  unfold fetch
  split
  · next h =>
      simp only [throw_eq_error, reduceCtorEq, false_iff, not_and]
      omega
  · next h =>
      have hi : 0 ≤ i := by omega
      cases hb : buf[i.toNat]? with
      | none => simp
      | some c => simp [hi]

@[simp] theorem fetch_natCast (buf : List UInt8) (n : Nat)
    (h : n < buf.length) : fetch buf n = .ok buf[n] := by
  rw [fetch_eq_ok]
  simp [h]

/-- In range, a read is the entry, whatever is put for the others. -/
theorem fetch_getD {buf : List UInt8} {n : Nat} (h : n < buf.length) :
    fetch buf n = .ok (buf.getD n 0) := by
  rw [fetch_natCast buf n h, List.getD_eq_getElem?_getD,
    List.getElem?_eq_getElem h]
  rfl

/-- Reading past a known front part. -/
theorem fetch_append {front back : List UInt8} {i : Int} {k : Nat}
    {b : UInt8} (hi : i = front.length + k) (hb : back[k]? = some b) :
    fetch (front ++ back) i = .ok b := by
  have hto : i.toNat = front.length + k := by omega
  rw [fetch_eq_ok]
  refine ⟨by omega, ?_⟩
  rw [hto, List.getElem?_append_right (by omega)]
  simpa using hb

/-- In range, a read succeeds. -/
theorem fetch_isOk {buf : List UInt8} {i : Int} (h0 : 0 ≤ i)
    (h1 : i < buf.length) : ∃ b, fetch buf i = .ok b := by
  have hlt : i.toNat < buf.length := by omega
  exact ⟨buf[i.toNat], by rw [fetch_eq_ok]; simp [h0, hlt]⟩

theorem fetchN_eq_ok {buf : List UInt8} {i n : Int} {bs : List UInt8} :
    fetchN buf i n = .ok bs ↔
      0 ≤ i ∧ 0 ≤ n ∧ i + n ≤ buf.length
        ∧ bs = (buf.drop i.toNat).take n.toNat := by
  unfold fetchN
  split
  · next h =>
      simp only [throw_eq_error, reduceCtorEq, false_iff, not_and]
      omega
  · next h =>
      simp only [pure_eq_ok, Except.ok.injEq]
      constructor
      · intro hbs
        exact ⟨by omega, by omega, by omega, hbs.symm⟩
      · rintro ⟨-, -, -, hbs⟩
        exact hbs.symm

/-- Block reads fail exactly by running over the buffer. -/
theorem fetchN_eq_error {buf : List UInt8} {i n : Int} {e : Fault} :
    fetchN buf i n = .error e ↔
      e = .overread ∧ (i < 0 ∨ n < 0 ∨ (buf.length : Int) < i + n) := by
  unfold fetchN
  split
  · next h =>
      simp only [throw_eq_error, Except.error.injEq]
      exact ⟨fun he => ⟨he.symm, h⟩, fun he => he.1.symm⟩
  · next h =>
      simp only [pure_eq_ok, reduceCtorEq, false_iff, not_and]
      exact fun _ => h

theorem fetchN_length {buf : List UInt8} {i n : Int} {bs : List UInt8}
    (h : fetchN buf i n = .ok bs) : (bs.length : Int) = n := by
  obtain ⟨h0, hn, hle, rfl⟩ := fetchN_eq_ok.mp h
  rw [List.length_take, List.length_drop]
  omega

/-- Reading a known middle part. -/
theorem fetchN_append {front mid back : List UInt8} {i n : Int}
    (hi : i = front.length) (hn : n = mid.length) :
    fetchN (front ++ (mid ++ back)) i n = .ok mid := by
  rw [fetchN_eq_ok]
  refine ⟨by omega, by omega, by simp; omega, ?_⟩
  subst hi hn
  simp

/-- Reading a whole buffer. -/
theorem fetchN_all {buf : List UInt8} :
    fetchN buf 0 buf.length = .ok buf := by
  rw [fetchN_eq_ok]
  exact ⟨by omega, by omega, by omega, by simp⟩

-- ======== codecs

/-- The 32-bit integer in network order. -/
def be32 (v : UInt32) : List UInt8 :=
  [UInt8.ofNat (v.toNat / 16777216), UInt8.ofNat (v.toNat / 65536),
    UInt8.ofNat (v.toNat / 256), UInt8.ofNat v.toNat]

/-- The 32-bit integer as a little-endian host stores it. -/
def le32 (v : UInt32) : List UInt8 := (be32 v).reverse

/-- Four bytes read in network order. -/
def ofBe32 (bs : List UInt8) : UInt32 :=
  UInt32.ofNat ((bs.getD 0 0).toNat * 16777216
    + (bs.getD 1 0).toNat * 65536 + (bs.getD 2 0).toNat * 256
    + (bs.getD 3 0).toNat)

/-- Four bytes read as a little-endian host does. -/
def ofLe32 (bs : List UInt8) : UInt32 :=
  UInt32.ofNat ((bs.getD 3 0).toNat * 16777216
    + (bs.getD 2 0).toNat * 65536 + (bs.getD 1 0).toNat * 256
    + (bs.getD 0 0).toNat)

/-- The 16-bit integer in network order. -/
def be16 (n : Nat) : List UInt8 := [UInt8.ofNat (n / 256), UInt8.ofNat n]

@[simp] theorem be32_length (v : UInt32) : (be32 v).length = 4 := rfl

@[simp] theorem le32_length (v : UInt32) : (le32 v).length = 4 := rfl

@[simp] theorem be16_length (n : Nat) : (be16 n).length = 2 := rfl

theorem ofBe32_be32 (v : UInt32) : ofBe32 (be32 v) = v := by
  have hv := v.toNat_lt
  apply UInt32.toNat_inj.mp
  simp only [ofBe32, be32, List.getD_cons_zero, List.getD_cons_succ,
    UInt32.toNat_ofNat', UInt8.toNat_ofNat']
  omega

theorem ofLe32_le32 (v : UInt32) : ofLe32 (le32 v) = v := by
  have hv := v.toNat_lt
  apply UInt32.toNat_inj.mp
  simp only [ofLe32, le32, be32, List.reverse_cons, List.reverse_nil,
    List.nil_append, List.cons_append, List.getD_cons_zero,
    List.getD_cons_succ, UInt32.toNat_ofNat', UInt8.toNat_ofNat']
  omega

/-- Four bytes are written back as they were read. -/
theorem be32_ofBe32 {bs : List UInt8} (h : bs.length = 4) :
    be32 (ofBe32 bs) = bs := by
  obtain ⟨a, b, c, d, rfl⟩ : ∃ a b c d, bs = [a, b, c, d] := by
    match bs, h with
    | [a, b, c, d], _ => exact ⟨a, b, c, d, rfl⟩
  have ha := a.toNat_lt
  have hb := b.toNat_lt
  have hc := c.toNat_lt
  have hd := d.toNat_lt
  have hn : (ofBe32 [a, b, c, d]).toNat = a.toNat * 16777216
      + b.toNat * 65536 + c.toNat * 256 + d.toNat := by
    simp only [ofBe32, List.getD_cons_zero, List.getD_cons_succ,
      UInt32.toNat_ofNat']
    omega
  simp only [be32, hn, List.cons.injEq, and_true]
  refine ⟨?_, ?_, ?_, ?_⟩ <;>
    · apply UInt8.toNat_inj.mp
      rw [UInt8.toNat_ofNat']
      omega

theorem le32_ofLe32 {bs : List UInt8} (h : bs.length = 4) :
    le32 (ofLe32 bs) = bs := by
  obtain ⟨a, b, c, d, rfl⟩ := List.length_eq_four.mp h
  have ha := a.toNat_lt
  have hb := b.toNat_lt
  have hc := c.toNat_lt
  have hd := d.toNat_lt
  simp only [le32, be32, ofLe32, List.getD_cons_zero,
    List.getD_cons_succ, List.reverse_cons, List.reverse_nil,
    List.nil_append, List.cons_append, List.cons.injEq, and_true,
    ← UInt8.toNat_inj, UInt8.toNat_ofNat', UInt32.toNat_ofNat']
  omega

/-- Without its first byte. -/
theorem ofBe32_masked {bs : List UInt8} (hb : bs.length = 4) :
    ofBe32 bs &&& 0x00ffffff = ofBe32 (0 :: bs.tail) := by
  obtain ⟨a, b, c, d, rfl⟩ := List.length_eq_four.mp hb
  have ha := a.toNat_lt
  have hb := b.toNat_lt
  have hc := c.toNat_lt
  have hd := d.toNat_lt
  have hmask (n : Nat) : n &&& 0xffffff = n % 16777216 := by
    rw [show 0xffffff = 2 ^ 24 - 1 by rfl, Nat.and_two_pow_sub_one_eq_mod]
  apply UInt32.toNat_inj.mp
  rw [UInt32.toNat_and]
  simp only [ofBe32, List.tail_cons, List.getD_cons_zero,
    List.getD_cons_succ, UInt32.toNat_ofNat', UInt8.toNat_zero]
  rw [show (0xffffff : UInt32).toNat = 0xffffff by rfl, hmask]
  omega

/-- Reading one order what was written in the other swaps the bytes. -/
def byteSwap32 (v : UInt32) : UInt32 := ofBe32 (le32 v)

-- ======== alignment

/-- `n += 3; n &= ~3`: the next multiple of four. -/
def roundUp4 (n : Nat) : Nat := (n + 3) / 4 * 4

theorem le_roundUp4 (n : Nat) : n ≤ roundUp4 n := by
  unfold roundUp4
  omega

theorem roundUp4_lt (n : Nat) : roundUp4 n < n + 4 := by
  unfold roundUp4
  omega

theorem roundUp4_mod (n : Nat) : roundUp4 n % 4 = 0 := by
  unfold roundUp4
  omega

/-- Rounding up after a multiple of four rounds up what comes after. -/
theorem roundUp4_add {m : Nat} (h : m % 4 = 0) (n : Nat) :
    roundUp4 (m + n) = m + roundUp4 n := by
  unfold roundUp4
  omega

-- ======== zero fill

/-- The first `n` bytes of a buffer whose unwritten tail is zero. -/
def padTake (n : Nat) (bs : List UInt8) : List UInt8 :=
  bs.take n ++ List.replicate (n - bs.length) 0

@[simp] theorem padTake_length (n : Nat) (bs : List UInt8) :
    (padTake n bs).length = n := by
  simp only [padTake, List.length_append, List.length_take,
    List.length_replicate]
  omega

theorem padTake_of_le {n : Nat} {bs : List UInt8} (h : n ≤ bs.length) :
    padTake n bs = bs.take n := by
  simp [padTake, Nat.sub_eq_zero_of_le h]

theorem padTake_self (bs : List UInt8) : padTake bs.length bs = bs := by
  rw [padTake_of_le (Nat.le_refl _), List.take_length]

theorem padTake_append (bs more : List UInt8) :
    padTake bs.length (bs ++ more) = bs := by
  rw [padTake_of_le (by simp), List.take_left]

theorem padTake_take {m n : Nat} {bs : List UInt8} (h : m ≤ n) :
    padTake m bs = (padTake n bs).take m := by
  simp only [padTake, List.take_append, List.take_take,
    List.length_take, List.take_replicate]
  rw [Nat.min_eq_left h]
  congr 2
  omega

-- ======== overwrites

/-- `n` bytes of a buffer from `pos` on. -/
def slice (buf : List UInt8) (pos n : Nat) : List UInt8 :=
  (buf.drop pos).take n

/-- `memcpy(buf + pos, bs, len)`. -/
def overlay (buf : List UInt8) (pos : Nat) (bs : List UInt8) :
    List UInt8 :=
  buf.take pos ++ bs ++ buf.drop (pos + bs.length)

section overlay

variable {buf a b : List UInt8} {p q n : Nat}

theorem slice_length (h : p + n ≤ buf.length) :
    (slice buf p n).length = n := by
  rw [slice, List.length_take, List.length_drop]
  omega

theorem overlay_length (h : p + a.length ≤ buf.length) :
    (overlay buf p a).length = buf.length := by
  simp only [overlay, List.length_append, List.length_take,
    List.length_drop]
  omega

/-- Pointwise reading of an overwritten buffer. -/
theorem getElem?_overlay (h : p + a.length ≤ buf.length) (i : Nat) :
    (overlay buf p a)[i]? =
      if p ≤ i ∧ i < p + a.length then a[i - p]? else buf[i]? := by
  have hp : (buf.take p).length = p := by
    rw [List.length_take]
    omega
  unfold overlay
  rw [List.append_assoc]
  rcases Nat.lt_or_ge i p with hi | hi
  · rw [List.getElem?_append_left (by omega), List.getElem?_take,
      if_pos hi, if_neg (by omega)]
  · rw [List.getElem?_append_right (by omega), hp]
    rcases Nat.lt_or_ge i (p + a.length) with hj | hj
    · rw [List.getElem?_append_left (by omega), if_pos ⟨hi, hj⟩]
    · rw [List.getElem?_append_right (by omega), if_neg (by omega),
        List.getElem?_drop]
      congr 1
      omega

theorem getElem?_slice (i : Nat) :
    (slice buf p n)[i]? = if i < n then buf[p + i]? else none := by
  unfold slice
  rw [List.getElem?_take, List.getElem?_drop]

/-- The second of two writes to one place wins. -/
theorem overlay_overlay (h : p + a.length ≤ buf.length)
    (hab : a.length = b.length) :
    overlay (overlay buf p a) p b = overlay buf p b := by
  apply List.ext_getElem?
  intro i
  rw [getElem?_overlay (by rw [overlay_length h]; omega),
    getElem?_overlay h, getElem?_overlay (by omega)]
  split
  · rfl
  · rw [if_neg (by omega)]

/-- Putting back what is there changes nothing. -/
theorem overlay_slice (h : p + n ≤ buf.length) :
    overlay buf p (slice buf p n) = buf := by
  have hl := slice_length h
  apply List.ext_getElem?
  intro i
  rw [getElem?_overlay (by omega), hl]
  split
  · next hi =>
      rw [getElem?_slice, if_pos (by omega)]
      congr 1
      omega
  · rfl

/-- Writes to disjoint places commute. -/
theorem overlay_comm (hp : p + a.length ≤ q)
    (hq : q + b.length ≤ buf.length) :
    overlay (overlay buf p a) q b = overlay (overlay buf q b) p a := by
  apply List.ext_getElem?
  intro i
  rw [getElem?_overlay (by rw [overlay_length (by omega)]; omega),
    getElem?_overlay (by omega),
    getElem?_overlay (by rw [overlay_length (by omega)]; omega),
    getElem?_overlay (by omega)]
  split
  · rw [if_neg (by omega)]
  · rfl

variable (buf) in
/-- What was written is read back. -/
theorem slice_overlay (h : p + a.length ≤ buf.length) :
    slice (overlay buf p a) p a.length = a := by
  apply List.ext_getElem?
  intro i
  rw [getElem?_slice]
  split
  · next hi =>
      rw [getElem?_overlay h, if_pos (by omega)]
      congr 1
      omega
  · next hi =>
      rw [List.getElem?_eq_none_iff.mpr (by omega)]

/-- A read that does not meet the written range sees the old bytes. -/
theorem slice_overlay_of_disjoint (h : p + a.length ≤ buf.length)
    (hd : q + n ≤ p ∨ p + a.length ≤ q) :
    slice (overlay buf p a) q n = slice buf q n := by
  apply List.ext_getElem?
  intro i
  rw [getElem?_slice, getElem?_slice]
  split
  · rw [getElem?_overlay h, if_neg (by omega)]
  · rfl

/-- Bytes behind a write are as they were. -/
theorem drop_overlay (hp : p + a.length ≤ n)
    (h : p + a.length ≤ buf.length) :
    (overlay buf p a).drop n = buf.drop n := by
  apply List.ext_getElem?
  intro i
  rw [List.getElem?_drop, List.getElem?_drop, getElem?_overlay h,
    if_neg (by omega)]

/-- A write into the front part stays there. -/
theorem overlay_append_left {x y : List UInt8}
    (h : p + a.length ≤ x.length) :
    overlay (x ++ y) p a = overlay x p a ++ y := by
  simp only [overlay]
  rw [List.take_append_of_le_length (by omega),
    List.drop_append_of_le_length (by omega), List.append_assoc]
  simp only [List.append_assoc]

/-- Overwriting a known middle part. -/
theorem overlay_append_mid {x y : List UInt8} (old new : List UInt8)
    (h : old.length = new.length) :
    overlay (x ++ (old ++ y)) x.length new = x ++ (new ++ y) := by
  simp only [overlay]
  rw [List.take_left, ← h, ← List.drop_drop, List.drop_left,
    List.drop_left, List.append_assoc]

/-- One block behind another. -/
theorem overlay_behind (h : p + a.length ≤ buf.length) :
    overlay (overlay buf p a) (p + a.length) b = overlay buf p (a ++ b) := by
  have hl : (buf.take p ++ a).length = p + a.length := by
    rw [List.length_append, List.length_take, Nat.min_eq_left (by omega)]
  have htake : (overlay buf p a).take (p + a.length) = buf.take p ++ a := by
    rw [overlay, ← hl, List.take_left]
  have hdrop : (overlay buf p a).drop (p + a.length + b.length)
      = buf.drop (p + (a ++ b).length) := by
    have hleft : (overlay buf p a).drop (p + a.length)
        = buf.drop (p + a.length) := by
      rw [overlay, ← hl, List.drop_left, hl]
    rw [← List.drop_drop, hleft, List.drop_drop, List.length_append,
      Nat.add_assoc]
  rw [overlay, htake, hdrop, overlay]
  simp only [List.append_assoc]

/-- What is written at the start is there. -/
theorem take_overlay_start : (overlay buf 0 a).take a.length = a := by
  rw [overlay, List.take_zero, List.nil_append, List.take_left]

end overlay

end WinRadius.Lib
