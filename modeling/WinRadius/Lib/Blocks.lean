/-
Loops that change a buffer block by block: checked stores, the exclusive
or of a digest into a buffer, `for (n = 0; n < len; n += step)`, and the
rules that carry an invariant through it.

A loop body answers `none` for a `return` out of the loop, and a fault
for an access outside the buffer.
-/
import WinRadius.Lib.Bytes

namespace WinRadius.Lib

-- ======== checked stores

/-- `buf[i] = b`. -/
def store (buf : List UInt8) (i : Nat) (b : UInt8) : Mem (List UInt8) :=
  if i < buf.length then pure (buf.set i b) else throw .overwrite

/-- `memcpy(buf + pos, bs, len)`, within the buffer. -/
def storeN (buf : List UInt8) (pos : Nat) (bs : List UInt8) :
    Mem (List UInt8) :=
  if pos + bs.length ≤ buf.length then pure (overlay buf pos bs)
  else throw .overwrite

section stores

variable {buf bs : List UInt8} {i pos src dst : Nat} {b : UInt8}

theorem set_eq_overlay (h : i < buf.length) :
    buf.set i b = overlay buf i [b] := by
  rw [List.set_eq_take_append_cons_drop, if_pos h, overlay,
    List.append_assoc]
  rfl

theorem store_eq_ok (h : i < buf.length) :
    store buf i b = .ok (overlay buf i [b]) := by
  rw [store, if_pos h, set_eq_overlay h]
  rfl

theorem storeN_eq_ok (h : pos + bs.length ≤ buf.length) :
    storeN buf pos bs = .ok (overlay buf pos bs) := by
  rw [storeN, if_pos h]
  rfl

theorem storeN_eq_error (h : buf.length < pos + bs.length) :
    storeN buf pos bs = .error .overwrite := by
  rw [storeN, if_neg (by omega)]
  rfl

/-- The first byte of a block. -/
theorem slice_cons {n k : Nat} (h : n < buf.length) :
    slice buf n (k + 1) = buf[n] :: slice buf (n + 1) k := by
  rw [slice, slice, List.drop_eq_getElem_cons h, List.take_succ_cons]

/-- A byte in front of a block. -/
theorem overlay_cons (h : pos + (b :: bs).length ≤ buf.length) :
    overlay (overlay buf pos [b]) (pos + 1) bs = overlay buf pos (b :: bs) := by
  rw [List.length_cons] at h
  apply List.ext_getElem?
  intro i
  have hl : (overlay buf pos [b]).length = buf.length :=
    overlay_length (by rw [List.length_singleton]; omega)
  rw [getElem?_overlay (by omega),
    getElem?_overlay (by rw [List.length_singleton]; omega),
    getElem?_overlay (by rw [List.length_cons]; omega)]
  simp only [List.length_cons, List.length_nil]
  by_cases hi : i = pos
  · subst hi
    rw [if_neg (by omega), if_pos (by omega), if_pos (by omega)]
    simp
  · by_cases hin : pos + 1 ≤ i ∧ i < pos + 1 + bs.length
    · rw [if_pos hin, if_pos (by omega),
        show i - pos = (i - (pos + 1)) + 1 by omega,
        List.getElem?_cons_succ]
    · rw [if_neg hin, if_neg (by omega), if_neg (by omega)]

/-- `for (i = 0; i < n; i++) buf[dst + i] = buf[src + i] ^ digest[i]`. -/
def xorInto : List UInt8 → Nat → Nat → List UInt8 → Mem (List UInt8)
  | [], _, _, buf => pure buf
  | d :: ds, dst, src, buf => do
      let b ← fetch buf src
      let buf ← store buf dst (b ^^^ d)
      xorInto ds (dst + 1) (src + 1) buf

/-- In place or to the left, what is written is not read again. -/
theorem xorInto_eq_ok (ds : List UInt8) (hle : dst ≤ src)
    (h : src + ds.length ≤ buf.length) :
    xorInto ds dst src buf = .ok (overlay buf dst
      (List.zipWith (· ^^^ ·) (slice buf src ds.length) ds)) := by
  induction ds generalizing buf dst src with
  | nil =>
      rw [xorInto, List.zipWith_nil_right, overlay, List.append_nil,
        List.length_nil, Nat.add_zero, List.take_append_drop]
      rfl
  | cons d ds ih =>
      rw [List.length_cons] at h
      have hsrc : src < buf.length := by omega
      have hset : (overlay buf dst [buf[src] ^^^ d]).length = buf.length :=
        overlay_length (by rw [List.length_singleton]; omega)
      rw [xorInto, fetch_natCast buf src hsrc, ok_bind,
        store_eq_ok (by omega), ok_bind, ih (by omega) (by omega),
        slice_overlay_of_disjoint (by rw [List.length_singleton]; omega)
          (Or.inr (by rw [List.length_singleton]; omega)),
        List.length_cons, slice_cons hsrc, List.zipWith_cons_cons,
        overlay_cons]
      have hl := slice_length (show src + 1 + ds.length ≤ buf.length by omega)
      rw [List.length_cons, List.length_zipWith, hl, Nat.min_self]
      omega

/-- The `n` bytes from `pos` set to zero, one by one. -/
def zeroFrom : Nat → Nat → List UInt8 → Mem (List UInt8)
  | 0, _, buf => pure buf
  | n + 1, pos, buf => do
      let buf ← store buf pos 0
      zeroFrom n (pos + 1) buf

theorem zeroFrom_eq_ok {n : Nat} (h : pos + n ≤ buf.length) :
    zeroFrom n pos buf = .ok (overlay buf pos (List.replicate n 0)) := by
  induction n generalizing buf pos with
  | zero =>
      rw [zeroFrom, List.replicate_zero, overlay, List.append_nil,
        List.length_nil, Nat.add_zero, List.take_append_drop]
      rfl
  | succ n ih =>
      have hset : (overlay buf pos [0]).length = buf.length :=
        overlay_length (by rw [List.length_singleton]; omega)
      rw [zeroFrom, store_eq_ok (by omega), ok_bind, ih (by omega),
        overlay_cons (by rw [List.length_cons, List.length_replicate]; omega),
        List.replicate_succ]

/-- `for (n = i; n >= 0; n--) buf[n + k] = buf[n]`. -/
def shiftRight (k : Nat) : Nat → List UInt8 → Mem (List UInt8)
  | 0, buf => do
      let b ← fetch buf 0
      store buf k b
  | n + 1, buf => do
      let b ← fetch buf ((n + 1 : Nat) : Int)
      let buf ← store buf (n + 1 + k) b
      shiftRight k n buf

/-- From the end, what is overwritten has been copied. -/
theorem shiftRight_eq_ok {k n : Nat} (hk : 0 < k)
    (h : n + k < buf.length) :
    shiftRight k n buf = .ok (overlay buf k (slice buf 0 (n + 1))) := by
  induction n generalizing buf with
  | zero =>
      have h0 : 0 < buf.length := by omega
      have hslice : slice buf 0 1 = [buf[0]] := slice_cons h0
      have hget : fetch buf 0 = .ok buf[0] := fetch_natCast buf 0 h0
      rw [shiftRight, hget, ok_bind, store_eq_ok (by omega), hslice]
  | succ n ih =>
      have hlt : n + 1 < buf.length := by omega
      have hset : (overlay buf (n + 1 + k) [buf[n + 1]]).length
          = buf.length := overlay_length (by rw [List.length_singleton]; omega)
      rw [shiftRight, fetch_natCast buf (n + 1) hlt, ok_bind,
        store_eq_ok (by omega), ok_bind, ih (by omega),
        slice_overlay_of_disjoint (by rw [List.length_singleton]; omega)
          (Or.inl (by omega))]
      have hl := slice_length (show 0 + (n + 1) ≤ buf.length by omega)
      have hl' := slice_length (show 0 + (n + 1 + 1) ≤ buf.length by omega)
      congr 1
      apply List.ext_getElem?
      intro i
      rw [getElem?_overlay (by omega),
        getElem?_overlay (by rw [List.length_singleton]; omega),
        getElem?_overlay (by omega), hl, hl', List.length_singleton,
        getElem?_slice, getElem?_slice]
      by_cases hin : k ≤ i ∧ i < k + (n + 1)
      · rw [if_pos hin, if_pos (by omega), if_pos (by omega),
          if_pos (by omega)]
      · rw [if_neg hin]
        by_cases hlast : i = n + 1 + k
        · subst hlast
          rw [if_pos (by omega), if_pos (by omega), if_pos (by omega),
            Nat.sub_self, List.getElem?_cons_zero,
            show 0 + (n + 1 + k - k) = n + 1 by omega,
            List.getElem?_eq_getElem hlt]
        · rw [if_neg (by omega), if_neg (by omega)]

end stores

-- ======== the loop

section loop

variable {σ : Type} {step len : Nat} {body : Nat → σ → Mem (Option σ)}

/-- `for (n = ..; n < len; n += step)`, with a body that may return out
of it. -/
def forBlocks (step len : Nat) (body : Nat → σ → Mem (Option σ)) :
    Nat → Nat → σ → Mem (Option σ)
  | 0, _, _ => throw .hang
  | fuel + 1, n, s =>
      if n < len then do
        match ← body n s with
        | none => pure none
        | some s' => forBlocks step len body fuel (n + step) s'
      else pure (some s)

/-- The invariant rule: either the body returns, and `Early` says why,
or what it carries from block `k` to block `k + 1` holds after the last
block. -/
theorem forBlocks_cases (P : Nat → σ → Prop) (Early : Prop)
    (hstep : 0 < step)
    (hbody : ∀ k s, step * k < len → P k s →
      (body (step * k) s = .ok none ∧ Early)
        ∨ ∃ s', body (step * k) s = .ok (some s') ∧ P (k + 1) s')
    {fuel k : Nat} {s : σ} (hfuel : len < fuel + k) (h : P k s)
    (hk : k = 0 ∨ step * (k - 1) < len) :
    (forBlocks step len body fuel (step * k) s = .ok none ∧ Early)
      ∨ ∃ s' m, forBlocks step len body fuel (step * k) s = .ok (some s')
        ∧ P m s' ∧ len ≤ step * m ∧ (m = 0 ∨ step * (m - 1) < len) := by
  induction fuel generalizing k s with
  | zero =>
      rcases hk with rfl | hk
      · omega
      · have hm : 1 * (k - 1) ≤ step * (k - 1) :=
          Nat.mul_le_mul_right (k - 1) hstep
        omega
  | succ fuel ih =>
      by_cases hn : step * k < len
      · rw [forBlocks, if_pos hn]
        obtain ⟨hnone, he⟩ | ⟨s1, hs1, hP1⟩ := hbody k s hn h
        · rw [hnone, ok_bind]
          exact Or.inl ⟨rfl, he⟩
        · rw [hs1, ok_bind]
          have hrest := ih (by omega) hP1 (Or.inr hn)
          rw [Nat.mul_add, Nat.mul_one] at hrest
          exact hrest
      · refine Or.inr ⟨s, k, ?_, h, by omega, hk⟩
        rw [forBlocks, if_neg hn]
        rfl

/-- The same for a body that never returns. -/
theorem forBlocks_run (P : Nat → σ → Prop) (hstep : 0 < step)
    (hbody : ∀ k s, step * k < len → P k s →
      ∃ s', body (step * k) s = .ok (some s') ∧ P (k + 1) s')
    {fuel : Nat} {s : σ} (hfuel : len < fuel) (h : P 0 s) :
    ∃ s' m, forBlocks step len body fuel 0 s = .ok (some s')
      ∧ P m s' ∧ len ≤ step * m ∧ (m = 0 ∨ step * (m - 1) < len) := by
  have hcases := forBlocks_cases P False hstep
    (fun k s hn hP => Or.inr (hbody k s hn hP)) hfuel h (Or.inl rfl)
  obtain ⟨-, hfalse⟩ | hrun := hcases
  · exact hfalse.elim
  · exact hrun

/-- A loop that faults in some block faults. -/
theorem forBlocks_fault (P : Nat → σ → Prop) {last : Nat} {e : Fault}
    (hbody : ∀ k s, k < last → P k s →
      ∃ s', body (step * k) s = .ok (some s') ∧ P (k + 1) s')
    (hlast : ∀ s, P last s → body (step * last) s = .error e)
    (hlen : step * last < len) {fuel k : Nat} {s : σ}
    (hfuel : last < fuel + k) (h : P k s) (hk : k ≤ last) :
    forBlocks step len body fuel (step * k) s = .error e := by
  induction fuel generalizing k s with
  | zero => omega
  | succ fuel ih =>
      have hn : step * k < len :=
        Nat.lt_of_le_of_lt (Nat.mul_le_mul_left step hk) hlen
      rw [forBlocks, if_pos hn]
      by_cases hk' : k = last
      · subst hk'
        rw [hlast s h, error_bind]
      · obtain ⟨s1, hs1, hP1⟩ := hbody k s (by omega) h
        have hrest := ih (by omega) hP1 (by omega)
        rw [hs1, ok_bind]
        rw [Nat.mul_add, Nat.mul_one] at hrest
        exact hrest

end loop

end WinRadius.Lib
