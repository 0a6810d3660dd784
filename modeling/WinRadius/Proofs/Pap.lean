/-
What `normify` makes of a password.

# Base64

`base64_decode` reads all groups but the last in a loop that ends at a
group with another character, and the last one without a look at what
`decode_it` returns. Of a text that is an encoding it reads all, and gives
the bytes it is an encoding of.

# Other texts

The number of groups and of the `=` behind them says how much is written
and what is returned, whatever the characters are. They are those of the
whole text, which may go on behind the value. `Base64Fits` is that this
stays within the buffer, is not negative, and is no password unless the
value is an encoding of as many bytes; `HexFits` says the same of values in
hex.
-/
import WinRadius.Lib.Base64
import WinRadius.Model.Pap
import WinRadius.Proofs.PairmakeAny

namespace WinRadius

open Lib Lib.Base64

-- ======== chunks

theorem chunkDigit_of_sextet {c : UInt8} {n : Nat} (h : sextet c = some n) :
    chunkDigit c = some n := by
  unfold sextet at h
  unfold chunkDigit
  split
  · next hc => rwa [if_pos hc] at h
  · next hc =>
      rw [if_neg hc] at h
      split
      · next hd => rwa [if_pos hd] at h
      · next hd =>
          rw [if_neg hd] at h
          split
          · next he => rwa [if_pos he] at h
          · next he =>
              rw [if_neg he] at h
              split
              · next hf => rwa [if_pos hf] at h
              · next hf =>
                  rw [if_neg hf] at h
                  split
                  · next hg => rwa [if_pos hg] at h
                  · next hg =>
                      rw [if_neg hg] at h
                      cases h

theorem chunkDigit_pad : chunkDigit pad = some 0 := rfl

theorem decodeIt_digits {a b c d : UInt8} {x y z u : Nat}
    (ha : chunkDigit a = some x) (hb : chunkDigit b = some y)
    (hc : chunkDigit c = some z) (hd : chunkDigit d = some u)
    (rest : List UInt8) :
    decodeIt (a :: b :: c :: d :: rest)
      = some (threeBytes (digits x y z u)) := by
  simp only [decodeIt, ha, hb, hc, hd]
  rfl

theorem decodeIt_length {src bytes : List UInt8}
    (h : decodeIt src = some bytes) : bytes.length = 3 := by
  unfold decodeIt at h
  split at h
  · simp only [Option.bind_eq_bind, Option.bind_eq_some_iff] at h
    obtain ⟨x, -, y, -, z, -, u, -, h⟩ := h
    rw [← Option.some.inj h]
    rfl
  · cases h

/-- How many of the first `n` groups are read. -/
def goodChunks : Nat → List UInt8 → Nat
  | 0, _ => 0
  | n + 1, src =>
      match decodeIt src with
      | none => 0
      | some _ => goodChunks n (src.drop 4) + 1

/-- The bytes of the first `n` groups. -/
def chunkBytes : Nat → List UInt8 → Option (List UInt8)
  | 0, _ => some []
  | n + 1, src => do
      let chunk ← decodeIt src
      let bytes ← chunkBytes n (src.drop 4)
      return chunk ++ bytes

theorem chunkBytes_succ_eq_some {n : Nat} {src all : List UInt8} :
    chunkBytes (n + 1) src = some all ↔ ∃ chunk bytes,
      decodeIt src = some chunk ∧ chunkBytes n (src.drop 4) = some bytes
        ∧ all = chunk ++ bytes := by
  rw [chunkBytes]
  simp only [Option.bind_eq_bind, Option.bind_eq_some_iff]
  constructor
  · rintro ⟨chunk, hchunk, bytes, hbytes, hall⟩
    exact ⟨chunk, bytes, hchunk, hbytes, (Option.some.inj hall).symm⟩
  · rintro ⟨chunk, bytes, hchunk, hbytes, rfl⟩
    exact ⟨chunk, hchunk, bytes, hbytes, rfl⟩

theorem chunkBytes_length {n : Nat} {src all : List UInt8}
    (h : chunkBytes n src = some all) : all.length = 3 * n := by
  induction n generalizing src all with
  | zero =>
      cases h
      rfl
  | succ n ih =>
      obtain ⟨chunk, bytes, hchunk, hbytes, rfl⟩ :=
        chunkBytes_succ_eq_some.mp h
      rw [List.length_append, decodeIt_length hchunk, ih hbytes]
      omega

/-- Groups one behind the other. -/
theorem chunkBytes_add {m n : Nat} {src all : List UInt8} :
    chunkBytes (m + n) src = some all ↔ ∃ front back,
      chunkBytes m src = some front
        ∧ chunkBytes n (src.drop (4 * m)) = some back
        ∧ all = front ++ back := by
  induction m generalizing src all with
  | zero =>
      rw [Nat.zero_add, Nat.mul_zero, List.drop_zero]
      constructor
      · exact fun h => ⟨[], all, rfl, h, rfl⟩
      · rintro ⟨front, back, hfront, hback, rfl⟩
        cases hfront
        exact hback
  | succ m ih =>
      rw [Nat.succ_add, chunkBytes_succ_eq_some]
      constructor
      · rintro ⟨chunk, bytes, hchunk, hbytes, rfl⟩
        obtain ⟨front, back, hfront, hback, rfl⟩ := ih.mp hbytes
        rw [List.drop_drop] at hback
        refine ⟨chunk ++ front, back, chunkBytes_succ_eq_some.mpr
          ⟨chunk, front, hchunk, hfront, rfl⟩, ?_,
          (List.append_assoc ..).symm⟩
        rwa [show 4 * (m + 1) = 4 + 4 * m by omega]
      · rintro ⟨front, back, hfront, hback, rfl⟩
        obtain ⟨chunk, bytes, hchunk, hbytes, rfl⟩ :=
          chunkBytes_succ_eq_some.mp hfront
        refine ⟨chunk, bytes ++ back, hchunk, ih.mpr
          ⟨bytes, back, hbytes, ?_, rfl⟩, List.append_assoc ..⟩
        rwa [List.drop_drop, show 4 + 4 * m = 4 * (m + 1) by omega]

/-- All groups have bytes when each is read. -/
theorem exists_chunkBytes_iff {n : Nat} {src : List UInt8} :
    (∃ all, chunkBytes n src = some all) ↔ goodChunks n src = n := by
  induction n generalizing src with
  | zero => exact iff_of_true ⟨[], rfl⟩ rfl
  | succ n ih =>
      unfold goodChunks
      cases hd : decodeIt src with
      | none =>
          refine iff_of_false ?_ (Nat.succ_ne_zero n).symm
          rintro ⟨all, h⟩
          obtain ⟨chunk, bytes, hchunk, -⟩ := chunkBytes_succ_eq_some.mp h
          cases hd.symm.trans hchunk
      | some chunk =>
          dsimp only
          rw [Nat.add_right_cancel_iff, ← ih]
          constructor
          · rintro ⟨all, h⟩
            obtain ⟨_, bytes, -, hbytes, -⟩ := chunkBytes_succ_eq_some.mp h
            exact ⟨bytes, hbytes⟩
          · rintro ⟨bytes, hbytes⟩
            exact ⟨_, chunkBytes_succ_eq_some.mpr
              ⟨chunk, bytes, hd, hbytes, rfl⟩⟩

/-- The loop writes the groups that it reads. -/
theorem base64Loop_run {n : Nat} {src dst : List UInt8} {pos : Nat}
    (h : pos + 3 * goodChunks n src ≤ dst.length) :
    ∃ bytes, chunkBytes (goodChunks n src) src = some bytes
      ∧ base64Loop n src pos dst
        = .ok (decide (goodChunks n src = n),
          src.drop (4 * goodChunks n src), pos + 3 * goodChunks n src,
          overlay dst pos bytes) := by
  induction n generalizing src dst pos with
  | zero =>
      refine ⟨[], rfl, ?_⟩
      simp [base64Loop, goodChunks, overlay]
  | succ n ih =>
      unfold goodChunks at h ⊢
      unfold base64Loop
      cases hd : decodeIt src with
      | none => exact ⟨[], rfl, by simp [overlay]⟩
      | some chunk =>
          have hc := decodeIt_length hd
          rw [hd] at h
          dsimp only at h
          have hset : (overlay dst pos chunk).length = dst.length :=
            overlay_length (by omega)
          obtain ⟨bytes, hlen, hrun⟩ := @ih (src.drop 4)
            (overlay dst pos chunk) (pos + 3) (by omega)
          refine ⟨chunk ++ bytes, chunkBytes_succ_eq_some.mpr
            ⟨chunk, bytes, hd, hlen, rfl⟩, ?_⟩
          · dsimp only
            rw [storeN_eq_ok (by omega), ok_bind, hrun, List.drop_drop,
              ← overlay_behind (by omega), hc]
            simp only [Nat.add_right_cancel_iff]
            congr 4
            · ring
            · ring

/-- It writes behind the end as soon as it has read too many. -/
theorem base64Loop_overflows {n : Nat} {src dst : List UInt8} {pos : Nat}
    (hpos : pos ≤ dst.length)
    (h : dst.length < pos + 3 * goodChunks n src) :
    base64Loop n src pos dst = .error .overwrite := by
  induction n generalizing src dst pos with
  | zero =>
      unfold goodChunks at h
      omega
  | succ n ih =>
      unfold goodChunks at h
      unfold base64Loop
      cases hd : decodeIt src with
      | none =>
          rw [hd] at h
          dsimp only at h
          omega
      | some chunk =>
          have hc := decodeIt_length hd
          rw [hd] at h
          dsimp only at h ⊢
          by_cases hroom : pos + chunk.length ≤ dst.length
          · have hset : (overlay dst pos chunk).length = dst.length :=
              overlay_length hroom
            rw [storeN_eq_ok hroom, ok_bind]
            exact ih (by omega) (by omega)
          · rw [storeN_eq_error (by omega)]
            rfl

-- ======== texts

theorem body_of_sextet {c : UInt8} {n : Nat} (h : sextet c = some n) :
    c ≠ 0 ∧ c ≠ 61 := by
  constructor
  · rintro rfl
    cases h
  · rintro rfl
    cases h

theorem base64Length_cons {c : UInt8} (h : c ≠ 0 ∧ c ≠ 61)
    (src : List UInt8) : base64Length (c :: src) = base64Length src + 1 := by
  rw [base64Length, List.takeWhile_cons_of_pos (by simpa using h),
    List.length_cons]
  rfl

theorem base64Equals_cons {c : UInt8} (h : c ≠ 0 ∧ c ≠ 61)
    (src : List UInt8) : base64Equals (c :: src) = base64Equals src := by
  rw [base64Equals, base64Length_cons h, List.drop_succ_cons]
  rfl

/-- Four letters in front of a text. -/
theorem base64_letters {a b c d : UInt8} {x y z u : Nat}
    (ha : sextet a = some x) (hb : sextet b = some y)
    (hc : sextet c = some z) (hd : sextet d = some u) (src : List UInt8) :
    base64Length (a :: b :: c :: d :: src) = base64Length src + 4
      ∧ base64Equals (a :: b :: c :: d :: src) = base64Equals src := by
  rw [base64Length_cons (body_of_sextet ha),
    base64Length_cons (body_of_sextet hb),
    base64Length_cons (body_of_sextet hc),
    base64Length_cons (body_of_sextet hd),
    base64Equals_cons (body_of_sextet ha),
    base64Equals_cons (body_of_sextet hb),
    base64Equals_cons (body_of_sextet hc),
    base64Equals_cons (body_of_sextet hd)]
  exact ⟨rfl, rfl⟩

/-- The ends of a text that is an encoding. -/
theorem base64_ends (rest : List UInt8) :
    base64Length (0 :: rest) = 0 ∧ base64Equals (0 :: rest) = 0
      ∧ base64Length (pad :: 0 :: rest) = 0
      ∧ base64Equals (pad :: 0 :: rest) = 1
      ∧ base64Length (pad :: pad :: 0 :: rest) = 0
      ∧ base64Equals (pad :: pad :: 0 :: rest) = 2 :=
  ⟨rfl, rfl, rfl, rfl, rfl, rfl⟩

/-- The two counts of a text that is an encoding. -/
theorem Decodes_counts {text bytes : List UInt8} (h : Decodes text bytes)
    (rest : List UInt8) :
    base64Length (text ++ 0 :: rest) + base64Equals (text ++ 0 :: rest)
        = text.length
      ∧ base64Equals (text ++ 0 :: rest) ≤ 2
      ∧ bytes.length + base64Equals (text ++ 0 :: rest)
        = 3 * (text.length / 4) := by
  obtain ⟨hl0, he0, hl1, he1, hl2, he2⟩ := base64_ends rest
  induction h with
  | nil =>
      rw [List.nil_append, hl0, he0]
      exact ⟨rfl, Nat.zero_le _, rfl⟩
  | @three a b c d x y z u text bytes ha hb hc hd h ih =>
      obtain ⟨hl, he⟩ := base64_letters ha hb hc hd (text ++ 0 :: rest)
      obtain ⟨h1, h2, h3⟩ := ih
      simp only [List.cons_append, hl, he, List.length_cons,
        List.length_append, threeBytes, List.length_nil]
      omega
  | @two a b c x y z ha hb hc =>
      simp only [List.cons_append, List.nil_append,
        base64Length_cons (body_of_sextet ha),
        base64Length_cons (body_of_sextet hb),
        base64Length_cons (body_of_sextet hc),
        base64Equals_cons (body_of_sextet ha),
        base64Equals_cons (body_of_sextet hb),
        base64Equals_cons (body_of_sextet hc), hl1, he1]
      exact ⟨rfl, Nat.le_succ _, by simp [threeBytes]⟩
  | @one a b x y ha hb =>
      simp only [List.cons_append, List.nil_append,
        base64Length_cons (body_of_sextet ha),
        base64Length_cons (body_of_sextet hb),
        base64Equals_cons (body_of_sextet ha),
        base64Equals_cons (body_of_sextet hb), hl2, he2]
      exact ⟨rfl, Nat.le_refl _, by simp [threeBytes]⟩

/-- The groups of a text that is an encoding start with the bytes. -/
theorem Decodes_chunks {text bytes : List UInt8} (h : Decodes text bytes)
    (rest : List UInt8) :
    ∃ all, chunkBytes (text.length / 4) (text ++ rest) = some all
      ∧ all.take bytes.length = bytes := by
  induction h with
  | nil => exact ⟨[], rfl, rfl⟩
  | @three a b c d x y z u text bytes ha hb hc hd h ih =>
      obtain ⟨all, hall, htake⟩ := ih
      have hn : (a :: b :: c :: d :: text).length / 4
          = text.length / 4 + 1 := by
        simp only [List.length_cons]
        omega
      rw [hn]
      refine ⟨_, chunkBytes_succ_eq_some.mpr ⟨_, all, decodeIt_digits
        (chunkDigit_of_sextet ha) (chunkDigit_of_sextet hb)
        (chunkDigit_of_sextet hc) (chunkDigit_of_sextet hd) _, hall, rfl⟩, ?_⟩
      rw [List.length_append, List.take_length_add_append, htake]
  | @two a b c x y z ha hb hc =>
      have hchunk := decodeIt_digits (chunkDigit_of_sextet ha)
        (chunkDigit_of_sextet hb) (chunkDigit_of_sextet hc) chunkDigit_pad
        rest
      have hone : [a, b, c, pad].length / 4 = 0 + 1 := by simp
      rw [hone]
      exact ⟨_, chunkBytes_succ_eq_some.mpr ⟨_, [], hchunk, rfl, rfl⟩, rfl⟩
  | @one a b x y ha hb =>
      have hchunk := decodeIt_digits (chunkDigit_of_sextet ha)
        (chunkDigit_of_sextet hb) chunkDigit_pad chunkDigit_pad rest
      have hone : [a, b, pad, pad].length / 4 = 0 + 1 := by simp
      rw [hone]
      exact ⟨_, chunkBytes_succ_eq_some.mpr ⟨_, [], hchunk, rfl, rfl⟩, rfl⟩

-- ======== any text

section anyText

variable {src dst last : List UInt8}

/-- What is written behind the loop. -/
theorem lastChunk_length (src : List UInt8) (equals : Nat)
    (h : last.length = 3) :
    (((decodeIt src).getD last).take (3 - equals)).length = 3 - equals := by
  have hthree : ((decodeIt src).getD last).length = 3 := by
    cases hd : decodeIt src with
    | none => exact h
    | some chunk => exact decodeIt_length hd
  rw [List.length_take, hthree]
  omega

/-- A group in the loop is not one. -/
theorem base64Decode_stops
    (h : goodChunks (base64Num src - 1) src ≠ base64Num src - 1)
    (hroom : 3 * goodChunks (base64Num src - 1) src ≤ dst.length) :
    ∃ dst', base64Decode src dst last = .ok (0, dst')
      ∧ dst'.length = dst.length := by
  obtain ⟨bytes, hbytes, hrun⟩ :=
    @base64Loop_run (base64Num src - 1) src dst 0 (by omega)
  have hlen := chunkBytes_length hbytes
  refine ⟨overlay dst 0 bytes, ?_, overlay_length (by omega)⟩
  unfold base64Decode
  simp only [hrun, ok_bind, h, decide_false, if_true, pure_eq_ok]

/-- The bytes of the groups, with those of `last` where `decode_it` turns
down the last one. -/
def groupBytes (src last front : List UInt8) : List UInt8 :=
  front ++ (decodeIt (src.drop (4 * (base64Num src - 1)))).getD last

/-- The loop comes to its end. -/
theorem base64Decode_ends {front : List UInt8}
    (h : chunkBytes (base64Num src - 1) src = some front)
    (hlast : last.length = 3)
    (hroom : 3 * (base64Num src - 1) + (3 - base64Equals src) ≤ dst.length) :
    ∃ dst', base64Decode src dst last
        = .ok ((base64Num src : Int) * 3 - (base64Equals src : Int), dst')
      ∧ dst'.length = dst.length
      ∧ ∀ m, m + base64Equals src = 3 * base64Num src →
        dst'.take m = (groupBytes src last front).take m := by
  have hgood := exists_chunkBytes_iff.mp ⟨front, h⟩
  obtain ⟨bytes, hbytes, hrun⟩ :=
    @base64Loop_run (base64Num src - 1) src dst 0 (by omega)
  rw [hgood] at hbytes hrun
  obtain rfl : bytes = front := Option.some.inj (hbytes.symm.trans h)
  have hlen := chunkBytes_length h
  have hset : (overlay dst 0 bytes).length = dst.length :=
    overlay_length (by omega)
  have hstore := lastChunk_length (src.drop (4 * (base64Num src - 1)))
    (base64Equals src) hlast
  unfold base64Decode
  simp only [hrun, ok_bind, decide_true, reduceCtorEq, if_false, pure_eq_ok]
  rw [storeN_eq_ok (by omega), ok_bind]
  refine ⟨_, rfl, (overlay_length (by omega)).trans hset, ?_⟩
  intro m hm
  rw [Nat.zero_add, ← hlen]
  generalize hchunk : (decodeIt (src.drop (4 * (base64Num src - 1)))).getD
    last = chunk at hstore ⊢
  have hover : overlay (overlay dst 0 bytes) bytes.length
        (chunk.take (3 - base64Equals src))
      = overlay dst 0 (bytes ++ chunk.take (3 - base64Equals src)) := by
    rw [← overlay_behind (by omega), Nat.zero_add]
  have hm' : m ≤ (bytes ++ chunk.take (3 - base64Equals src)).length := by
    rw [List.length_append, hstore]
    omega
  rw [hover, ← Nat.min_eq_left hm', ← List.take_take, take_overlay_start,
    groupBytes, hchunk, Nat.min_eq_left hm', List.take_append,
    List.take_append, List.take_take, Nat.min_eq_left (by omega)]

/-- There is no room for a group. -/
theorem base64Decode_overflows
    (h : dst.length < 3 * goodChunks (base64Num src - 1) src) :
    base64Decode src dst last = .error .overwrite := by
  unfold base64Decode
  simp only [@base64Loop_overflows (base64Num src - 1) src dst 0
    (Nat.zero_le _) (by omega), error_bind]

/-- There is no room for the last group. -/
theorem base64Decode_overflows_last
    (h : goodChunks (base64Num src - 1) src = base64Num src - 1)
    (hlast : last.length = 3)
    (hroom : dst.length < 3 * (base64Num src - 1) + (3 - base64Equals src)) :
    base64Decode src dst last = .error .overwrite := by
  by_cases hloop : 3 * (base64Num src - 1) ≤ dst.length
  · obtain ⟨bytes, hbytes, hrun⟩ :=
      @base64Loop_run (base64Num src - 1) src dst 0 (by omega)
    have hlen := chunkBytes_length hbytes
    rw [h] at hlen hrun
    have hset : (overlay dst 0 bytes).length = dst.length :=
      overlay_length (by omega)
    have hstore := lastChunk_length (src.drop (4 * (base64Num src - 1)))
      (base64Equals src) hlast
    unfold base64Decode
    simp only [hrun, ok_bind, decide_true, reduceCtorEq, if_false]
    rw [storeN_eq_error (by omega)]
    rfl
  · exact base64Decode_overflows (by omega)

/-- Of a text that starts with an encoding, the groups start with its
bytes, where as many are asked for. -/
theorem groupBytes_decodes {value bytes rest front : List UInt8}
    (h : Decodes value bytes)
    (hfront : chunkBytes (base64Num (value ++ rest) - 1) (value ++ rest)
      = some front)
    (hlen : bytes.length + base64Equals (value ++ rest)
      = 3 * base64Num (value ++ rest)) :
    (groupBytes (value ++ rest) last front).take bytes.length = bytes := by
  obtain ⟨all, hall, htake⟩ := Decodes_chunks h rest
  obtain ⟨-, hpads, hcount⟩ := Decodes_counts h []
  have hle : bytes.length ≤ all.length := by
    rw [chunkBytes_length hall]
    omega
  rcases Nat.lt_or_ge (value.length / 4) (base64Num (value ++ rest)) with
    hlt | hge
  · -- there are groups behind the value
    rw [show base64Num (value ++ rest) - 1 = value.length / 4
      + (base64Num (value ++ rest) - 1 - value.length / 4) by omega,
      chunkBytes_add] at hfront
    obtain ⟨front', back, hfront', -, rfl⟩ := hfront
    cases hall.symm.trans hfront'
    rw [groupBytes, List.append_assoc, List.take_append_of_le_length hle,
      htake]
  · have hnum : base64Num (value ++ rest) = value.length / 4 := by omega
    rcases Nat.eq_zero_or_pos (value.length / 4) with h0 | hpos
    · rw [show bytes.length = 0 by omega, List.take_zero]
      exact (List.length_eq_zero_iff.mp (by omega)).symm
    · -- the last group is that of the value
      rw [show value.length / 4 = base64Num (value ++ rest) - 1 + 1 by omega,
        chunkBytes_add] at hall
      obtain ⟨front', back, hfront', hback, rfl⟩ := hall
      cases hfront.symm.trans hfront'
      obtain ⟨chunk, none, hchunk, hnone, rfl⟩ :=
        chunkBytes_succ_eq_some.mp hback
      cases hnone
      rw [groupBytes, hchunk, Option.getD_some]
      rwa [List.append_nil] at htake

/-- `base64_decode` of a text that is an encoding. -/
theorem base64Decode_decodes {text bytes : List UInt8}
    (h : Decodes text bytes) (rest : List UInt8) {dst last : List UInt8}
    (hroom : bytes.length ≤ dst.length) (hthree : 3 ≤ dst.length)
    (hlast : last.length = 3) :
    ∃ dst', base64Decode (text ++ 0 :: rest) dst last
        = .ok ((bytes.length : Int), dst')
      ∧ dst'.length = dst.length ∧ dst'.take bytes.length = bytes := by
  obtain ⟨hsum, hle, hlen⟩ := Decodes_counts h rest
  have hnum : base64Num (text ++ 0 :: rest) = text.length / 4 := by
    rw [base64Num, hsum]
  obtain ⟨all, hall, -⟩ := Decodes_chunks h (0 :: rest)
  obtain ⟨front, hfront⟩ : ∃ front, chunkBytes
      (base64Num (text ++ 0 :: rest) - 1) (text ++ 0 :: rest)
        = some front := by
    rw [hnum]
    rcases Nat.eq_zero_or_pos (text.length / 4) with h0 | hpos
    · rw [h0]
      exact ⟨[], rfl⟩
    · rw [show text.length / 4 = text.length / 4 - 1 + 1 by omega,
        chunkBytes_add] at hall
      obtain ⟨front, back, hfront, -⟩ := hall
      exact ⟨front, hfront⟩
  obtain ⟨dst', hrun, hset, htake⟩ :=
    @base64Decode_ends _ dst last front hfront hlast (by omega)
  refine ⟨dst', ?_, hset, ?_⟩
  · rw [hrun]
    congr 2
    omega
  · rw [htake _ (by omega)]
    exact groupBytes_decodes h hfront (by omega)

end anyText

-- ======== hex texts

/-- How many pairs of digits a text starts with. -/
def hexPairs : List UInt8 → Nat
  | c1 :: c2 :: hex =>
      match hextab c1, hextab c2 with
      | some _, some _ => hexPairs hex + 1
      | _, _ => 0
  | _ => 0

/-- The bytes that a text in hex stands for. -/
def hexDecoding (text : List UInt8) : Option (List UInt8) :=
  if text.length % 2 = 0 then frHex2bin text else none

section hexTexts

variable {hex bin : List UInt8} {i len : Nat}

theorem not_two (h : ∀ c1 c2 tail, hex = c1 :: c2 :: tail → False) :
    hex = [] ∨ ∃ c, hex = [c] := by
  cases hex with
  | nil => exact .inl rfl
  | cons c1 tail =>
      cases tail with
      | nil => exact .inr ⟨c1, rfl⟩
      | cons c2 tail => exact (h c1 c2 tail rfl).elim

/-- The loop takes the pairs. -/
theorem hex2binLoop_pairs (hlen : hex.length / 2 ≤ len)
    (hroom : i + hexPairs hex ≤ bin.length) :
    ∃ bytes, bytes.length = hexPairs hex
      ∧ (hexPairs hex = hex.length / 2 → frHex2bin hex = some bytes)
      ∧ hex2binLoop len i hex bin
        = .ok (i + hexPairs hex, overlay bin i bytes) := by
  have hnone : overlay bin i [] = bin := by
    simp [overlay]
  fun_induction hexPairs hex generalizing len i bin with
  | case1 c1 c2 hex hi lo h2 h1 ih =>
      simp only [List.length_cons] at hlen
      obtain ⟨len, rfl⟩ : ∃ len', len = len' + 1 := ⟨len - 1, by omega⟩
      have hone : i + [UInt8.ofNat (hi * 16 + lo)].length ≤ bin.length := by
        rw [List.length_singleton]
        omega
      have hset := overlay_length hone
      obtain ⟨bytes, hb, hread, hrun⟩ :=
        @ih (overlay bin i [UInt8.ofNat (hi * 16 + lo)]) (i + 1) len
          (by omega) (by omega) (by simp [overlay])
      refine ⟨UInt8.ofNat (hi * 16 + lo) :: bytes, ?_, ?_, ?_⟩
      · rw [List.length_cons, hb]
      · intro hall
        simp only [List.length_cons] at hall
        rw [frHex2bin, h1, h2, hread (by omega)]
        rfl
      · rw [hex2binLoop, h1, h2]
        dsimp only
        rw [store_eq_ok (by omega), ok_bind, hrun, overlay_cons (by
          rw [List.length_cons]
          omega), Nat.add_assoc, Nat.add_comm 1]
  | case2 c1 c2 hex hnot =>
      refine ⟨[], rfl, fun hall => ?_, ?_⟩
      · simp only [List.length_cons] at hall
        omega
      · rw [hnone]
        cases len with
        | zero => rfl
        | succ len =>
            unfold hex2binLoop
            dsimp only
            split
            · next h1 h2 => exact (hnot _ _ h1 h2).elim
            · rfl
  | case3 hex hshort =>
      rcases not_two hshort with rfl | ⟨c, rfl⟩
      · cases len with
        | zero => exact ⟨[], rfl, fun _ => rfl, by rw [hnone]; rfl⟩
        | succ len => exact ⟨[], rfl, fun _ => rfl, by rw [hnone]; rfl⟩
      · cases len with
        | zero => exact ⟨[], rfl, fun _ => rfl, by rw [hnone]; rfl⟩
        | succ len => exact ⟨[], rfl, fun _ => rfl, by rw [hnone]; rfl⟩

/-- Too many pairs are written behind the end. -/
theorem hex2binLoop_pairs_overflows (hlen : hex.length / 2 ≤ len)
    (hi : i ≤ bin.length) (hroom : bin.length < i + hexPairs hex) :
    hex2binLoop len i hex bin = .error .overwrite := by
  fun_induction hexPairs hex generalizing len i bin with
  | case1 c1 c2 hex hi' lo h2 h1 ih =>
      simp only [List.length_cons] at hlen
      obtain ⟨len, rfl⟩ : ∃ len', len = len' + 1 := ⟨len - 1, by omega⟩
      rw [hex2binLoop, h1, h2]
      dsimp only
      by_cases hlt : i < bin.length
      · have hone : i + [UInt8.ofNat (hi' * 16 + lo)].length
            ≤ bin.length := by
          rw [List.length_singleton]
          omega
        have hset := overlay_length hone
        rw [store_eq_ok hlt, ok_bind]
        exact ih (by omega) (by omega) (by omega)
      · rw [store, if_neg hlt]
        rfl
  | case2 c1 c2 hex hnot => omega
  | case3 hex hshort => omega

/-- A text in hex has nothing but pairs. -/
theorem frHex2bin_pairs {bytes : List UInt8} (h : frHex2bin hex = some bytes) :
    hexPairs hex = hex.length / 2 ∧ bytes.length = hex.length / 2 := by
  fun_induction hexPairs hex generalizing bytes with
  | case1 c1 c2 hex hi lo h2 h1 ih =>
      simp only [frHex2bin, h1, h2, Option.bind_eq_bind, Option.bind_some,
        Option.bind_eq_some_iff] at h
      obtain ⟨tail, htail, heq⟩ := h
      obtain ⟨hp, hl⟩ := ih htail
      cases heq
      simp only [List.length_cons]
      omega
  | case2 c1 c2 hex hnot =>
      rw [frHex2bin] at h
      obtain ⟨hi, h1, h⟩ := Option.bind_eq_some_iff.mp h
      obtain ⟨lo, h2, -⟩ := Option.bind_eq_some_iff.mp h
      exact (hnot hi lo h1 h2).elim
  | case3 hex hshort =>
      rcases not_two hshort with rfl | ⟨c, rfl⟩
      · cases h
        exact ⟨rfl, rfl⟩
      · cases h
        simp

end hexTexts

-- ======== normify

/-- The value a password may be left with. -/
def NormalForm (value v : List UInt8) : Prop :=
  v = value ∨ hexDecoding value = some v ∨ decode value = some v

/-- `normify` stays within its arrays, and leaves such a value. -/
def Normifies (vp : ValuePair) (run : Mem ValuePair) : Prop :=
  ∃ vp', run = .ok vp'
    ∧ NormalForm (vp.octets vp.length) (vp'.octets vp'.length)

/-- The password is long enough for hex, and has nothing else. -/
def ReadAsHex (value : List UInt8) (minLength : Nat) : Prop :=
  2 * minLength ≤ value.length ∧ hexPairs value = value.length / 2

/-- A password that may be hex has digits for 64 bytes at most, and no odd
number of them. -/
def HexFits (value : List UInt8) (minLength : Nat) : Prop :=
  2 * minLength ≤ value.length →
    hexPairs value ≤ 64
      ∧ (hexPairs value = value.length / 2 → value.length % 2 = 0)

/-- The value is an encoding of as many bytes as the groups of the text are
less the `=`; or these groups, all that any byte is taken from, are read and
give the value itself. -/
def Base64Value (value src : List UInt8) : Prop :=
  (∃ bytes, decode value = some bytes
      ∧ bytes.length + base64Equals src = 3 * base64Num src)
    ∨ ∃ all, chunkBytes (if base64Equals src < 3 then base64Num src
          else base64Num src - 1) src = some all
        ∧ all.take (3 * base64Num src - base64Equals src) = value

/-- The groups of a text fit, their number is enough for the `=`, and they
give a form of the value when they are enough for a password. -/
def Base64Fits (vp : ValuePair) (minLength : Nat) : Prop :=
  let src := passText vp
  3 * goodChunks (base64Num src - 1) src ≤ 64
    ∧ (goodChunks (base64Num src - 1) src = base64Num src - 1 →
      3 * (base64Num src - 1) + (3 - base64Equals src) ≤ 64
        ∧ base64Equals src ≤ 3 * base64Num src
        ∧ (minLength + base64Equals src ≤ 3 * base64Num src →
          Base64Value (vp.octets vp.length) src))

/-- What a password must be like. -/
def PasswordFits (vp : ValuePair) (minLength : Nat) : Prop :=
  HexFits (vp.octets vp.length) minLength
    ∧ (¬ReadAsHex (vp.octets vp.length) minLength →
      minLength * 4 ≤ vp.length * 3 → Base64Fits vp minLength)

section passwords

variable {vp : ValuePair} {buffer last front : List UInt8} {minLength : Nat}

theorem Normifies.unchanged (vp : ValuePair) : Normifies vp (.ok vp) :=
  ⟨vp, rfl, .inl rfl⟩

theorem not_normifies_error (vp : ValuePair) (e : Fault) :
    ¬ Normifies vp (.error e) := by
  rintro ⟨vp', hrun, -⟩
  cases hrun

/-- What is copied is the value. -/
theorem normalized_eq {m : Nat} (h : m ≤ buffer.length) :
    ∃ vp', normalized buffer vp m = .ok vp'
      ∧ vp'.octets vp'.length = buffer.take m := by
  have hfetch : fetchN buffer 0 m = .ok (buffer.take m) :=
    fetchN_eq_ok.mpr ⟨by omega, by omega, by omega, rfl⟩
  refine ⟨_, by rw [normalized, hfetch, ok_bind]; rfl, ?_⟩
  exact padTake_append _ _

/-- Copying is right when the bytes are a form of the value. -/
theorem normifies_normalized_iff {m : Nat} (h : m ≤ buffer.length) :
    Normifies vp (normalized buffer vp m)
      ↔ NormalForm (vp.octets vp.length) (buffer.take m) := by
  obtain ⟨vp', hrun, hvalue⟩ := @normalized_eq vp buffer m h
  rw [hrun, ← hvalue]
  constructor
  · rintro ⟨_, heq, hform⟩
    cases heq
    exact hform
  · exact fun hform => ⟨vp', rfl, hform⟩

/-- What the second half of `normify` does with a result. -/
theorem normifyBase64_returns {decoded : Int} {buffer' : List UInt8}
    (hlong : minLength * 4 ≤ vp.length * 3)
    (h : base64Decode (passText vp) buffer last = .ok (decoded, buffer')) :
    normifyBase64 buffer last vp minLength
      = if decoded < 0 ∨ (minLength : Int) ≤ decoded then
          normalized buffer' vp decoded
        else .ok vp := by
  rw [normifyBase64, if_pos hlong, h, ok_bind]
  rfl

/-- Where a group stops the loop, the password is left alone. -/
theorem normifyBase64_stops (hmin : 16 ≤ minLength)
    (hlong : minLength * 4 ≤ vp.length * 3)
    (hroom : 3 * goodChunks (base64Num (passText vp) - 1) (passText vp)
      ≤ buffer.length)
    (hstop : goodChunks (base64Num (passText vp) - 1) (passText vp)
      ≠ base64Num (passText vp) - 1) :
    normifyBase64 buffer last vp minLength = .ok vp := by
  obtain ⟨buffer', hrun, -⟩ := @base64Decode_stops _ _ last hstop hroom
  rw [normifyBase64_returns hlong hrun, if_neg (by omega)]

/-- Where all groups but the last are read and there is room, the bytes of
the groups come out, if they are enough. -/
theorem normifyBase64_ends (hlast : last.length = 3)
    (hlong : minLength * 4 ≤ vp.length * 3)
    (hfront : chunkBytes (base64Num (passText vp) - 1) (passText vp)
      = some front)
    (hroom : 3 * (base64Num (passText vp) - 1)
      + (3 - base64Equals (passText vp)) ≤ buffer.length)
    (hneg : base64Equals (passText vp) ≤ 3 * base64Num (passText vp)) :
    Normifies vp (normifyBase64 buffer last vp minLength)
      ↔ (minLength + base64Equals (passText vp)
            ≤ 3 * base64Num (passText vp) →
          NormalForm (vp.octets vp.length)
            ((groupBytes (passText vp) last front).take
              (3 * base64Num (passText vp)
                - base64Equals (passText vp)))) := by
  obtain ⟨buffer', hrun, hset, htake⟩ :=
    @base64Decode_ends _ buffer last front hfront hlast hroom
  have hint : (base64Num (passText vp) : Int) * 3
      - (base64Equals (passText vp) : Int)
      = ((3 * base64Num (passText vp) - base64Equals (passText vp) : Nat)
        : Int) := by
    omega
  rw [hint] at hrun
  rw [normifyBase64_returns hlong hrun]
  by_cases hpass : minLength + base64Equals (passText vp)
      ≤ 3 * base64Num (passText vp)
  · rw [if_pos (by omega), imp_iff_right hpass,
      normifies_normalized_iff (by omega), htake _ (by omega)]
  · rw [if_neg (by omega)]
    exact iff_of_true (.unchanged vp) fun h => absurd h hpass

/-- A value that is not read as hex is no text in hex of the length that
comes out. -/
theorem hexDecoding_ne {value v : List UInt8}
    (hhex : ¬ReadAsHex value minLength) (hv : minLength ≤ v.length) :
    hexDecoding value ≠ some v := by
  intro hdigits
  unfold hexDecoding at hdigits
  split at hdigits
  · obtain ⟨hp, hl⟩ := frHex2bin_pairs hdigits
    exact hhex ⟨by omega, hp⟩
  · cases hdigits

theorem groupBytes_length {src : List UInt8} (hn : 0 < base64Num src)
    (hfront : chunkBytes (base64Num src - 1) src = some front)
    (hlast : last.length = 3) :
    (groupBytes src last front).length = 3 * base64Num src := by
  have hlen := chunkBytes_length hfront
  have hchunk : ((decodeIt (src.drop (4 * (base64Num src - 1)))).getD
      last).length = 3 := by
    cases hd : decodeIt (src.drop (4 * (base64Num src - 1))) with
    | none => exact hlast
    | some chunk => exact decodeIt_length hd
  rw [groupBytes, List.length_append, hchunk, hlen]
  omega

/-- Where the last group is read, the bytes are those of all groups. -/
theorem groupBytes_eq {src chunk : List UInt8} (hn : 0 < base64Num src)
    (hfront : chunkBytes (base64Num src - 1) src = some front)
    (hchunk : decodeIt (src.drop (4 * (base64Num src - 1))) = some chunk) :
    chunkBytes (base64Num src) src = some (groupBytes src last front) := by
  rw [show base64Num src = base64Num src - 1 + 1 by omega, chunkBytes_add]
  refine ⟨front, chunk, hfront, chunkBytes_succ_eq_some.mpr
    ⟨chunk, [], hchunk, rfl, (List.append_nil _).symm⟩, ?_⟩
  rw [groupBytes, hchunk, Option.getD_some]

/-- Where it is not, some of `last` comes out. -/
theorem groupBytes_ne {src : List UInt8} {m : Nat}
    (hchunk : decodeIt (src.drop (4 * (base64Num src - 1))) = none)
    (hm : front.length < m) :
    (groupBytes src [0, 0, 0] front).take m
      ≠ (groupBytes src [1, 1, 1] front).take m := by
  intro heq
  have hat := congrArg (·[front.length]?) heq
  simp [groupBytes, hchunk, hm] at hat

/-- The bytes that come out, whatever `last` holds, are a form of the
value. -/
theorem normalForm_groupBytes_iff (hmin : 16 ≤ minLength)
    (hhex : ¬ReadAsHex (vp.octets vp.length) minLength)
    (hfront : chunkBytes (base64Num (passText vp) - 1) (passText vp)
      = some front)
    (hpass : minLength + base64Equals (passText vp)
      ≤ 3 * base64Num (passText vp)) :
    (∀ last : List UInt8, last.length = 3 →
      NormalForm (vp.octets vp.length)
        ((groupBytes (passText vp) last front).take
          (3 * base64Num (passText vp) - base64Equals (passText vp))))
      ↔ Base64Value (vp.octets vp.length) (passText vp) := by
  have hn : 0 < base64Num (passText vp) := by omega
  have hflen := chunkBytes_length hfront
  obtain ⟨m, hm⟩ : ∃ m, m = 3 * base64Num (passText vp)
    - base64Equals (passText vp) := ⟨_, rfl⟩
  rw [← hm]
  constructor
  · intro h
    -- a form that is not the value itself is what the value encodes
    have hforms {last : List UInt8} (hlast : last.length = 3) :
        Base64Value (vp.octets vp.length) (passText vp)
          ∨ (groupBytes (passText vp) last front).take m
            = vp.octets vp.length := by
      have hlen : ((groupBytes (passText vp) last front).take m).length
          = m := by
        rw [List.length_take, groupBytes_length hn hfront hlast]
        omega
      rcases h last hlast with hv | hdigits | hdecode
      · exact .inr hv
      · exact absurd hdigits (hexDecoding_ne hhex (by omega))
      · exact .inl (.inl ⟨_, hdecode, by omega⟩)
    rcases @hforms [0, 0, 0] rfl with hdone | hzero
    · exact hdone
    by_cases hpads : base64Equals (passText vp) < 3
    · cases hchunk : decodeIt ((passText vp).drop
          (4 * (base64Num (passText vp) - 1))) with
      | some chunk =>
          refine .inr ⟨_, ?_, hm ▸ hzero⟩
          rw [if_pos hpads]
          exact groupBytes_eq hn hfront hchunk
      | none =>
          rcases @hforms [1, 1, 1] rfl with hdone | hone
          · exact hdone
          · exact absurd (hzero.trans hone.symm)
              (groupBytes_ne hchunk (by omega))
    · refine .inr ⟨front, by rw [if_neg hpads]; exact hfront, ?_⟩
      rw [← hzero, groupBytes, List.take_append_of_le_length (by omega), hm]
  · rintro (⟨bytes, hdecode, hlen⟩ | ⟨all, hall, hvalue⟩) last hlast
    · refine .inr (.inr ?_)
      rw [hdecode, show m = bytes.length by omega]
      exact congrArg some
        (groupBytes_decodes (decodes_of_decode hdecode) hfront hlen).symm
    · rw [← hm] at hvalue
      refine .inl ?_
      split at hall
      next hpads =>
        have hadd := hall
        rw [show base64Num (passText vp) = base64Num (passText vp) - 1 + 1
          by omega, chunkBytes_add] at hadd
        obtain ⟨_, _, -, hback, -⟩ := hadd
        obtain ⟨chunk, _, hchunk, -⟩ := chunkBytes_succ_eq_some.mp hback
        have hsame : chunkBytes (base64Num (passText vp)) (passText vp)
            = some (groupBytes (passText vp) last front) :=
          groupBytes_eq hn hfront hchunk
        cases hall.symm.trans hsame
        exact hvalue
      next hpads =>
        cases hfront.symm.trans hall
        rw [groupBytes, List.take_append_of_le_length (by omega), hvalue]

/-- The second half of `normify` is right where the groups fit. -/
theorem normifyBase64_of_fits (hmin : 16 ≤ minLength)
    (hbuf : buffer.length = 64) (hlast : last.length = 3)
    (hhex : ¬ReadAsHex (vp.octets vp.length) minLength)
    (h : minLength * 4 ≤ vp.length * 3 → Base64Fits vp minLength) :
    Normifies vp (normifyBase64 buffer last vp minLength) := by
  by_cases hlong : minLength * 4 ≤ vp.length * 3
  · obtain ⟨hroom, hends⟩ := h hlong
    by_cases hall : goodChunks (base64Num (passText vp) - 1) (passText vp)
        = base64Num (passText vp) - 1
    · obtain ⟨hlastRoom, hneg, hpass⟩ := hends hall
      obtain ⟨front, hfront⟩ := exists_chunkBytes_iff.mpr hall
      rw [normifyBase64_ends hlast hlong hfront (by omega) hneg]
      intro hmany
      exact (normalForm_groupBytes_iff hmin hhex hfront hmany).mpr
        (hpass hmany) last hlast
    · rw [normifyBase64_stops hmin hlong (by omega) hall]
      exact .unchanged vp
  · rw [normifyBase64, if_neg hlong]
    exact .unchanged vp

/-- And only there, when it is right whatever `last` holds. -/
theorem fits_of_normifyBase64 (hmin : 16 ≤ minLength)
    (hhex : ¬ReadAsHex (vp.octets vp.length) minLength)
    (hlong : minLength * 4 ≤ vp.length * 3)
    (h : ∀ last : List UInt8, last.length = 3 → ∃ buffer : List UInt8,
      buffer.length = 64
        ∧ Normifies vp (normifyBase64 buffer last vp minLength)) :
    Base64Fits vp minLength := by
  obtain ⟨buffer, hbuf, hruns⟩ := h [0, 0, 0] rfl
  have hroom : 3 * goodChunks (base64Num (passText vp) - 1) (passText vp)
      ≤ 64 := by
    by_contra hover
    rw [normifyBase64, if_pos hlong, base64Decode_overflows (by omega),
      error_bind] at hruns
    exact not_normifies_error _ _ hruns
  refine ⟨hroom, fun hall => ?_⟩
  obtain ⟨front, hfront⟩ := exists_chunkBytes_iff.mpr hall
  have hlastRoom : 3 * (base64Num (passText vp) - 1)
      + (3 - base64Equals (passText vp)) ≤ 64 := by
    by_contra hover
    rw [normifyBase64, if_pos hlong,
      base64Decode_overflows_last hall rfl (by omega), error_bind] at hruns
    exact not_normifies_error _ _ hruns
  have hneg : base64Equals (passText vp) ≤ 3 * base64Num (passText vp) := by
    by_contra hover
    obtain ⟨buffer', hrun, -⟩ := @base64Decode_ends _ buffer [0, 0, 0] front
      hfront rfl (by omega)
    rw [normifyBase64_returns hlong hrun, if_pos (by omega), normalized,
      fetchN_eq_error.mpr ⟨rfl, by omega⟩, error_bind] at hruns
    exact not_normifies_error _ _ hruns
  refine ⟨hlastRoom, hneg, fun hpass => ?_⟩
  refine (normalForm_groupBytes_iff hmin hhex hfront hpass).mp ?_
  intro last hlast
  obtain ⟨buffer, hbuf, hruns⟩ := h last hlast
  exact (normifyBase64_ends hlast hlong hfront (by omega) hneg).mp hruns hpass

/-- More than 64 pairs of digits are written behind the end. -/
theorem normify_overflows (hmin : minLength < 64) (hbuf : buffer.length = 64)
    (hlong : 2 * minLength ≤ (vp.octets vp.length).length)
    (hover : 64 < hexPairs (vp.octets vp.length)) :
    normify buffer last vp minLength = .error .overwrite := by
  have hlen : (vp.octets vp.length).length = vp.length := padTake_length _ _
  unfold normify
  rw [if_neg (by omega), if_pos (by omega), frHex2binLen,
    hex2binLoop_pairs_overflows (by omega) (Nat.zero_le _) (by omega),
    error_bind]

/-- A value in hex is decoded, but for an odd digit. -/
theorem normify_hex (hmin : minLength < 64) (hbuf : buffer.length = 64)
    (hhex : ReadAsHex (vp.octets vp.length) minLength)
    (hroom : hexPairs (vp.octets vp.length) ≤ 64) :
    ∃ bytes, frHex2bin (vp.octets vp.length) = some bytes
      ∧ (Normifies vp (normify buffer last vp minLength)
        ↔ NormalForm (vp.octets vp.length) bytes) := by
  have hlen : (vp.octets vp.length).length = vp.length := padTake_length _ _
  obtain ⟨bytes, hbytes, hread, hrun⟩ := @hex2binLoop_pairs
    (vp.octets vp.length) buffer 0 (vp.length / 2) (by omega) (by omega)
  obtain ⟨hlong, hall⟩ := hhex
  refine ⟨bytes, hread hall, ?_⟩
  have hset : (overlay buffer 0 bytes).length = buffer.length :=
    overlay_length (by omega)
  unfold normify
  rw [if_neg (by omega), if_pos (by omega), frHex2binLen, hrun, ok_bind]
  dsimp only
  rw [Nat.zero_add, if_pos (by omega),
    normifies_normalized_iff (by omega), ← hbytes, take_overlay_start]

/-- A value that is not is left to the second half. -/
theorem normify_base64 (hmin : minLength < 64) (hbuf : buffer.length = 64)
    (hhex : ¬ReadAsHex (vp.octets vp.length) minLength)
    (hroom : 2 * minLength ≤ (vp.octets vp.length).length →
      hexPairs (vp.octets vp.length) ≤ 64) :
    ∃ buffer' : List UInt8, buffer'.length = 64
      ∧ normify buffer last vp minLength
        = normifyBase64 buffer' last vp minLength := by
  have hlen : (vp.octets vp.length).length = vp.length := padTake_length _ _
  unfold normify
  rw [if_neg (by omega)]
  by_cases hlong : 2 * minLength ≤ vp.length
  · have hfits := hroom (by omega)
    obtain ⟨bytes, hbytes, -, hrun⟩ := @hex2binLoop_pairs
      (vp.octets vp.length) buffer 0 (vp.length / 2) (by omega) (by omega)
    have hnot : ¬ 0 + hexPairs (vp.octets vp.length) = vp.length / 2 :=
      fun h => hhex ⟨by omega, by omega⟩
    refine ⟨overlay buffer 0 bytes, ?_, ?_⟩
    · exact (overlay_length (by omega)).trans hbuf
    · rw [if_pos hlong, frHex2binLen, hrun, ok_bind]
      dsimp only
      rw [if_neg hnot]
  · exact ⟨buffer, hbuf, if_neg hlong⟩

/-- When `normify` stays within its arrays, and leaves a password as it is
or decodes it, whatever the arrays hold at first; and `base64_decode` of an
encoding gives what was encoded. -/
theorem normify_iff (vp : ValuePair) (hmin : minLength = 16 ∨ minLength = 20) :
    ((∀ buffer last : List UInt8, buffer.length = 64 → last.length = 3 →
        Normifies vp (normify buffer last vp minLength))
      ↔ PasswordFits vp minLength)
      ∧ ∀ (bytes rest dst last : List UInt8), last.length = 3 →
        3 ≤ dst.length → bytes.length ≤ dst.length →
        ∃ dst', base64Decode (encode bytes ++ 0 :: rest) dst last
            = .ok ((bytes.length : Int), dst')
          ∧ dst'.length = dst.length ∧ dst'.take bytes.length = bytes := by
  have hsixteen : 16 ≤ minLength := by omega
  have hless : minLength < 64 := by omega
  refine ⟨?_, fun bytes rest dst last hlast hthree hroom =>
    base64Decode_decodes (decodes_of_decode (decode_encode bytes)) rest
      hroom hthree hlast⟩
  have hzeros : (List.replicate 64 (0 : UInt8)).length = 64 := rfl
  unfold PasswordFits HexFits
  by_cases hroom : 2 * minLength ≤ (vp.octets vp.length).length →
      hexPairs (vp.octets vp.length) ≤ 64
  · by_cases hhex : ReadAsHex (vp.octets vp.length) minLength
    · obtain ⟨hlong, hall⟩ := id hhex
      rw [and_iff_left fun hnot => absurd hhex hnot, imp_iff_right hlong,
        and_iff_right (hroom hlong), imp_iff_right hall]
      constructor
      · intro h
        obtain ⟨bytes, hread, hiff⟩ := @normify_hex vp (List.replicate 64 0)
          [0, 0, 0] minLength hless hzeros hhex (hroom hlong)
        have hbytes := (frHex2bin_pairs hread).2
        rcases hiff.mp (h _ _ hzeros rfl) with heq | hdigits | hdecode
        · rw [heq] at hbytes
          omega
        · unfold hexDecoding at hdigits
          split at hdigits
          · next heven => exact heven
          · cases hdigits
        · have hmod := (decodes_of_decode hdecode).length_mod
          omega
      · intro heven buffer last hbuf _
        obtain ⟨bytes, hread, hiff⟩ := @normify_hex vp buffer last minLength
          hless hbuf hhex (hroom hlong)
        refine hiff.mpr (.inr (.inl ?_))
        rw [hexDecoding, if_pos heven, hread]
    · rw [imp_iff_right hhex, and_iff_right fun hlong =>
        ⟨hroom hlong, fun hall => absurd ⟨hlong, hall⟩ hhex⟩]
      constructor
      · intro h hlong
        refine fits_of_normifyBase64 hsixteen hhex hlong fun last hlast => ?_
        obtain ⟨buffer', hset, hrun⟩ := @normify_base64 vp
          (List.replicate 64 0) last minLength hless hzeros hhex hroom
        exact ⟨buffer', hset, hrun ▸ h _ last hzeros hlast⟩
      · intro h buffer last hbuf hlast
        obtain ⟨buffer', hset, hrun⟩ := @normify_base64 vp buffer last
          minLength hless hbuf hhex hroom
        rw [hrun]
        exact normifyBase64_of_fits hsixteen hset hlast hhex h
  · obtain ⟨hlong, hover⟩ := Classical.not_imp.mp hroom
    refine iff_of_false (fun h => ?_) fun h => hover (h.1 hlong).1
    have hrun := h (List.replicate 64 0) [0, 0, 0] hzeros rfl
    rw [normify_overflows hless hzeros hlong (by omega)] at hrun
    exact not_normifies_error _ _ hrun

end passwords

/-- An SSHA-Password of these octets, and what is left of its text behind
them. -/
def sshaPassword (value rest : List UInt8) : ValuePair where
  attr := 1094
  type := .octets
  length := value.length
  data := value ++ rest

/-- The encoding of 16 zeros. -/
def zerosText : List UInt8 := List.replicate 22 65 ++ [61, 61]

/-- Digits in hex and an encoding are decoded, the encoding with three
letters left behind it. -/
theorem normify_iff_digits :
    (∃ vp, normify (List.replicate 64 0) [0, 0, 0]
        (sshaPassword (List.replicate 40 97) []) 20 = .ok vp
      ∧ NormalForm (List.replicate 40 97) (vp.octets vp.length))
    ∧ ∃ vp, normify (List.replicate 64 0) [0, 0, 0]
        (sshaPassword zerosText [65, 65, 65]) 16 = .ok vp
      ∧ NormalForm zerosText (vp.octets vp.length) := by
  have hdigits : PasswordFits (sshaPassword (List.replicate 40 97) []) 20 :=
    ⟨fun _ => by decide, fun hnot => absurd ⟨by decide, by decide⟩ hnot⟩
  have hzeros : PasswordFits (sshaPassword zerosText [65, 65, 65]) 16 :=
    ⟨fun _ => by decide, fun _ _ => ⟨by decide, fun _ => ⟨by decide,
      by decide, fun _ => .inl ⟨List.replicate 16 0, by decide,
        by decide⟩⟩⟩⟩
  exact ⟨(normify_iff _ (.inr rfl)).1.mpr hdigits _ _ rfl rfl,
    (normify_iff _ (.inl rfl)).1.mpr hzeros _ _ rfl rfl⟩

/-- 24 times `=` are six groups, less 24 bytes; 130 digits in hex are 65
bytes; and the text that 60 octets are written as goes on behind them for 62
characters, of which the groups make 87 bytes. -/
theorem normify_faults :
    normify (List.replicate 64 0) [0, 0, 0]
        (sshaPassword (List.replicate 24 61) []) 16 = .error .overread
      ∧ normify (List.replicate 64 0) [0, 0, 0]
        (sshaPassword (List.replicate 130 97) []) 16 = .error .overwrite
      ∧ normify (List.replicate 64 0) [0, 0, 0]
        (sshaPassword (List.replicate 60 81)
          (List.replicate 31 [53, 49]).flatten) 20 = .error .overwrite := by
  decide +kernel

end WinRadius
