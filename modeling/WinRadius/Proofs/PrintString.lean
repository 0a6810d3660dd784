/-
`fr_print_string` cuts nothing in half, and what it prints can be read
back.

A string is printed round by round (`printRounds`): an escape of two or
four bytes, or a character. The loop prints the rounds that it begins with
more than four bytes of room (`fitRounds`). An escape begins with a
backslash and no character has one, so the text says where its rounds are
and what they stand for (`unprint`).
-/
import WinRadius.Lib.Region
import WinRadius.Model.PrintString
import WinRadius.Proofs.PrintScan
import WinRadius.Proofs.Utf8

namespace WinRadius

open Lib

-- ======== characters

section characters

variable {str more s : List UInt8} {b : UInt8} {i : Int} {n : Nat}

/-- A read that is inside stays inside of a longer buffer. -/
theorem fetch_more (h : fetch str i = .ok b) (more : List UInt8) :
    fetch (str ++ more) i = .ok b := by
  obtain ⟨h0, hget⟩ := fetch_eq_ok.mp h
  refine fetch_eq_ok.mpr ⟨h0, ?_⟩
  obtain ⟨hlt, -⟩ := List.getElem?_eq_some_iff.mp hget
  rw [List.getElem?_append_left hlt, hget]

theorem inRanges_more {ranges : List (Nat × UInt8 × UInt8)} {ok : Bool}
    (h : inRanges str ranges = .ok ok) (more : List UInt8) :
    inRanges (str ++ more) ranges = .ok ok := by
  induction ranges with
  | nil => exact h
  | cons r ranges ih =>
      obtain ⟨i, lo, hi⟩ := r
      obtain ⟨b, hb, hrest⟩ := bind_eq_ok.mp h
      rw [inRanges, fetch_more hb more, ok_bind]
      split at hrest
      · next hin =>
          rw [if_pos hin]
          exact ih hrest
      · next hout =>
          rw [if_neg hout]
          exact hrest

theorem utf8Search_more
    {cases : List (List (Nat × UInt8 × UInt8) × Nat)}
    (h : utf8Search str cases = .ok n) (more : List UInt8) :
    utf8Search (str ++ more) cases = .ok n := by
  induction cases with
  | nil => exact h
  | cons c cases ih =>
      obtain ⟨ranges, k⟩ := c
      obtain ⟨ok, hok, hrest⟩ := bind_eq_ok.mp h
      rw [utf8Search, inRanges_more hok more, ok_bind]
      cases ok with
      | true => exact hrest
      | false => exact ih hrest

/-- What `fr_utf8_char` returns does not depend on what is behind the
bytes it reads. -/
theorem frUtf8CharRead_more (h : frUtf8CharRead str = .ok n)
    (more : List UInt8) : frUtf8CharRead (str ++ more) = .ok n := by
  obtain ⟨s0, hs0, hrest⟩ := bind_eq_ok.mp h
  rw [frUtf8CharRead, fetch_more hs0 more, ok_bind]
  split at hrest
  · next h20 =>
      rw [if_pos h20]
      exact hrest
  · next h20 =>
      rw [if_neg h20]
      split at hrest
      · next h7e =>
          rw [if_pos h7e]
          exact hrest
      · next h7e =>
          rw [if_neg h7e]
          split at hrest
          · next hc1 =>
              rw [if_pos hc1]
              exact hrest
          · next hc1 =>
              rw [if_neg hc1]
              exact utf8Search_more hrest more

theorem byteAt_nul (s : List UInt8) (i : Nat) :
    byteAt (s ++ [0]) i = byteAt s i := by
  unfold byteAt
  rw [List.getD_eq_getElem?_getD, List.getD_eq_getElem?_getD]
  rcases Nat.lt_or_ge i s.length with hi | hi
  · rw [List.getElem?_append_left hi]
  · rw [List.getElem?_append_right hi, List.getElem?_eq_none hi]
    cases i - s.length with
    | zero => rfl
    | succ k => rfl

/-- The two readings of `fr_utf8_char` agree on a string. -/
theorem frUtf8CharRead_nul (s : List UInt8) :
    frUtf8CharRead (s ++ [0]) = .ok (frUtf8Char s) := by
  rw [frUtf8CharRead_eq, Except.ok.injEq]
  unfold frUtf8Char
  simp only [searched, utf8Cases, InRange, List.forall_mem_cons,
    List.not_mem_nil, false_imp_iff, implies_true, and_true,
    UInt8.reduceToNat, byteAt_nul, UInt8.le_iff_toNat_le,
    UInt8.lt_iff_toNat_lt, ← UInt8.toNat_inj]
  simp only [← byteAt.eq_def]
  have ha := byteAt_lt s 0
  generalize byteAt s 0 = a at ha ⊢
  generalize byteAt s 1 = b
  generalize byteAt s 2 = c
  generalize byteAt s 3 = d
  repeat refine if_congr (by omega) rfl ?_
  rfl

/-- A character is inside of the string, and its bytes are none of those
that escapes are made for. -/
theorem frUtf8Char_inside (h : 0 < frUtf8Char s) :
    frUtf8Char s ≤ 4 ∧ frUtf8Char s ≤ s.length
      ∧ ∀ i < frUtf8Char s, 0x20 ≤ byteAt s i
        ∧ (0 < i → 0x80 ≤ byteAt s i) := by
  have hbytes := (frUtf8Char_returns (frUtf8CharRead_nul s) h).mp rfl
  have hfacts : frUtf8Char s ≤ 4 ∧ ∀ i < frUtf8Char s, 0x20 ≤ byteAt s i
      ∧ (0 < i → 0x80 ≤ byteAt s i) := by
    unfold Utf8Bytes TooLarge Continues at hbytes
    simp only [byteAt_nul] at hbytes
    generalize frUtf8Char s = n at hbytes h ⊢
    refine ⟨by omega, fun i hi => ?_⟩
    have hi4 : i = 0 ∨ i = 1 ∨ i = 2 ∨ i = 3 := by omega
    rcases hi4 with rfl | rfl | rfl | rfl
    · exact ⟨by omega, by omega⟩
    · exact ⟨by omega, by omega⟩
    · exact ⟨by omega, by omega⟩
    · exact ⟨by omega, by omega⟩
  refine ⟨hfacts.1, ?_, hfacts.2⟩
  by_contra hlong
  have hend := (hfacts.2 s.length (by omega)).1
  unfold byteAt at hend
  rw [List.getD_eq_getElem?_getD, List.getElem?_eq_none (Nat.le_refl _)] at hend
  exact absurd hend (by decide)

theorem byteAt_take {k j : Nat} (h : j < k) :
    byteAt (s.take k) j = byteAt s j := by
  rw [byteAt, byteAt, List.getD_eq_getElem?_getD, List.getD_eq_getElem?_getD,
    List.getElem?_take_of_lt h]

/-- The bytes of a character are a whole character by themselves. -/
theorem frUtf8Char_take (h : 0 < frUtf8Char s) :
    frUtf8Char (s.take (frUtf8Char s)) = frUtf8Char s := by
  have hbytes := (frUtf8Char_returns (frUtf8CharRead_nul s) h).mp rfl
  refine (frUtf8Char_returns (frUtf8CharRead_nul _) h).mpr ?_
  generalize frUtf8Char s = n at hbytes ⊢
  unfold Utf8Bytes TooLarge at hbytes ⊢
  simp only [byteAt_nul] at hbytes ⊢
  rcases hbytes with (⟨rfl, hb⟩ | ⟨rfl, hb⟩ | ⟨rfl, hb⟩ | ⟨rfl, hb⟩)
    | ⟨rfl, hb⟩
  · left; left
    rw [byteAt_take (by omega)]
    exact ⟨rfl, hb⟩
  · left; right; left
    rw [byteAt_take (by omega), byteAt_take (by omega)]
    exact ⟨rfl, hb⟩
  · left; right; right; left
    rw [byteAt_take (by omega), byteAt_take (by omega),
      byteAt_take (by omega)]
    exact ⟨rfl, hb⟩
  · left; right; right; right
    rw [byteAt_take (by omega), byteAt_take (by omega),
      byteAt_take (by omega), byteAt_take (by omega)]
    exact ⟨rfl, hb⟩
  · right
    rw [byteAt_take (by omega), byteAt_take (by omega),
      byteAt_take (by omega), byteAt_take (by omega)]
    exact ⟨rfl, hb⟩

end characters

-- ======== rounds

/-- The round at the front of a string. -/
def roundOf (s : List UInt8) : PrintRound :=
  let c := s.headD 0
  match escapeLetter c with
  | some sp => .letter c sp
  | none =>
      if frUtf8Char s = 0 then .octal c
      else .character (s.take (frUtf8Char s))

/-- What a round of a string is. -/
def PrintRound.Sound : PrintRound → Prop
  | letter c sp => escapeLetter c = some sp
  | octal _ => True
  | character bytes =>
      0 < bytes.length ∧ frUtf8Char bytes = bytes.length ∧ 92 ∉ bytes

section rounds

variable {s more str buf : List UInt8} {r : PrintRound} {out outlen : Nat}

/-- The letters of the escapes. -/
theorem escapeLetter_cases {c sp : UInt8} (h : escapeLetter c = some sp) :
    (c, sp) ∈ [((92 : UInt8), (92 : UInt8)), (13, 114), (10, 110), (9, 116),
      (34, 34)] := by
  unfold escapeLetter at h
  split_ifs at h with h92 h13 h10 h9 h34
  · cases h; rw [h92]; decide
  · cases h; rw [h13]; decide
  · cases h; rw [h10]; decide
  · cases h; rw [h9]; decide
  · cases h; rw [h34]; decide

theorem PrintRound.Sound.source_pos (h : r.Sound) :
    0 < r.source.length := by
  cases r with
  | letter c sp => exact Nat.zero_lt_one
  | octal c => exact Nat.zero_lt_one
  | character bytes => exact h.1

theorem PrintRound.Sound.text_length (h : r.Sound) :
    0 < r.text.length ∧ r.text.length ≤ 4 := by
  cases r with
  | letter c sp => simp [text]
  | octal c => simp [text, octalEscape]
  | character bytes =>
      have hpos : 0 < frUtf8Char bytes := by rw [h.2.1]; exact h.1
      have h4 := (frUtf8Char_inside hpos).1
      rw [h.2.1] at h4
      exact ⟨h.1, h4⟩

/-- No round prints a NUL. -/
theorem PrintRound.Sound.text_nul (h : r.Sound) : 0 ∉ r.text := by
  cases r with
  | letter c sp =>
      have hsp := escapeLetter_cases h
      intro hmem
      have hz : sp = 0 := by simpa [text, eq_comm] using hmem
      simp [hz] at hsp
  | octal c =>
      have hge {d : Nat} (hd : d < 16) : (0 : UInt8) ≠ digitByte d := by
        intro h0
        have h48 := digitByte_ge hd
        rw [← h0] at h48
        exact absurd h48 (by decide)
      have hc := c.toNat_lt
      simp only [text, octalEscape, List.mem_cons, List.not_mem_nil, or_false,
        not_or]
      exact ⟨by decide, hge (by omega), hge (by omega), hge (by omega)⟩
  | character bytes =>
      have hpos : 0 < frUtf8Char bytes := by rw [h.2.1]; exact h.1
      obtain ⟨-, -, hbytes⟩ := frUtf8Char_inside hpos
      have hnul : 0 ∉ bytes := by
        intro hmem
        obtain ⟨i, hi, h0⟩ := List.mem_iff_getElem.mp hmem
        have hge := (hbytes i (by rw [h.2.1]; exact hi)).1
        rw [byteAt, List.getD_eq_getElem?_getD, List.getElem?_eq_getElem hi,
          Option.getD_some, h0] at hge
        exact absurd hge (by decide)
      exact hnul

/-- The round at the front of a string is sound and prints its front. -/
theorem roundOf_sound (hs : s ≠ []) :
    (roundOf s).Sound
      ∧ (roundOf s).source = s.take (roundOf s).source.length := by
  obtain ⟨c, rest, rfl⟩ := List.exists_cons_of_ne_nil hs
  unfold roundOf
  simp only [List.headD_cons]
  split
  · next sp hsp => exact ⟨hsp, rfl⟩
  · next hnone =>
      split
      · exact ⟨trivial, rfl⟩
      · next hn =>
          obtain ⟨-, hlen, hbytes⟩ :=
            frUtf8Char_inside (Nat.pos_of_ne_zero hn)
          have htake : ((c :: rest).take (frUtf8Char (c :: rest))).length
              = frUtf8Char (c :: rest) := by
            rw [List.length_take, Nat.min_eq_left hlen]
          refine ⟨⟨?_, ?_, ?_⟩, ?_⟩
          · rw [htake]
            exact Nat.pos_of_ne_zero hn
          · rw [htake]
            exact frUtf8Char_take (Nat.pos_of_ne_zero hn)
          · intro hmem
            obtain ⟨i, hi, h92⟩ := List.mem_iff_getElem.mp hmem
            rw [htake] at hi
            rw [List.getElem_take] at h92
            cases i with
            | zero =>
                rw [List.getElem_cons_zero] at h92
                rw [h92] at hnone
                cases hnone
            | succ i =>
                have hge := (hbytes (i + 1) hi).2 (Nat.succ_pos i)
                rw [byteAt, List.getD_eq_getElem?_getD,
                  List.getElem?_eq_getElem (by omega), h92] at hge
                exact absurd hge (by decide)
          · show _ = List.take (List.take _ _).length _
            rw [htake]
            rfl

/-- The loop reads the round at the front of what is left, whatever is
behind the terminator. -/
theorem printRound_eq (hs : s ≠ []) (more : List UInt8) :
    printRound (s ++ 0 :: more) = .ok (roundOf s) := by
  obtain ⟨c, rest, rfl⟩ := List.exists_cons_of_ne_nil hs
  have hread := frUtf8CharRead_more (frUtf8CharRead_nul (c :: rest)) more
  rw [List.append_assoc, List.singleton_append] at hread
  have hfetch : fetch (c :: rest ++ 0 :: more) 0 = .ok c := rfl
  unfold printRound roundOf
  rw [hfetch, ok_bind, List.headD_cons]
  cases hsp : escapeLetter c with
  | some sp => simp only [hsp]; rfl
  | none =>
      simp only [hsp]
      rw [hread, ok_bind]
      by_cases hn : frUtf8Char (c :: rest) = 0
      · rw [if_pos hn, if_pos hn]
        rfl
      · obtain ⟨-, hlen, -⟩ := frUtf8Char_inside (Nat.pos_of_ne_zero hn)
        have htake : fetchN (c :: rest ++ 0 :: more) 0
            (frUtf8Char (c :: rest) : Nat)
              = .ok ((c :: rest).take (frUtf8Char (c :: rest))) := by
          unfold fetchN
          rw [if_neg (by rw [List.length_append]; omega), Int.toNat_zero,
            List.drop_zero, Int.toNat_natCast,
            List.take_append_of_le_length hlen]
          rfl
        rw [if_neg hn, if_neg hn, htake]
        rfl

/-- The writes of a round. -/
theorem write_eq (h : r.Sound) (hroom : 4 < outlen)
    (hbuf : out + outlen ≤ buf.length) :
    ∃ new, r.write outlen buf out = .ok new
      ∧ ChangedIn buf out outlen new ∧ Written new out r.text := by
  cases r with
  | letter c sp =>
      have hone : (overlay buf out [92]).length = buf.length :=
        overlay_length (by rw [List.length_singleton]; omega)
      have hfits : out + [92, sp].length ≤ buf.length := by
        simp only [List.length_cons, List.length_nil]
        omega
      refine ⟨overlay buf out [92, sp], ?_, .overlay (Nat.le_refl _)
        (by simp only [List.length_cons, List.length_nil]; omega) hfits,
        written_overlay hfits⟩
      rw [PrintRound.write, store_eq_ok (by omega), ok_bind,
        store_eq_ok (by omega), overlay_cons hfits]
  | octal c =>
      have htake : (octalEscape c).take (outlen - 1) = octalEscape c :=
        List.take_of_length_le (by
          rw [show (octalEscape c).length = 4 from rfl]; omega)
      have hlen : (octalEscape c ++ [0]).length = 5 := rfl
      have hfits : out + (octalEscape c ++ [0]).length ≤ buf.length := by
        rw [hlen]
        omega
      refine ⟨overlay buf out (octalEscape c ++ [0]), ?_,
        .overlay (Nat.le_refl _) (by rw [hlen]; omega) hfits,
        (written_overlay hfits).left⟩
      rw [PrintRound.write, htake, storeN_eq_ok hfits]
  | character bytes =>
      have h4 : bytes.length ≤ 4 := h.text_length.2
      have hfits : out + bytes.length ≤ buf.length := by omega
      exact ⟨overlay buf out bytes, storeN_eq_ok hfits,
        .overlay (Nat.le_refl _) (by omega) hfits, written_overlay hfits⟩

end rounds

-- ======== strings

/-- The rounds of a string; a trailing zero has none. -/
def printRounds (s : List UInt8) : List PrintRound :=
  if _h : s = [] ∨ s = [0] then []
  else
    roundOf s :: printRounds (s.drop (roundOf s).source.length)
termination_by s.length
decreasing_by
  obtain ⟨hs, -⟩ := not_or.mp _h
  have hpos := (roundOf_sound hs).1.source_pos
  have hlen := List.length_pos_iff.mpr hs
  rw [List.length_drop]
  omega

/-- The rounds that are begun with more than four bytes of room. -/
def fitRounds : Nat → List PrintRound → List PrintRound
  | _, [] => []
  | outlen, r :: rs =>
      if outlen ≤ 4 then []
      else r :: fitRounds (outlen - r.text.length) rs

/-- What rounds print. -/
def textOf (rs : List PrintRound) : List UInt8 :=
  rs.flatMap PrintRound.text

/-- What rounds stand for. -/
def sourceOf (rs : List PrintRound) : List UInt8 :=
  rs.flatMap PrintRound.source

/-- The text of a string in an output of `outlen` bytes. -/
def printed (outlen : Nat) (s : List UInt8) : List UInt8 :=
  textOf (fitRounds outlen (printRounds s))

/-- All of the string is printed. -/
def AllPrinted (outlen : Nat) (s : List UInt8) : Prop :=
  fitRounds outlen (printRounds s) = printRounds s

section strings

variable {s more buf : List UInt8} {rs : List PrintRound}
  {outlen out fuel : Nat} {inlen : UInt32}

theorem printRounds_sound (s : List UInt8) :
    ∀ r ∈ printRounds s, r.Sound := by
  induction s using printRounds.induct with
  | case1 s h =>
      rw [printRounds, dif_pos h]
      exact List.forall_mem_nil _
  | case2 s h ih =>
      rw [printRounds, dif_neg h]
      exact List.forall_mem_cons.mpr
        ⟨(roundOf_sound (not_or.mp h).1).1, ih⟩

/-- The rounds of a string stand for the string, less a trailing zero. -/
theorem sourceOf_printRounds (s : List UInt8) :
    sourceOf (printRounds s) = s ∨ sourceOf (printRounds s) ++ [0] = s := by
  induction s using printRounds.induct with
  | case1 s h =>
      rw [printRounds, dif_pos h]
      rcases h with rfl | rfl
      · exact .inl rfl
      · exact .inr rfl
  | case2 s h ih =>
      have hfront := (roundOf_sound (not_or.mp h).1).2
      have hcons : sourceOf (printRounds s) = (roundOf s).source
          ++ sourceOf (printRounds (s.drop (roundOf s).source.length)) := by
        rw [printRounds, dif_neg h]
        rfl
      have hsplit := List.take_append_drop (roundOf s).source.length s
      rw [← hfront] at hsplit
      rw [hcons]
      rcases ih with hih | hih
      · left
        rw [hih, hsplit]
      · right
        rw [List.append_assoc, hih, hsplit]

theorem fitRounds_prefix (outlen : Nat) (rs : List PrintRound) :
    fitRounds outlen rs <+: rs := by
  induction rs generalizing outlen with
  | nil => exact List.nil_prefix
  | cons r rs ih =>
      rw [fitRounds]
      split
      · exact List.nil_prefix
      · exact List.prefix_cons_inj r |>.mpr (ih _)

theorem fitRounds_small (h : outlen ≤ 4) : fitRounds outlen rs = [] := by
  cases rs with
  | nil => rfl
  | cons r rs => rw [fitRounds, if_pos h]

/-- The terminator has room behind what is printed. -/
theorem fitRounds_length (h : ∀ r ∈ rs, r.Sound) (h1 : 1 ≤ outlen) :
    (textOf (fitRounds outlen rs)).length + 1 ≤ outlen := by
  induction rs generalizing outlen with
  | nil => exact h1
  | cons r rs ih =>
      rw [fitRounds]
      split
      · exact h1
      · next hroom =>
          obtain ⟨hr, hrs⟩ := List.forall_mem_cons.mp h
          obtain ⟨-, h4⟩ := hr.text_length
          have hrest := @ih (outlen - r.text.length) hrs (by omega)
          have hcons : textOf (r :: fitRounds (outlen - r.text.length) rs)
              = r.text ++ textOf (fitRounds (outlen - r.text.length) rs) :=
            rfl
          rw [hcons, List.length_append]
          omega

theorem printed_end (h : (s = [] ∨ s = [0]) ∨ outlen ≤ 4) :
    printed outlen s = [] := by
  unfold printed
  rcases h with hs | hsmall
  · rw [printRounds, dif_pos hs]
    rfl
  · rw [fitRounds_small hsmall]
    rfl

theorem printed_round (hs : ¬ (s = [] ∨ s = [0])) (hroom : ¬ outlen ≤ 4) :
    printed outlen s = (roundOf s).text
      ++ printed (outlen - (roundOf s).text.length)
        (s.drop (roundOf s).source.length) := by
  rw [printed, printRounds, dif_neg hs, fitRounds, if_neg hroom]
  rfl

/-- What is left of a string is counted in 32 bits. -/
theorem toNat_left {n : Nat} (hin : inlen.toNat = s.length)
    (hle : n ≤ s.length) :
    (inlen - UInt32.ofNat n).toNat = (s.drop n).length := by
  have hlt := inlen.toNat_lt
  have hnat : (UInt32.ofNat n).toNat = n := by
    rw [UInt32.toNat_ofNat']
    exact Nat.mod_eq_of_lt (by omega)
  rw [UInt32.toNat_sub_of_le _ _ (UInt32.le_iff_toNat_le.mpr (by omega)),
    hnat, hin, List.length_drop]

/-- The loop prints the rounds that fit. -/
theorem printStringLoop_run (hfuel : outlen < fuel)
    (hin : inlen.toNat = s.length) (hbuf : out + outlen ≤ buf.length) :
    ∃ new, printStringLoop fuel inlen outlen (s ++ 0 :: more) buf out
        = .ok (new, out + (printed outlen s).length)
      ∧ ChangedIn buf out outlen new ∧ Written new out (printed outlen s) := by
  induction fuel generalizing s inlen outlen buf out with
  | zero => omega
  | succ fuel ih =>
      have hstop (h : printed outlen s = []) :
          ∃ new, .ok (buf, out)
              = (.ok (new, out + (printed outlen s).length) : Mem _)
            ∧ ChangedIn buf out outlen new
            ∧ Written new out (printed outlen s) := by
        rw [h]
        exact ⟨buf, rfl, .refl buf out outlen, written_nil⟩
      rw [printStringLoop]
      by_cases hend : inlen = 0 ∨ outlen ≤ 4
      · rw [if_pos hend]
        refine hstop (printed_end (hend.imp ?_ id))
        rintro rfl
        exact .inl (List.length_eq_zero_iff.mp hin.symm)
      · obtain ⟨h0, hroom⟩ := not_or.mp hend
        have hs : s ≠ [] := by
          rintro rfl
          exact h0 (UInt32.toNat_inj.mp hin)
        obtain ⟨c, rest, hcons⟩ := List.exists_cons_of_ne_nil hs
        have hread : fetch (s ++ 0 :: more) 0 = .ok c := by
          rw [hcons]
          rfl
        rw [if_neg hend, hread, ok_bind]
        by_cases hlast : inlen = 1 ∧ c = 0
        · rw [if_pos hlast]
          refine hstop (printed_end (.inl (.inr ?_)))
          obtain ⟨rfl, rfl⟩ := hlast
          rw [hcons] at hin ⊢
          rw [List.length_eq_zero_iff.mp (Nat.succ.inj hin).symm]
        · have hmore : ¬ (s = [] ∨ s = [0]) := by
            rintro (hnil | hzero)
            · exact hs hnil
            · rw [hzero] at hin
              rw [hcons] at hzero
              exact hlast ⟨UInt32.toNat_inj.mp hin,
                (List.cons.inj hzero).1⟩
          obtain ⟨hsound, hfront⟩ := roundOf_sound hs
          obtain ⟨hpos, h4⟩ := hsound.text_length
          have hsrc := hsound.source_pos
          have hle : (roundOf s).source.length ≤ s.length := by
            rw [hfront, List.length_take]
            exact Nat.min_le_right _ _
          obtain ⟨mid, hmid, hch, hwr⟩ :=
            write_eq hsound (Nat.not_le.mp hroom) hbuf
          have hbuf' : out + (roundOf s).text.length
              + (outlen - (roundOf s).text.length) ≤ mid.length := by
            rw [hch.length]
            omega
          obtain ⟨new, hnew, hch', hwr'⟩ :=
            ih (by omega) (toNat_left hin hle) hbuf'
          rw [if_neg hlast, printRound_eq hs, ok_bind, hmid, ok_bind,
            List.drop_append_of_le_length hle, hnew,
            printed_round hmore hroom]
          refine ⟨new, ?_, hch.trans (hch'.mono (Nat.le_add_right _ _) ?_),
            hwr.more hch' hwr'⟩
          · rw [List.length_append, Nat.add_assoc]
          · omega

/-- A string is as long as `strlen` says. -/
theorem strlen_eq (h : 0 ∉ s) (more : List UInt8) :
    strlen (s ++ 0 :: more) = .ok s.length := by
  induction s with
  | nil => rfl
  | cons c s ih =>
      obtain ⟨hc, hs⟩ := not_or.mp (mt List.mem_cons.mpr h)
      rw [List.cons_append, strlen, if_neg (Ne.symm hc), ih hs]
      rfl

end strings

-- ======== reading

/-- The byte of an escape's letter. -/
def unescapeLetter (sp : UInt8) : Option UInt8 :=
  if sp = 92 then some 92
  else if sp = 114 then some 13
  else if sp = 110 then some 10
  else if sp = 116 then some 9
  else if sp = 34 then some 34
  else none

/-- What a text stands for: behind a backslash is a letter or an octal
numeral. -/
def unprint : List UInt8 → List UInt8
  | [] => []
  | [c] => [c]
  | c :: sp :: text =>
      if c ≠ 92 then c :: unprint (sp :: text)
      else match unescapeLetter sp with
        | some d => d :: unprint text
        | none =>
            UInt8.ofNat (ofNumeral 8 (sp :: text.take 2))
              :: unprint (text.drop 2)
termination_by text => text.length
decreasing_by
  all_goals
    simp only [List.length_cons, List.length_drop]
    omega

section reading

variable {s t bytes tail : List UInt8} {r : PrintRound}
  {rs : List PrintRound} {outlen outlen' : Nat}

theorem unprint_plain (h : 92 ∉ bytes) :
    unprint (bytes ++ tail) = bytes ++ unprint tail := by
  induction bytes with
  | nil => rfl
  | cons c bytes ih =>
      obtain ⟨hc, hrest⟩ := not_or.mp (mt List.mem_cons.mpr h)
      rw [List.cons_append, List.cons_append, ← ih hrest]
      cases bytes ++ tail with
      | nil => rw [unprint, unprint]
      | cons d text => rw [unprint, if_pos (Ne.symm hc)]

/-- A letter is read back. -/
theorem unescapeLetter_eq {c sp : UInt8} (h : escapeLetter c = some sp) :
    unescapeLetter sp = some c := by
  have hcases := escapeLetter_cases h
  simp only [List.mem_cons, Prod.mk.injEq, List.not_mem_nil, or_false]
    at hcases
  rcases hcases with ⟨rfl, rfl⟩ | ⟨rfl, rfl⟩ | ⟨rfl, rfl⟩ | ⟨rfl, rfl⟩
    | ⟨rfl, rfl⟩
  all_goals rfl

/-- No octal numeral begins like a letter. -/
theorem unescapeLetter_digit :
    ∀ d < 8, unescapeLetter (digitByte d) = none := by
  decide

theorem ofNumeral_octal (c : UInt8) :
    UInt8.ofNat (ofNumeral 8 [digitByte (c.toNat / 64),
      digitByte (c.toNat / 8 % 8), digitByte (c.toNat % 8)]) = c := by
  have hc := c.toNat_lt
  have hvalue : ofNumeral 8 [digitByte (c.toNat / 64),
      digitByte (c.toNat / 8 % 8), digitByte (c.toNat % 8)] = c.toNat := by
    unfold ofNumeral
    rw [List.foldl_cons, List.foldl_cons, List.foldl_cons, List.foldl_nil,
      digitValue_digitByte (by omega) (by omega),
      digitValue_digitByte (by omega) (by omega),
      digitValue_digitByte (by omega) (by omega)]
    simp only [Option.getD_some]
    omega
  rw [hvalue, UInt8.ofNat_toNat]

/-- A round at the front of a text is read as what it stands for. -/
theorem unprint_text (h : r.Sound) :
    unprint (r.text ++ tail) = r.source ++ unprint tail := by
  cases r with
  | letter c sp =>
      rw [PrintRound.text, List.cons_append, List.cons_append,
        List.nil_append, unprint, if_neg (by simp), unescapeLetter_eq h]
      rfl
  | octal c =>
      have hc := c.toNat_lt
      rw [PrintRound.text, octalEscape, List.cons_append, List.cons_append,
        List.cons_append, List.cons_append, List.nil_append, unprint,
        if_neg (by simp), unescapeLetter_digit _ (by omega)]
      exact congrArg (· :: unprint tail) (ofNumeral_octal c)
  | character bytes => exact unprint_plain h.2.2

/-- What is printed is read back. -/
theorem unprint_textOf (h : ∀ r ∈ rs, r.Sound) :
    unprint (textOf rs) = sourceOf rs := by
  induction rs with
  | nil => rw [textOf, List.flatMap_nil, unprint]; rfl
  | cons r rs ih =>
      obtain ⟨hr, hrs⟩ := List.forall_mem_cons.mp h
      exact (unprint_text hr).trans (congrArg (r.source ++ ·) (ih hrs))

/-- A string without zeros that fits is read back from its text. -/
theorem unprint_printed (hs : 0 ∉ s) (hfits : AllPrinted outlen s) :
    unprint (printed outlen s) = s := by
  rw [printed, hfits, unprint_textOf (printRounds_sound s)]
  refine (sourceOf_printRounds s).resolve_right ?_
  intro hzero
  rw [← hzero] at hs
  exact hs (List.mem_append_right _ List.mem_cons_self)

end reading

-- ======== the theorem

/-- The rounds cut a string, less a trailing zero, into escapes and whole
characters. -/
def CutInto (s : List UInt8) (rs : List PrintRound) : Prop :=
  (∀ r ∈ rs, r.Sound) ∧ (sourceOf rs = s ∨ sourceOf rs ++ [0] = s)

section whole

variable {s more buf : List UInt8} {inlen : UInt32} {outlen : Nat}

/-- The length that is given or counted. -/
theorem frPrintStringInto_run
    (hin : inlen.toNat = s.length
      ∨ inlen = 0 ∧ 0 ∉ s ∧ s.length < 2 ^ 32)
    (h1 : 1 ≤ outlen) (hbuf : outlen ≤ buf.length) :
    ∃ new, frPrintStringInto (s ++ 0 :: more) inlen buf outlen
        = .ok (new, (printed outlen s).length)
      ∧ ChangedIn buf 0 outlen new
      ∧ Written new 0 (printed outlen s ++ [0]) := by
  obtain ⟨len, hlen, hcount⟩ : ∃ len : UInt32,
      frPrintStringInto (s ++ 0 :: more) inlen buf outlen
        = (printStringLoop (outlen + 1) len outlen (s ++ 0 :: more) buf 0
            >>= fun p => store p.1 p.2 0 >>= fun buf => .ok (buf, p.2))
      ∧ len.toNat = s.length := by
    unfold frPrintStringInto
    by_cases h0 : inlen = 0
    · have hs : 0 ∉ s ∧ s.length < 2 ^ 32 := by
        rcases hin with hin | hin
        · rw [h0] at hin
          rw [List.length_eq_zero_iff.mp hin.symm]
          exact ⟨List.not_mem_nil, by decide⟩
        · exact hin.2
      refine ⟨UInt32.ofNat s.length, ?_, ?_⟩
      · rw [if_pos h0, strlen_eq hs.1]
        rfl
      · rw [UInt32.toNat_ofNat']
        exact Nat.mod_eq_of_lt hs.2
    · rw [if_neg h0]
      exact ⟨inlen, rfl, hin.resolve_right fun h => h0 h.1⟩
  have hroom := fitRounds_length (printRounds_sound s) h1
  have hloop : ∃ new, printStringLoop (outlen + 1) len outlen
        (s ++ 0 :: more) buf 0 = .ok (new, 0 + (printed outlen s).length)
      ∧ ChangedIn buf 0 outlen new ∧ Written new 0 (printed outlen s) :=
    printStringLoop_run (Nat.lt_succ_self outlen) hcount
      (by rw [Nat.zero_add]; exact hbuf)
  obtain ⟨mid, hmid, hch, hwr⟩ := hloop
  rw [Nat.zero_add] at hmid
  have hend : (printed outlen s).length < mid.length := by
    rw [hch.length]
    exact Nat.lt_of_lt_of_le hroom hbuf
  have hfits : (printed outlen s).length + [(0 : UInt8)].length
      ≤ mid.length := hend
  refine ⟨overlay mid (printed outlen s).length [0], ?_, ?_, ?_⟩
  · rw [hlen, hmid, ok_bind]
    rw [store_eq_ok hend, ok_bind]
  · exact hch.trans (.overlay (Nat.zero_le _)
      (by rw [List.length_singleton, Nat.zero_add]; exact hroom) hfits)
  · have hone : ChangedIn mid (0 + (printed outlen s).length) 1
        (overlay mid (printed outlen s).length [0]) := by
      rw [Nat.zero_add]
      exact .overlay (Nat.le_refl _) (Nat.le_refl _) hfits
    refine hwr.more hone ?_
    rw [Nat.zero_add]
    exact written_overlay hfits

/-- `fr_print_string` writes a terminated text into its output and returns
the length of the text; the text is made of whole escapes and characters;
and two strings without zeros that fit have different texts. -/
theorem frPrintString_whole
    (hin : inlen.toNat = s.length
      ∨ inlen = 0 ∧ 0 ∉ s ∧ s.length < 2 ^ 32)
    (h1 : 1 ≤ outlen) (hbuf : outlen ≤ buf.length) :
    (∃ new, frPrintStringInto (s ++ 0 :: more) inlen buf outlen
        = .ok (new, (printed outlen s).length)
      ∧ ChangedIn buf 0 outlen new
      ∧ Written new 0 (printed outlen s ++ [0]))
    ∧ (printed outlen s).length + 1 ≤ outlen
    ∧ 0 ∉ printed outlen s
    ∧ CutInto s (printRounds s)
    ∧ (∃ rs, rs <+: printRounds s ∧ printed outlen s = textOf rs)
    ∧ ∀ (t : List UInt8) (outlen' : Nat), 0 ∉ s → 0 ∉ t →
        AllPrinted outlen s → AllPrinted outlen' t →
        printed outlen s = printed outlen' t → s = t := by
  have hfront := fitRounds_prefix outlen (printRounds s)
  refine ⟨frPrintStringInto_run hin h1 hbuf,
    fitRounds_length (printRounds_sound s) h1, ?_,
    ⟨printRounds_sound s, sourceOf_printRounds s⟩, ⟨_, hfront, rfl⟩, ?_⟩
  · intro hmem
    obtain ⟨r, hr, h0⟩ := List.mem_flatMap.mp hmem
    exact (printRounds_sound s r (hfront.subset hr)).text_nul h0
  · intro t outlen' hs ht hfits hfits' heq
    rw [← unprint_printed hs hfits, heq, unprint_printed ht hfits']

/-- A quote, a character of two bytes, a stray byte and a letter in nine
bytes of output: the letter has no room. -/
theorem frPrintString_whole_cut :
    (1 ≤ 9 ∧ 9 ≤ (List.replicate 9 (1 : UInt8)).length)
    ∧ frPrintStringInto [34, 0xc3, 0xa4, 0xff, 65, 0] 5
        (List.replicate 9 1) 9
      = .ok ([92, 34, 0xc3, 0xa4, 92, 51, 55, 55, 0], 8)
    ∧ (printed 9 [34, 0xc3, 0xa4, 0xff, 65]).length + 1 ≤ 9 :=
  ⟨by decide, rfl,
    (@frPrintString_whole [34, 0xc3, 0xa4, 0xff, 65] []
      (List.replicate 9 1) 5 9 (.inl rfl) (by decide) (by decide)).2.1⟩

end whole

end WinRadius
