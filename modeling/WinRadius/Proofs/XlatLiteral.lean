/-
What `radius_xlat` makes of a text without variables.

A dollar sign is one of the three characters the loop stops at, but no
branch behind the test is about it: the loop is past the sign, and goes on.
`dropSigns` is what is left of a text, and `SignsLast` says where its front
is left as it was.
-/
import WinRadius.Model.Xlat
import WinRadius.Proofs.PrintScan
import WinRadius.Proofs.UserPassword

namespace WinRadius

open Lib

-- ======== signs

/-- A text without its dollar signs, except one at the end. -/
def dropSigns : List UInt8 → List UInt8
  | [] => []
  | [c] => [c]
  | c :: d :: rest =>
      if c = 36 then dropSigns (d :: rest) else c :: dropSigns (d :: rest)

/-- Every dollar sign among the first `n` characters is the last of the
text, or is itself the `n`-th and only dollar signs follow. -/
def SignsLast (n : Nat) (text : List UInt8) : Prop :=
  ∀ front rest, text = front ++ 36 :: rest → front.length < n →
    rest = [] ∨ (front.length + 1 = n ∧ ∀ c ∈ rest, c = 36)

section signs

variable {text rest : List UInt8} {c d : UInt8} {n : Nat}

theorem dropSigns_head (text : List UInt8) (c : UInt8) :
    (∃ rest, dropSigns (c :: text) = 36 :: rest) ↔
      ∀ d ∈ c :: text, d = 36 := by
  induction text generalizing c with
  | nil => simp [dropSigns]
  | cons d text ih =>
      rw [dropSigns]
      split
      · next hc =>
          rw [ih d, List.forall_mem_cons (a := c)]
          exact ⟨fun h => ⟨hc, h⟩, fun h => h.2⟩
      · next hc =>
          constructor
          · intro h
            obtain ⟨rest, hrest⟩ := h
            exact absurd (List.cons.inj hrest).1 hc
          · intro h
            exact absurd (h c List.mem_cons_self) hc

theorem dropSigns_signs (h : ∀ d ∈ c :: text, d = 36) :
    dropSigns (c :: text) = [36] := by
  induction text generalizing c with
  | nil =>
      rw [h c List.mem_cons_self]
      rfl
  | cons d text ih =>
      rw [dropSigns, if_pos (h c List.mem_cons_self)]
      exact ih fun e he => h e (List.mem_cons_of_mem _ he)

theorem signsLast_cons (hc : c ≠ 36) :
    SignsLast (n + 1) (c :: text) ↔ SignsLast n text := by
  constructor
  · intro h front rest htext hlen
    have hlast := h (c :: front) rest (by rw [htext]; rfl) (by
      rw [List.length_cons]
      omega)
    rw [List.length_cons] at hlast
    rcases hlast with hnil | ⟨hn, hall⟩
    · exact .inl hnil
    · exact .inr ⟨by omega, hall⟩
  · intro h front rest htext hlen
    cases front with
    | nil => exact absurd (List.cons.inj htext).1 hc
    | cons e front =>
        rw [List.length_cons] at hlen ⊢
        rcases h front rest (List.cons.inj htext).2 (by omega) with
          hnil | ⟨hn, hall⟩
        · exact .inl hnil
        · exact .inr ⟨by omega, hall⟩

theorem signsLast_sign :
    SignsLast (n + 1) (36 :: d :: rest) ↔
      n = 0 ∧ ∀ e ∈ d :: rest, e = 36 := by
  constructor
  · intro h
    rcases h [] (d :: rest) rfl (Nat.succ_pos n) with hnil | ⟨hn, hall⟩
    · cases hnil
    · exact ⟨by simpa using hn.symm, hall⟩
  · intro h
    obtain ⟨rfl, hall⟩ := h
    intro front rest' htext hlen
    cases front with
    | nil =>
        rw [← (List.cons.inj htext).2]
        exact .inr ⟨rfl, hall⟩
    | cons e front =>
        rw [List.length_cons] at hlen
        omega

/-- Where the front of a text is left as it was. -/
theorem take_dropSigns_iff :
    (dropSigns text).take n = text.take n ↔ SignsLast n text := by
  induction text using dropSigns.induct generalizing n with
  | case1 =>
      refine ⟨fun _ front rest htext => ?_, fun _ => rfl⟩
      simp at htext
  | case2 c =>
      refine ⟨fun _ front rest htext _ => .inl ?_, fun _ => rfl⟩
      cases front with
      | nil => exact (List.cons.inj htext).2.symm
      | cons e front => simp at htext
  | case3 d rest ih =>
      cases n with
      | zero => exact ⟨fun _ _ _ _ h => absurd h (Nat.not_lt_zero _),
          fun _ => rfl⟩
      | succ n =>
          rw [dropSigns, if_pos rfl, signsLast_sign, List.take_succ_cons]
          constructor
          · intro heq
            have hall : ∀ e ∈ d :: rest, e = 36 := by
              apply (dropSigns_head rest d).mp
              cases hdrop : dropSigns (d :: rest) with
              | nil => simp [hdrop] at heq
              | cons e more =>
                  rw [hdrop, List.take_succ_cons] at heq
                  rw [(List.cons.inj heq).1]
                  exact ⟨more, rfl⟩
            refine ⟨?_, hall⟩
            rw [dropSigns_signs hall] at heq
            have hlen := congrArg List.length heq
            rw [List.take_succ_cons, List.length_cons, List.length_cons,
              List.length_take, List.length_take, List.length_cons,
              List.length_nil] at hlen
            omega
          · intro h
            obtain ⟨rfl, hall⟩ := h
            rw [dropSigns_signs hall]
            rfl
  | case4 c d rest hc ih =>
      cases n with
      | zero => exact ⟨fun _ _ _ _ h => absurd h (Nat.not_lt_zero _),
          fun _ => rfl⟩
      | succ n =>
          rw [dropSigns, if_neg hc, signsLast_cons hc, ← ih,
            List.take_succ_cons, List.take_succ_cons]
          exact ⟨fun h => (List.cons.inj h).2, fun h => by rw [h]⟩

end signs

-- ======== rounds

section rounds

variable {env : XlatEnv} {req : XlatRequest} {func : EscapeString}
  {xlat : List UInt8 → Nat → Nat → List UInt8 → Mem Expansion}
  {mem text rest : List UInt8} {c d : UInt8} {out outlen q i room k : Nat}

theorem xlatRound_nul :
    xlatRound env req func xlat out outlen ⟨mem, q, [0], 0⟩
      = .ok (.leave ⟨mem, q, [0], 0⟩) := rfl

theorem xlatRound_full (hc : c ≠ 0) (hroom : outlen - (q - out) ≤ 1) :
    xlatRound env req func xlat out outlen ⟨mem, q, c :: rest, 0⟩
      = .ok (.leave ⟨mem, q, c :: rest, 0⟩) := by
  rw [xlatRound, peekByte_cons, ok_bind, if_neg hc]
  dsimp only
  rw [if_pos hroom]
  rfl

theorem put_eq_ok {s : XlatState} {bytes p : List UInt8}
    (h : s.q + bytes.length ≤ s.mem.length) :
    s.put bytes p = .ok
      { s with mem := overlay s.mem s.q bytes, q := s.q + bytes.length, p } := by
  rw [XlatState.put, storeN_eq_ok h]
  rfl

theorem xlatRound_plain (hc : c ≠ 0) (h37 : c ≠ 37) (h36 : c ≠ 36)
    (h92 : c ≠ 92) (hroom : 1 < outlen - (q - out)) (hq : q < mem.length) :
    xlatRound env req func xlat out outlen ⟨mem, q, c :: rest, 0⟩
      = .ok (.more ⟨overlay mem q [c], q + 1, rest, 0⟩) := by
  rw [xlatRound, peekByte_cons, ok_bind, if_neg hc]
  dsimp only
  rw [if_neg (by omega), if_pos ⟨h37, h36, h92⟩, if_neg (by simp),
    put_eq_ok (by rw [List.length_singleton]; exact hq)]
  rfl

/-- A dollar sign and a character behind it. -/
theorem xlatRound_sign (hd : d ≠ 0) (hroom : 1 < outlen - (q - out)) :
    xlatRound env req func xlat out outlen ⟨mem, q, 36 :: d :: rest, 0⟩
      = .ok (.more ⟨mem, q, d :: rest, 0⟩) := by
  rw [xlatRound, peekByte_cons, ok_bind, if_neg (by decide)]
  dsimp only
  rw [if_neg (by omega), if_neg (by decide), List.drop_one, List.tail_cons,
    peekByte_cons, ok_bind, if_neg hd, if_neg (by decide),
    if_neg (by decide)]
  rfl

/-- A dollar sign at the end. -/
theorem xlatRound_last (hroom : 1 < outlen - (q - out))
    (hq : q < mem.length) :
    xlatRound env req func xlat out outlen ⟨mem, q, [36, 0], 0⟩
      = .ok (.leave ⟨overlay mem q [36], q + 1, [0], 0⟩) := by
  rw [xlatRound, peekByte_cons, ok_bind, if_neg (by decide)]
  dsimp only
  rw [if_neg (by omega), if_neg (by decide), List.drop_one, List.tail_cons,
    peekByte_cons, ok_bind, if_pos rfl,
    put_eq_ok (by rw [List.length_singleton]; exact hq)]
  rfl

/-- A text written at `q`, and what is returned then. -/
def expansionOf (mem : List UInt8) (out q : Nat) (text : List UInt8) :
    Expansion :=
  ⟨(cString ((overlay mem q (text ++ [0])).drop out)).length,
    overlay mem q (text ++ [0])⟩

theorem xlatLoop_leave {s s' : XlatState}
    (h : xlatRound env req func xlat out outlen s = .ok (.leave s'))
    (hq : s'.q < s'.mem.length) :
    xlatLoop env req func xlat out outlen (k + 1) s
      = .ok (expansionOf s'.mem out s'.q []) := by
  rw [xlatLoop, h, ok_bind]
  dsimp only
  rw [store_eq_ok hq]
  rfl

theorem xlatLoop_more {s s' : XlatState}
    (h : xlatRound env req func xlat out outlen s = .ok (.more s')) :
    xlatLoop env req func xlat out outlen (k + 1) s
      = xlatLoop env req func xlat out outlen k s' := by
  rw [xlatLoop, h, ok_bind]

theorem expansionOf_cons (h : q + (c :: text).length < mem.length) :
    expansionOf (overlay mem q [c]) out (q + 1) text
      = expansionOf mem out q (c :: text) := by
  rw [List.length_cons] at h
  rw [expansionOf, expansionOf, overlay_cons, List.cons_append]
  rw [List.length_cons, List.length_append, List.length_singleton]
  omega

/-- No room for more than the terminator. -/
theorem xlatLoop_full (h0 : 0 ∉ text) (hi : i + 1 = outlen)
    (hmem : out + outlen ≤ mem.length) :
    xlatLoop env req func xlat out outlen (k + 1)
        ⟨mem, out + i, text ++ [0], 0⟩
      = .ok (expansionOf mem out (out + i) []) := by
  cases text with
  | nil => exact xlatLoop_leave xlatRound_nul (by dsimp only; omega)
  | cons c text =>
      have hc : c ≠ 0 := fun hc => h0 (hc ▸ List.mem_cons_self)
      exact xlatLoop_leave (xlatRound_full hc (by omega))
        (by dsimp only; omega)

/-- The loop on a text without variables. -/
theorem xlatLoop_text (h0 : 0 ∉ text) (h37 : 37 ∉ text) (h92 : 92 ∉ text)
    (hk : text.length < k) (hi : i + room + 1 = outlen)
    (hmem : out + outlen ≤ mem.length) :
    xlatLoop env req func xlat out outlen k ⟨mem, out + i, text ++ [0], 0⟩
      = .ok (expansionOf mem out (out + i) ((dropSigns text).take room)) := by
  induction text using dropSigns.induct generalizing mem i room k with
  | case1 =>
      obtain ⟨k, rfl⟩ : ∃ k', k = k' + 1 := ⟨k - 1, by omega⟩
      rw [dropSigns, List.take_nil]
      exact xlatLoop_leave xlatRound_nul (by dsimp only; omega)
  | case2 c =>
      rw [List.length_singleton] at hk
      obtain ⟨k, rfl⟩ : ∃ k', k = k' + 2 := ⟨k - 2, by omega⟩
      cases room with
      | zero => exact xlatLoop_full h0 hi hmem
      | succ room =>
          rw [dropSigns, List.take_succ_cons, List.take_nil,
            ← expansionOf_cons (by simp; omega)]
          by_cases hc : c = 36
          · rw [hc]
            apply xlatLoop_leave (xlatRound_last (by omega) (by omega))
            dsimp only
            rw [overlay_length (by simp; omega)]
            omega
          · rw [List.cons_append, List.nil_append,
              xlatLoop_more (xlatRound_plain
                (Ne.symm (List.ne_of_not_mem_cons h0))
                (Ne.symm (List.ne_of_not_mem_cons h37)) hc
                (Ne.symm (List.ne_of_not_mem_cons h92)) (by omega)
                (by omega))]
            apply xlatLoop_leave xlatRound_nul
            dsimp only
            rw [overlay_length (by simp; omega)]
            omega
  | case3 d rest ih =>
      rw [List.length_cons] at hk
      obtain ⟨k, rfl⟩ : ∃ k', k = k' + 1 := ⟨k - 1, by omega⟩
      have hd : d ≠ 0 := by
        intro hd
        rw [hd] at h0
        simp at h0
      cases room with
      | zero => exact xlatLoop_full h0 hi hmem
      | succ room =>
          rw [dropSigns, if_pos rfl]
          exact (xlatLoop_more (xlatRound_sign hd (by omega))).trans
            (ih (List.not_mem_of_not_mem_cons h0)
              (List.not_mem_of_not_mem_cons h37)
              (List.not_mem_of_not_mem_cons h92) (by omega) hi hmem)
  | case4 c d rest hc ih =>
      rw [List.length_cons] at hk
      obtain ⟨k, rfl⟩ : ∃ k', k = k' + 1 := ⟨k - 1, by omega⟩
      cases room with
      | zero => exact xlatLoop_full h0 hi hmem
      | succ room =>
          have hlen : (overlay mem (out + i) [c]).length = mem.length :=
            overlay_length (by rw [List.length_singleton]; omega)
          have hround :
              xlatLoop env req func xlat out outlen k
                  ⟨overlay mem (out + i) [c], out + (i + 1),
                    d :: rest ++ [0], 0⟩
                = .ok (expansionOf (overlay mem (out + i) [c]) out
                    (out + (i + 1)) ((dropSigns (d :: rest)).take room)) :=
            ih (List.not_mem_of_not_mem_cons h0)
              (List.not_mem_of_not_mem_cons h37)
              (List.not_mem_of_not_mem_cons h92) (by omega) (by omega)
              (by omega)
          rw [dropSigns, if_neg hc, List.take_succ_cons, List.cons_append,
            xlatLoop_more (xlatRound_plain
              (Ne.symm (List.ne_of_not_mem_cons h0))
              (Ne.symm (List.ne_of_not_mem_cons h37)) hc
              (Ne.symm (List.ne_of_not_mem_cons h92)) (by omega) (by omega)),
            Nat.add_assoc, hround, ← Nat.add_assoc, expansionOf_cons]
          simp only [List.length_cons, List.length_take]
          omega

theorem dropSigns_subset : dropSigns text ⊆ text := by
  induction text using dropSigns.induct with
  | case1 => exact List.nil_subset _
  | case2 c => exact List.Subset.refl _
  | case3 d rest ih =>
      rw [dropSigns, if_pos rfl]
      exact List.subset_cons_of_subset _ ih
  | case4 c d rest hc ih =>
      rw [dropSigns, if_neg hc]
      exact List.cons_subset_cons _ ih

theorem cString_expansionOf (h0 : 0 ∉ text) (hout : out ≤ mem.length) :
    cString ((expansionOf mem out out text).mem.drop out) = text := by
  have hlen : (mem.take out).length = out := by
    rw [List.length_take, Nat.min_eq_left hout]
  rw [expansionOf, overlay, List.append_assoc, List.drop_left' hlen,
    List.append_assoc, List.singleton_append, cString_append_nul]
  apply cString_of_ne
  intro c hc hc0
  exact h0 (hc0 ▸ hc)

/-- A call that leaves this text, and returns its length. -/
def LeavesText (out : Nat) (run : Mem Expansion) (text : List UInt8) : Prop :=
  ∃ r, run = .ok r ∧ cString (r.mem.drop out) = text ∧ r.ret = text.length

variable {escapes : Option EscapeString}

theorem radiusXlat_text (h0 : 0 ∉ text) (h37 : 37 ∉ text) (h92 : 92 ∉ text)
    (hlen : 1 ≤ outlen) (hmem : out + outlen ≤ mem.length) :
    radiusXlat env req escapes mem out outlen (text ++ [0])
      = .ok (expansionOf mem out out ((dropSigns text).take (outlen - 1))) := by
  rw [radiusXlat, xlatAt]
  exact xlatLoop_text (i := 0) h0 h37 h92
    (by rw [List.length_append]; omega) (by omega) hmem

theorem radiusXlat_leaves (h0 : 0 ∉ text) (h37 : 37 ∉ text)
    (h92 : 92 ∉ text) (hlen : 1 ≤ outlen)
    (hmem : out + outlen ≤ mem.length) (left : List UInt8) :
    LeavesText out (radiusXlat env req escapes mem out outlen (text ++ [0]))
        left
      ↔ (dropSigns text).take (outlen - 1) = left := by
  have hrun : radiusXlat env req escapes mem out outlen (text ++ [0])
      = .ok (expansionOf mem out out ((dropSigns text).take (outlen - 1))) :=
    radiusXlat_text h0 h37 h92 hlen hmem
  have hkept : 0 ∉ (dropSigns text).take (outlen - 1) := by
    intro hmem0
    exact h0 (dropSigns_subset (List.mem_of_mem_take hmem0))
  have htext : cString ((expansionOf mem out out
      ((dropSigns text).take (outlen - 1))).mem.drop out)
        = (dropSigns text).take (outlen - 1) :=
    cString_expansionOf hkept (by omega)
  rw [LeavesText, hrun]
  constructor
  · intro h
    obtain ⟨r, hr, hleft, _⟩ := h
    injection hr with hr
    rw [← hleft, ← hr, htext]
  · intro h
    refine ⟨_, rfl, htext.trans h, ?_⟩
    rw [← h]
    exact congrArg List.length htext

/-- A text without variables and escapes comes out as it is, as far as
there is room, exactly when the dollar signs in that part end the text. -/
theorem radiusXlat_literal_iff (h0 : 0 ∉ text) (h37 : 37 ∉ text)
    (h92 : 92 ∉ text) (hlen : 1 ≤ outlen)
    (hmem : out + outlen ≤ mem.length) :
    LeavesText out (radiusXlat env req escapes mem out outlen (text ++ [0]))
        (text.take (outlen - 1))
      ↔ SignsLast (outlen - 1) text :=
  (radiusXlat_leaves h0 h37 h92 hlen hmem _).trans take_dropSigns_iff

/-- Nothing is registered and the dictionary is empty. -/
def bareXlat : XlatEnv where
  text :=
    { dict := Dict.empty
      valbyname := fun _ _ => none
      getaddrinfo := fun _ _ => none
      strftime := fun _ => []
      gettime := fun _ => none }
  attrbyname _ := false
  vendorName _ := none
  vpName _ := []
  strftime _ _ := []
  ctime _ := []
  xlatRoot _ := none
  radacctDir := ascii "/var/log/radacct"
  radlogDir := ascii "/var/log"
  radiusDir := ascii "/etc/raddb"

/-- The sign is the last character. -/
theorem radiusXlat_literal_iff_price :
    LeavesText 0
      (radiusXlat bareXlat {} none (List.replicate 16 0) 0 16
        (ascii "total in $" ++ [0]))
      ((ascii "total in $").take (16 - 1)) :=
  (radiusXlat_literal_iff (by decide) (by decide) (by decide) (by decide)
    (by decide)).mpr (take_dropSigns_iff.mp (by decide))

/-- A hash made by crypt loses its dollar signs. -/
theorem radiusXlat_crypt :
    ¬ LeavesText 0
      (radiusXlat bareXlat {} none (List.replicate 16 0) 0 16
        (ascii "$1$salt$hash" ++ [0]))
      ((ascii "$1$salt$hash").take (16 - 1)) := by
  rw [radiusXlat_leaves (by decide) (by decide) (by decide) (by decide)
    (by decide)]
  decide

end rounds

end WinRadius
