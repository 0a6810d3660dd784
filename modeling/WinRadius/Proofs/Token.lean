/-
Where `getthing` reads and writes.

It keeps inside its text and its buffer except in one place: an escape of
an octal digit moves three characters on, however few there are before
the terminator. `CutOctal` says that a text has such an escape where the
word loop, with the room it has left, comes to it; `Pieces` counts what
the loop takes one by one on its way there.
-/
import WinRadius.Model.Token

namespace WinRadius

open Lib

-- ======== grammar

/-- What the loop takes of a quoted string, counted in its turns. -/
inductive Pieces (quote : UInt8) : Nat → List UInt8 → Prop where
  | nil : Pieces quote 0 []
  | plain {c : UInt8} {n : Nat} {t : List UInt8} : c ≠ quote → c ≠ 92 →
      Pieces quote n t → Pieces quote (n + 1) (c :: t)
  | escape {d : UInt8} {n : Nat} {t : List UInt8} :
      isDigitOf 8 d = false → Pieces quote n t →
      Pieces quote (n + 1) (92 :: d :: t)
  | octal {d e f : UInt8} {n : Nat} {t : List UInt8} :
      isDigitOf 8 d = true → Pieces quote n t →
      Pieces quote (n + 1) (92 :: d :: e :: f :: t)

/-- Within `room` pieces the loop comes to `tail`. -/
def ComesTo (quote : UInt8) (room : Nat) (text tail : List UInt8) : Prop :=
  ∃ n front, Pieces quote n front ∧ n < room ∧ text = front ++ tail

/-- The loop comes to an octal escape that is cut off by the end. -/
def CutString (quote : UInt8) (room : Nat) (text : List UInt8) : Prop :=
  ∃ d back, isDigitOf 8 d = true ∧ back.length < 2 ∧
    ComesTo quote room text (92 :: d :: back)

/-- The loop comes to the closing quote. -/
def ClosedString (quote : UInt8) (room : Nat) (text : List UInt8) : Prop :=
  ∃ after, ComesTo quote room text (quote :: after)

/-- The text starts, behind spaces, with a quoted string such that `P`. -/
def StartsString (P : UInt8 → List UInt8 → Prop) (text : List UInt8) : Prop :=
  ∃ spaces quote body, (∀ c ∈ spaces, isSpace c = true) ∧
    (quote = 34 ∨ quote = 39 ∨ quote = 96) ∧ P quote body ∧
    text = spaces ++ quote :: body

/-- The text starts with a string whose octal escape is cut off. -/
def CutOctal (buflen : Nat) : List UInt8 → Prop :=
  StartsString fun quote body => CutString quote (buflen - 1) body

/-- The text starts with a string that is not closed where the buffer has
room for it. -/
def Unclosed (buflen : Nat) : List UInt8 → Prop :=
  StartsString fun quote body => ¬ ClosedString quote (buflen - 1) body

-- ======== pieces

section pieces

variable {c d quote : UInt8} {rest name buf : List UInt8} {room s : Nat}
  {tok : Bool} {list : List NameNumber}

theorem isDigitOf_eight (h : isDigitOf 8 c = true) : 48 ≤ c ∧ c ≤ 57 := by
  obtain ⟨v, hv⟩ := Option.isSome_iff_exists.mp h
  simp only [digitValue, Option.ite_none_right_eq_some] at hv
  by_contra hout
  have hv8 := hv.1
  rw [if_neg hout] at hv8
  simp only [UInt8.le_iff_toNat_le] at hv8
  split at hv8
  · next hlow =>
      have h97 : 97 ≤ c.toNat := hlow.1
      omega
  · split at hv8
    · next hup =>
        have h65 : 65 ≤ c.toNat := hup.1
        omega
    · omega

theorem skipSpace_text (h : 0 ∉ rest) :
    ∃ spaces left, rest = spaces ++ left ∧
      (∀ c ∈ spaces, isSpace c = true) ∧
      (∀ c ∈ left.head?, isSpace c = false) ∧
      skipSpace (rest ++ [0]) = .ok (left ++ [0]) := by
  induction rest with
  | nil => exact ⟨[], [], rfl, by simp, by simp, rfl⟩
  | cons c rest ih =>
      have hc0 : c ≠ 0 := fun hc => h (hc ▸ List.mem_cons_self)
      rw [List.cons_append, skipSpace]
      cases hsp : isSpace c with
      | false =>
          refine ⟨[], c :: rest, rfl, by simp, by simpa using hsp, ?_⟩
          rw [if_neg (by simp)]
          rfl
      | true =>
          obtain ⟨spaces, left, rfl, hspaces, hhead, hskip⟩ :=
            ih (fun hr => h (List.mem_cons_of_mem _ hr))
          refine ⟨c :: spaces, left, rfl, ?_, hhead, ?_⟩
          · intro e he
            rcases List.mem_cons.mp he with rfl | he
            · exact hsp
            · exact hspaces e he
          · rw [if_pos ⟨hc0, rfl⟩, hskip]

/-- A name of a token list: one or two characters. -/
def TokenName (name : List UInt8) : Prop :=
  (∃ a, a ≠ 0 ∧ name = [a]) ∨ ∃ a b, a ≠ 0 ∧ b ≠ 0 ∧ name = [a, b]

theorem TokenName.length (h : TokenName name) :
    1 ≤ name.length ∧ name.length ≤ 2 := by
  rcases h with ⟨a, _, rfl⟩ | ⟨a, b, _, _, rfl⟩
  · exact ⟨Nat.le_refl _, Nat.le_succ _⟩
  · exact ⟨Nat.le_succ _, Nat.le_refl _⟩

theorem tokens_name : ∀ t ∈ tokens, TokenName t.name := by
  have hshape : ∀ t ∈ tokens, 0 ∉ t.name ∧
      (t.name.length = 1 ∨ t.name.length = 2) := by
    decide
  intro t ht
  obtain ⟨h0, hlen⟩ := hshape t ht
  rcases hlen with hlen | hlen
  · obtain ⟨a, ha⟩ := List.length_eq_one_iff.mp hlen
    rw [ha] at h0
    exact .inl ⟨a, fun h => h0 (h ▸ List.mem_cons_self), ha⟩
  · obtain ⟨a, b, hab⟩ := List.length_eq_two.mp hlen
    rw [hab] at h0
    refine .inr ⟨a, b, fun h => h0 (h ▸ List.mem_cons_self), ?_, hab⟩
    intro h
    apply h0
    rw [h]
    exact List.mem_cons_of_mem _ List.mem_cons_self

theorem tokens_number : ∀ t ∈ tokens, t.number ≠ .opInvalid := by
  decide

theorem tokenMatch_text (hname : TokenName name) :
    ∃ b, tokenMatch (c :: rest ++ [0]) name = .ok b ∧
      (b = true → ∃ left, c :: rest = name ++ left) := by
  obtain ⟨e, es, hes⟩ : ∃ e es, rest ++ [0] = e :: es := by
    cases rest with
    | nil => exact ⟨0, [], rfl⟩
    | cons e es => exact ⟨e, es ++ [0], rfl⟩
  have hmatch : tokenMatch (c :: rest ++ [0]) name
      = .ok (name.getD 0 0 = c && (name.getD 1 0 = e || name.getD 1 0 = 0)) := by
    rw [List.cons_append, hes, tokenMatch, peekByte_cons, ok_bind]
    by_cases hfirst : name.getD 0 0 = c
    · rw [if_neg (by simpa using hfirst), decide_eq_true hfirst,
        Bool.true_and]
      rfl
    · rw [if_pos hfirst, decide_eq_false hfirst, Bool.false_and]
      rfl
  refine ⟨_, hmatch, ?_⟩
  intro htrue
  simp only [Bool.and_eq_true, Bool.or_eq_true, decide_eq_true_eq] at htrue
  rcases hname with ⟨a, ha0, rfl⟩ | ⟨a, b, ha0, hb0, rfl⟩
  · exact ⟨rest, by rw [← htrue.1]; rfl⟩
  · have he : b = e := by simpa [hb0] using htrue.2
    cases rest with
    | nil =>
        simp only [List.nil_append, List.cons.injEq] at hes
        exact absurd (he.trans hes.1.symm) hb0
    | cons e' rest =>
        simp only [List.cons_append, List.cons.injEq] at hes
        refine ⟨rest, ?_⟩
        rw [← htrue.1, hes.1, ← he]
        rfl

theorem tokenFind_text (hlist : ∀ t ∈ list, TokenName t.name) :
    ∃ found, tokenFind (c :: rest ++ [0]) list = .ok found ∧
      ∀ t, found = some t → t ∈ list ∧ ∃ left, c :: rest = t.name ++ left := by
  induction list with
  | nil => exact ⟨none, rfl, by simp⟩
  | cons t list ih =>
      obtain ⟨b, hmatch, hleft⟩ := tokenMatch_text (c := c)
         (hlist t List.mem_cons_self)
      rw [tokenFind, hmatch, ok_bind]
      cases b with
      | true =>
          refine ⟨some t, rfl, ?_⟩
          intro u hu
          injection hu with hu
          subst hu
          exact ⟨List.mem_cons_self, hleft rfl⟩
      | false =>
          obtain ⟨found, hfind, hfound⟩ :=
            ih (fun u hu => hlist u (List.mem_cons_of_mem _ hu))
          refine ⟨found, hfind, ?_⟩
          intro u hu
          exact ⟨List.mem_cons_of_mem _ (hfound u hu).1, (hfound u hu).2⟩

theorem strcpy_eq_ok (h : s + name.length < buf.length) :
    strcpy buf s name = .ok (overlay buf s (name ++ [0])) := by
  induction name generalizing buf s with
  | nil => exact store_eq_ok (by simpa using h)
  | cons a name ih =>
      rw [List.length_cons] at h
      have hlen : (overlay buf s [a]).length = buf.length :=
        overlay_length (by rw [List.length_singleton]; omega)
      rw [strcpy, store_eq_ok (by omega), ok_bind, ih (by omega),
        overlay_cons]
      · rfl
      · rw [List.length_cons, List.length_append, List.length_singleton]
        omega

theorem mem_overlay {a : List UInt8} (h : c ∈ a) : c ∈ overlay buf s a := by
  rw [overlay]
  simp [h]

-- ======== escapes

/-- What a backslash takes of the text behind it. -/
inductive EscapeRun (rest : List UInt8) : Mem (UInt8 × List UInt8) → Prop where
  | eos : rest = [] → EscapeRun rest (.ok (92, [0]))
  | single {d x : UInt8} {left : List UInt8} : rest = d :: left →
      isDigitOf 8 d = false → EscapeRun rest (.ok (x, left ++ [0]))
  | octal {d e f x : UInt8} {left : List UInt8} : rest = d :: e :: f :: left →
      isDigitOf 8 d = true → EscapeRun rest (.ok (x, left ++ [0]))
  | cut {d x : UInt8} {left : List UInt8} : rest = d :: left →
      isDigitOf 8 d = true → left.length < 2 → EscapeRun rest (.ok (x, []))

theorem escape_octal (h : isDigitOf 8 d = true) :
    ∃ x, escape (d :: rest) = .ok (x, (d :: rest).drop 3) := by
  obtain ⟨hlow, hup⟩ := isDigitOf_eight h
  have hne : ∀ e : UInt8, 57 < e ∨ e < 48 → d ≠ e := by
    intro e he hde
    subst hde
    rcases he with he | he
    · exact absurd (UInt8.lt_of_lt_of_le he hup) (UInt8.lt_irrefl _)
    · exact absurd (UInt8.lt_of_lt_of_le he hlow) (UInt8.lt_irrefl _)
  have hscan : ∃ x, scanOctal (d :: rest) = some x := by
    rw [scanOctal, List.take_succ_cons, List.takeWhile_cons, if_pos h,
      if_neg (by simp)]
    exact ⟨_, rfl⟩
  obtain ⟨x, hx⟩ := hscan
  refine ⟨x, ?_⟩
  rw [escape, readByte_cons, ok_bind]
  dsimp only
  rw [if_neg (hne _ (by decide)), if_neg (hne _ (by decide)),
    if_neg (hne _ (by decide)), if_neg (hne _ (by decide)),
    if_pos ⟨hlow, hup⟩, hx]
  rfl

theorem escape_single (h : isDigitOf 8 d = false) (hd : d ≠ 0) :
    ∃ x, escape (d :: rest) = .ok (x, rest) := by
  have hscan : scanOctal (d :: rest) = none := by
    have hnil : ((d :: rest).take 3).takeWhile (isDigitOf 8) = [] := by
      rw [List.take_succ_cons, List.takeWhile_cons, h]
      rfl
    rw [scanOctal, hnil]
    rfl
  rw [escape, readByte_cons, ok_bind, hscan]
  dsimp only
  rw [if_neg hd]
  split_ifs
  all_goals exact ⟨_, rfl⟩

theorem escape_run (h : 0 ∉ rest) : EscapeRun rest (escape (rest ++ [0])) := by
  cases rest with
  | nil => exact .eos rfl
  | cons d rest =>
      rw [List.cons_append]
      cases hd : isDigitOf 8 d with
      | false =>
          obtain ⟨x, hx⟩ := escape_single hd
            (fun hd0 => h (hd0 ▸ List.mem_cons_self))
          rw [hx]
          exact .single rfl hd
      | true =>
          obtain ⟨x, hx⟩ := escape_octal hd
          rw [hx]
          rcases rest with _ | ⟨e, _ | ⟨f, rest⟩⟩
          · exact .cut rfl hd Nat.two_pos
          · exact .cut rfl hd Nat.one_lt_two
          · exact .octal rfl hd

end pieces

-- ======== word loop

section words

variable {c d quote : UInt8} {rest tail buf p : List UInt8}
  {n room s size : Nat} {tok : Bool}

theorem ComesTo.plain (hq : c ≠ quote) (h92 : c ≠ 92)
    (h : ComesTo quote room rest tail) :
    ComesTo quote (room + 1) (c :: rest) tail := by
  obtain ⟨n, front, hfront, hn, rfl⟩ := h
  exact ⟨n + 1, c :: front, .plain hq h92 hfront, by omega, rfl⟩

theorem ComesTo.escape (hd : isDigitOf 8 d = false)
    (h : ComesTo quote room rest tail) :
    ComesTo quote (room + 1) (92 :: d :: rest) tail := by
  obtain ⟨n, front, hfront, hn, rfl⟩ := h
  exact ⟨n + 1, 92 :: d :: front, .escape hd hfront, by omega, rfl⟩

theorem ComesTo.octal {e f : UInt8} (hd : isDigitOf 8 d = true)
    (h : ComesTo quote room rest tail) :
    ComesTo quote (room + 1) (92 :: d :: e :: f :: rest) tail := by
  obtain ⟨n, front, hfront, hn, rfl⟩ := h
  exact ⟨n + 1, 92 :: d :: e :: f :: front, .octal hd hfront, by omega, rfl⟩

/-- What comes of the word loop: it stops in the text with room for the
terminator of the word, or it was led out of the text. -/
inductive WordRun (quote : UInt8) (room size : Nat) (rest : List UInt8) :
    Mem Word → Prop where
  | stop {w : Word} (consumed left : List UInt8) : w.buf.length = size →
      w.s < size → rest = consumed ++ left → w.p = left ++ [0] →
      (w.closed = true → quote ≠ 0 ∧ ClosedString quote room rest) →
      WordRun quote room size rest (.ok w)
  | cut : quote ≠ 0 → CutString quote room rest →
      WordRun quote room size rest (.error .overread)

/-- A turn in front of a run. -/
theorem WordRun.turn {run : Mem Word} (front : List UInt8)
    (h : WordRun quote room size rest run)
    (hfront : quote ≠ 0 → ∀ tail, ComesTo quote room rest tail →
      ComesTo quote (room + 1) (front ++ rest) tail) :
    WordRun quote (room + 1) size (front ++ rest) run := by
  cases h with
  | @stop w consumed left hbuf hs hrest hp hclosed =>
      have hsplit : front ++ rest = (front ++ consumed) ++ left := by
        rw [hrest, List.append_assoc]
      refine .stop _ _ hbuf hs hsplit hp ?_
      intro h
      obtain ⟨hq, after, hafter⟩ := hclosed h
      exact ⟨hq, after, hfront hq _ hafter⟩
  | cut hq h =>
      obtain ⟨d, back, hd, hback, hcomes⟩ := h
      exact .cut hq ⟨d, back, hd, hback, hfront hq _ hcomes⟩

theorem overlay_single_length (hs : s < buf.length) :
    (overlay buf s [c]).length = buf.length :=
  overlay_length (by rw [List.length_singleton]; omega)

/-- The loop stops at the terminator. -/
theorem wordLoop_nil :
    wordLoop quote tok tokens n buf s [0] = .ok { buf, s, p := [0] } := by
  cases n with
  | zero => rfl
  | succ n =>
      rw [wordLoop, peekByte_cons, ok_bind, if_pos (.inl rfl)]
      rfl

/-- The loop stops when the buffer is full. -/
theorem wordLoop_full :
    wordLoop quote tok tokens 1 buf s (c :: p)
      = .ok { buf, s, p := c :: p } := by
  rw [wordLoop, peekByte_cons, ok_bind, if_pos (.inr (by omega))]
  rfl

theorem wordLoop_close (hq : quote ≠ 0) (h92 : quote ≠ 92) :
    wordLoop quote tok tokens (n + 2) buf s (quote :: p)
      = .ok { buf, s, p, closed := true } := by
  rw [wordLoop, peekByte_cons, ok_bind, if_neg (by simp [hq]),
    if_neg (by simp [h92]), if_pos ⟨hq, rfl⟩]
  rfl

/-- A character that is stored as it is. -/
theorem wordLoop_store (hc0 : c ≠ 0) (h92 : quote ≠ 0 → c ≠ 92)
    (hc : quote ≠ 0 → c ≠ quote)
    (hends : wordEnds quote tok tokens (c :: p) = .ok false)
    (hs : s < buf.length) :
    wordLoop quote tok tokens (n + 2) buf s (c :: p)
      = wordLoop quote tok tokens (n + 1) (overlay buf s [c]) (s + 1) p := by
  rw [wordLoop, peekByte_cons, ok_bind, if_neg (by simp [hc0]),
    if_neg (fun h => h92 h.1 h.2), if_neg (fun h => hc h.1 h.2), hends,
    ok_bind, if_neg (by simp), store_eq_ok hs]
  rfl

theorem wordLoop_ends (hc0 : c ≠ 0)
    (hends : wordEnds quote tok tokens (c :: p) = .ok true)
    (hq : quote = 0) :
    wordLoop quote tok tokens (n + 2) buf s (c :: p)
      = .ok { buf, s, p := c :: p } := by
  rw [wordLoop, peekByte_cons, ok_bind, if_neg (by simp [hc0]),
    if_neg (by simp [hq]), if_neg (by simp [hq]), hends, ok_bind, if_pos rfl]
  rfl

theorem wordLoop_escape {x : UInt8} {left : List UInt8} (hq : quote ≠ 0)
    (hs : s < buf.length) (hrun : escape p = .ok (x, left)) :
    wordLoop quote tok tokens (n + 2) buf s (92 :: p)
      = wordLoop quote tok tokens (n + 1) (overlay buf s [x]) (s + 1)
          left := by
  rw [wordLoop, peekByte_cons, ok_bind, if_neg (by simp), if_pos ⟨hq, rfl⟩,
    List.drop_succ_cons, List.drop_zero, hrun, ok_bind]
  dsimp only
  rw [store_eq_ok hs, ok_bind]

theorem wordEnds_quoted (hq : quote ≠ 0) :
    wordEnds quote tok tokens p = .ok false := by
  rw [wordEnds, if_pos hq]
  rfl

/-- Whether a bare word ends is found out inside the text. -/
theorem wordEnds_text :
    ∃ b, wordEnds quote tok tokens (c :: rest ++ [0]) = .ok b := by
  rw [wordEnds]
  by_cases hq : quote = 0
  · rw [if_neg (by simpa using hq), List.cons_append, peekByte_cons, ok_bind]
    cases isSpace c with
    | true => exact ⟨true, rfl⟩
    | false =>
        cases tok with
        | true =>
            obtain ⟨found, hfind, _⟩ : ∃ found,
                tokenFind (c :: rest ++ [0]) tokens = .ok found ∧ _ :=
              tokenFind_text tokens_name
            rw [List.cons_append] at hfind
            rw [if_neg (by simp), if_pos rfl, hfind]
            exact ⟨_, rfl⟩
        | false => exact ⟨false, rfl⟩
  · exact ⟨false, if_pos hq⟩

/-- The loop stops where it is. -/
theorem WordRun.here (hs : s < buf.length) :
    WordRun quote room buf.length rest
      (.ok { buf, s, p := rest ++ [0] }) :=
  .stop [] rest rfl hs rfl rfl (by simp)

/-- A string behind a backslash. -/
theorem wordLoop_behind (hrest : 0 ∉ rest) (hq : quote ≠ 0)
    (hroom : s + (room + 1) < buf.length)
    (ih : ∀ {x : UInt8} {left : List UInt8}, 0 ∉ left →
      WordRun quote room buf.length left
        (wordLoop quote tok tokens (room + 1) (overlay buf s [x]) (s + 1)
          (left ++ [0]))) :
    WordRun quote (room + 1) buf.length (92 :: rest)
      (wordLoop quote tok tokens (room + 2) buf s (92 :: (rest ++ [0]))) := by
  have hs : s < buf.length := by omega
  have hrun := escape_run hrest
  generalize hesc : escape (rest ++ [0]) = run at hrun
  cases hrun with
  | eos hrest =>
      subst hrest
      rw [wordLoop_escape hq hs hesc, wordLoop_nil]
      refine .stop [92] [] (overlay_single_length hs) ?_ rfl rfl (by simp)
      dsimp only
      omega
  | @single d x left hsplit hd =>
      subst hsplit
      rw [wordLoop_escape hq hs hesc]
      have hleft : 0 ∉ left := fun h => hrest (List.mem_cons_of_mem _ h)
      exact WordRun.turn [92, d] (ih hleft) (fun _ _ h => h.escape hd)
  | @octal d e f x left hsplit hd =>
      subst hsplit
      rw [wordLoop_escape hq hs hesc]
      have hleft : 0 ∉ left := fun h => hrest (by simp [h])
      exact WordRun.turn [92, d, e, f] (ih hleft) (fun _ _ h => h.octal hd)
  | @cut d x left hsplit hd hlen =>
      subst hsplit
      rw [wordLoop_escape hq hs hesc]
      exact .cut hq ⟨d, left, hd, hlen, 0, [], .nil, by omega, rfl⟩

theorem wordLoop_run (hrest : 0 ∉ rest) (h92 : quote ≠ 92)
    (hroom : s + room < buf.length) :
    WordRun quote room buf.length rest
      (wordLoop quote tok tokens (room + 1) buf s (rest ++ [0])) := by
  induction room generalizing rest buf s with
  | zero =>
      cases rest with
      | nil =>
          rw [List.nil_append, wordLoop_nil]
          exact .here hroom
      | cons c rest =>
          rw [List.cons_append, wordLoop_full]
          exact .here hroom
  | succ room ih =>
      have hs : s < buf.length := by omega
      have hstored : ∀ {x : UInt8} {left : List UInt8}, 0 ∉ left →
          WordRun quote room buf.length left (wordLoop quote tok tokens
            (room + 1) (overlay buf s [x]) (s + 1) (left ++ [0])) := by
        intro x left hleft
        have hlen : (overlay buf s [x]).length = buf.length :=
          overlay_single_length hs
        have hrun : WordRun quote room (overlay buf s [x]).length left _ :=
          ih hleft (show s + 1 + room < _ by omega)
        rwa [hlen] at hrun
      cases rest with
      | nil =>
          rw [List.nil_append, wordLoop_nil]
          exact .here hs
      | cons c rest =>
          have hc0 : c ≠ 0 := fun h => hrest (h ▸ List.mem_cons_self)
          have hrest' : 0 ∉ rest := fun h => hrest (List.mem_cons_of_mem _ h)
          obtain ⟨b, hends⟩ : ∃ b, wordEnds quote tok tokens
            (c :: rest ++ [0]) = .ok b := wordEnds_text
          rw [List.cons_append] at hends ⊢
          by_cases hq : quote = 0
          · cases b with
            | true =>
                rw [wordLoop_ends hc0 hends hq]
                exact .here hs
            | false =>
                rw [wordLoop_store hc0 (absurd hq) (absurd hq) hends hs]
                exact WordRun.turn [c] (hstored hrest')
                  (fun h => absurd hq h)
          by_cases hc92 : c = 92
          · subst hc92
            exact wordLoop_behind hrest' hq hroom hstored
          by_cases hc : c = quote
          · subst hc
            rw [wordLoop_close hq h92]
            exact .stop [c] rest rfl hs rfl rfl
              (fun _ => ⟨hq, rest, 0, [], .nil, by omega, rfl⟩)
          · rw [wordLoop_store hc0 (fun _ => hc92) (fun _ => hc)
              (wordEnds_quoted hq) hs]
            exact WordRun.turn [c] (hstored hrest')
              (fun _ _ h => h.plain hc hc92)

/-- A run through pieces. -/
theorem wordLoop_pieces {front : List UInt8} (tok : Bool) (room s : Nat)
    (buf p : List UInt8) (hq : quote ≠ 0) (hfront : Pieces quote n front)
    (h0 : 0 ∉ front) (hn : n ≤ room) (hroom : s + room < buf.length) :
    ∃ filled, filled.length = buf.length ∧
      wordLoop quote tok tokens (room + 1) buf s (front ++ p)
        = wordLoop quote tok tokens (room - n + 1) filled (s + n) p := by
  induction hfront generalizing room s buf with
  | nil => exact ⟨buf, rfl, rfl⟩
  | @plain c n t hcq hc92 _ ih =>
      obtain ⟨room, rfl⟩ : ∃ r, room = r + 1 := ⟨room - 1, by omega⟩
      have hc0 : c ≠ 0 := fun h => h0 (h ▸ List.mem_cons_self)
      have hs : s < buf.length := by omega
      have hlen : (overlay buf s [c]).length = buf.length :=
        overlay_single_length hs
      obtain ⟨filled, hfilled, hrun⟩ := ih room (s + 1) (overlay buf s [c])
        (fun h => h0 (List.mem_cons_of_mem _ h)) (by omega) (by omega)
      refine ⟨filled, hfilled.trans hlen, ?_⟩
      rw [List.cons_append, wordLoop_store hc0 (fun _ => hc92) (fun _ => hcq)
        (wordEnds_quoted hq) hs, hrun, Nat.add_sub_add_right, Nat.add_assoc s,
        Nat.add_comm 1]
  | @escape e n t he _ ih =>
      obtain ⟨room, rfl⟩ : ∃ r, room = r + 1 := ⟨room - 1, by omega⟩
      have he0 : e ≠ 0 := fun h => h0 (by simp [h])
      have hs : s < buf.length := by omega
      obtain ⟨x, hx⟩ : ∃ x, escape (e :: (t ++ p)) = .ok (x, _) :=
        escape_single he he0
      have hlen : (overlay buf s [x]).length = buf.length :=
        overlay_single_length hs
      obtain ⟨filled, hfilled, hrun⟩ := ih room (s + 1) (overlay buf s [x])
        (fun h => h0 (by simp [h])) (by omega) (by omega)
      refine ⟨filled, hfilled.trans hlen, ?_⟩
      rw [List.cons_append, List.cons_append, wordLoop_escape hq hs hx, hrun,
        Nat.add_sub_add_right, Nat.add_assoc s, Nat.add_comm 1]
  | @octal e f g n t he _ ih =>
      obtain ⟨room, rfl⟩ : ∃ r, room = r + 1 := ⟨room - 1, by omega⟩
      have hs : s < buf.length := by omega
      obtain ⟨x, hx⟩ : ∃ x, escape (e :: f :: g :: (t ++ p)) = .ok (x, _) :=
        escape_octal he
      have hlen : (overlay buf s [x]).length = buf.length :=
        overlay_single_length hs
      obtain ⟨filled, hfilled, hrun⟩ := ih room (s + 1) (overlay buf s [x])
        (fun h => h0 (by simp [h])) (by omega) (by omega)
      refine ⟨filled, hfilled.trans hlen, ?_⟩
      rw [List.cons_append, List.cons_append, List.cons_append,
        List.cons_append, wordLoop_escape hq hs hx, List.drop_succ_cons,
        List.drop_succ_cons, List.drop_succ_cons, List.drop_zero, hrun,
        Nat.add_sub_add_right, Nat.add_assoc s, Nat.add_comm 1]

/-- The loop runs into an octal escape that is cut off. -/
theorem wordLoop_cut (hq : quote ≠ 0) (hrest : 0 ∉ rest)
    (h : CutString quote room rest) (hroom : s + room < buf.length) :
    wordLoop quote tok tokens (room + 1) buf s (rest ++ [0])
      = .error .overread := by
  obtain ⟨d, back, hd, hback, n, front, hfront, hn, rfl⟩ := h
  obtain ⟨filled, hfilled, hrun⟩ := wordLoop_pieces tok room s buf
    (92 :: d :: (back ++ [0])) hq hfront (fun h => hrest (by simp [h]))
    (by omega) hroom
  obtain ⟨left, hleft⟩ : ∃ left, room - n + 1 = left + 2 :=
    ⟨room - n - 1, by omega⟩
  obtain ⟨x, hx⟩ : ∃ x, escape (d :: (back ++ [0])) = .ok (x, _) :=
    escape_octal hd
  have hgone : (d :: (back ++ [0])).drop 3 = [] := by
    rw [List.drop_eq_nil_iff, List.length_cons, List.length_append,
      List.length_singleton]
    omega
  rw [hgone] at hx
  rw [List.append_assoc, List.cons_append, List.cons_append, hrun, hleft,
    wordLoop_escape hq (by omega) hx]
  rfl

/-- The loop comes to the closing quote. -/
theorem wordLoop_closed (hq : quote ≠ 0) (h92 : quote ≠ 92)
    (hrest : 0 ∉ rest) (h : ClosedString quote room rest)
    (hroom : s + room < buf.length) :
    ∃ w, wordLoop quote tok tokens (room + 1) buf s (rest ++ [0]) = .ok w ∧
      w.closed = true := by
  obtain ⟨after, n, front, hfront, hn, rfl⟩ := h
  obtain ⟨filled, _, hrun⟩ := wordLoop_pieces tok room s buf
    (quote :: (after ++ [0])) hq hfront (fun h => hrest (by simp [h]))
    (by omega) hroom
  obtain ⟨left, hleft⟩ : ∃ left, room - n + 1 = left + 2 :=
    ⟨room - n - 1, by omega⟩
  rw [List.append_assoc, List.cons_append, hrun, hleft, wordLoop_close hq h92]
  exact ⟨_, rfl, rfl⟩

end words

-- ======== calls

/-- A pointer further on in the text. -/
def MovesOn (text ptr : List UInt8) : Prop :=
  ∃ consumed left, consumed ≠ [] ∧ text = consumed ++ left ∧
    ptr = left ++ [0]

/-- What a call should leave behind: a buffer that holds a terminator,
and, if it found something, a pointer further on in the text. -/
def ThingOk (text : List UInt8) (buflen : Nat) (r : Thing) : Prop :=
  r.buf.length = buflen ∧ 0 ∈ r.buf ∧
    (r.token ≠ .opInvalid → r.token ≠ .eol → MovesOn text r.ptr)

/-- A call that stays in its text and its buffer, and leaves that
behind. -/
def ReadsThing (text : List UInt8) (buflen : Nat) (run : Mem Thing) : Prop :=
  ∃ r, run = .ok r ∧ ThingOk text buflen r

/-- The same of `getword`, which answers whether there is a word. -/
def ReadsWord (text : List UInt8) (buflen : Nat)
    (run : Mem (Bool × List UInt8 × List UInt8)) : Prop :=
  ∃ found buf ptr, run = .ok (found, buf, ptr) ∧ buf.length = buflen ∧
    0 ∈ buf ∧ (found = true → MovesOn text ptr)

/-- What comes of a call. -/
inductive ThingRun (text : List UInt8) (buflen : Nat) : Mem Thing → Prop where
  | found {r : Thing} : ThingOk text buflen r →
      (r.token = .opInvalid → Unclosed buflen text) →
      ThingRun text buflen (.ok r)
  | cut : CutOctal buflen text → ThingRun text buflen (.error .overread)

section calls

variable {c quote : UInt8} {spaces rest body text buf ptr : List UInt8}
  {n : Nat} {tok : Bool}

theorem wordToken_ne (quote : UInt8) : wordToken quote ≠ .opInvalid := by
  unfold wordToken
  split_ifs
  all_goals simp

/-- A word that has been read: the spaces behind it are skipped. -/
theorem ThingOk.behind (token : FrToken) {consumed left : List UInt8}
    (hn : buf.length = n) (h0 : 0 ∈ buf) (hne : consumed ≠ [])
    (htext : text = consumed ++ left) (hleft : 0 ∉ left) :
    ∃ p, skipSpace (left ++ [0]) = .ok p ∧ ThingOk text n ⟨token, buf, p⟩ := by
  obtain ⟨more, left, rfl, _, _, hskip⟩ := skipSpace_text hleft
  refine ⟨_, hskip, hn, h0, ?_⟩
  intro _ _
  refine ⟨consumed ++ more, left, by simp [hne], ?_, rfl⟩
  rw [htext, List.append_assoc]

theorem getWord_quoted (hspaces : ∀ c ∈ spaces, isSpace c = true)
    (hq : quote = 34 ∨ quote = 39 ∨ quote = 96) (hbody : 0 ∉ body)
    (hbuf : 0 < buf.length) :
    ThingRun (spaces ++ quote :: body) buf.length
      (getWord ptr (quote :: body ++ [0]) buf buf.length tok tokens) := by
  have hne : quote ≠ 0 ∧ quote ≠ 92 := by
    rcases hq with rfl | rfl | rfl
    all_goals decide
  have hrun : WordRun quote (buf.length - 1) buf.length body
      (wordLoop quote tok tokens (buf.length - 1 + 1) buf 0 (body ++ [0])) :=
    wordLoop_run hbody hne.2 (by omega)
  rw [show buf.length - 1 + 1 = buf.length by omega] at hrun
  rw [List.cons_append, getWord, peekByte_cons, ok_bind]
  simp only [if_pos hq, List.drop_succ_cons, List.drop_zero]
  generalize hloop : wordLoop quote tok tokens buf.length buf 0
    (body ++ [0]) = run at hrun
  cases hrun with
  | @stop w consumed left hlen hs hsplit hp _ =>
      have hstored : (overlay w.buf w.s [0]).length = buf.length := by
        rw [overlay_single_length (by omega), hlen]
      have h0 : 0 ∈ overlay w.buf w.s [0] := mem_overlay List.mem_cons_self
      rw [ok_bind, store_eq_ok (by omega), ok_bind]
      by_cases hclosed : w.closed = true
      · rw [if_neg (by simp [hclosed])]
        have htext : spaces ++ quote :: body
            = (spaces ++ quote :: consumed) ++ left := by
          rw [hsplit, List.append_assoc]
          rfl
        have hleft : 0 ∉ left := fun h => hbody (by simp [hsplit, h])
        obtain ⟨p, hskip, hok⟩ := ThingOk.behind (wordToken quote)
          hstored h0 (by simp) htext hleft
        rw [hp, hskip]
        exact .found hok (fun h => absurd h (wordToken_ne quote))
      · rw [if_pos ⟨hne.1, hclosed⟩]
        refine .found ⟨hstored, h0, fun h => absurd rfl h⟩ ?_
        intro _
        refine ⟨spaces, quote, body, hspaces, hq, ?_, rfl⟩
        intro h
        obtain ⟨v, hv, hvclosed⟩ : ∃ v, wordLoop quote tok tokens
            (buf.length - 1 + 1) buf 0 (body ++ [0]) = .ok v ∧
              v.closed = true :=
          wordLoop_closed hne.1 hne.2 hbody h (by omega)
        rw [show buf.length - 1 + 1 = buf.length by omega, hloop] at hv
        injection hv with hv
        exact hclosed (hv ▸ hvclosed)
  | cut _ h => exact .cut ⟨spaces, quote, body, hspaces, hq, h, rfl⟩

theorem getWord_bare (hc : ¬ (c = 34 ∨ c = 39 ∨ c = 96))
    (hrest : 0 ∉ c :: rest) (hsp : isSpace c = false)
    (htok : tok = true → tokenFind (c :: rest ++ [0]) tokens = .ok none)
    (hbuf : 1 < buf.length) :
    ∃ r, getWord ptr (c :: rest ++ [0]) buf buf.length tok tokens = .ok r ∧
      ThingOk (spaces ++ c :: rest) buf.length r ∧
      r.token ≠ .opInvalid := by
  have hc0 : c ≠ 0 := fun h => hrest (h ▸ List.mem_cons_self)
  have hrest' : 0 ∉ rest := fun h => hrest (List.mem_cons_of_mem _ h)
  have hends : wordEnds 0 tok tokens (c :: (rest ++ [0])) = .ok false := by
    rw [wordEnds, if_neg (by simp), peekByte_cons, ok_bind, hsp,
      if_neg (by simp)]
    cases tok with
    | true =>
        rw [List.cons_append] at htok
        rw [if_pos rfl, htok rfl]
        rfl
    | false => rfl
  obtain ⟨room, hroom⟩ : ∃ room, buf.length = room + 2 :=
    ⟨buf.length - 2, by omega⟩
  have hlen1 : (overlay buf 0 [c]).length = buf.length :=
    overlay_single_length (by omega)
  have hrun : WordRun 0 room (overlay buf 0 [c]).length rest
      (wordLoop 0 tok tokens (room + 1) (overlay buf 0 [c]) 1
        (rest ++ [0])) :=
    wordLoop_run hrest' (by decide) (by omega)
  rw [hlen1] at hrun
  have hloop : wordLoop 0 tok tokens buf.length buf 0 (c :: (rest ++ [0]))
      = wordLoop 0 tok tokens (room + 1) (overlay buf 0 [c]) 1
          (rest ++ [0]) := by
    rw [hroom]
    exact wordLoop_store hc0 (absurd rfl) (absurd rfl) hends (by omega)
  rw [List.cons_append, getWord, peekByte_cons, ok_bind]
  simp only [if_neg hc, hloop]
  generalize wordLoop 0 tok tokens (room + 1) (overlay buf 0 [c]) 1
    (rest ++ [0]) = run at hrun
  cases hrun with
  | @stop w consumed left hlen hs hsplit hp _ =>
      have hstored : (overlay w.buf w.s [0]).length = buf.length := by
        rw [overlay_single_length (by omega), hlen]
      have htext : spaces ++ c :: rest = (spaces ++ c :: consumed) ++ left := by
        rw [hsplit, List.append_assoc]
        rfl
      have hleft : 0 ∉ left := fun h => hrest' (by simp [hsplit, h])
      obtain ⟨p, hskip, hok⟩ := ThingOk.behind (wordToken 0) hstored
        (mem_overlay List.mem_cons_self) (by simp) htext hleft
      rw [ok_bind, store_eq_ok (by omega), ok_bind, if_neg (by simp), hp,
        hskip]
      exact ⟨_, rfl, hok, wordToken_ne 0⟩
  | cut hq _ => exact absurd rfl hq

/-- The name of a token fits into three bytes. -/
theorem strcpy_token {t : NameNumber} (ht : t ∈ tokens)
    (hbuf : 3 ≤ buf.length) :
    ∃ copied, strcpy buf 0 t.name = .ok copied ∧
      copied.length = buf.length ∧ 0 ∈ copied := by
  have hname := (tokens_name t ht).length
  refine ⟨_, strcpy_eq_ok (by omega), ?_, mem_overlay (by simp)⟩
  apply overlay_length
  rw [List.length_append, List.length_singleton]
  omega

/-- A word, quoted or bare. -/
theorem getWord_run (hspaces : ∀ c ∈ spaces, isSpace c = true)
    (hsp : isSpace c = false) (hrest : 0 ∉ c :: rest)
    (htok : tok = true → tokenFind (c :: rest ++ [0]) tokens = .ok none)
    (hbuf : 1 < buf.length) :
    ThingRun (spaces ++ c :: rest) buf.length
      (getWord ptr (c :: rest ++ [0]) buf buf.length tok tokens) := by
  by_cases hq : c = 34 ∨ c = 39 ∨ c = 96
  · exact getWord_quoted hspaces hq
      (fun h => hrest (List.mem_cons_of_mem _ h)) (by omega)
  · obtain ⟨r, hr, hok, hne⟩ := getWord_bare hq hrest hsp htok hbuf
    rw [hr]
    exact .found hok (fun h => absurd h hne)

theorem getthing_run (htext : 0 ∉ text) (hbuf : 3 ≤ buf.length) :
    ThingRun text buf.length
      (getthing (text ++ [0]) buf buf.length tok tokens) := by
  obtain ⟨spaces, left, rfl, hspaces, hhead, hskip⟩ := skipSpace_text htext
  have hlen : (overlay buf 0 [0]).length = buf.length :=
    overlay_single_length (by omega)
  rw [getthing, store_eq_ok (by omega), ok_bind, hskip, ok_bind]
  cases left with
  | nil =>
      refine .found ⟨hlen, mem_overlay List.mem_cons_self, ?_⟩ (by simp)
      exact fun _ h => absurd rfl h
  | cons c rest =>
      have hc0 : c ≠ 0 := fun h => htext (by simp [h])
      have hrest : 0 ∉ c :: rest := fun h =>
        htext (List.mem_append_right _ h)
      rw [List.cons_append, peekByte_cons, ok_bind, if_neg hc0]
      have hsp : isSpace c = false := hhead c rfl
      cases tok with
      | false =>
          rw [if_neg (by simp), pure_eq_ok, ok_bind, ← hlen]
          exact getWord_run hspaces hsp hrest (by simp) (by omega)
      | true =>
          obtain ⟨found, hfind, hfound⟩ : ∃ found,
              tokenFind (c :: rest ++ [0]) tokens = .ok found ∧ _ :=
            tokenFind_text tokens_name
          rw [if_pos rfl, ← List.cons_append, hfind, ok_bind]
          cases found with
          | none =>
              dsimp only
              rw [← hlen]
              exact getWord_run hspaces hsp hrest (fun _ => hfind)
                (by omega)
          | some t =>
              obtain ⟨ht, after, hafter⟩ := hfound t rfl
              obtain ⟨copied, hcopy, hlen', h0⟩ := strcpy_token ht
                (show 3 ≤ (overlay buf 0 [0]).length by omega)
              have hdrop : (c :: rest ++ [0]).drop t.name.length
                  = after ++ [0] := by
                rw [hafter, List.append_assoc, List.drop_left]
              have hne : spaces ++ t.name ≠ [] := by
                intro hnil
                have hname := (tokens_name t ht).length
                rw [(List.append_eq_nil_iff.mp hnil).2] at hname
                simp at hname
              have hsplit : spaces ++ c :: rest
                  = (spaces ++ t.name) ++ after := by
                rw [hafter, List.append_assoc]
              have hafter0 : 0 ∉ after := fun h =>
                hrest (hafter ▸ List.mem_append_right _ h)
              obtain ⟨p, hskip', hok⟩ := ThingOk.behind t.number
                (hlen'.trans hlen) h0 hne hsplit hafter0
              dsimp only
              rw [hcopy, ok_bind, hdrop, hskip']
              exact .found hok (fun h => absurd h (tokens_number t ht))

theorem skipSpace_spaces (hspaces : ∀ c ∈ spaces, isSpace c = true)
    (h0 : 0 ∉ spaces) (hq : isSpace quote = false) :
    skipSpace (spaces ++ quote :: rest) = .ok (quote :: rest) := by
  induction spaces with
  | nil =>
      rw [List.nil_append, skipSpace, if_neg (by simp [hq])]
      rfl
  | cons c spaces ih =>
      have hc0 : c ≠ 0 := fun h => h0 (h ▸ List.mem_cons_self)
      rw [List.cons_append, skipSpace,
        if_pos ⟨hc0, hspaces c List.mem_cons_self⟩]
      exact ih (fun e he => hspaces e (List.mem_cons_of_mem _ he))
        (fun h => h0 (List.mem_cons_of_mem _ h))

/-- What is known of the opening of a quoted string. -/
theorem quote_facts (hq : quote = 34 ∨ quote = 39 ∨ quote = 96) :
    quote ≠ 0 ∧ isSpace quote = false ∧
      ∀ t ∈ tokens, t.name.head? ≠ some quote := by
  rcases hq with rfl | rfl | rfl
  all_goals decide

/-- No token starts like a quoted string. -/
theorem tokenFind_quote (hq : quote = 34 ∨ quote = 39 ∨ quote = 96) :
    tokenFind (quote :: rest ++ [0]) tokens = .ok none := by
  obtain ⟨found, hfind, hfound⟩ : ∃ found,
      tokenFind (quote :: rest ++ [0]) tokens = .ok found ∧ _ :=
    tokenFind_text tokens_name
  cases found with
  | none => exact hfind
  | some t =>
      obtain ⟨ht, left, hleft⟩ := hfound t rfl
      have hname := tokens_name t ht
      have hhead := (quote_facts hq).2.2 t ht
      rcases hname with ⟨a, _, ha⟩ | ⟨a, b, _, _, ha⟩
      · rw [ha] at hleft hhead
        injection hleft with hqa
        exact absurd (congrArg some hqa.symm) hhead
      · rw [ha] at hleft hhead
        injection hleft with hqa
        exact absurd (congrArg some hqa.symm) hhead

/-- A call that comes to a quoted string. -/
theorem getthing_string (htext : 0 ∉ spaces ++ quote :: body)
    (hspaces : ∀ c ∈ spaces, isSpace c = true)
    (hq : quote = 34 ∨ quote = 39 ∨ quote = 96) (hbuf : 0 < buf.length) :
    getthing (spaces ++ quote :: body ++ [0]) buf n tok tokens
      = getWord (spaces ++ quote :: body ++ [0]) (quote :: (body ++ [0]))
          (overlay buf 0 [0]) n tok tokens := by
  obtain ⟨hq0, hqsp, _⟩ := quote_facts hq
  have hskip : skipSpace (spaces ++ quote :: body ++ [0])
      = .ok (quote :: (body ++ [0])) := by
    rw [List.append_assoc, List.cons_append]
    exact skipSpace_spaces hspaces (fun h => htext (by simp [h])) hqsp
  rw [getthing, store_eq_ok hbuf, ok_bind, hskip, ok_bind, peekByte_cons,
    ok_bind, if_neg hq0]
  cases tok with
  | false => rfl
  | true =>
      have hnone : tokenFind (quote :: body ++ [0]) tokens = .ok none :=
        tokenFind_quote hq
      rw [List.cons_append] at hnone
      rw [if_pos rfl, hnone, ok_bind]

theorem getthing_cut (htext : 0 ∉ text) (hbuf : 3 ≤ buf.length)
    (h : CutOctal buf.length text) :
    getthing (text ++ [0]) buf buf.length tok tokens = .error .overread := by
  obtain ⟨spaces, quote, body, hspaces, hq, hcut, rfl⟩ := h
  have hlen : (overlay buf 0 [0]).length = buf.length :=
    overlay_single_length (by omega)
  have hloop : wordLoop quote tok tokens (buf.length - 1 + 1)
      (overlay buf 0 [0]) 0 (body ++ [0]) = .error .overread :=
    wordLoop_cut (quote_facts hq).1 (fun h => htext (by simp [h])) hcut
      (by omega)
  rw [show buf.length - 1 + 1 = buf.length by omega] at hloop
  rw [getthing_string htext hspaces hq (by omega), getWord, peekByte_cons,
    ok_bind]
  simp only [if_pos hq, List.drop_succ_cons, List.drop_zero]
  rw [hloop, error_bind]

/-- A string that is not closed is refused, and the pointer stays. -/
theorem getthing_unclosed {r : Thing} (htext : 0 ∉ text)
    (hbuf : 3 ≤ buf.length) (h : Unclosed buf.length text)
    (hr : getthing (text ++ [0]) buf buf.length tok tokens = .ok r) :
    r.token = .opInvalid ∧ r.ptr = text ++ [0] := by
  obtain ⟨spaces, quote, body, hspaces, hq, hopen, rfl⟩ := h
  have hlen : (overlay buf 0 [0]).length = buf.length :=
    overlay_single_length (by omega)
  have hq92 : quote ≠ 92 := by
    rcases hq with rfl | rfl | rfl
    all_goals decide
  have hrun : WordRun quote (buf.length - 1) (overlay buf 0 [0]).length body
      (wordLoop quote tok tokens (buf.length - 1 + 1) (overlay buf 0 [0]) 0
        (body ++ [0])) :=
    wordLoop_run (fun h => htext (by simp [h])) hq92 (by omega)
  rw [show buf.length - 1 + 1 = buf.length by omega] at hrun
  rw [getthing_string htext hspaces hq (by omega), getWord, peekByte_cons,
    ok_bind] at hr
  simp only [if_pos hq, List.drop_succ_cons, List.drop_zero] at hr
  generalize wordLoop quote tok tokens buf.length (overlay buf 0 [0]) 0
    (body ++ [0]) = run at hrun hr
  cases hrun with
  | @stop w consumed left hwlen hs _ _ hclosed =>
      rw [ok_bind, store_eq_ok (by omega), ok_bind, if_pos] at hr
      · injection hr with hr
        subst hr
        exact ⟨rfl, rfl⟩
      · exact ⟨(quote_facts hq).1, fun h => hopen (hclosed h).2⟩
  | cut _ _ => cases hr

theorem readsThing_overread {text : List UInt8} :
    ¬ ReadsThing text n (.error .overread) := by
  intro h
  obtain ⟨_, hr, _⟩ := h
  cases hr

theorem getthing_reads (htext : 0 ∉ text) (hbuf : 3 ≤ buf.length) :
    ReadsThing text buf.length
        (getthing (text ++ [0]) buf buf.length tok tokens)
      ↔ ¬ CutOctal buf.length text := by
  constructor
  · intro h hcut
    rw [getthing_cut htext hbuf hcut] at h
    exact readsThing_overread h
  · intro h
    have hrun : ThingRun text buf.length
        (getthing (text ++ [0]) buf buf.length tok tokens) :=
      getthing_run htext hbuf
    generalize getthing (text ++ [0]) buf buf.length tok tokens = run at hrun
    cases hrun with
    | @found r hok _ => exact ⟨r, rfl, hok⟩
    | cut hcut => exact absurd hcut h

/-- `getstring` skips the spaces itself. -/
theorem getstring_reads (htext : 0 ∉ text) (hbuf : 3 ≤ buf.length) :
    ReadsThing text buf.length (getstring (text ++ [0]) buf buf.length)
      ↔ ¬ CutOctal buf.length text := by
  obtain ⟨spaces, left, rfl, hspaces, _, hskip⟩ := skipSpace_text htext
  have hleft : 0 ∉ left := fun h => htext (List.mem_append_right _ h)
  have hcall : ∃ tok, getstring (spaces ++ left ++ [0]) buf buf.length
      = getthing (left ++ [0]) buf buf.length tok tokens := by
    rw [getstring, hskip, ok_bind]
    cases left with
    | nil => exact ⟨false, rfl⟩
    | cons c left =>
        by_cases hc : c = 34 ∨ c = 39 ∨ c = 96
        · exact ⟨true, if_pos hc⟩
        · exact ⟨false, if_neg hc⟩
  obtain ⟨tok, hcall⟩ := hcall
  rw [hcall]
  constructor
  · intro h hcut
    obtain ⟨spaces', quote, body, hspaces', hq, hbody, htext'⟩ := hcut
    have hskip' : skipSpace (spaces' ++ quote :: (body ++ [0]))
        = .ok (quote :: (body ++ [0])) :=
      skipSpace_spaces hspaces' (fun h0 => htext (by simp [htext', h0]))
        (quote_facts hq).2.1
    rw [htext', List.append_assoc, List.cons_append, hskip'] at hskip
    injection hskip with hskip
    have hends : quote :: body ++ [0] = left ++ [0] := hskip
    have hstarts : CutOctal buf.length left :=
      ⟨[], quote, body, by simp, hq, hbody,
        (List.append_cancel_right hends).symm⟩
    rw [getthing_cut hleft hbuf hstarts] at h
    exact readsThing_overread h
  · intro h
    have hcut : ¬ CutOctal buf.length left := by
      intro hcut
      obtain ⟨more, quote, body, hmore, hq, hbody, rfl⟩ := hcut
      refine h ⟨spaces ++ more, quote, body, ?_, hq, hbody, ?_⟩
      · intro c hc
        rcases List.mem_append.mp hc with hc | hc
        · exact hspaces c hc
        · exact hmore c hc
      · rw [List.append_assoc]
    obtain ⟨r, hr, hlen, h0, hmoves⟩ := (getthing_reads hleft hbuf).mpr hcut
    refine ⟨r, hr, hlen, h0, ?_⟩
    intro hinvalid heol
    obtain ⟨consumed, after, hne, rfl, hptr⟩ := hmoves hinvalid heol
    exact ⟨spaces ++ consumed, after, by simp [hne],
      by rw [List.append_assoc], hptr⟩

theorem movesOn_not_self : ¬ MovesOn text (text ++ [0]) := by
  intro h
  obtain ⟨consumed, left, hne, htext, hptr⟩ := h
  have hleft : text = left := List.append_cancel_right hptr
  rw [← hleft] at htext
  exact hne (List.self_eq_append_left.mp htext)

theorem getword_reads (htext : 0 ∉ text) (hbuf : 3 ≤ buf.length) :
    ReadsWord text buf.length (getword (text ++ [0]) buf buf.length)
      ↔ ¬ CutOctal buf.length text ∧ ¬ Unclosed buf.length text := by
  constructor
  · intro h
    obtain ⟨found, after, ptr, hword, _, _, hmoves⟩ := h
    rw [getword] at hword
    have hcut : ¬ CutOctal buf.length text := by
      intro hcut
      rw [getthing_cut htext hbuf hcut] at hword
      cases hword
    refine ⟨hcut, ?_⟩
    intro hopen
    obtain ⟨r, hr, _⟩ := (getthing_reads htext hbuf).mpr hcut
    have hinvalid := getthing_unclosed htext hbuf hopen hr
    rw [hr, ok_bind, pure_eq_ok, hinvalid.1, hinvalid.2] at hword
    injection hword with hword
    simp only [Prod.mk.injEq] at hword
    obtain ⟨hfound, _, rfl⟩ := hword
    exact movesOn_not_self (hmoves (by rw [← hfound]; rfl))
  · intro h
    have hrun : ThingRun text buf.length
        (getthing (text ++ [0]) buf buf.length false tokens) :=
      getthing_run htext hbuf
    rw [getword]
    generalize getthing (text ++ [0]) buf buf.length false tokens = run
      at hrun
    cases hrun with
    | @found r hok hopen =>
        obtain ⟨hlen, h0, hmoves⟩ := hok
        refine ⟨_, r.buf, r.ptr, rfl, hlen, h0, ?_⟩
        intro hfound
        exact hmoves (fun hinvalid => h.2 (hopen hinvalid))
          (by simpa using hfound)
    | cut hcut => exact absurd hcut h.1

end calls

/-- The calls stay in their text and buffer exactly when the text does not
start with a string whose octal escape is cut off; `getword` also calls a
string that is not closed a word, and does not move on. -/
theorem getthing_iff (text buf : List UInt8) (htext : 0 ∉ text)
    (hbuf : 3 ≤ buf.length) :
    (∀ tok, ReadsThing text buf.length
        (getthing (text ++ [0]) buf buf.length tok tokens)
      ↔ ¬ CutOctal buf.length text) ∧
    (ReadsThing text buf.length (gettoken (text ++ [0]) buf buf.length)
      ↔ ¬ CutOctal buf.length text) ∧
    (ReadsThing text buf.length (getstring (text ++ [0]) buf buf.length)
      ↔ ¬ CutOctal buf.length text) ∧
    (ReadsWord text buf.length (getword (text ++ [0]) buf buf.length)
      ↔ ¬ CutOctal buf.length text ∧ ¬ Unclosed buf.length text) :=
  ⟨fun _ => getthing_reads htext hbuf, getthing_reads htext hbuf,
    getstring_reads htext hbuf, getword_reads htext hbuf⟩

/-- `Framed` does not start with a string. -/
theorem not_startsString_framed (P : UInt8 → List UInt8 → Prop) :
    ¬ StartsString P (ascii "Framed") := by
  rintro ⟨spaces, quote, body, hspaces, hquote, -, htext⟩
  have hhead := congrArg List.head? htext
  cases spaces with
  | nil =>
      have hf : (70 : UInt8) = quote := Option.some.inj hhead
      rw [← hf] at hquote
      revert hquote
      decide
  | cons c cs =>
      have hf : (70 : UInt8) = c := Option.some.inj hhead
      have hspace := hspaces c List.mem_cons_self
      rw [← hf] at hspace
      cases hspace

/-- The word is read by all four, in a buffer of eight. -/
theorem getthing_iff_word :
    (∀ tok, ReadsThing (ascii "Framed") 8
        (getthing (ascii "Framed" ++ [0]) (List.replicate 8 1) 8 tok tokens))
    ∧ ReadsThing (ascii "Framed") 8
        (gettoken (ascii "Framed" ++ [0]) (List.replicate 8 1) 8)
    ∧ ReadsThing (ascii "Framed") 8
        (getstring (ascii "Framed" ++ [0]) (List.replicate 8 1) 8)
    ∧ ReadsWord (ascii "Framed") 8
        (getword (ascii "Framed" ++ [0]) (List.replicate 8 1) 8) := by
  obtain ⟨hthing, htoken, hstring, hword⟩ :=
    getthing_iff (ascii "Framed") (List.replicate 8 1) (by decide) (by decide)
  have hcut := not_startsString_framed fun quote body =>
    CutString quote (8 - 1) body
  exact ⟨fun tok => (hthing tok).mpr hcut, htoken.mpr hcut,
    hstring.mpr hcut, hword.mpr ⟨hcut, not_startsString_framed _⟩⟩

/-- A quote, a backslash and one octal digit: the scan goes on behind the
terminator. -/
theorem gettoken_past_terminator :
    ¬ ReadsThing [34, 92, 49] 8
      (gettoken [34, 92, 49, 0] (List.replicate 8 1) 8) := by
  have hrun : gettoken [34, 92, 49, 0] (List.replicate 8 1) 8
      = .error .overread := by
    decide
  rw [hrun]
  exact readsThing_overread

end WinRadius
