/-
What `userparse` answers for a line.

`Line` reads a line as pairs, commas and a comment, beside the code:
`PairText` is one pair with what follows it. `LineOk` is what the answer
should say of that reading. The loop answers so from every position that
has no `Trouble` before it; at a position with trouble it answers
something else (`Wrong`), and the pairs in front of it do not mend that.
-/
import WinRadius.Model.Userparse
import WinRadius.Proofs.Token

namespace WinRadius

open Lib

-- ======== lines

/-- Where a pair should stand there is a comment. -/
def AtComment (p : List UInt8) : Prop :=
  (p.dropWhile isBlank).head? = some 35

/-- The words of a pair, from `p` on. -/
def Words (p : List UInt8) (w : PairWords) : Prop :=
  ¬ AtComment p ∧ p.dropWhile isBlank ≠ [] ∧
    pairWords (p.dropWhile isBlank ++ [0]) = .ok (some w)

/-- A pair that is made, the token behind it, and what is left. -/
def PairText (cfg : PairMakers) (p : List UInt8) (pair : UserPair)
    (t : FrToken) (rest : List UInt8) : Prop :=
  ∃ w, Words p w ∧ (pairSwitch cfg w).1 = some pair ∧ w.t = t ∧
    w.ptr = rest ++ [0]

/-- How a line ends. -/
inductive LineEnd where
  | eol | comma | comment | fails
deriving DecidableEq

/-- The pairs of a line, in order, up to one that fails. -/
inductive Line (cfg : PairMakers) :
    List UInt8 → List UserPair → LineEnd → Prop where
  | empty : Line cfg [] [] .eol
  | comment {p : List UInt8} : AtComment p → Line cfg p [] .comment
  | fails {p : List UInt8} : p ≠ [] → ¬ AtComment p →
      (∀ pair t rest, ¬ PairText cfg p pair t rest) → Line cfg p [] .fails
  | eol {p rest : List UInt8} {pair : UserPair} :
      PairText cfg p pair .eol rest → Line cfg p [pair] .eol
  | hash {p rest : List UInt8} {pair : UserPair} :
      PairText cfg p pair .hash rest → Line cfg p [pair] .comment
  | comma {p rest : List UInt8} {pair : UserPair} :
      PairText cfg p pair .comma rest → rest = [] ∨ AtComment rest →
      Line cfg p [pair] .comma
  | more {p rest : List UInt8} {pair : UserPair} {pairs : List UserPair}
      {e : LineEnd} : PairText cfg p pair .comma rest → rest ≠ [] →
      ¬ AtComment rest → Line cfg rest pairs e →
      Line cfg p (pair :: pairs) e

/-- What `userparse` should answer for a line. -/
def LineOk (cfg : PairMakers) (line : List UInt8) (first : List UserPair)
    (run : Mem (FrToken × List UserPair)) : Prop :=
  ∃ token list pairs e, run = .ok (token, list) ∧ Line cfg line pairs e ∧
    (token = .opInvalid ↔ e = .fails) ∧
    (e ≠ .fails → list = first ++ pairs) ∧ (e = .comma → token = .comma)

/-- Behind a pair and a comma there is more. -/
def Next (cfg : PairMakers) (p rest : List UInt8) : Prop :=
  rest ≠ [] ∧ ∃ pair, PairText cfg p pair .comma rest

/-- The token behind a value starts with a string whose octal escape is
cut off by the end of the line. -/
def CutPeek (v : Thing) : Prop :=
  v.token ≠ .eol ∧ CutOctal 64 (cString v.ptr)

/-- So does the value, or the token behind it. -/
def CutValue (op : Thing) : Prop :=
  isEqToken op.token = true ∧ (CutOctal 1024 (cString op.ptr) ∨
    ∃ v, gettoken op.ptr (List.replicate 1024 0) 1024 = .ok v ∧ CutPeek v)

/-- So does the operator, the value, or the token behind it. -/
def CutWords (rest : List UInt8) : Prop :=
  CutOctal 64 rest ∨ ∃ op,
    gettoken (rest ++ [0]) (List.replicate 64 0) 64 = .ok op ∧ CutValue op

/-- One of the tokens of a pair is such a string. -/
def CutPair (p : List UInt8) : Prop :=
  ¬ AtComment p ∧ p.dropWhile isBlank ≠ [] ∧ ∃ name rest,
    attrName (p.dropWhile isBlank) = some (name, rest) ∧ CutWords rest

/-- The value is for the expansion later on, and too long for a pair. -/
def TooLong (w : PairWords) : Prop :=
  (w.xlat = .doubleQuotedString ∧ startsXlat w.value = true ∨
    w.xlat = .backQuotedString) ∧ maxStringLen ≤ w.value.length

/-- A position where the answer goes wrong: a token that is read past the
end, a value that is too long, or a comment behind the next comma. -/
def Trouble (cfg : PairMakers) (p : List UInt8) : Prop :=
  CutPair p ∨ (∃ w, Words p w ∧ TooLong w) ∨
    ∃ rest, Next cfg p rest ∧ AtComment rest

/-- The line comes to trouble, or is one pair with a comment. -/
def LineTrouble (cfg : PairMakers) (line : List UInt8) : Prop :=
  (∃ p, Relation.ReflTransGen (Next cfg) line p ∧ Trouble cfg p) ∨
    ∃ pair rest, PairText cfg line pair .hash rest

-- ======== tokens

section tokens

variable {text p : List UInt8}

/-- A call of `gettoken`, by its text. -/
theorem gettoken_cases (buf : List UInt8) (htext : 0 ∉ text)
    (hbuf : 3 ≤ buf.length) :
    (CutOctal buf.length text ∧
      gettoken (text ++ [0]) buf buf.length = .error .overread) ∨
    (¬ CutOctal buf.length text ∧
      ∃ r, gettoken (text ++ [0]) buf buf.length = .ok r ∧
        r.buf.length = buf.length ∧
        (r.token ≠ .eol → ∃ consumed left, text = consumed ++ left ∧
          r.ptr = left ++ [0] ∧ (r.token ≠ .opInvalid → consumed ≠ []))) := by
  by_cases hcut : CutOctal buf.length text
  · exact .inl ⟨hcut, getthing_cut htext hbuf hcut⟩
  · refine .inr ⟨hcut, ?_⟩
    have hrun : ThingRun text buf.length
        (gettoken (text ++ [0]) buf buf.length) := getthing_run htext hbuf
    generalize hr : gettoken (text ++ [0]) buf buf.length = run at hrun
    cases hrun with
    | @found r hok hopen =>
        refine ⟨r, rfl, hok.1, ?_⟩
        intro heol
        by_cases hinvalid : r.token = .opInvalid
        · have hstays := getthing_unclosed htext hbuf (hopen hinvalid) hr
          exact ⟨[], text, rfl, hstays.2, fun h => absurd hinvalid h⟩
        · obtain ⟨consumed, left, hne, hsplit, hptr⟩ :=
            hok.2.2 hinvalid heol
          exact ⟨consumed, left, hsplit, hptr, fun _ => hne⟩
    | cut h => exact absurd h hcut

theorem cString_text (h : 0 ∉ text) : cString (text ++ [0]) = text := by
  rw [cString, List.takeWhile_append_of_pos]
  · exact List.append_nil text
  · intro c hc
    simp only [ne_eq, decide_not, Bool.not_eq_eq_eq_not, Bool.not_true,
      decide_eq_false_iff_not]
    exact fun h0 => h (h0 ▸ hc)

theorem attrName_nul :
    attrName (p ++ [0])
      = (attrName p).map fun (name, rest) => (name, rest ++ [0]) := by
  have hname : (p ++ [0]).takeWhile validAttrName
      = p.takeWhile validAttrName := by
    induction p with
    | nil => rfl
    | cons c p ih =>
        rw [List.cons_append, List.takeWhile_cons, List.takeWhile_cons, ih]
  have hlen : ((p.takeWhile validAttrName).take 64).length ≤ p.length :=
    (List.length_take_le' _ _).trans
      (List.takeWhile_sublist _).length_le
  rw [attrName, attrName, hname]
  dsimp only
  rw [List.drop_append_of_le_length (by omega),
    List.drop_append_of_le_length hlen]
  split_ifs
  all_goals rfl

/-- What is left behind a name is an end of the text. -/
theorem attrName_split {name rest : List UInt8}
    (h : attrName p = some (name, rest)) : ∃ front, p = front ++ rest := by
  simp only [attrName] at h
  split_ifs at h
  · injection h with h
    injection h with _ hrest
    exact ⟨_, by rw [← hrest, List.take_append_drop]⟩
  · injection h with h
    injection h with _ hrest
    exact ⟨_, by rw [← hrest, List.take_append_drop]⟩

end tokens

-- ======== words

section words

variable {cfg : PairMakers} {p rest rest' : List UInt8} {w : PairWords}
  {pair pair' : UserPair} {t t' : FrToken} {pairs : List UserPair}
  {e : LineEnd}

/-- Where a pair may stand, behind the blanks. -/
theorem dropBlank_text (h : 0 ∉ p) : 0 ∉ p.dropWhile isBlank :=
  fun h0 => h (List.dropWhile_suffix _ |>.subset h0)

theorem dropBlank_nul : (p ++ [0]).dropWhile isBlank
    = p.dropWhile isBlank ++ [0] := by
  induction p with
  | nil => rfl
  | cons c p ih =>
      rw [List.cons_append, List.dropWhile_cons, List.dropWhile_cons, ih]
      split
      · rfl
      · rfl

/-- What comes of the words of a pair: the last ones are one of three
tokens, and what is left is shorter than the text they start in. -/
inductive WordsRun (cut : Prop) (size : Nat) :
    Mem (Option PairWords) → Prop where
  | overread : cut → WordsRun cut size (.error .overread)
  | refused : ¬ cut → WordsRun cut size (.ok none)
  | words {w : PairWords} (left : List UInt8) : ¬ cut →
      (w.t = .eol ∨ w.t = .comma ∨ w.t = .hash) → w.ptr = left ++ [0] →
      0 ∉ left → left.length < size → WordsRun cut size (.ok (some w))

theorem peekWord_run {name text : List UInt8} {op v : Thing}
    (hbuf : op.buf.length = 64) (hv : v.token ≠ .eol) (htext : 0 ∉ text)
    (hptr : v.ptr = text ++ [0]) :
    WordsRun (CutPeek v) (text.length + 1) (peekWord name op v) := by
  have hcutPeek : CutPeek v ↔ CutOctal 64 text := by
    rw [CutPeek, hptr, cString_text htext]
    exact and_iff_right hv
  have hnext := gettoken_cases op.buf htext (by omega)
  rw [hbuf] at hnext
  rw [hcutPeek, peekWord, hptr]
  rcases hnext with ⟨hcut, hnext⟩ | ⟨hcut, next, hnext, _, hleft⟩
  · rw [hnext]
    exact .overread hcut
  rw [hnext, ok_bind]
  by_cases ht : next.token ≠ .eol ∧ next.token ≠ .comma ∧ next.token ≠ .hash
  · rw [if_pos ht]
    exact .refused hcut
  · rw [if_neg ht]
    by_cases hcomma : next.token = .comma
    · obtain ⟨consumed, left, rfl, hleft, _⟩ := hleft (by simp [hcomma])
      refine .words left hcut (.inr (.inl hcomma)) ?_
        (fun h => htext (List.mem_append_right _ h)) ?_
      · dsimp only
        rw [if_pos hcomma, hleft]
      · rw [List.length_append]
        omega
    · refine .words text hcut ?_ ?_ htext (Nat.lt_succ_self _)
      · by_contra hnone
        apply ht
        refine ⟨fun h => hnone (.inl h), hcomma, fun h => hnone ?_⟩
        exact .inr (.inr h)
      · dsimp only
        rw [if_neg hcomma]

theorem WordsRun.mono {cut cut' : Prop} {size size' : Nat}
    {run : Mem (Option PairWords)} (h : WordsRun cut size run)
    (hcut : cut ↔ cut') (hsize : size ≤ size') :
    WordsRun cut' size' run := by
  rw [← hcut]
  cases h with
  | overread h => exact .overread h
  | refused h => exact .refused h
  | words left h ht hptr h0 hlen => exact .words left h ht hptr h0 (by omega)

theorem valueWords_run {name text : List UInt8} {op : Thing}
    (hbuf : op.buf.length = 64) (htext : 0 ∉ text)
    (hptr : isEqToken op.token = true → op.ptr = text ++ [0]) :
    WordsRun (CutValue op) (text.length + 1) (valueWords name op) := by
  rw [valueWords]
  cases heq : isEqToken op.token with
  | false =>
      rw [if_pos rfl]
      refine .refused ?_
      intro h
      rw [CutValue, heq] at h
      exact absurd h.1 (by simp)
  | true =>
      rw [if_neg (by simp)]
      have hcut' : CutValue op ↔ CutOctal 1024 text ∨ ∃ v,
          gettoken (text ++ [0]) (List.replicate 1024 0) 1024 = .ok v ∧
            CutPeek v := by
        rw [CutValue, hptr heq, cString_text htext]
        exact and_iff_right heq
      have hv := gettoken_cases (List.replicate 1024 0) htext
        (by rw [List.length_replicate]; omega)
      rw [List.length_replicate] at hv
      rw [hcut', hptr heq]
      rcases hv with ⟨hcut, hv⟩ | ⟨hcut, v, hv, _, hleft⟩
      · rw [hv]
        exact .overread (.inl hcut)
      have hpeek : CutPeek v ↔ CutOctal 1024 text ∨ ∃ v,
          gettoken (text ++ [0]) (List.replicate 1024 0) 1024 = .ok v ∧
            CutPeek v := by
        constructor
        · intro h
          exact .inr ⟨v, hv, h⟩
        · intro h
          rcases h with h | ⟨v', hv', h⟩
          · exact absurd h hcut
          · rw [hv] at hv'
            injection hv' with hv'
            rwa [hv']
      rw [← hpeek, hv, ok_bind]
      by_cases heol : v.token = .eol
      · rw [if_pos heol]
        exact .refused (fun h => h.1 heol)
      · rw [if_neg heol]
        obtain ⟨consumed, left, rfl, hvptr, _⟩ := hleft heol
        have hpeeked : WordsRun (CutPeek v) (left.length + 1)
            (peekWord name op v) :=
          peekWord_run hbuf heol
            (fun h => htext (List.mem_append_right _ h)) hvptr
        refine hpeeked.mono Iff.rfl ?_
        rw [List.length_append]
        omega

theorem pairWords_run (h : 0 ∉ p) (hcomment : ¬ AtComment p)
    (hne : p.dropWhile isBlank ≠ []) :
    WordsRun (CutPair p) p.length
      (pairWords (p.dropWhile isBlank ++ [0])) := by
  have hp : 0 ∉ p.dropWhile isBlank := dropBlank_text h
  have hlen : (p.dropWhile isBlank).length ≤ p.length :=
    (List.dropWhile_suffix _).length_le
  rw [pairWords, attrName_nul]
  cases hname : attrName (p.dropWhile isBlank) with
  | none =>
      refine .refused ?_
      intro hcut
      obtain ⟨_, _, name, rest, hname', _⟩ := hcut
      rw [hname] at hname'
      cases hname'
  | some found =>
      obtain ⟨name, rest⟩ := found
      obtain ⟨front, hfront⟩ := attrName_split hname
      have hrest : 0 ∉ rest := fun h0 =>
        hp (hfront ▸ List.mem_append_right _ h0)
      have hshort : rest.length ≤ p.length := by
        rw [hfront, List.length_append] at hlen
        omega
      have hcutPair : CutPair p ↔ CutWords rest := by
        constructor
        · intro hcut
          obtain ⟨_, _, name', rest', hname', hwords⟩ := hcut
          rw [hname] at hname'
          injection hname' with hname'
          injection hname' with _ hrest'
          rwa [hrest']
        · intro hwords
          exact ⟨hcomment, hne, name, rest, hname, hwords⟩
      have hop := gettoken_cases (List.replicate 64 0) hrest (by simp)
      rw [List.length_replicate] at hop
      rw [hcutPair]
      dsimp only [Option.map_some]
      rcases hop with ⟨hcut, hop⟩ | ⟨hcut, op, hop, hbuf, hleft⟩
      · rw [hop]
        exact .overread (.inl hcut)
      have hvalue : CutValue op ↔ CutWords rest := by
        constructor
        · intro hvalue
          exact .inr ⟨op, hop, hvalue⟩
        · intro hwords
          rcases hwords with hwords | ⟨op', hop', hvalue⟩
          · exact absurd hwords hcut
          · rw [hop] at hop'
            injection hop' with hop'
            rwa [hop']
      rw [hop, ok_bind]
      cases heq : isEqToken op.token with
      | false =>
          have hrun : WordsRun (CutValue op)
              (([] : List UInt8).length + 1) (valueWords name op) :=
            valueWords_run  hbuf (by simp) (by simp [heq])
          refine hrun.mono hvalue ?_
          have hpos := List.length_pos_iff.mpr hne
          rw [List.length_nil]
          omega
      | true =>
          have htoken : op.token ≠ .eol ∧ op.token ≠ .opInvalid := by
            constructor
            · intro ht
              rw [ht] at heq
              cases heq
            · intro ht
              rw [ht] at heq
              cases heq
          obtain ⟨consumed, left, rfl, hptr, hmoved⟩ := hleft htoken.1
          have hpos := List.length_pos_iff.mpr (hmoved htoken.2)
          have hrun : WordsRun (CutValue op) (left.length + 1)
              (valueWords name op) :=
            valueWords_run hbuf (fun h0 => hrest (List.mem_append_right _ h0))
              (fun _ => hptr)
          refine hrun.mono hvalue ?_
          rw [List.length_append] at hshort
          omega

-- ======== pairs

/-- What `pairread` makes of the words of a pair. -/
def Switched (w : PairWords) (made : Option UserPair × FrToken) : Prop :=
  (¬ TooLong w ∧ ∃ pair, made = (some pair, w.t)) ∨
    (¬ TooLong w ∧ made = (none, .opInvalid)) ∨
    (TooLong w ∧ made = (none, w.t))

/-- A call of `pairmake` for a value that is not too long. -/
theorem switched_pairmake (made : Option ValuePair)
    (f : ValuePair → UserPair) (h : ¬ TooLong w) :
    Switched w (match made with
      | none => (none, .opInvalid)
      | some vp => (some (f vp), w.t)) := by
  cases made with
  | none => exact .inr (.inl ⟨h, rfl⟩)
  | some vp => exact .inl ⟨h, f vp, rfl⟩

theorem pairSwitch_switched (cfg : PairMakers) (w : PairWords) :
    Switched w (pairSwitch cfg w) := by
  unfold pairSwitch
  split
  · next hx =>
      by_cases hstarts : startsXlat w.value = true
      · rw [if_pos hstarts]
        by_cases hlong : maxStringLen ≤ w.value.length
        · rw [if_pos hlong]
          exact .inr (.inr ⟨⟨.inl ⟨hx, hstarts⟩, hlong⟩, rfl⟩)
        · rw [if_neg hlong]
          exact switched_pairmake _ _ (fun h => hlong h.2)
      · rw [if_neg hstarts]
        refine switched_pairmake _ (fun vp => { vp }) ?_
        rintro h
        rcases h.1 with h | h
        · exact hstarts h.2
        · rw [hx] at h
          cases h
  · next hx =>
      have hshort : ¬ TooLong w := by
        intro h
        rcases h.1 with h | h
        · rw [hx] at h
          cases h.1
        · rw [hx] at h
          cases h
      split
      · exact .inr (.inl ⟨hshort, rfl⟩)
      · split_ifs
        · exact .inl ⟨hshort, _, rfl⟩
        · exact switched_pairmake _ (fun vp => { vp }) hshort
  · next hx =>
      by_cases hlong : maxStringLen ≤ w.value.length
      · rw [if_pos hlong]
        exact .inr (.inr ⟨⟨.inr hx, hlong⟩, rfl⟩)
      · rw [if_neg hlong]
        exact switched_pairmake _ _ (fun h => hlong h.2)
  · next hdouble _ hback =>
      refine switched_pairmake _ (fun vp => { vp }) ?_
      intro h
      rcases h.1 with h | h
      · exact hdouble h.1
      · exact hback h

/-- What comes of `pairread`, by its text. -/
inductive ReadRun (cfg : PairMakers) (p : List UInt8) :
    Mem PairRead → Prop where
  | comment : AtComment p → ReadRun cfg p (.ok (.failed .hash))
  | cut : CutPair p → ReadRun cfg p (.error .overread)
  | tooLong {w : PairWords} : Words p w → TooLong w → w.t ≠ .opInvalid →
      ReadRun cfg p (.ok (.failed w.t))
  | fails : ¬ AtComment p → ¬ CutPair p → (∀ w, Words p w → ¬ TooLong w) →
      (∀ pair t rest, ¬ PairText cfg p pair t rest) →
      ReadRun cfg p (.ok (.failed .opInvalid))
  | made {w : PairWords} {pair : UserPair} {rest : List UInt8} :
      Words p w → ¬ CutPair p → (pairSwitch cfg w).1 = some pair →
      (w.t = .eol ∨ w.t = .comma ∨ w.t = .hash) → w.ptr = rest ++ [0] →
      0 ∉ rest → rest.length < p.length →
      ReadRun cfg p (.ok (.made pair w.t (rest ++ [0])))

theorem words_unique {w' : PairWords} (h : Words p w) (h' : Words p w') :
    w = w' := by
  have heq := h.2.2.symm.trans h'.2.2
  injection heq with heq
  injection heq

theorem pairread_run (cfg : PairMakers) (h : 0 ∉ p) :
    ReadRun cfg p (pairread cfg (p ++ [0])) := by
  rw [pairread, dropBlank_nul]
  cases hp : p.dropWhile isBlank with
  | nil =>
      have hcomment : ¬ AtComment p := by
        rw [AtComment, hp]
        simp
      refine .fails hcomment (fun hcut => hcut.2.1 hp)
        (fun w hw => absurd hp hw.2.1) ?_
      intro pair t rest hpair
      obtain ⟨w, hw, _⟩ := hpair
      exact hw.2.1 hp
  | cons c left =>
      have hne : p.dropWhile isBlank ≠ [] := by
        rw [hp]
        simp
      have hc0 : c ≠ 0 := by
        intro hc
        apply dropBlank_text h
        rw [hp, hc]
        exact List.mem_cons_self
      rw [List.cons_append, peekByte_cons, ok_bind, if_neg hc0]
      by_cases hc : c = 35
      · rw [if_pos hc]
        refine .comment ?_
        rw [AtComment, hp, hc]
        rfl
      have hcomment : ¬ AtComment p := by
        rw [AtComment, hp]
        simpa using hc
      rw [if_neg hc, ← List.cons_append, ← hp]
      have hrun := pairWords_run h hcomment hne
      generalize hwords : pairWords (p.dropWhile isBlank ++ [0]) = run at hrun
      cases hrun with
      | overread hcut => exact .cut hcut
      | refused hcut =>
          have hnone : ∀ w, ¬ Words p w := by
            intro w hw
            rw [Words, hwords] at hw
            exact absurd hw.2.2 (by simp)
          refine .fails hcomment hcut (fun w hw => absurd hw (hnone w)) ?_
          intro pair t rest hpair
          obtain ⟨w, hw, _⟩ := hpair
          exact hnone w hw
      | @words w after hcut ht hptr h0 hlen =>
          have hw : Words p w := ⟨hcomment, hne, hwords⟩
          have hinvalid : w.t ≠ .opInvalid := by
            rcases ht with ht | ht | ht
            all_goals simp [ht]
          rcases pairSwitch_switched cfg w with
            ⟨_, pair, hmade⟩ | ⟨hshort, hmade⟩ | ⟨hlong, hmade⟩
          · rw [ok_bind]
            dsimp only
            rw [hmade, hptr]
            exact .made hw hcut (by rw [hmade]) ht hptr h0 hlen
          · rw [ok_bind]
            dsimp only
            rw [hmade]
            refine .fails hcomment hcut ?_ ?_
            · intro w' hw'
              rwa [words_unique hw' hw]
            · intro pair t rest hpair
              obtain ⟨w', hw', hsome, _⟩ := hpair
              rw [words_unique hw' hw, hmade] at hsome
              cases hsome
          · rw [ok_bind]
            dsimp only
            rw [hmade]
            exact .tooLong hw hlong hinvalid

theorem pairText_unique (h : PairText cfg p pair t rest)
    (h' : PairText cfg p pair' t' rest') :
    pair = pair' ∧ t = t' ∧ rest = rest' := by
  obtain ⟨w, hw, hmade, rfl, hptr⟩ := h
  obtain ⟨w', hw', hmade', rfl, hptr'⟩ := h'
  cases words_unique hw hw'
  refine ⟨?_, rfl, ?_⟩
  · rw [hmade] at hmade'
    injection hmade'
  · exact List.append_cancel_right (hptr.symm.trans hptr')

/-- Words are read without a token that is cut off. -/
theorem Words.not_cut (hw : Words p w) (h : 0 ∉ p) : ¬ CutPair p := by
  have hrun := pairWords_run h hw.1 hw.2.1
  rw [hw.2.2] at hrun
  cases hrun with
  | words _ hcut _ _ _ _ => exact hcut

/-- A pair that is too long is not made. -/
theorem TooLong.not_made (h : TooLong w) : (pairSwitch cfg w).1 = none := by
  rcases pairSwitch_switched cfg w with ⟨hshort, _⟩ | ⟨hshort, _⟩ |
    ⟨_, hmade⟩
  · exact absurd h hshort
  · exact absurd h hshort
  · rw [hmade]

/-- A pair of the line is what `pairread` answers. -/
theorem PairText.read (hpair : PairText cfg p pair t rest) (h : 0 ∉ p) :
    pairread cfg (p ++ [0]) = .ok (.made pair t (rest ++ [0])) ∧ 0 ∉ rest ∧
      rest.length < p.length := by
  obtain ⟨w, hw, hmade, rfl, hptr⟩ := hpair
  have hrun := pairread_run cfg h
  generalize pairread cfg (p ++ [0]) = run at hrun
  cases hrun with
  | comment hc => exact absurd hc hw.1
  | cut hcut => exact absurd hcut (hw.not_cut h)
  | tooLong hw' hlong _ =>
      rw [words_unique hw' hw] at hlong
      rw [hlong.not_made] at hmade
      cases hmade
  | fails _ _ _ hnone => exact absurd ⟨w, hw, hmade, rfl, hptr⟩ (hnone _ _ _)
  | @made w' pair' rest' hw' _ hmade' _ hptr' h0 hlen =>
      cases words_unique hw hw'
      rw [hmade] at hmade'
      injection hmade' with hmade'
      have hrest : rest = rest' :=
        List.append_cancel_right (hptr.symm.trans hptr')
      rw [hmade', hrest]
      exact ⟨rfl, h0, hlen⟩

end words

-- ======== runs

section runs

variable {cfg : PairMakers} {p rest line : List UInt8} {pair : UserPair}
  {fuel : Nat} {first pairs : List UserPair} {last t : FrToken} {e : LineEnd}

theorem userparseLoop_failed
    (h : pairread cfg (p ++ [0]) = .ok (.failed t)) :
    userparseLoop cfg (fuel + 1) (p ++ [0]) first last = .ok (t, first) := by
  rw [userparseLoop, h]
  rfl

theorem userparseLoop_more (hrest : rest ≠ []) (h0 : 0 ∉ rest)
    (h : pairread cfg (p ++ [0]) = .ok (.made pair .comma (rest ++ [0]))) :
    userparseLoop cfg (fuel + 1) (p ++ [0]) first last
      = userparseLoop cfg fuel (rest ++ [0]) (first ++ [pair]) .comma := by
  obtain ⟨c, left, rfl⟩ := List.exists_cons_of_ne_nil hrest
  have hc0 : c ≠ 0 := fun hc => h0 (hc ▸ List.mem_cons_self)
  rw [userparseLoop, h, ok_bind]
  dsimp only
  rw [List.cons_append, peekByte_cons, ok_bind, if_pos ⟨hc0, rfl⟩]

theorem userparseLoop_last (hrest : t = .comma → rest = [])
    (h : pairread cfg (p ++ [0]) = .ok (.made pair t (rest ++ [0]))) :
    userparseLoop cfg (fuel + 1) (p ++ [0]) first last
      = .ok (if t = .hash then last else t, first ++ [pair]) := by
  obtain ⟨c, left, hleft⟩ : ∃ c left, rest ++ [0] = c :: left := by
    cases rest with
    | nil => exact ⟨0, [], rfl⟩
    | cons c left => exact ⟨c, left ++ [0], rfl⟩
  have hstop : ¬ (c ≠ 0 ∧ t = .comma) := by
    intro hgo
    rw [hrest hgo.2] at hleft
    injection hleft with hc _
    exact hgo.1 hc.symm
  rw [userparseLoop, h, ok_bind]
  dsimp only
  rw [hleft, peekByte_cons, ok_bind, if_neg hstop]
  split_ifs
  · rfl
  · rfl

/-- A line without trouble is answered as it should be. -/
theorem userparseLoop_ok (h0 : 0 ∉ p) (hp : p ≠ []) (hcomment : ¬ AtComment p)
    (hfuel : p.length < fuel)
    (hclean : ∀ q, Relation.ReflTransGen (Next cfg) p q → ¬ Trouble cfg q)
    (hlast : last ≠ .opInvalid ∨ ∀ pair rest, ¬ PairText cfg p pair .hash rest) :
    LineOk cfg p first (userparseLoop cfg fuel (p ++ [0]) first last) := by
  induction fuel generalizing p first last with
  | zero => omega
  | succ fuel ih =>
      have hrun := pairread_run cfg h0
      generalize hread : pairread cfg (p ++ [0]) = run at hrun
      cases hrun with
      | comment hc => exact absurd hc hcomment
      | cut hcut => exact absurd (.inl hcut) (hclean p .refl)
      | tooLong hw hlong _ =>
          exact absurd (.inr (.inl ⟨_, hw, hlong⟩)) (hclean p .refl)
      | fails _ _ _ hnone =>
          rw [userparseLoop_failed hread]
          exact ⟨_, _, [], .fails, rfl, .fails hp hcomment hnone, by simp,
            by simp, by simp⟩
      | @made w pair rest hw _ hmade ht hptr hrest0 hlen =>
          rcases ht with ht | ht | ht
          · have hpair : PairText cfg p pair .eol rest :=
              ⟨w, hw, hmade, ht, hptr⟩
            rw [userparseLoop_last (by simp [ht]) hread, ht]
            exact ⟨_, _, [pair], .eol, rfl, .eol hpair, by simp, by simp,
              by simp⟩
          · have hpair : PairText cfg p pair .comma rest :=
              ⟨w, hw, hmade, ht, hptr⟩
            rw [ht] at hread
            by_cases hrest : rest = []
            · rw [userparseLoop_last (fun _ => hrest) hread]
              exact ⟨_, _, [pair], .comma, rfl, .comma hpair (.inl hrest),
                by simp, by simp, by simp⟩
            · have hnext : Next cfg p rest := ⟨hrest, pair, hpair⟩
              have hcomment' : ¬ AtComment rest := fun hc =>
                hclean p .refl (.inr (.inr ⟨rest, hnext, hc⟩))
              rw [userparseLoop_more hrest hrest0 hread]
              have hok : LineOk cfg rest (first ++ [pair]) (userparseLoop cfg
                  fuel (rest ++ [0]) (first ++ [pair]) .comma) :=
                ih hrest0 hrest hcomment' (by omega)
                  (fun q hq => hclean q (hq.head hnext)) (.inl (by simp))
              obtain ⟨token, list, pairs, e, hlist, hline, hfails, hpairs,
                hcomma⟩ := hok
              refine ⟨token, list, pair :: pairs, e, hlist,
                .more hpair hrest hcomment' hline, hfails, ?_, hcomma⟩
              intro he
              rw [hpairs he, List.append_assoc]
              rfl
          · have hpair : PairText cfg p pair .hash rest :=
              ⟨w, hw, hmade, ht, hptr⟩
            have hne : last ≠ .opInvalid := by
              rcases hlast with hlast | hlast
              · exact hlast
              · exact absurd hpair (hlast pair rest)
            rw [userparseLoop_last (by simp [ht]) hread, ht]
            exact ⟨_, _, [pair], .comment, rfl, .hash hpair, by simp [hne],
              by simp, by simp⟩

/-- From `p` on the loop never answers what it should. -/
def Wrong (cfg : PairMakers) (p : List UInt8) : Prop :=
  ∀ fuel first last, p.length < fuel →
    ¬ LineOk cfg p first (userparseLoop cfg fuel (p ++ [0]) first last)

/-- A line that starts with a pair. -/
theorem Line.starts (hline : Line cfg p pairs e)
    (hpair : PairText cfg p pair t rest) :
    (t = .eol ∧ e = .eol) ∨ (t = .hash ∧ e = .comment) ∨
      (t = .comma ∧ (rest = [] ∨ AtComment rest) ∧ e = .comma) ∨
      (t = .comma ∧ ¬ AtComment rest ∧ ∃ more, pairs = pair :: more ∧
        Line cfg rest more e) := by
  obtain ⟨w, hw, _⟩ := id hpair
  cases hline with
  | empty => exact absurd rfl hw.2.1
  | comment hc => exact absurd hc hw.1
  | fails _ _ hnone => exact absurd hpair (hnone _ _ _)
  | eol h => exact .inl ⟨(pairText_unique hpair h).2.1, rfl⟩
  | hash h => exact .inr (.inl ⟨(pairText_unique hpair h).2.1, rfl⟩)
  | comma h hend =>
      obtain ⟨_, ht, rfl⟩ := pairText_unique hpair h
      exact .inr (.inr (.inl ⟨ht, hend, rfl⟩))
  | more h _ hc hmore =>
      obtain ⟨rfl, ht, rfl⟩ := pairText_unique hpair h
      exact .inr (.inr (.inr ⟨ht, hc, _, rfl, hmore⟩))

/-- What a line is behind a pair and a comma. -/
theorem Line.next (hline : Line cfg p pairs e) (hnext : Next cfg p rest)
    (hcomment : ¬ AtComment rest) :
    ∃ pair more, PairText cfg p pair .comma rest ∧ pairs = pair :: more ∧
      Line cfg rest more e := by
  obtain ⟨hrest, pair, hpair⟩ := hnext
  rcases hline.starts hpair with ⟨ht, _⟩ | ⟨ht, _⟩ | ⟨_, hend, _⟩ |
    ⟨_, _, more, hpairs, hmore⟩
  · cases ht
  · cases ht
  · rcases hend with hend | hend
    · exact absurd hend hrest
    · exact absurd hend hcomment
  · exact ⟨pair, more, hpair, hpairs, hmore⟩

theorem Wrong.next (h : Wrong cfg rest) (h0 : 0 ∉ p)
    (hnext : Next cfg p rest) (hcomment : ¬ AtComment rest) :
    Wrong cfg p := by
  intro fuel first last hfuel hok
  obtain ⟨token, list, pairs, e, hlist, hline, hfails, hpairs, hcomma⟩ := hok
  obtain ⟨pair, more, hpair, rfl, hmore⟩ := hline.next hnext hcomment
  obtain ⟨hread, hrest0, hlen⟩ := hpair.read h0
  obtain ⟨fuel, rfl⟩ : ∃ f, fuel = f + 1 := ⟨fuel - 1, by omega⟩
  rw [userparseLoop_more hnext.1 hrest0 hread] at hlist
  refine h fuel (first ++ [pair]) .comma (by omega)
    ⟨token, list, more, e, hlist, hmore, hfails, ?_, hcomma⟩
  intro he
  rw [hpairs he, List.append_assoc]
  rfl

theorem Trouble.not_comment (h : Trouble cfg p) : ¬ AtComment p := by
  rcases h with h | ⟨w, hw, _⟩ | ⟨rest, ⟨_, pair, w, hw, _⟩, _⟩
  · exact h.1
  · exact hw.1
  · exact hw.1

theorem CutPair.wrong (h : CutPair p) (h0 : 0 ∉ p) : Wrong cfg p := by
  intro fuel first last hfuel hok
  obtain ⟨fuel, rfl⟩ : ∃ f, fuel = f + 1 := ⟨fuel - 1, by omega⟩
  obtain ⟨token, list, pairs, e, hlist, _⟩ := hok
  have hread : pairread cfg (p ++ [0]) = .error .overread := by
    have hrun := pairread_run cfg h0
    generalize pairread cfg (p ++ [0]) = run at hrun ⊢
    cases hrun with
    | comment hc => exact absurd hc h.1
    | cut _ => rfl
    | tooLong hw _ _ => exact absurd h (hw.not_cut h0)
    | fails _ hcut _ _ => exact absurd h hcut
    | made _ hcut _ _ _ _ _ => exact absurd h hcut
  rw [userparseLoop, hread] at hlist
  cases hlist

theorem TooLong.wrong {w : PairWords} (h : TooLong w) (hw : Words p w)
    (h0 : 0 ∉ p) : Wrong cfg p := by
  intro fuel first last hfuel hok
  obtain ⟨fuel, rfl⟩ : ∃ f, fuel = f + 1 := ⟨fuel - 1, by omega⟩
  have hnone : ∀ pair t rest, ¬ PairText cfg p pair t rest := by
    intro pair t rest hpair
    obtain ⟨w', hw', hmade, _⟩ := hpair
    rw [words_unique hw' hw, h.not_made] at hmade
    cases hmade
  have hread : pairread cfg (p ++ [0]) = .ok (.failed w.t) ∧
      w.t ≠ .opInvalid := by
    have hrun := pairread_run cfg h0
    generalize pairread cfg (p ++ [0]) = run at hrun ⊢
    cases hrun with
    | comment hc => exact absurd hc hw.1
    | cut hcut => exact absurd hcut (hw.not_cut h0)
    | tooLong hw' _ ht =>
        rw [words_unique hw hw']
        exact ⟨rfl, ht⟩
    | fails _ _ hshort _ => exact absurd h (hshort w hw)
    | made hw' _ hmade ht hptr _ _ =>
        exact absurd ⟨_, hw', hmade, rfl, hptr⟩ (hnone _ _ _)
  obtain ⟨token, list, pairs, e, hlist, hline, hfails, _⟩ := hok
  rw [userparseLoop_failed hread.1] at hlist
  injection hlist with hlist
  injection hlist with htoken _
  have he : e = .fails := by
    cases hline with
    | empty => exact absurd rfl hw.2.1
    | comment hc => exact absurd hc hw.1
    | fails _ _ _ => rfl
    | eol hpair => exact absurd hpair (hnone _ _ _)
    | hash hpair => exact absurd hpair (hnone _ _ _)
    | comma hpair _ => exact absurd hpair (hnone _ _ _)
    | more hpair _ _ _ => exact absurd hpair (hnone _ _ _)
  exact hread.2 (htoken.trans (hfails.mpr he))

/-- Where a pair should stand a comment is refused. -/
theorem pairread_comment (cfg : PairMakers) (hcomment : AtComment p)
    (h0 : 0 ∉ p) : pairread cfg (p ++ [0]) = .ok (.failed .hash) := by
  have hrun := pairread_run cfg h0
  generalize pairread cfg (p ++ [0]) = run at hrun ⊢
  cases hrun with
  | comment _ => rfl
  | cut hcut => exact absurd hcomment hcut.1
  | tooLong hw _ _ => exact absurd hcomment hw.1
  | fails hc _ _ _ => exact absurd hcomment hc
  | made hw _ _ _ _ _ _ => exact absurd hcomment hw.1

/-- A comment behind a comma is reported instead of the comma. -/
theorem Next.wrong (hnext : Next cfg p rest) (hcomment : AtComment rest)
    (h0 : 0 ∉ p) : Wrong cfg p := by
  intro fuel first last hfuel hok
  obtain ⟨hrest, pair, hpair⟩ := hnext
  obtain ⟨hread, hrest0, hlen⟩ := hpair.read h0
  have hfailed := pairread_comment cfg hcomment hrest0
  obtain ⟨fuel, rfl⟩ : ∃ f, fuel = f + 2 := by
    have hpos := List.length_pos_iff.mpr hrest
    exact ⟨fuel - 2, by omega⟩
  obtain ⟨token, list, pairs, e, hlist, hline, _, _, hcomma⟩ := hok
  rw [userparseLoop_more hrest hrest0 hread, userparseLoop_failed hfailed]
    at hlist
  injection hlist with hlist
  injection hlist with htoken _
  have he : e = .comma := by
    rcases hline.starts hpair with ⟨ht, _⟩ | ⟨ht, _⟩ | ⟨_, _, he⟩ |
      ⟨_, hc, _⟩
    · cases ht
    · cases ht
    · exact he
    · exact absurd hcomment hc
  rw [hcomma he] at htoken
  cases htoken

theorem Trouble.wrong (h : Trouble cfg p) (h0 : 0 ∉ p) : Wrong cfg p := by
  rcases h with h | ⟨w, hw, h⟩ | ⟨rest, hnext, hcomment⟩
  · exact h.wrong h0
  · exact h.wrong hw h0
  · exact hnext.wrong hcomment h0

/-- Pairs in front of trouble do not mend it. -/
theorem wrong_of_reaches {q : List UInt8}
    (hreach : Relation.ReflTransGen (Next cfg) p q) (h : Trouble cfg q)
    (h0 : 0 ∉ p) : Wrong cfg p := by
  induction hreach using Relation.ReflTransGen.head_induction_on with
  | refl => exact h.wrong h0
  | @head p rest hnext hreach ih =>
      obtain ⟨pair, hpair⟩ := hnext.2
      have hcomment : ¬ AtComment rest := by
        rcases hreach.cases_head with heq | ⟨next, hnext', _⟩
        · rw [heq]
          exact h.not_comment
        · obtain ⟨_, _, w, hw, _⟩ := hnext'
          exact hw.1
      exact (ih (hpair.read h0).2.1).next h0 hnext hcomment

/-- A line of one pair and a comment is answered with the token from
before the pair. -/
theorem userparseLoop_hash (hpair : PairText cfg p pair .hash rest)
    (h0 : 0 ∉ p) :
    ¬ LineOk cfg p first
      (userparseLoop cfg (fuel + 1) (p ++ [0]) first .opInvalid) := by
  intro hok
  obtain ⟨token, list, pairs, e, hlist, hline, hfails, _⟩ := hok
  rw [userparseLoop_last (by simp) (hpair.read h0).1] at hlist
  injection hlist with hlist
  injection hlist with htoken _
  rcases hline.starts hpair with ⟨ht, _⟩ | ⟨_, he⟩ | ⟨ht, _⟩ | ⟨ht, _⟩
  · cases ht
  · rw [he, ← htoken] at hfails
    simp at hfails
  · cases ht
  · cases ht

theorem userparseLoop_iff (h0 : 0 ∉ line) (hne : line ≠ [])
    (hfuel : line.length < fuel) :
    LineOk cfg line first
        (userparseLoop cfg fuel (line ++ [0]) first .opInvalid)
      ↔ ¬ LineTrouble cfg line := by
  constructor
  · intro hok htrouble
    rcases htrouble with ⟨p, hreach, h⟩ | ⟨pair, rest, hpair⟩
    · exact wrong_of_reaches hreach h h0 fuel first .opInvalid hfuel hok
    · obtain ⟨fuel, rfl⟩ : ∃ f, fuel = f + 1 := ⟨fuel - 1, by omega⟩
      exact userparseLoop_hash hpair h0 hok
  · intro hclean
    by_cases hcomment : AtComment line
    · obtain ⟨fuel, rfl⟩ : ∃ f, fuel = f + 1 := ⟨fuel - 1, by omega⟩
      rw [userparseLoop_failed (pairread_comment cfg hcomment h0)]
      exact ⟨.hash, first, [], .comment, rfl, .comment hcomment, by simp,
        by simp, by simp⟩
    · refine userparseLoop_ok h0 hne hcomment hfuel ?_ (.inr ?_)
      · intro q hreach h
        exact hclean (.inl ⟨q, hreach, h⟩)
      · intro pair rest hpair
        exact hclean (.inr ⟨pair, rest, hpair⟩)

/-- A line that is not empty goes to the loop. -/
theorem userparse_loop (cfg : PairMakers) (first : List UserPair)
    (h0 : 0 ∉ line) (hne : line ≠ []) :
    userparse cfg (line ++ [0]) first
      = userparseLoop cfg (line.length + 1) (line ++ [0]) first
          .opInvalid := by
  obtain ⟨c, left, rfl⟩ := List.exists_cons_of_ne_nil hne
  have hc0 : c ≠ 0 := fun hc => h0 (hc ▸ List.mem_cons_self)
  rw [userparse, List.length_append, List.cons_append, peekByte_cons, ok_bind,
    if_neg hc0]
  rfl

/-- There is nothing to go wrong on an empty line. -/
theorem lineTrouble_nil : ¬ LineTrouble cfg [] := by
  have hwords : ∀ w, ¬ Words [] w := fun w hw => hw.2.1 rfl
  intro h
  rcases h with ⟨q, hreach, h⟩ | ⟨_, _, w, hw, _⟩
  · rcases hreach.cases_head with rfl | ⟨_, ⟨_, _, w, hw, _⟩, _⟩
    · rcases h with h | ⟨w, hw, _⟩ | ⟨_, ⟨_, _, w, hw, _⟩, _⟩
      · exact h.2.1 rfl
      · exact hwords w hw
      · exact hwords w hw
    · exact hwords w hw
  · exact hwords w hw

end runs

/-- A line is answered as it should be exactly when it has no trouble: no
token of a pair is read past its end, no value for a later expansion is too
long, no comment stands directly behind a comma, and the line is not one
pair with a comment. -/
theorem userparse_iff (cfg : PairMakers) (line : List UInt8)
    (first : List UserPair) (h0 : 0 ∉ line) :
    LineOk cfg line first (userparse cfg (line ++ [0]) first)
      ↔ ¬ LineTrouble cfg line := by
  cases line with
  | nil =>
      refine iff_of_true ?_ lineTrouble_nil
      exact ⟨.eol, first, [], .eol, rfl, .empty, by simp, by simp, by simp⟩
  | cons c line =>
      rw [userparse_loop cfg first h0 (List.cons_ne_nil c line)]
      exact userparseLoop_iff h0 (by simp) (Nat.lt_succ_self _)

/-- Makers that make a string of every value. -/
def stringMakers : PairMakers where
  pairmake _ value op :=
    let data := value.getD []
    some { attr := 1, type := .string, op, data, length := data.length }
  pairparsevalue vp value := some { vp with data := value }

/-- Two pairs and a comment are read, so the line has no trouble. -/
theorem userparse_iff_pairs :
    LineOk stringMakers (ascii "a=b,c=d #e") []
        (userparse stringMakers (ascii "a=b,c=d #e" ++ [0]) [])
      ∧ ¬ LineTrouble stringMakers (ascii "a=b,c=d #e") := by
  have hfirst : PairText stringMakers (ascii "a=b,c=d #e")
      ⟨{ attr := 1, type := .string, data := [98], length := 1 }, false⟩
      .comma (ascii "c=d #e") := by
    refine ⟨⟨[97], .opEq, .bareWord, [98], .comma, ascii "c=d #e" ++ [0]⟩,
      ⟨?_, by decide, by decide +kernel⟩, rfl, rfl, rfl⟩
    unfold AtComment
    decide
  have hsecond : PairText stringMakers (ascii "c=d #e")
      ⟨{ attr := 1, type := .string, data := [100], length := 1 }, false⟩
      .hash (ascii "#e") := by
    refine ⟨⟨[99], .opEq, .bareWord, [100], .hash, ascii "#e" ++ [0]⟩,
      ⟨?_, by decide, by decide +kernel⟩, rfl, rfl, rfl⟩
    unfold AtComment
    decide
  have hmore : ¬ AtComment (ascii "c=d #e") := by
    unfold AtComment
    decide
  have hok : LineOk stringMakers (ascii "a=b,c=d #e") []
      (userparse stringMakers (ascii "a=b,c=d #e" ++ [0]) []) := by
    have hrun : userparse stringMakers (ascii "a=b,c=d #e" ++ [0]) []
        = .ok (.comma,
          [⟨{ attr := 1, type := .string, data := [98], length := 1 }, false⟩,
            ⟨{ attr := 1, type := .string, data := [100], length := 1 },
              false⟩]) := by
      decide +kernel
    exact ⟨_, _, _, .comment, hrun,
      .more hfirst (by decide) hmore (.hash hsecond), by simp, fun _ => rfl,
      by simp⟩
  exact ⟨hok, (userparse_iff stringMakers (ascii "a=b,c=d #e") []
    (by decide)).mp hok⟩

/-- One pair and a comment: the pair is read, and the answer is that of a
failure. -/
theorem userparse_single_comment :
    ¬ LineOk stringMakers (ascii "a=b #e") []
      (userparse stringMakers (ascii "a=b #e" ++ [0]) []) := by
  have hpair : PairText stringMakers (ascii "a=b #e")
      ⟨{ attr := 1, type := .string, data := [98], length := 1 }, false⟩
      .hash (ascii "#e") := by
    refine ⟨⟨[97], .opEq, .bareWord, [98], .hash, ascii "#e" ++ [0]⟩, ?_, rfl,
      rfl, rfl⟩
    refine ⟨?_, ?_, ?_⟩
    · unfold AtComment
      decide
    · decide
    · decide +kernel
  rw [userparse_loop stringMakers [] (by decide) (by decide)]
  exact userparseLoop_hash hpair (by decide)

end WinRadius
