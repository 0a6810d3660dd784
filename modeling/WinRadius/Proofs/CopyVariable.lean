/-
What `rad_copy_string` and `rad_copy_variable` copy, and when they read
past the terminator.

The texts they look for are two grammars: `QuotedTail` for a string behind
its opening, `Items` for what may stand inside a variable. A text that is
cut off inside of them is `UnclosedTail` or `OpenItems`. A scanner reads
past the end exactly when such a text is followed by one backslash and
then the terminator: the backslash takes the terminator for the escaped
character.

Each scanner has a lemma that says what may come of a run on any text
(`stringTail_run`, `variableLoop_run`) and lemmas that run it through a
text of the grammar.
-/
import WinRadius.Model.CopyVariable

namespace WinRadius

open Lib

-- ======== strings

/-- The rest of a quoted string, behind its opening. -/
inductive QuotedTail (quote : UInt8) : List UInt8 → Prop where
  | close : QuotedTail quote [quote]
  | plain {c : UInt8} {t : List UInt8} : c ≠ quote → c ≠ 92 → c ≠ 0 →
      QuotedTail quote t → QuotedTail quote (c :: t)
  | escape {d : UInt8} {t : List UInt8} : 92 ≠ quote → d ≠ 0 →
      QuotedTail quote t → QuotedTail quote (92 :: d :: t)

/-- A quoted string that is cut off between two characters. -/
inductive UnclosedTail (quote : UInt8) : List UInt8 → Prop where
  | nil : UnclosedTail quote []
  | plain {c : UInt8} {t : List UInt8} : c ≠ quote → c ≠ 92 → c ≠ 0 →
      UnclosedTail quote t → UnclosedTail quote (c :: t)
  | escape {d : UInt8} {t : List UInt8} : d ≠ 0 →
      UnclosedTail quote t → UnclosedTail quote (92 :: d :: t)

/-- A closed quoted string. Where the quote is itself a backslash, the
opening is an escape. -/
inductive Quoted : List UInt8 → Prop where
  | plain {quote : UInt8} {t : List UInt8} : quote ≠ 92 → quote ≠ 0 →
      QuotedTail quote t → Quoted (quote :: t)
  | escape {d : UInt8} {t : List UInt8} : d ≠ 0 → QuotedTail 92 t →
      Quoted (92 :: d :: t)

/-- A text on which `rad_copy_string` reads too far: it is empty, or ends
inside the string with a backslash that is not escaped. -/
inductive DanglingString : List UInt8 → Prop where
  | empty : DanglingString []
  | opening : DanglingString [92]
  | inside {quote : UInt8} {p : List UInt8} : quote ≠ 92 → quote ≠ 0 →
      UnclosedTail quote p → DanglingString (quote :: (p ++ [92]))

/-- The end of the loop's body: the test of the next character. -/
def stringTail (quote : UInt8) (fuel : Nat) (out input : List UInt8)
    (length : Nat) : Mem (Option (Nat × List UInt8)) := do
  let c ← peekByte input
  if c ≠ 0 ∧ c ≠ quote then stringLoop quote fuel out input length
  else if c ≠ quote then return none
  else return some (length + 1, out ++ [quote, 0])

section strings

variable {quote c d : UInt8} {fuel length : Nat}
  {out rest t p input : List UInt8}

theorem stringLoop_plain (hc : c ≠ 92) :
    stringLoop quote (fuel + 1) out (c :: input) length
      = stringTail quote fuel (out ++ [c]) input (length + 1) := by
  rw [stringLoop, peekByte, pure_eq_ok, ok_bind, if_neg hc, pure_eq_ok,
    ok_bind]
  rfl

theorem stringLoop_escape :
    stringLoop quote (fuel + 1) out (92 :: d :: input) length
      = stringTail quote fuel (out ++ [92, d]) input (length + 2) := by
  rw [stringLoop, stringTail]
  simp only [peekByte, readByte, pure_eq_ok, ok_bind, reduceIte,
    List.append_assoc, List.cons_append, List.nil_append]

/-- A backslash before the terminator: the test is behind it. -/
theorem stringLoop_dangling :
    stringLoop quote (fuel + 1) out [92, 0] length = .error .overread := by
  rw [stringLoop_escape]
  rfl

theorem stringTail_close :
    stringTail quote fuel out (quote :: input) length
      = .ok (some (length + 1, out ++ [quote, 0])) := by
  rw [stringTail, peekByte, pure_eq_ok, ok_bind, if_neg (by simp),
    if_neg (by simp)]
  rfl

theorem stringTail_goes_on (hc : c ≠ quote) (hc0 : c ≠ 0) :
    stringTail quote fuel out (c :: input) length
      = stringLoop quote fuel out (c :: input) length := by
  rw [stringTail, peekByte, pure_eq_ok, ok_bind, if_pos ⟨hc0, hc⟩]

/-- What comes of the rest of a string. -/
inductive TailRun (quote : UInt8) (out rest : List UInt8) (length : Nat) :
    Mem (Option (Nat × List UInt8)) → Prop where
  | closed {t more : List UInt8} : rest = t ++ more → QuotedTail quote t →
      TailRun quote out rest length
        (.ok (some (length + t.length, out ++ t ++ [0])))
  | unclosed : TailRun quote out rest length (.ok none)
  | dangling {p : List UInt8} : rest = p ++ [92] → quote ≠ 92 →
      UnclosedTail quote p → TailRun quote out rest length (.error .overread)

/-- A character or an escape in front of a run. -/
theorem TailRun.cons {front : List UInt8}
    {run : Mem (Option (Nat × List UInt8))}
    (h : TailRun quote (out ++ front) rest (length + front.length) run)
    (hq : ∀ t, QuotedTail quote t → QuotedTail quote (front ++ t))
    (hu : quote ≠ 92 → ∀ t, UnclosedTail quote t →
      UnclosedTail quote (front ++ t)) :
    TailRun quote out (front ++ rest) length run := by
  cases h with
  | @closed t more hrest ht =>
      have hout : TailRun quote out (front ++ rest) length
          (.ok (some (length + (front ++ t).length,
            out ++ (front ++ t) ++ [0]))) :=
        .closed (by rw [hrest, List.append_assoc]) (hq t ht)
      rwa [List.length_append, ← Nat.add_assoc, ← List.append_assoc] at hout
  | unclosed => exact .unclosed
  | dangling hrest hne hp =>
      exact .dangling (by rw [hrest, List.append_assoc]) hne (hu hne _ hp)

theorem stringTail_run (hrest : 0 ∉ rest) (hquote : quote ≠ 0)
    (hfuel : rest.length < fuel) :
    TailRun quote out rest length
      (stringTail quote fuel out (rest ++ [0]) length) := by
  induction fuel using Nat.strongRecOn generalizing rest out length with
  | ind fuel ih =>
      cases rest with
      | nil =>
          have hnone : stringTail quote fuel out ([] ++ [0]) length
              = .ok none := by
            rw [List.nil_append, stringTail, peekByte, pure_eq_ok, ok_bind,
              if_neg (by simp), if_pos hquote.symm]
            rfl
          rw [hnone]
          exact .unclosed
      | cons c rest =>
          have hc0 : c ≠ 0 := fun h => hrest (h ▸ List.mem_cons_self)
          have hrest' : 0 ∉ rest := fun h => hrest (List.mem_cons_of_mem _ h)
          rw [List.cons_append]
          by_cases hc : c = quote
          · subst hc
            rw [stringTail_close]
            have hclosed : TailRun c out (c :: rest) length
                (.ok (some (length + [c].length, out ++ [c] ++ [0]))) :=
              .closed rfl .close
            rwa [List.append_assoc] at hclosed
          · rw [stringTail_goes_on hc hc0]
            obtain ⟨fuel, rfl⟩ : ∃ f, fuel = f + 1 :=
              ⟨fuel - 1, by omega⟩
            rw [List.length_cons] at hfuel
            by_cases h92 : c = 92
            · subst h92
              cases rest with
              | nil =>
                  rw [List.nil_append, stringLoop_dangling]
                  exact .dangling (p := []) rfl (Ne.symm hc) .nil
              | cons d rest =>
                  have hd0 : d ≠ 0 := fun h =>
                    hrest' (h ▸ List.mem_cons_self)
                  rw [List.cons_append, stringLoop_escape]
                  rw [List.length_cons] at hfuel
                  have hrun : TailRun quote (out ++ [92, d]) rest
                      (length + [92, d].length) _ :=
                    ih fuel (by omega)
                      (fun h => hrest' (List.mem_cons_of_mem _ h)) (by omega)
                  exact hrun.cons (fun t ht => .escape hc hd0 ht)
                    (fun _ t ht => .escape hd0 ht)
            · rw [stringLoop_plain h92]
              have hrun : TailRun quote (out ++ [c]) rest
                  (length + [c].length) _ :=
                ih fuel (by omega) hrest' (by omega)
              exact hrun.cons (fun t ht => .plain hc h92 hc0 ht)
                (fun _ t ht => .plain hc h92 hc0 ht)

/-- A run through a string that is closed. -/
theorem stringTail_quoted (ht : QuotedTail quote t)
    (hfuel : t.length < fuel) :
    stringTail quote fuel out (t ++ rest) length
      = .ok (some (length + t.length, out ++ t ++ [0])) := by
  induction ht generalizing fuel out length with
  | close =>
      rw [List.singleton_append, stringTail_close, List.append_assoc]
      rfl
  | @plain c t hc h92 hc0 _ ih =>
      obtain ⟨fuel, rfl⟩ : ∃ f, fuel = f + 1 := ⟨fuel - 1, by omega⟩
      rw [List.length_cons] at hfuel ⊢
      rw [List.cons_append, stringTail_goes_on hc hc0, stringLoop_plain h92,
        ih (by omega), List.append_assoc out, Nat.add_assoc,
        Nat.add_comm 1]
      rfl
  | @escape d t h92 _ _ ih =>
      obtain ⟨fuel, rfl⟩ : ∃ f, fuel = f + 1 := ⟨fuel - 1, by omega⟩
      rw [List.length_cons, List.length_cons] at hfuel ⊢
      rw [List.cons_append, List.cons_append, stringTail_goes_on h92
        (by decide), stringLoop_escape, ih (by omega),
        List.append_assoc out, Nat.add_assoc, Nat.add_comm 2]
      rfl

/-- A run into the backslash at the end. -/
theorem stringTail_dangling (hp : UnclosedTail quote p) (h92 : quote ≠ 92)
    (hfuel : p.length + 1 < fuel) :
    stringTail quote fuel out (p ++ [92, 0]) length = .error .overread := by
  induction hp generalizing fuel out length with
  | nil =>
      obtain ⟨fuel, rfl⟩ : ∃ f, fuel = f + 1 := ⟨fuel - 1, by omega⟩
      rw [List.nil_append, stringTail_goes_on h92.symm (by decide)]
      exact stringLoop_dangling
  | @plain c t hc hc92 hc0 _ ih =>
      obtain ⟨fuel, rfl⟩ : ∃ f, fuel = f + 1 := ⟨fuel - 1, by omega⟩
      rw [List.length_cons] at hfuel
      rw [List.cons_append, stringTail_goes_on hc hc0,
        stringLoop_plain hc92]
      exact ih (by omega)
  | @escape d t _ _ ih =>
      obtain ⟨fuel, rfl⟩ : ∃ f, fuel = f + 1 := ⟨fuel - 1, by omega⟩
      rw [List.length_cons, List.length_cons] at hfuel
      rw [List.cons_append, List.cons_append,
        stringTail_goes_on h92.symm (by decide), stringLoop_escape]
      exact ih (by omega)

/-- `rad_copy_string` is at its opening. -/
theorem radCopyString_cons (hc : c ≠ 92) :
    radCopyString (c :: input)
      = stringTail c (input.length + 1) [c] input 1 := by
  rw [radCopyString, peekByte, pure_eq_ok, ok_bind, List.length_cons,
    stringLoop_plain hc]
  rfl

/-- What comes of `rad_copy_string` at a quote. -/
inductive StringRun (c : UInt8) (rest : List UInt8) :
    Mem (Option (Nat × List UInt8)) → Prop where
  | closed {t more : List UInt8} : rest = t ++ more → QuotedTail c t →
      StringRun c rest (.ok (some (t.length + 1, c :: t ++ [0])))
  | unclosed : StringRun c rest (.ok none)
  | dangling {p : List UInt8} : rest = p ++ [92] → UnclosedTail c p →
      StringRun c rest (.error .overread)

theorem radCopyString_run (hrest : 0 ∉ rest) (hc0 : c ≠ 0) (hc : c ≠ 92) :
    StringRun c rest (radCopyString (c :: (rest ++ [0]))) := by
  rw [radCopyString_cons hc]
  have hrun : TailRun c [c] rest 1
      (stringTail c ((rest ++ [0]).length + 1) [c] (rest ++ [0]) 1) :=
    stringTail_run hrest hc0 (by simp)
  generalize stringTail c ((rest ++ [0]).length + 1) [c] (rest ++ [0]) 1
    = run at hrun
  cases hrun with
  | @closed t more hsplit ht =>
      rw [Nat.add_comm 1]
      exact .closed hsplit ht
  | unclosed => exact .unclosed
  | dangling hsplit _ hp => exact .dangling hsplit hp

theorem radCopyString_quoted (ht : QuotedTail c t) (hc : c ≠ 92) :
    radCopyString (c :: (t ++ rest))
      = .ok (some (t.length + 1, c :: t ++ [0])) := by
  rw [radCopyString_cons hc, stringTail_quoted ht, Nat.add_comm 1]
  · rfl
  · rw [List.length_append]
    omega

theorem radCopyString_dangling (hp : UnclosedTail c p) (hc : c ≠ 92) :
    radCopyString (c :: (p ++ [92, 0])) = .error .overread := by
  rw [radCopyString_cons hc, stringTail_dangling hp hc]
  rw [List.length_append]
  simp

end strings

-- ======== variables

/-- What may stand inside a variable: characters, escapes, quoted strings
and variables. -/
inductive Items : List UInt8 → Prop where
  | nil : Items []
  | plain {c : UInt8} {t : List UInt8} : c ≠ 0 → c ≠ 34 → c ≠ 39 →
      c ≠ 125 → c ≠ 92 → (c = 37 → t.head? ≠ some 123) → Items t →
      Items (c :: t)
  | escape {d : UInt8} {t : List UInt8} : d ≠ 0 → Items t →
      Items (92 :: d :: t)
  | string {quote : UInt8} {s t : List UInt8} : quote = 34 ∨ quote = 39 →
      QuotedTail quote s → Items t → Items (quote :: (s ++ t))
  | nested {l t : List UInt8} : Items l → Items t →
      Items (37 :: 123 :: (l ++ 125 :: t))

/-- The inside of a variable that is cut off where a backslash would be an
escape. -/
inductive OpenItems : List UInt8 → Prop where
  | items {l : List UInt8} : Items l → OpenItems l
  | string {quote : UInt8} {l p : List UInt8} : Items l →
      quote = 34 ∨ quote = 39 → UnclosedTail quote p →
      OpenItems (l ++ quote :: p)
  | nested {l p : List UInt8} : Items l → OpenItems p →
      OpenItems (l ++ 37 :: 123 :: p)

/-- A balanced expression: an opening character, items, and the brace. -/
def Balanced (text : List UInt8) : Prop :=
  ∃ c l, c ≠ 0 ∧ Items l ∧ text = c :: (l ++ [125])

/-- A text on which `rad_copy_variable` reads too far: it is empty, or
ends inside the variable with a backslash that is not escaped. -/
def DanglingVariable (text : List UInt8) : Prop :=
  text = [] ∨ ∃ c p, OpenItems p ∧ text = c :: (p ++ [92])

section scan

variable {c d quote : UInt8} {fuel length : Nat}
  {out rest l t p input text : List UInt8}

theorem variableLoop_plain (h0 : c ≠ 0) (h34 : c ≠ 34) (h39 : c ≠ 39)
    (h125 : c ≠ 125) (h92 : c ≠ 92) (hinput : input ≠ [])
    (h37 : c = 37 → input.head? ≠ some 123) :
    variableLoop (fuel + 1) out (c :: input) length
      = variableLoop fuel (out ++ [c]) input (length + 1) := by
  obtain ⟨e, es, rfl⟩ := List.exists_cons_of_ne_nil hinput
  have hnot : ¬ (c = 37 ∧ e = 123) := by
    intro hand
    apply h37 hand.1
    rw [hand.2]
    rfl
  rw [variableLoop]
  simp only [peekByte, readByte, pure_eq_ok, ok_bind]
  rw [if_neg h0, if_neg (by simp [h34, h39]), if_neg h125, if_neg h92,
    if_neg hnot]

theorem variableLoop_escape :
    variableLoop (fuel + 1) out (92 :: d :: input) length
      = variableLoop fuel (out ++ [92, d]) input (length + 2) := by
  rw [variableLoop]
  simp only [peekByte, readByte, pure_eq_ok, ok_bind]
  rw [if_neg (by decide), if_neg (by decide), if_neg (by decide), if_true]

theorem variableLoop_close :
    variableLoop (fuel + 1) out (125 :: input) length
      = .ok (some (length + 1, out ++ [125, 0])) := by
  rw [variableLoop]
  simp only [peekByte, pure_eq_ok, ok_bind]
  rw [if_neg (by decide), if_neg (by decide), if_true]

theorem variableLoop_string (hq : quote = 34 ∨ quote = 39) :
    variableLoop (fuel + 1) out (quote :: input) length
      = radCopyString (quote :: input) >>= fun r =>
        match r with
        | none => .ok none
        | some (sublen, copied) =>
            variableLoop fuel (out ++ copied.take sublen)
              ((quote :: input).drop sublen) (length + sublen) := by
  have h0 : quote ≠ 0 := by
    rcases hq with rfl | rfl
    · decide
    · decide
  rw [variableLoop]
  simp only [peekByte, pure_eq_ok, ok_bind]
  rw [if_neg h0, if_pos hq]
  rfl

theorem variableLoop_nested :
    variableLoop (fuel + 1) out (37 :: 123 :: input) length
      = variableLoop fuel [123] input 1 >>= fun r =>
        match r with
        | none => .ok none
        | some (sublen, copied) =>
            variableLoop fuel (out ++ [37] ++ copied.take sublen)
              ((123 :: input).drop sublen) (length + 1 + sublen) := by
  rw [variableLoop]
  simp only [peekByte, readByte, pure_eq_ok, ok_bind]
  rw [if_neg (by decide), if_neg (by decide), if_neg (by decide),
    if_neg (by decide), if_pos (by simp)]
  rfl

/-- A quoted string is copied whole. -/
theorem variableLoop_quoted (hq : quote = 34 ∨ quote = 39)
    (ht : QuotedTail quote t) :
    variableLoop (fuel + 1) out (quote :: (t ++ input)) length
      = variableLoop fuel (out ++ quote :: t) input
          (length + (quote :: t).length) := by
  have h92 : quote ≠ 92 := by
    rcases hq with rfl | rfl
    · decide
    · decide
  have htake : (quote :: t ++ [0]).take (t.length + 1) = quote :: t :=
    List.take_left' rfl
  have hdrop : (quote :: (t ++ input)).drop (t.length + 1) = input := by
    rw [List.drop_succ_cons, List.drop_left]
  rw [variableLoop_string hq, radCopyString_quoted ht h92, ok_bind]
  simp only [htake, hdrop, List.length_cons]

/-- So is a variable that is closed. -/
theorem variableLoop_braced
    (hl : variableLoop fuel [123] (l ++ 125 :: input) 1
      = .ok (some (1 + l.length + 1, [123] ++ l ++ [125, 0]))) :
    variableLoop (fuel + 1) out (37 :: 123 :: (l ++ 125 :: input)) length
      = variableLoop fuel (out ++ 37 :: 123 :: (l ++ [125])) input
          (length + (37 :: 123 :: (l ++ [125])).length) := by
  have hlen : (123 :: (l ++ [125])).length = 1 + l.length + 1 := by
    rw [List.length_cons, List.length_append, Nat.add_comm 1]
    rfl
  have htake : ([123] ++ l ++ [125, 0]).take (1 + l.length + 1)
      = 123 :: (l ++ [125]) := by
    have hsplit : [123] ++ l ++ [125, 0] = 123 :: (l ++ [125]) ++ [0] := by
      simp
    rw [← hlen, hsplit, List.take_left]
  have hdrop : (123 :: (l ++ 125 :: input)).drop (1 + l.length + 1)
      = input := by
    have hsplit : 123 :: (l ++ 125 :: input) = 123 :: (l ++ [125]) ++ input :=
      by simp
    rw [← hlen, hsplit, List.drop_left]
  rw [variableLoop_nested, hl, ok_bind]
  simp only [htake, hdrop]
  rw [List.length_cons (a := 37), hlen, List.append_assoc,
    List.singleton_append, Nat.add_assoc, Nat.add_comm 1 (1 + l.length + 1)]

/-- What comes of the rest of a variable. -/
inductive VariableRun (out rest : List UInt8) (length : Nat) :
    Mem (Option (Nat × List UInt8)) → Prop where
  | closed {l more : List UInt8} : rest = l ++ 125 :: more → Items l →
      VariableRun out rest length
        (.ok (some (length + l.length + 1, out ++ l ++ [125, 0])))
  | unclosed : VariableRun out rest length (.ok none)
  | dangling {p : List UInt8} : rest = p ++ [92] → OpenItems p →
      VariableRun out rest length (.error .overread)

/-- What goes in front of items goes in front of a text that is cut
off. -/
theorem OpenItems.front {front : List UInt8}
    (hfront : ∀ t u, p = t ++ u → Items t → Items (front ++ t))
    (h : OpenItems p) : OpenItems (front ++ p) := by
  cases h with
  | items hl => exact .items (hfront p [] (List.append_nil p).symm hl)
  | @string quote l p hl hq hp =>
      rw [← List.append_assoc]
      exact .string (hfront l _ rfl hl) hq hp
  | @nested l p hl hp =>
      rw [← List.append_assoc]
      exact .nested (hfront l _ rfl hl) hp

/-- An item in front of a run. -/
theorem VariableRun.front {front : List UInt8}
    {run : Mem (Option (Nat × List UInt8))}
    (h : VariableRun (out ++ front) rest (length + front.length) run)
    (hfront : ∀ t u, rest = t ++ u → Items t → Items (front ++ t)) :
    VariableRun out (front ++ rest) length run := by
  cases h with
  | @closed l more hrest hl =>
      have hout : VariableRun out (front ++ rest) length
          (.ok (some (length + (front ++ l).length + 1,
            out ++ (front ++ l) ++ [125, 0]))) :=
        .closed (by rw [hrest, List.append_assoc]) (hfront l _ hrest hl)
      rwa [List.length_append, ← Nat.add_assoc, ← List.append_assoc] at hout
  | unclosed => exact .unclosed
  | @dangling p hrest hp =>
      have hopen : OpenItems (front ++ p) := by
        apply hp.front
        intro t u ht
        apply hfront t (u ++ [92])
        rw [hrest, ht, List.append_assoc]
      exact .dangling (by rw [hrest, List.append_assoc]) hopen

/-- The rest of a variable, on any text. The fuel goes down by one for
each item, and a nested variable is an item of its own run. -/
theorem variableLoop_run (hrest : 0 ∉ rest) (hfuel : rest.length < fuel) :
    VariableRun out rest length
      (variableLoop fuel out (rest ++ [0]) length) := by
  induction fuel generalizing rest out length with
  | zero => omega
  | succ fuel ih =>
      cases rest with
      | nil => exact .unclosed
      | cons c rest =>
          have hc0 : c ≠ 0 := fun h => hrest (h ▸ List.mem_cons_self)
          have hrest' : 0 ∉ rest := fun h => hrest (List.mem_cons_of_mem _ h)
          rw [List.length_cons] at hfuel
          rw [List.cons_append]
          by_cases hq : c = 34 ∨ c = 39
          · have hc92 : c ≠ 92 := by
              rcases hq with rfl | rfl
              · decide
              · decide
            have hstring := radCopyString_run hrest' hc0 hc92
            generalize hcopy : radCopyString (c :: (rest ++ [0])) = copy
              at hstring
            cases hstring with
            | @closed t more hsplit ht =>
                subst hsplit
                rw [List.append_assoc, variableLoop_quoted hq ht]
                rw [List.length_append] at hfuel
                have hrun : VariableRun (out ++ c :: t) more
                    (length + (c :: t).length) _ :=
                  ih (fun h => hrest' (List.mem_append_right _ h))
                    (by omega)
                exact hrun.front (fun s _ _ hs => .string hq ht hs)
            | unclosed =>
                rw [variableLoop_string hq, hcopy]
                exact .unclosed
            | @dangling p hsplit hp =>
                rw [variableLoop_string hq, hcopy]
                exact .dangling (p := c :: p) (by rw [hsplit]; rfl)
                  (.string .nil hq hp)
          by_cases h125 : c = 125
          · subst h125
            rw [variableLoop_close]
            have hclosed : VariableRun out (125 :: rest) length
                (.ok (some (length + 0 + 1, out ++ [] ++ [125, 0]))) :=
              .closed (l := []) rfl .nil
            rwa [List.append_nil] at hclosed
          by_cases h92 : c = 92
          · subst h92
            cases rest with
            | nil =>
                rw [List.nil_append, variableLoop_escape]
                cases fuel with
                | zero => simp at hfuel
                | succ fuel => exact .dangling (p := []) rfl (.items .nil)
            | cons d rest =>
                have hd0 : d ≠ 0 := fun h => hrest' (h ▸ List.mem_cons_self)
                rw [List.length_cons] at hfuel
                rw [List.cons_append, variableLoop_escape]
                have hrun : VariableRun (out ++ [92, d]) rest
                    (length + [92, d].length) _ :=
                  ih (fun h => hrest' (List.mem_cons_of_mem _ h)) (by omega)
                exact hrun.front (fun t _ _ ht => .escape hd0 ht)
          by_cases hnest : c = 37 ∧ rest.head? = some 123
          · obtain ⟨rfl, hhead⟩ := hnest
            obtain ⟨rest, rfl⟩ : ∃ r, rest = 123 :: r := by
              cases rest with
              | nil => simp at hhead
              | cons e rest => exact ⟨rest, by simpa using hhead⟩
            rw [List.length_cons] at hfuel
            rw [List.cons_append]
            have hinner : VariableRun [123] rest 1
                (variableLoop fuel [123] (rest ++ [0]) 1) :=
              ih (fun h => hrest' (List.mem_cons_of_mem _ h)) (by omega)
            generalize hcopy : variableLoop fuel [123] (rest ++ [0]) 1
              = copy at hinner
            cases hinner with
            | @closed l more hsplit hl =>
                subst hsplit
                rw [List.append_assoc, List.cons_append] at hcopy ⊢
                rw [variableLoop_braced hcopy]
                rw [List.length_append, List.length_cons] at hfuel
                have hrun : VariableRun
                    (out ++ 37 :: 123 :: (l ++ [125])) more
                    (length + (37 :: 123 :: (l ++ [125])).length) _ :=
                  ih (fun h => hrest' (by simp [h])) (by omega)
                have hall := hrun.front (fun t _ _ ht => by
                  have hnested := Items.nested hl ht
                  simpa using hnested)
                simpa using hall
            | unclosed =>
                rw [variableLoop_nested, hcopy]
                exact .unclosed
            | @dangling p hsplit hp =>
                rw [variableLoop_nested, hcopy]
                exact .dangling (p := 37 :: 123 :: p)
                  (by rw [hsplit]; rfl) (.nested .nil hp)
          · have h34 : c ≠ 34 := fun h => hq (.inl h)
            have h39 : c ≠ 39 := fun h => hq (.inr h)
            have hhead : c = 37 → rest.head? ≠ some 123 :=
              fun h37 h => hnest ⟨h37, h⟩
            rw [variableLoop_plain hc0 h34 h39 h125 h92 (by simp)]
            · have hrun : VariableRun (out ++ [c]) rest
                  (length + [c].length) _ := ih hrest' (by omega)
              apply hrun.front
              intro t u hsplit ht
              apply Items.plain hc0 h34 h39 h125 h92 _ ht
              intro h37 h
              apply hhead h37
              rw [hsplit, List.head?_append, h]
              rfl
            · intro h37 h
              apply hhead h37
              cases rest with
              | nil => simp at h
              | cons e rest => simpa using h

/-- A run through items, up to what comes behind them. -/
theorem variableLoop_items (hl : Items l) (fuel length : Nat)
    (out input : List UInt8) (hinput : input ≠ [])
    (hhead : input.head? ≠ some 123)
    (hfuel : l.length + input.length < fuel) :
    ∃ left, input.length < left ∧
      variableLoop fuel out (l ++ input) length
        = variableLoop left (out ++ l) input (length + l.length) := by
  induction hl generalizing fuel length out input with
  | nil =>
      refine ⟨fuel, by simpa using hfuel, ?_⟩
      rw [List.nil_append, List.append_nil]
      rfl
  | @plain c t h0 h34 h39 h125 h92 h37 _ ih =>
      obtain ⟨fuel, rfl⟩ : ∃ f, fuel = f + 1 := ⟨fuel - 1, by omega⟩
      rw [List.length_cons] at hfuel ⊢
      obtain ⟨left, hleft, hrun⟩ := ih fuel (length + 1)
        (out ++ [c]) input hinput hhead (by omega)
      refine ⟨left, hleft, ?_⟩
      rw [List.cons_append, variableLoop_plain h0 h34 h39 h125 h92
        (by simp [hinput]), hrun, List.append_assoc out, Nat.add_assoc,
        Nat.add_comm 1]
      · rfl
      · intro hc h
        cases t with
        | nil => exact hhead h
        | cons e t => exact h37 hc h
  | @escape d t _ _ ih =>
      obtain ⟨fuel, rfl⟩ : ∃ f, fuel = f + 1 := ⟨fuel - 1, by omega⟩
      rw [List.length_cons, List.length_cons] at hfuel ⊢
      obtain ⟨left, hleft, hrun⟩ := ih fuel (length + 2)
        (out ++ [92, d]) input hinput hhead (by omega)
      refine ⟨left, hleft, ?_⟩
      rw [List.cons_append, List.cons_append, variableLoop_escape, hrun,
        List.append_assoc out, Nat.add_assoc, Nat.add_comm 2]
      rfl
  | @string quote s t hq hs _ ih =>
      obtain ⟨fuel, rfl⟩ : ∃ f, fuel = f + 1 := ⟨fuel - 1, by omega⟩
      rw [List.length_cons, List.length_append] at hfuel
      obtain ⟨left, hleft, hrun⟩ := ih fuel
        (length + (quote :: s).length) (out ++ quote :: s) input hinput hhead
        (by omega)
      refine ⟨left, hleft, ?_⟩
      rw [List.cons_append, List.append_assoc, variableLoop_quoted hq hs,
        hrun, List.append_assoc out, ← List.cons_append,
        List.length_append, Nat.add_assoc]
  | @nested l t _ _ ihl iht =>
      obtain ⟨fuel, rfl⟩ : ∃ f, fuel = f + 1 := ⟨fuel - 1, by omega⟩
      rw [List.length_cons, List.length_cons, List.length_append,
        List.length_cons] at hfuel
      obtain ⟨inner, hinner, hclose⟩ := ihl fuel 1 [123]
        (125 :: (t ++ input)) (by simp) (by simp)
        (by rw [List.length_cons, List.length_append]; omega)
      obtain ⟨inner, rfl⟩ : ∃ f, inner = f + 1 := ⟨inner - 1, by omega⟩
      rw [variableLoop_close] at hclose
      obtain ⟨left, hleft, hrun⟩ := iht fuel
        (length + (37 :: 123 :: (l ++ [125])).length)
        (out ++ 37 :: 123 :: (l ++ [125])) input hinput hhead (by omega)
      refine ⟨left, hleft, ?_⟩
      have hfront : 37 :: 123 :: (l ++ 125 :: t)
          = 37 :: 123 :: (l ++ [125]) ++ t := by
        simp
      rw [hfront, List.append_assoc, List.cons_append, List.cons_append,
        List.append_assoc, List.singleton_append,
        variableLoop_braced hclose, hrun, List.append_assoc out,
        List.length_append, Nat.add_assoc]

/-- A run into the backslash at the end. -/
theorem variableLoop_dangling (hp : OpenItems p)
    (hfuel : p.length + 2 < fuel) :
    variableLoop fuel out (p ++ [92, 0]) length = .error .overread := by
  induction hp generalizing fuel out length with
  | @items l hl =>
      obtain ⟨left, hleft, hrun⟩ := variableLoop_items hl fuel length
        out [92, 0] (by simp) (by simp) hfuel
      obtain ⟨left, rfl⟩ : ∃ f, left = f + 2 := by
        rw [List.length_cons, List.length_cons] at hleft
        exact ⟨left - 2, by omega⟩
      rw [hrun, variableLoop_escape]
      rfl
  | @string quote l p hl hq hp =>
      have h92 : quote ≠ 92 ∧ quote ≠ 123 := by
        rcases hq with rfl | rfl
        · decide
        · decide
      rw [List.length_append, List.length_cons] at hfuel
      obtain ⟨left, hleft, hrun⟩ := variableLoop_items hl fuel length
        out (quote :: (p ++ [92, 0])) (by simp) (by simpa using h92.2)
        (by rw [List.length_cons, List.length_append]; simp; omega)
      obtain ⟨left, rfl⟩ : ∃ f, left = f + 1 := ⟨left - 1, by omega⟩
      rw [List.append_assoc, List.cons_append, hrun,
        variableLoop_string hq, radCopyString_dangling hp h92.1]
      rfl
  | @nested l p hl _ ih =>
      rw [List.length_append, List.length_cons, List.length_cons] at hfuel
      obtain ⟨left, hleft, hrun⟩ := variableLoop_items hl fuel length
        out (37 :: 123 :: (p ++ [92, 0])) (by simp) (by simp)
        (by rw [List.length_cons, List.length_cons, List.length_append]
            simp
            omega)
      obtain ⟨left, rfl⟩ : ∃ f, left = f + 1 := ⟨left - 1, by omega⟩
      rw [List.length_cons, List.length_cons, List.length_append] at hleft
      rw [List.append_assoc, List.cons_append, List.cons_append, hrun,
        variableLoop_nested, ih (by simp at hleft; omega)]
      rfl

end scan

-- ======== copies

/-- What a copy should do: it stays inside the text, and what it returns
counts a prefix of the text that is whole. -/
def Copies (Whole : List UInt8 → Prop) (text : List UInt8)
    (run : Mem (Option (Nat × List UInt8))) : Prop :=
  ∃ answer, run = .ok answer ∧ ∀ n out, answer = some (n, out) →
    n ≤ text.length ∧ out = text.take n ++ [0] ∧ Whole (text.take n)

section copies

variable {Whole : List UInt8 → Prop} {text whole more : List UInt8}

theorem copies_none : Copies Whole text (.ok none) :=
  ⟨none, rfl, by simp⟩

theorem copies_some (h : Whole whole) (htext : text = whole ++ more) :
    Copies Whole text (.ok (some (whole.length, whole ++ [0]))) := by
  refine ⟨_, rfl, ?_⟩
  intro n out heq
  injection heq with heq
  injection heq with hn hout
  subst hn
  subst hout
  have htake : text.take whole.length = whole := by
    rw [htext, List.take_left]
  refine ⟨?_, by rw [htake], by rwa [htake]⟩
  rw [htext, List.length_append]
  exact Nat.le_add_right _ _

theorem not_copies_overread : ¬ Copies Whole text (.error .overread) := by
  intro h
  obtain ⟨_, heq, _⟩ := h
  cases heq

end copies

theorem radCopyString_overread {text : List UInt8} (h : DanglingString text) :
    radCopyString (text ++ [0]) = .error .overread := by
  cases h with
  | empty => rfl
  | opening => rfl
  | @inside quote p hq _ hp =>
      rw [List.cons_append, List.append_assoc]
      exact radCopyString_dangling hp hq

theorem radCopyString_copies {text : List UInt8} (htext : 0 ∉ text)
    (h : ¬ DanglingString text) :
    Copies Quoted text (radCopyString (text ++ [0])) := by
  cases text with
  | nil => exact absurd .empty h
  | cons c rest =>
      have hc0 : c ≠ 0 := fun hc => htext (hc ▸ List.mem_cons_self)
      have hrest : 0 ∉ rest := fun hr => htext (List.mem_cons_of_mem _ hr)
      by_cases hc : c = 92
      · subst hc
        cases rest with
        | nil => exact absurd .opening h
        | cons d rest =>
            have hd0 : d ≠ 0 := fun hd => hrest (hd ▸ List.mem_cons_self)
            have hrun : TailRun 92 [92, d] rest 2
                (radCopyString (92 :: d :: (rest ++ [0]))) := by
              rw [radCopyString, peekByte, pure_eq_ok, ok_bind,
                stringLoop_escape]
              exact stringTail_run
                (fun hr => hrest (List.mem_cons_of_mem _ hr)) (by decide)
                (by simp only [List.length_cons, List.length_append]; omega)
            rw [List.cons_append, List.cons_append]
            generalize radCopyString (92 :: d :: (rest ++ [0])) = run at hrun
            cases hrun with
            | @closed t more hsplit ht =>
                rw [Nat.add_comm 2]
                have hwhole : Quoted (92 :: d :: t) := .escape hd0 ht
                exact copies_some hwhole (by rw [hsplit]; rfl)
            | unclosed => exact copies_none
            | dangling _ hne _ => exact absurd rfl hne
      · have hrun := radCopyString_run hrest hc0 hc
        rw [List.cons_append]
        generalize radCopyString (c :: (rest ++ [0])) = run at hrun
        cases hrun with
        | @closed t more hsplit ht =>
            have hwhole : Quoted (c :: t) := .plain hc hc0 ht
            exact copies_some hwhole (by rw [hsplit]; rfl)
        | unclosed => exact copies_none
        | @dangling p hsplit hp =>
            rw [hsplit] at h
            exact absurd (.inside hc hc0 hp) h

theorem radCopyVariable_overread {text : List UInt8}
    (h : DanglingVariable text) :
    radCopyVariable (text ++ [0]) = .error .overread := by
  rcases h with rfl | ⟨c, p, hp, rfl⟩
  · rfl
  · rw [List.cons_append, List.append_assoc]
    apply variableLoop_dangling hp
    simp only [List.length_cons, List.length_append, List.length_nil]
    omega

theorem radCopyVariable_copies {text : List UInt8} (htext : 0 ∉ text)
    (h : ¬ DanglingVariable text) :
    Copies Balanced text (radCopyVariable (text ++ [0])) := by
  cases text with
  | nil => exact absurd (.inl rfl) h
  | cons c rest =>
      have hc0 : c ≠ 0 := fun hc => htext (hc ▸ List.mem_cons_self)
      have hrest : 0 ∉ rest := fun hr => htext (List.mem_cons_of_mem _ hr)
      have hrun : VariableRun [c] rest 1
          (radCopyVariable (c :: rest ++ [0])) := by
        apply variableLoop_run hrest
        simp only [List.cons_append, List.length_cons, List.length_append]
        omega
      generalize radCopyVariable (c :: rest ++ [0]) = run at hrun
      cases hrun with
      | @closed l more hsplit hl =>
          have hwhole : Balanced (c :: (l ++ [125])) := ⟨c, l, hc0, hl, rfl⟩
          have hprefix : c :: rest = c :: (l ++ [125]) ++ more := by
            rw [hsplit]
            simp
          have hcopied := copies_some hwhole hprefix
          simpa [Nat.add_comm] using hcopied
      | unclosed => exact copies_none
      | @dangling p hsplit hp =>
          rw [hsplit] at h
          exact absurd (.inr ⟨c, p, hp, rfl⟩) h

/-- Both scanners copy what they should exactly on the texts that do not
end, inside the string or the variable, with a backslash that is not
escaped; on those they read past the terminator. -/
theorem radCopy_iff (text : List UInt8) (htext : 0 ∉ text) :
    (Copies Balanced text (radCopyVariable (text ++ [0]))
      ↔ ¬ DanglingVariable text) ∧
    (Copies Quoted text (radCopyString (text ++ [0]))
      ↔ ¬ DanglingString text) := by
  refine ⟨⟨?_, radCopyVariable_copies htext⟩,
    ⟨?_, radCopyString_copies htext⟩⟩
  · intro h hdangling
    rw [radCopyVariable_overread hdangling] at h
    exact not_copies_overread h
  · intro h hdangling
    rw [radCopyString_overread hdangling] at h
    exact not_copies_overread h

/-- A closed variable and a closed string, with a backslash in front of
the last byte. -/
theorem radCopy_iff_braces :
    Copies Balanced [123, 92, 97, 125] (radCopyVariable [123, 92, 97, 125, 0])
      ∧ Copies Quoted [39, 92, 97, 39] (radCopyString [39, 92, 97, 39, 0])
      ∧ ¬ Copies Quoted [39, 97, 92] (radCopyString [39, 97, 92, 0]) := by
  refine ⟨(radCopy_iff [123, 92, 97, 125] (by decide)).1.mpr ?_,
    (radCopy_iff [39, 92, 97, 39] (by decide)).2.mpr ?_,
    fun h => (radCopy_iff [39, 97, 92] (by decide)).2.mp h ?_⟩
  · rintro (hnil | ⟨c, p, -, htext⟩)
    · cases hnil
    · have hlast := congrArg List.getLast? htext
      rw [← List.cons_append, List.getLast?_concat] at hlast
      cases hlast
  · generalize htext : ([39, 92, 97, 39] : List UInt8) = text
    intro h
    cases h with
    | empty => cases htext
    | opening => cases htext
    | inside hq h0 hp =>
        have hlast := congrArg List.getLast? htext
        rw [← List.cons_append, List.getLast?_concat] at hlast
        cases hlast
  · exact @DanglingString.inside 39 [97] (by decide) (by decide)
      (.plain (by decide) (by decide) (by decide) .nil)

/-- An opening, a letter and a backslash: the terminator is escaped. -/
theorem radCopy_past_terminator :
    ¬ Copies Balanced [123, 97, 92] (radCopyVariable [123, 97, 92, 0]) ∧
    ¬ Copies Quoted [39, 97, 92] (radCopyString [39, 97, 92, 0]) := by
  have hvariable : radCopyVariable [123, 97, 92, 0] = .error .overread := by
    decide
  have hstring : radCopyString [39, 97, 92, 0] = .error .overread := by
    decide
  rw [hvariable, hstring]
  exact ⟨not_copies_overread, not_copies_overread⟩

end WinRadius
