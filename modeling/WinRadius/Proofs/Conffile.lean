/-
What `cf_expand_variables` writes.

The loop takes its input piece by piece, and which piece comes next depends
on the input alone (`pieces`). What a piece takes of the output depends on
its value; `extent` adds it up to the first piece that has none. The loop
stays inside its output when that sum does, and what it leaves there is the
input with the values in place of the references (`Expanded`).
-/
import Mathlib.Data.List.TakeWhile
import WinRadius.Model.Conffile
import WinRadius.Proofs.Token
import WinRadius.Proofs.UserPassword
import WinRadius.Proofs.PrintScan

namespace WinRadius

open Lib

-- ======== pieces

/-- What the loop takes of its input in one turn. -/
inductive ConfPiece where
  | text (c : UInt8)
  | reference (name : List UInt8)
  | environment (name : List UInt8)
  | unclosed
deriving Repr, DecidableEq

/-- A reference begins here. -/
def OpensReference (input : List UInt8) : Prop :=
  [36, 123] <+: input ∨ ascii "$ENV" ++ [123] <+: input

/-- The input, cut up. -/
def pieces : Nat → List UInt8 → List ConfPiece
  | 0, _ => []
  | _ + 1, [] => []
  | k + 1, c :: ptr =>
      if [36, 123] <+: c :: ptr then
        match cutBrace (ptr.drop 1) with
        | none => [.unclosed]
        | some (name, rest) => .reference name :: pieces k rest
      else if ascii "$ENV" ++ [123] <+: c :: ptr then
        match cutBrace (ptr.drop 4) with
        | none => [.unclosed]
        | some (name, rest) => .environment name :: pieces k rest
      else .text c :: pieces k ptr

section expansion

variable (lookup : List UInt8 → Mem (Option (List UInt8)))
  (getenv : List UInt8 → Option (List UInt8))

/-- What the loop does with a piece, and with the ones behind it. -/
def writePieces (output : List UInt8) (p : Nat) :
    List ConfPiece → Mem (Option (List UInt8))
  | [] => return some (← store output p 0)
  | .unclosed :: _ => do
      let _ ← store output p 0
      return none
  | .text c :: ps => do writePieces (← store output p c) (p + 1) ps
  | .reference name :: ps => do
      match ← lookup name with
      | none => return none
      | some value =>
          writePieces (← strcpy output p value) (p + value.length) ps
  | .environment name :: ps => do
      let env := envValue getenv name
      writePieces (← strcpy output p env) (p + env.length) ps

/-- The bytes a value takes, with its terminator, or with what comes behind
it. -/
def valueExtent (value : List UInt8) (rest : Nat) : Nat :=
  max (value.length + 1) (value.length + rest)

/-- The bytes of output that the pieces take, up to the first reference
that is not found or not closed. -/
def extent : List ConfPiece → Nat
  | [] => 1
  | .unclosed :: _ => 1
  | .text _ :: ps => 1 + extent ps
  | .reference name :: ps =>
      match lookup name with
      | .ok (some value) => valueExtent value (extent ps)
      | _ => 0
  | .environment name :: ps => valueExtent (envValue getenv name) (extent ps)

/-- The text with its references replaced by their values. -/
inductive Expanded : List UInt8 → List UInt8 → Prop where
  | nil : Expanded [] []
  | reference {name value input output : List UInt8} : 125 ∉ name →
      lookup name = .ok (some value) → Expanded input output →
      Expanded ([36, 123] ++ name ++ 125 :: input) (value ++ output)
  | environment {name input output : List UInt8} : 125 ∉ name →
      Expanded input output →
      Expanded (ascii "$ENV" ++ [123] ++ name ++ 125 :: input)
        (envValue getenv name ++ output)
  | text {c : UInt8} {input output : List UInt8} :
      ¬ OpensReference (c :: input) → Expanded input output →
      Expanded (c :: input) (c :: output)

variable {lookup getenv} {ptr name rest value output out : List UInt8}
  {ps : List ConfPiece} {k p : Nat}

theorem cutBrace_some (h : cutBrace ptr = some (name, rest)) :
    125 ∉ name ∧ ptr = name ++ 125 :: rest := by
  have hspan := List.span_eq_takeWhile_dropWhile (fun c => c != 125) ptr
  rw [cutBrace, hspan] at h
  cases hdrop : ptr.dropWhile (fun c => c != 125) with
  | nil =>
      rw [hdrop] at h
      cases h
  | cons d tail =>
      rw [hdrop] at h
      have hd : d = 125 := by
        have := List.head?_dropWhile_not (fun c => c != 125) ptr
        rw [hdrop] at this
        simpa using this
      simp only [Option.some.injEq, Prod.mk.injEq] at h
      rw [← h.1, ← h.2]
      constructor
      · intro hmem
        have := List.mem_takeWhile_imp hmem
        simp at this
      · calc ptr
            = ptr.takeWhile (fun c => c != 125)
                ++ ptr.dropWhile (fun c => c != 125) :=
              List.takeWhile_append_dropWhile.symm
          _ = _ := by rw [hdrop, hd]

theorem cutBrace_length (h : cutBrace ptr = some (name, rest)) :
    name.length < ptr.length ∧ rest.length < ptr.length := by
  rw [(cutBrace_some h).2, List.length_append, List.length_cons]
  omega

/-- The loop goes by the pieces. -/
theorem expandLoop_eq (hlen : ptr.length < k) (hshort : ptr.length < 8192) :
    expandLoop lookup getenv k output p ptr
      = writePieces lookup getenv output p (pieces k ptr) := by
  induction k generalizing output p ptr with
  | zero => omega
  | succ k ih =>
      cases ptr with
      | nil => rfl
      | cons c ptr =>
          rw [List.length_cons] at hlen hshort
          rw [expandLoop, pieces]
          split
          · cases hcut : cutBrace (ptr.drop 1) with
            | none => rfl
            | some cut =>
                have hless := cutBrace_length hcut
                rw [List.length_drop] at hless
                dsimp only
                rw [if_neg (by omega), writePieces]
                cases lookup cut.1 with
                | error fault => rfl
                | ok found =>
                    cases found with
                    | none => rfl
                    | some value =>
                        simp only [ok_bind]
                        apply bind_congr
                        intro output
                        exact ih (by omega) (by omega)
          · split
            · cases hcut : cutBrace (ptr.drop 4) with
              | none => rfl
              | some cut =>
                  have hless := cutBrace_length hcut
                  rw [List.length_drop] at hless
                  dsimp only
                  rw [if_neg (by omega), writePieces]
                  apply bind_congr
                  intro output
                  exact ih (by omega) (by omega)
            · rw [writePieces]
              apply bind_congr
              intro output
              exact ih (by omega) (by omega)

-- ======== writes

theorem strcpy_overwrite (hp : p ≤ output.length)
    (h : output.length ≤ p + value.length) :
    strcpy output p value = .error .overwrite := by
  induction value generalizing output p with
  | nil =>
      rw [List.length_nil] at h
      rw [strcpy, store, if_neg (by omega)]
      rfl
  | cons c value ih =>
      rw [List.length_cons] at h
      rw [strcpy]
      by_cases hlt : p < output.length
      · have hlen : (overlay output p [c]).length = output.length :=
          overlay_length (by rw [List.length_singleton]; omega)
        rw [store_eq_ok hlt, ok_bind]
        exact ih (by omega) (by omega)
      · rw [store, if_neg hlt]
        rfl

theorem writeValue_overflows {rest : Nat}
    {write : List UInt8 → Nat → Mem (Option (List UInt8))}
    (hp : p ≤ output.length) (h : output.length < p + valueExtent value rest)
    (hwrite : ∀ {output p}, p ≤ output.length →
      output.length < p + rest → write output p = .error .overwrite) :
    (do write (← strcpy output p value) (p + value.length))
      = .error .overwrite := by
  rw [valueExtent] at h
  by_cases hlt : p + value.length < output.length
  · have hlen : (overlay output p (value ++ [0])).length = output.length :=
      overlay_length (by simp; omega)
    rw [strcpy_eq_ok hlt, ok_bind]
    exact hwrite (by omega) (by omega)
  · rw [strcpy_overwrite hp (by omega)]
    rfl

/-- Where the pieces fit, nothing is written outside. -/
theorem writePieces_fits (hlookup : ∀ name, lookup name ≠ .error .overwrite)
    (h : p + extent lookup getenv ps ≤ output.length) :
    writePieces lookup getenv output p ps ≠ .error .overwrite := by
  induction ps generalizing output p with
  | nil =>
      rw [extent] at h
      rw [writePieces, store_eq_ok (by omega)]
      rintro ⟨⟩
  | cons piece ps ih =>
      cases piece with
      | unclosed =>
          rw [extent] at h
          rw [writePieces, store_eq_ok (by omega)]
          rintro ⟨⟩
      | text c =>
          rw [extent] at h
          have hlen : (overlay output p [c]).length = output.length :=
            overlay_length (by rw [List.length_singleton]; omega)
          rw [writePieces, store_eq_ok (by omega), ok_bind]
          exact ih (by omega)
      | reference name =>
          rw [extent] at h
          rw [writePieces]
          cases hfound : lookup name with
          | error fault =>
              intro heq
              apply hlookup name
              rw [hfound]
              exact heq
          | ok found =>
              cases found with
              | none => rintro ⟨⟩
              | some value =>
                  rw [hfound] at h
                  simp only [valueExtent] at h
                  rw [ok_bind]
                  dsimp only
                  rw [strcpy_eq_ok (by omega), ok_bind]
                  apply ih
                  rw [overlay_length (by simp; omega)]
                  omega
      | environment name =>
          rw [extent, valueExtent] at h
          rw [writePieces, strcpy_eq_ok (by omega), ok_bind]
          apply ih
          rw [overlay_length (by simp; omega)]
          omega

/-- Where they do not fit, the loop writes behind the end. -/
theorem writePieces_overflows (hp : p ≤ output.length)
    (h : output.length < p + extent lookup getenv ps) :
    writePieces lookup getenv output p ps = .error .overwrite := by
  induction ps generalizing output p with
  | nil =>
      rw [extent] at h
      rw [writePieces, store, if_neg (by omega)]
      rfl
  | cons piece ps ih =>
      cases piece with
      | unclosed =>
          rw [extent] at h
          rw [writePieces, store, if_neg (by omega)]
          rfl
      | text c =>
          rw [extent] at h
          rw [writePieces]
          by_cases hlt : p < output.length
          · have hlen : (overlay output p [c]).length = output.length :=
              overlay_length (by rw [List.length_singleton]; omega)
            rw [store_eq_ok hlt, ok_bind]
            exact ih (by omega) (by omega)
          · rw [store, if_neg hlt]
            rfl
      | reference name =>
          rw [extent] at h
          rw [writePieces]
          cases hfound : lookup name with
          | error fault =>
              rw [hfound] at h
              dsimp only at h
              omega
          | ok found =>
              cases found with
              | none =>
                  rw [hfound] at h
                  dsimp only at h
                  omega
              | some value =>
                  rw [hfound] at h
                  dsimp only at h
                  rw [ok_bind]
                  exact writeValue_overflows hp h ih
      | environment name =>
          rw [extent] at h
          rw [writePieces]
          exact writeValue_overflows hp h ih

-- ======== the text

theorem take_overlay_front (value a : List UInt8) (hp : p ≤ output.length) :
    (overlay output p (value ++ a)).take (p + value.length)
      = output.take p ++ value := by
  have hlen : (output.take p ++ value).length = p + value.length := by
    rw [List.length_append, List.length_take, Nat.min_eq_left hp]
  rw [overlay, ← List.append_assoc, List.append_assoc _ a, ← hlen,
    List.take_left]

theorem store_some (hp : p ≤ output.length) {c : UInt8} {next : List UInt8}
    (h : store output p c = .ok next) :
    p + 1 ≤ next.length ∧ next.take (p + 1) = output.take p ++ [c] := by
  by_cases hlt : p < output.length
  · rw [store_eq_ok hlt] at h
    injection h with h
    rw [← h]
    constructor
    · rw [overlay_length (by rw [List.length_singleton]; omega)]
      omega
    · exact take_overlay_front [c] [] hp
  · rw [store, if_neg hlt] at h
    cases h

theorem strcpy_some (hp : p ≤ output.length) {next : List UInt8}
    (h : strcpy output p value = .ok next) :
    p + value.length ≤ next.length ∧
      next.take (p + value.length) = output.take p ++ value := by
  by_cases hlt : p + value.length < output.length
  · rw [strcpy_eq_ok hlt] at h
    injection h with h
    rw [← h]
    constructor
    · rw [overlay_length (by simp; omega)]
      omega
    · exact take_overlay_front value [0] hp
  · rw [strcpy_overwrite hp (by omega)] at h
    cases h

theorem zero_notMem_cString (bs : List UInt8) : 0 ∉ cString bs := by
  intro h
  have hne := List.mem_takeWhile_imp h
  simp at hne

theorem notMem_cut {n : Nat} (h0 : 0 ∉ ptr)
    (h : cutBrace (ptr.drop n) = some (name, rest)) : 0 ∉ rest := by
  intro hrest
  apply h0
  apply List.mem_of_mem_drop (i := n)
  rw [(cutBrace_some h).2]
  exact List.mem_append_right _ (List.mem_cons_of_mem _ hrest)

theorem open_cut {c : UInt8} {n : Nat} {opening : List UInt8}
    (hn : opening.length = n + 1) (hopen : opening <+: c :: ptr)
    (h : cutBrace (ptr.drop n) = some (name, rest)) :
    125 ∉ name ∧ c :: ptr = opening ++ name ++ 125 :: rest := by
  obtain ⟨hname, hdrop⟩ := cutBrace_some h
  refine ⟨hname, ?_⟩
  obtain ⟨after, hafter⟩ := hopen
  have hcut : after = ptr.drop n := by
    calc after
        = (opening ++ after).drop (n + 1) := by rw [← hn, List.drop_left]
      _ = ptr.drop n := by rw [hafter, List.drop_succ_cons]
  rw [← hafter, hcut, hdrop, List.append_assoc]

/-- What the loop leaves, when it comes to the end of its input. -/
theorem writePieces_replaced
    (hlookup : ∀ name value, lookup name = .ok (some value) → 0 ∉ value)
    (hptr : 0 ∉ ptr) (hlen : ptr.length < k) (hp : p ≤ output.length)
    (h : writePieces lookup getenv output p (pieces k ptr) = .ok (some out)) :
    ∃ text tail, Expanded lookup getenv ptr text ∧ 0 ∉ text ∧
      out = output.take p ++ (text ++ 0 :: tail) := by
  induction k generalizing output p ptr with
  | zero => omega
  | succ k ih =>
      cases ptr with
      | nil =>
          obtain ⟨next, hstore, hout⟩ := bind_eq_ok.mp h
          injection hout with hout
          injection hout with hout
          obtain ⟨hlong, htake⟩ := store_some hp hstore
          refine ⟨[], next.drop (p + 1), .nil, List.not_mem_nil, ?_⟩
          rw [← hout]
          calc next
              = next.take (p + 1) ++ next.drop (p + 1) :=
                (List.take_append_drop _ _).symm
            _ = _ := by rw [htake]; simp
      | cons c ptr =>
          rw [List.length_cons] at hlen
          have hrest : 0 ∉ ptr := fun h0 => hptr (List.mem_cons_of_mem _ h0)
          rw [pieces] at h
          split at h
          · next hopen =>
              cases hcut : cutBrace (ptr.drop 1) with
              | none =>
                  rw [hcut] at h
                  obtain ⟨next, _, hnone⟩ := bind_eq_ok.mp h
                  cases hnone
              | some cut =>
                  obtain ⟨name, rest⟩ := cut
                  rw [hcut] at h
                  obtain ⟨hbrace, hinput⟩ := open_cut (by rfl) hopen hcut
                  obtain ⟨found, hfound, h⟩ := bind_eq_ok.mp h
                  cases found with
                  | none => cases h
                  | some value =>
                      obtain ⟨next, hstr, h⟩ := bind_eq_ok.mp h
                      obtain ⟨hlong, htake⟩ := strcpy_some hp hstr
                      have hless := cutBrace_length hcut
                      rw [List.length_drop] at hless
                      obtain ⟨text, tail, hreplaced, h0, hout⟩ :=
                        ih (notMem_cut hrest hcut) (by omega) hlong h
                      refine ⟨value ++ text, tail, ?_, ?_, ?_⟩
                      · rw [hinput]
                        exact .reference hbrace hfound hreplaced
                      · rw [List.mem_append, not_or]
                        exact ⟨hlookup name value hfound, h0⟩
                      · rw [hout, htake]
                        simp
          · next hopen =>
              split at h
              · next henv =>
                  cases hcut : cutBrace (ptr.drop 4) with
                  | none =>
                      rw [hcut] at h
                      obtain ⟨next, _, hnone⟩ := bind_eq_ok.mp h
                      cases hnone
                  | some cut =>
                      obtain ⟨name, rest⟩ := cut
                      rw [hcut] at h
                      obtain ⟨hbrace, hinput⟩ := open_cut (by rfl) henv hcut
                      obtain ⟨next, hstr, h⟩ := bind_eq_ok.mp h
                      obtain ⟨hlong, htake⟩ := strcpy_some hp hstr
                      have hless := cutBrace_length hcut
                      rw [List.length_drop] at hless
                      obtain ⟨text, tail, hreplaced, h0, hout⟩ :=
                        ih (notMem_cut hrest hcut) (by omega) hlong h
                      refine
                        ⟨envValue getenv name ++ text, tail, ?_, ?_, ?_⟩
                      · rw [hinput]
                        exact .environment hbrace hreplaced
                      · rw [List.mem_append, not_or]
                        exact ⟨zero_notMem_cString _, h0⟩
                      · rw [hout, htake]
                        simp
              · next henv =>
                  obtain ⟨next, hstore, hnext⟩ := bind_eq_ok.mp h
                  obtain ⟨hlong, htake⟩ := store_some hp hstore
                  obtain ⟨text, tail, hreplaced, h0, hout⟩ :=
                    ih hrest (by omega) hlong hnext
                  refine ⟨c :: text, tail, .text ?_ hreplaced, ?_, ?_⟩
                  · rintro (hopens | hopens)
                    · exact hopen hopens
                    · exact henv hopens
                  · intro hmem
                    rcases List.mem_cons.mp hmem with hc | hmem
                    · exact hptr (hc ▸ List.mem_cons_self)
                    · exact h0 hmem
                  · rw [hout, htake]
                    simp

end expansion

-- ======== lookups

/-- A computation that only reads does not fail on a write. -/
def OnlyReads {α : Type} (m : Mem α) : Prop := m ≠ .error .overwrite

section lookups

variable {α β : Type} {heap : ConfHeap} {n parentcs outercs cs : Nat}
  {name : List UInt8}

theorem OnlyReads.ok (a : α) : OnlyReads (pure a : Mem α) := by
  rintro ⟨⟩

theorem OnlyReads.bind {m : Mem α} {f : α → Mem β} (hm : OnlyReads m)
    (hf : ∀ a, OnlyReads (f a)) : OnlyReads (m >>= f) := by
  intro h
  rcases bind_eq_error.mp h with h | ⟨a, _, h⟩
  · exact hm h
  · exact hf a h

theorem orHang_onlyReads (found : Option α) : OnlyReads (orHang found) := by
  cases found with
  | none => rintro ⟨⟩
  | some a => exact .ok a

theorem cfSectionSubFind_onlyReads :
    OnlyReads (cfSectionSubFind heap n cs name) := by
  rw [cfSectionSubFind]
  split
  · exact .ok _
  · exact orHang_onlyReads _

theorem cfSectionSubFindName2_onlyReads {name2 : List UInt8} :
    OnlyReads (cfSectionSubFindName2 heap n cs name name2) := by
  rw [cfSectionSubFindName2]
  split
  · split
    · exact .ok _
    · rintro ⟨⟩
  · exact orHang_onlyReads _

theorem referenceWalk_onlyReads {k : Nat} {first : Bool} :
    OnlyReads (referenceWalk heap n k cs name first) := by
  induction k generalizing cs name first with
  | zero => exact .ok _
  | succ k ih =>
      rw [referenceWalk]
      split
      next before rest _ =>
        split
        · exact .ok _
        · split
          · split
            split
            · exact .ok _
            · apply cfSectionSubFindName2_onlyReads.bind
              intro found
              cases found with
              | none => exact .ok _
              | some next => exact .ok _
            · split
              · exact .ok _
              · apply cfSectionSubFindName2_onlyReads.bind
                intro found
                cases found with
                | none => exact .ok _
                | some next => exact ih
          · apply cfSectionSubFind_onlyReads.bind
            intro found
            cases found with
            | none => exact .ok _
            | some next => exact ih

theorem referenceFind_onlyReads :
    OnlyReads (referenceFind heap n cs name) := by
  apply (orHang_onlyReads _).bind
  intro found
  cases found with
  | some cp => exact .ok _
  | none => exact cfSectionSubFind_onlyReads.bind fun part => .ok _

theorem referenceEnd_onlyReads {walk : RefWalk} :
    OnlyReads (referenceEnd heap n parentcs walk) := by
  cases walk with
  | missing => exact .ok _
  | found part => exact .ok _
  | item cs p first =>
      rw [referenceEnd]
      split
      · exact .ok _
      · apply referenceFind_onlyReads.bind
        intro found
        cases found with
        | some ci => exact .ok _
        | none =>
            dsimp only
            split
            · exact referenceFind_onlyReads
            · exact .ok _

theorem cfReferenceItem_onlyReads :
    OnlyReads (cfReferenceItem heap n parentcs outercs name) := by
  rw [cfReferenceItem]
  split
  · exact referenceWalk_onlyReads.bind fun walk => referenceEnd_onlyReads
  · exact referenceWalk_onlyReads.bind fun walk => referenceEnd_onlyReads

theorem referenceValue_onlyReads :
    OnlyReads (referenceValue heap n parentcs outercs name) := by
  apply cfReferenceItem_onlyReads.bind
  intro found
  split
  · exact .ok _
  · exact .ok _

theorem referenceValue_text {value : List UInt8}
    (h : referenceValue heap n parentcs outercs name = .ok (some value)) :
    0 ∉ value := by
  obtain ⟨found, _, h⟩ := bind_eq_ok.mp h
  split at h
  · injection h with h
    obtain ⟨text, _, htext⟩ := Option.map_eq_some_iff.mp h
    rw [← htext]
    exact zero_notMem_cString text
  · cases h

end lookups

-- ======== results

/-- A call that stays inside its output and, when it succeeds, leaves there
the input with its references replaced. -/
def ExpandsSafely (lookup : List UInt8 → Mem (Option (List UInt8)))
    (getenv : List UInt8 → Option (List UInt8)) (input : List UInt8)
    (run : Mem (Option (List UInt8))) : Prop :=
  run ≠ .error .overwrite ∧
    ∀ out, run = .ok (some out) →
      Expanded lookup getenv (cString input) (cString out)

/-- The bytes an input takes when it is expanded. -/
def expandedSize (lookup : List UInt8 → Mem (Option (List UInt8)))
    (getenv : List UInt8 → Option (List UInt8)) (input : List UInt8) : Nat :=
  extent lookup getenv
    (pieces ((cString input).length + 1) (cString input))

section results

variable {getenv : List UInt8 → Option (List UInt8)} {heap : ConfHeap}
  {n outercs parentcs : Nat} {output input : List UInt8}

theorem cfExpandVariables_eq
    (htop : cfTopSection heap n outercs = some parentcs)
    (hline : (cString input).length < 8192) :
    cfExpandVariables getenv heap n outercs output input
      = writePieces (referenceValue heap n parentcs outercs) getenv output 0
          (pieces ((cString input).length + 1) (cString input)) := by
  rw [cfExpandVariables, htop]
  exact expandLoop_eq (Nat.lt_succ_self _) hline

theorem cfExpandVariables_replaced
    (htop : cfTopSection heap n outercs = some parentcs)
    (hline : (cString input).length < 8192) {out : List UInt8}
    (h : cfExpandVariables getenv heap n outercs output input
      = .ok (some out)) :
    Expanded (referenceValue heap n parentcs outercs) getenv (cString input)
      (cString out) := by
  rw [cfExpandVariables_eq htop hline] at h
  obtain ⟨text, tail, hreplaced, h0, hout⟩ :=
    writePieces_replaced (fun name value => referenceValue_text)
      (zero_notMem_cString input) (Nat.lt_succ_self _) (Nat.zero_le _) h
  have htext : cString text = text := by
    apply cString_of_ne
    intro c hc hc0
    exact h0 (hc0 ▸ hc)
  rw [hout, List.take_zero, List.nil_append, cString_append_nul, htext]
  exact hreplaced

theorem cfExpandVariables_overflows
    (htop : cfTopSection heap n outercs = some parentcs)
    (hline : (cString input).length < 8192) (hroom : output.length = 8192)
    (h : 8192 < expandedSize (referenceValue heap n parentcs outercs) getenv
      input) :
    cfExpandVariables getenv heap n outercs output input
      = .error .overwrite := by
  rw [cfExpandVariables_eq htop hline]
  apply writePieces_overflows (Nat.zero_le _)
  rw [hroom, Nat.zero_add]
  exact h

/-- `cf_expand_variables` keeps inside its 8192 bytes, and replaces every
reference, exactly when the expanded text fits into them. -/
theorem cfExpandVariables_iff
    (htop : cfTopSection heap n outercs = some parentcs)
    (hline : (cString input).length < 8192) (hroom : output.length = 8192) :
    ExpandsSafely (referenceValue heap n parentcs outercs) getenv input
        (cfExpandVariables getenv heap n outercs output input)
      ↔ expandedSize (referenceValue heap n parentcs outercs) getenv input
          ≤ 8192 := by
  constructor
  · intro hsafe
    by_contra hbig
    apply hsafe.1
    exact cfExpandVariables_overflows htop hline hroom (Nat.lt_of_not_le hbig)
  · intro hfits
    constructor
    · rw [cfExpandVariables_eq htop hline]
      apply writePieces_fits (fun name => referenceValue_onlyReads)
      rw [hroom, Nat.zero_add]
      exact hfits
    · intro out hout
      exact cfExpandVariables_replaced htop hline hout

/-- A section with the one pair `a`. -/
def pairSection (value : List UInt8) : ConfHeap :=
  let (heap, main) := cfSectionAlloc {} (ascii "main") none none
  let (heap, cp) := cfPairAlloc heap (ascii "a") (some value) .opEq .bareWord
  (cfItemAdd 1 heap main.ident (.pair cp)).getD heap

theorem pairSection_top (value : List UInt8) :
    cfTopSection (pairSection value) 1 0 = some 0 := rfl

theorem pairSection_value (value : List UInt8) :
    referenceValue (pairSection value) 1 0 0 (ascii "a")
      = .ok (some (cString value)) := rfl

/-- `${a}${a}`. -/
def twoReferences : List UInt8 := [36, 123, 97, 125, 36, 123, 97, 125]

/-- The value 10.0, twice, in a buffer that has room for it. -/
theorem cfExpandVariables_iff_twice :
    ExpandsSafely (referenceValue (pairSection (ascii "10.0")) 1 0 0)
      (fun _ => none) twoReferences
      (cfExpandVariables (fun _ => none) (pairSection (ascii "10.0")) 1 0
        (List.replicate 8192 0) twoReferences) :=
  (cfExpandVariables_iff (pairSection_top _) (by decide)
    List.length_replicate).mpr (by decide)

/-- Two references to a value of 5000 characters, on a line of eight. -/
theorem expand_twice_overwrite :
    ¬ ExpandsSafely
      (referenceValue (pairSection (List.replicate 5000 97)) 1 0 0)
      (fun _ => none) twoReferences
      (cfExpandVariables (fun _ => none)
        (pairSection (List.replicate 5000 97)) 1 0 (List.replicate 8192 0)
        twoReferences) := by
  intro hsafe
  apply hsafe.1
  apply cfExpandVariables_overflows (pairSection_top _) (by decide)
    List.length_replicate
  have hvalue : cString (List.replicate 5000 97) = List.replicate 5000 97 := by
    apply cString_of_ne
    intro c hc
    rw [List.eq_of_mem_replicate hc]
    decide
  have hpieces :
      pieces ((cString twoReferences).length + 1) (cString twoReferences)
        = [.reference (ascii "a"), .reference (ascii "a")] := by
    decide
  rw [expandedSize, hpieces]
  simp only [extent, pairSection_value, hvalue, valueExtent,
    List.length_replicate]
  decide

end results

end WinRadius
