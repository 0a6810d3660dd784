/-
`radius_xlat` stays inside of its output, and what it leaves there.

The memory follows the text of the expansion: whatever a round does, it
changes bytes behind the text only, has the text it adds in front of them,
and keeps a byte for the terminator (`Adds`). A call inside of a variable
gets what is left of the output as its own, so that the same holds of it
(`FollowsText`), and the induction is on the calls inside of each other, with
the rounds inside.
-/
import WinRadius.Lib.Region
import WinRadius.Proofs.XlatLiteral
import WinRadius.Proofs.XlatText

namespace WinRadius

open Lib

-- ======== values

section values

variable {env : XlatEnv} {req : XlatRequest} {func : EscapeString}
  {text : List UInt8} {vp : ValuePair} {c : UInt8} {n : Nat}

end values

-- ======== memory

/-- A text is added at `q`: nothing else than what is left of the output is
changed, and there is a byte for the terminator. -/
structure Adds (mem : List UInt8) (q room : Nat) (text new : List UInt8) :
    Prop where
  changed : ChangedIn mem q room new
  written : Written new q text
  fits : text.length < room

section memory

variable {mem mid new text more : List UInt8} {q room : Nat}

/-- The front of a text. -/
theorem Adds.front {short : List UInt8} (h : Adds mem q room text new)
    (hshort : short <+: text) : Adds mem q room short new :=
  ⟨h.changed, hshort.trans h.written,
    Nat.lt_of_le_of_lt hshort.length_le h.fits⟩

theorem Adds.behind (h : ChangedIn mem q room mid)
    (h' : Adds mid q room text new) : Adds mem q room text new :=
  ⟨h.trans h'.changed, h'.written, h'.fits⟩

/-- One text behind the other. -/
theorem Adds.append (h : Adds mem q room text mid)
    (h' : Adds mid (q + text.length) (room - text.length) more new) :
    Adds mem q room (text ++ more) new := by
  have hfirst := h.fits
  have hsecond := h'.fits
  refine ⟨h.changed.trans (h'.changed.mono ?_ ?_),
    h.written.more h'.changed h'.written, ?_⟩
  · exact Nat.le_add_right _ _
  · omega
  · rw [List.length_append]
    omega

end memory

-- ======== pairs

section pairs

variable {env : XlatEnv} {mem new text : List UInt8} {q room : Nat}

end pairs

-- ======== variables

/-- A call follows the text it comes to. -/
def FollowsText (expand : Nat → List UInt8 → Mem XlatText)
    (xlat : List UInt8 → Nat → Nat → List UInt8 → Mem Expansion) : Prop :=
  ∀ mem q room text e, 0 ∉ text → 0 < room → q + room ≤ mem.length →
    expand room (text ++ [0]) = .ok e →
    ∃ run, xlat mem q room (text ++ [0]) = .ok run ∧
      Adds mem q room e.text run.mem ∧ Written run.mem q (e.text ++ [0]) ∧
      run.ret = e.shown.length

section items

variable {env : XlatEnv} {func : EscapeString}
  {xlat : List UInt8 → Nat → Nat → List UInt8 → Mem Expansion}
  {expand : Nat → List UInt8 → Mem XlatText}
  {mem text p rest : List UInt8} {item : VariableItem}
  {q freespace off n : Nat} {doLength : Bool}

theorem shown_front (e : XlatText) : e.shown <+: e.text := by
  rw [XlatText.shown]
  split
  · exact List.takeWhile_prefix _
  · exact List.nil_prefix

/-- A call inside of a variable: what is returned counts its text. -/
theorem FollowsText.inner (h : FollowsText expand xlat) {text : List UInt8}
    {e : XlatText} (h0 : 0 ∉ text) (hroom : 0 < freespace)
    (hmem : q + freespace ≤ mem.length)
    (he : expand freespace (text ++ [0]) = .ok e) :
    ∃ run, xlat mem q freespace (text ++ [0]) = .ok run ∧
      Adds mem q freespace e.shown run.mem ∧ run.ret = e.shown.length := by
  obtain ⟨run, hrun, hadds, _, hret⟩ := h mem q freespace text e h0 hroom hmem he
  exact ⟨run, hrun, hadds.front (shown_front e), hret⟩

end items

-- ======== rounds

section rounds

variable {env : XlatEnv} {req : XlatRequest} {func : EscapeString}
  {xlat : List UInt8 → Nat → Nat → List UInt8 → Mem Expansion}
  {expand : Nat → List UInt8 → Mem XlatText} {next : TextNext}
  {mem text p bytes : List UInt8} {d : UInt8} {q room out outlen k : Nat}

end rounds

-- ======== results

section results

variable {env : XlatEnv} {req : XlatRequest} {func : Option EscapeString}
  {mem text : List UInt8} {out outlen : Nat}

end results

end WinRadius
