/-
`rad_copy_string` and `rad_copy_variable` of util.cpp.

`from` is the rest of the input from the pointer on. `out` is what has been
written at `to`, and `length` is counted beside it, as in the source. The answer
is the length that is returned with what is written, or `none` for -1.

The caller's buffer has room for all of it. The loops take fuel; the length
of the input is enough.
-/
import WinRadius.Lib.Cursor

namespace WinRadius

open Lib

/-- The loop of `rad_copy_string`; it looks at its condition behind the
body. -/
def stringLoop (quote : UInt8) : Nat → List UInt8 → List UInt8 → Nat →
    Mem (Option (Nat × List UInt8))
  | 0, _, _, _ => throw .hang
  | fuel + 1, out, input, length => do
      let c ← peekByte input
      let (out, input, length) ←
        if c = 92 then do
          let (c, input) ← readByte input
          pure (out ++ [c], input, length + 1)
        else pure (out, input, length)
      let (c, input) ← readByte input
      let out := out ++ [c]
      let length := length + 1
      let c ← peekByte input
      if c ≠ 0 ∧ c ≠ quote then stringLoop quote fuel out input length
      else if c ≠ quote then return none -- not properly quoted
      else return some (length + 1, out ++ [quote, 0])

/-- `rad_copy_string`. -/
def radCopyString (input : List UInt8) : Mem (Option (Nat × List UInt8)) := do
  let quote ← peekByte input
  stringLoop quote (input.length + 1) [] input 0

/-- What comes behind a copy that was made by another call: it moves on by
the length that was returned. -/
def afterCopy (sublen : Nat) (copied out input : List UInt8) :
    List UInt8 × List UInt8 :=
  (out ++ copied.take sublen, input.drop sublen)

/-- The loop of `rad_copy_variable`. A nested variable is copied by a call
of its own, from its brace on. -/
def variableLoop : Nat → List UInt8 → List UInt8 → Nat →
    Mem (Option (Nat × List UInt8))
  | 0, _, _, _ => throw .hang
  | fuel + 1, out, input, length => do
      let c ← peekByte input
      if c = 0 then return none -- the string ended before a trailing brace
      else if c = 34 ∨ c = 39 then
        match ← radCopyString input with
        | none => return none
        | some (sublen, copied) =>
            let (out, input) := afterCopy sublen copied out input
            variableLoop fuel out input (length + sublen)
      else if c = 125 then -- end of variable expansion
        return some (length + 1, out ++ [c, 0])
      else if c = 92 then
        let (c, input) ← readByte input
        let (d, input) ← readByte input
        variableLoop fuel (out ++ [c, d]) input (length + 2)
      else
        let (_, rest) ← readByte input
        if c = 37 ∧ (← peekByte rest) = 123 then
          let (open_, inner) ← readByte rest
          match ← variableLoop fuel [open_] inner 1 with
          | none => return none
          | some (sublen, copied) =>
              let (out, input) := afterCopy sublen copied (out ++ [c]) rest
              variableLoop fuel out input (length + 1 + sublen)
        else variableLoop fuel (out ++ [c]) rest (length + 1)

/-- `rad_copy_variable`. -/
def radCopyVariable (input : List UInt8) :
    Mem (Option (Nat × List UInt8)) := do
  let (c, rest) ← readByte input
  variableLoop (input.length + 1) [c] rest 1

end WinRadius
