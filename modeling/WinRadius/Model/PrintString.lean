/-
`fr_print_string` of print.cpp on its two buffers.

`str` is what is left of the memory behind the string's start, `buf` the
memory behind `start`, and `out` the place in it. A round prints one byte
or one character. `inlen` is a `size_t` and wraps where a character is
longer than what is left; `outlen` is more than 4 in a round, and a round
prints no more than 4 bytes.
-/
import WinRadius.Lib.Blocks
import WinRadius.Model.Utf8

namespace WinRadius

open Lib

/-- What a round prints: `sp` is not 0, `utf8` is 0, or neither. -/
inductive PrintRound where
  | letter (c sp : UInt8)
  | octal (c : UInt8)
  | character (bytes : List UInt8)
deriving DecidableEq

namespace PrintRound

/-- The bytes that are printed. -/
def source : PrintRound → List UInt8
  | letter c _ => [c]
  | octal c => [c]
  | character bytes => bytes

/-- What they are printed as. -/
def text : PrintRound → List UInt8
  | letter _ sp => [92, sp]
  | octal c => octalEscape c
  | character bytes => bytes

/-- The writes of a round; `snprintf` adds a terminator. -/
def write (outlen : Nat) (buf : List UInt8) (out : Nat) :
    PrintRound → Mem (List UInt8)
  | letter _ sp => do store (← store buf out 92) (out + 1) sp
  | octal c => storeN buf out ((octalEscape c).take (outlen - 1) ++ [0])
  | character bytes => storeN buf out bytes

end PrintRound

/-- The `switch` on `*str`, and `fr_utf8_char`. -/
def printRound (str : List UInt8) : Mem PrintRound := do
  let c ← fetch str 0
  match escapeLetter c with
  | some sp => return .letter c sp
  | none =>
      let utf8 ← frUtf8CharRead str
      if utf8 = 0 then return .octal c
      return .character (← fetchN str 0 utf8)

/-- The loop. -/
def printStringLoop : Nat → UInt32 → Nat → List UInt8 → List UInt8 → Nat →
    Mem (List UInt8 × Nat)
  | 0, _, _, _, _, _ => throw .hang
  | fuel + 1, inlen, outlen, str, buf, out => do
      if inlen = 0 ∨ outlen ≤ 4 then return (buf, out)
      -- never print trailing zero
      if inlen = 1 ∧ (← fetch str 0) = 0 then return (buf, out)
      let round ← printRound str
      let buf ← round.write outlen buf out
      printStringLoop fuel (inlen - UInt32.ofNat round.source.length)
        (outlen - round.text.length) (str.drop round.source.length) buf
        (out + round.text.length)

/-- `strlen`. -/
def strlen : List UInt8 → Mem Nat
  | [] => throw .overread
  | c :: str => do
      if c = 0 then return 0
      return (← strlen str) + 1

/-- `fr_print_string`: the buffer and what is returned. -/
def frPrintStringInto (str : List UInt8) (inlen : UInt32)
    (buf : List UInt8) (outlen : Nat) : Mem (List UInt8 × Nat) := do
  let inlen ← if inlen = 0 then (UInt32.ofNat ·) <$> strlen str else pure inlen
  let (buf, out) ← printStringLoop (outlen + 1) inlen outlen str buf 0
  return (← store buf out 0, out)

end WinRadius
