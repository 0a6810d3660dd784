/-
The passwords of rlm_pap.cpp: `normify` finds out whether a password is
written in hex or in base64, and decodes it.

# Memory

`dst` and `buffer` are the bytes of an array, and a write past their end
is a fault. What an array holds before anything is written to it is an
argument, as is `last`, the three bytes of `base64_decode`. The value of the
pair has room for 254 bytes, which is more than `buffer` has. A text in it
goes on behind `vp->length` up to a zero: a value in octets leaves the rest
of the text it was written as, and `normify` the rest of what it decodes.

A `size_t` made of a negative number is huge: `memcpy` reads past the
buffer.
-/
import WinRadius.Lib.Blocks
import WinRadius.Model.PairmakeAny

namespace WinRadius

open Lib

-- ======== base64

/-- The digit of a character in `decode_it`. -/
def chunkDigit (c : UInt8) : Option Nat :=
  if 65 ≤ c ∧ c ≤ 90 then some (c.toNat - 65)
  else if 97 ≤ c ∧ c ≤ 122 then some (c.toNat - 97 + 26)
  else if 48 ≤ c ∧ c ≤ 57 then some (c.toNat - 48 + 52)
  else if c = 43 then some 62
  else if c = 47 then some 63
  else if c = 61 then some 0
  else none

/-- `decode_it`: the three bytes, if it returns 1. A text of less than
four characters ends in its zero. -/
def decodeIt : List UInt8 → Option (List UInt8)
  | a :: b :: c :: d :: _ => do
      let x ← chunkDigit a
      let x := x * 64 + (← chunkDigit b)
      let x := x * 64 + (← chunkDigit c)
      let x := x * 64 + (← chunkDigit d)
      return [UInt8.ofNat (x / 65536), UInt8.ofNat (x / 256), UInt8.ofNat x]
  | _ => none

/-- The loop of `base64_decode`: whether it comes to its end, and then
`src` and `dst`, which has moved to `pos`. -/
def base64Loop : Nat → List UInt8 → Nat → List UInt8 →
    Mem (Bool × List UInt8 × Nat × List UInt8)
  | 0, src, pos, dst => return (true, src, pos, dst)
  | n + 1, src, pos, dst =>
      match decodeIt src with
      | none => return (false, src, pos, dst)
      | some bytes => do
          let dst ← storeN dst pos bytes
          base64Loop n (src.drop 4) (pos + 3) dst

/-- `while (src[length] && src[length] != '=') length++`. -/
def base64Length (src : List UInt8) : Nat :=
  (src.takeWhile fun c => c ≠ 0 ∧ c ≠ 61).length

/-- `while (src[length + equals] == '=') equals++`. -/
def base64Equals (src : List UInt8) : Nat :=
  ((src.drop (base64Length src)).takeWhile (· = 61)).length

/-- `num`. -/
def base64Num (src : List UInt8) : Nat :=
  (base64Length src + base64Equals src) / 4

/-- `base64_decode`: what it returns, and `dst`. -/
def base64Decode (src dst last : List UInt8) : Mem (Int × List UInt8) := do
  let equals := base64Equals src
  let num := base64Num src
  let (done, src, pos, dst) ← base64Loop (num - 1) src 0 dst
  if done = false then return (0, dst)
  else
    let last := (decodeIt src).getD last
    let dst ← storeN dst pos (last.take (3 - equals))
    return (num * 3 - equals, dst)

-- ======== normify

/-- `vp_strvalue`: the value, what stands behind it, and a zero. -/
def passText (vp : ValuePair) : List UInt8 :=
  vp.octets vp.length ++ (vp.data.drop vp.length ++ [0])

/-- `memcpy(vp->vp_octets, buffer, decoded)` and the new length. -/
def normalized (buffer : List UInt8) (vp : ValuePair) (decoded : Int) :
    Mem ValuePair := do
  let bytes ← fetchN buffer 0 decoded
  return { vp.setOctets bytes with length := bytes.length }

/-- "Base 64 encoding." -/
def normifyBase64 (buffer last : List UInt8) (vp : ValuePair)
    (minLength : Nat) : Mem ValuePair :=
  if minLength * 4 ≤ vp.length * 3 then do
    let (decoded, buffer) ← base64Decode (passText vp) buffer last
    if decoded < 0 ∨ (minLength : Int) ≤ decoded then
      normalized buffer vp decoded
    else return vp
  else return vp

/-- `normify`: the pair that it leaves. -/
def normify (buffer last : List UInt8) (vp : ValuePair) (minLength : Nat) :
    Mem ValuePair :=
  if 64 ≤ minLength then return vp
  else if 2 * minLength ≤ vp.length then do
    let (decoded, buffer) ←
      frHex2binLen (vp.octets vp.length) buffer (vp.length / 2)
    if decoded = vp.length / 2 then normalized buffer vp decoded
    else normifyBase64 buffer last vp minLength
  else normifyBase64 buffer last vp minLength

end WinRadius
