/-
`fr_utf8_char` of print.cpp with its reads.

Each case of the source is a chain of comparisons joined by `&&`; a byte
is only read when the comparisons before it hold. A comparison is an index
with the least and the greatest byte it lets through.
-/
import WinRadius.Model.Print

namespace WinRadius

open Lib

/-- `(str[i] >= lo) && (str[i] <= hi) && ...`. -/
def inRanges (str : List UInt8) : List (Nat × UInt8 × UInt8) → Mem Bool
  | [] => return true
  | (i, lo, hi) :: rest => do
      let b ← fetch str i
      if lo ≤ b ∧ b ≤ hi then inRanges str rest else return false

/-- The cases behind the first three, in their order: the comparisons and
the length. In the case before the last the bound 0xf3 is put on the
second byte. -/
def utf8Cases : List (List (Nat × UInt8 × UInt8) × Nat) :=
  [([(0, 0xc2, 0xdf), (1, 0x80, 0xbf)], 2),
   ([(0, 0xe0, 0xe0), (1, 0xa0, 0xbf), (2, 0x80, 0xbf)], 3),
   ([(0, 0xe1, 0xec), (1, 0x80, 0xbf), (2, 0x80, 0xbf)], 3),
   ([(0, 0xee, 0xef), (1, 0x80, 0xbf), (2, 0x80, 0xbf)], 3),
   ([(0, 0xed, 0xed), (1, 0x80, 0x9f), (2, 0x80, 0xbf)], 3),
   ([(0, 0xf0, 0xf0), (1, 0x90, 0xbf), (2, 0x80, 0xbf),
     (3, 0x80, 0xbf)], 4),
   ([(0, 0xf1, 0xff), (1, 0x00, 0xf3), (1, 0x80, 0xbf), (2, 0x80, 0xbf),
     (3, 0x80, 0xbf)], 4),
   ([(0, 0xf4, 0xf4), (1, 0x80, 0x8f), (2, 0x80, 0xbf),
     (3, 0x80, 0xbf)], 4)]

/-- The first case that holds. -/
def utf8Search (str : List UInt8) :
    List (List (Nat × UInt8 × UInt8) × Nat) → Mem Nat
  | [] => return 0
  | (ranges, n) :: rest => do
      if ← inRanges str ranges then return n
      utf8Search str rest

/-- `fr_utf8_char`. -/
def frUtf8CharRead (str : List UInt8) : Mem Nat := do
  let s0 ← fetch str 0
  if s0 < 0x20 then return 0
  if s0 ≤ 0x7e then return 1
  if s0 ≤ 0xc1 then return 0
  utf8Search str utf8Cases

end WinRadius
