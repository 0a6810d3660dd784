/-
`pairmake_any` of valuepair-lib.cpp, and `fr_hex2bin` of misc.cpp as it is
called there: pairs of attributes that are named by their numbers.

Texts are their bytes without the terminator, which is no digit. `bin` is
the value of the pair, all of its bytes. A number is an `int`, and the
number of the pair its bits.
-/
import WinRadius.Lib.Blocks
import WinRadius.Model.Dict
import WinRadius.Model.ParseValue

namespace WinRadius

open Lib

-- ======== hex

/-- The loop of `fr_hex2bin`: the bytes that are counted, and `bin`. -/
def hex2binLoop : Nat → Nat → List UInt8 → List UInt8 →
    Mem (Nat × List UInt8)
  | 0, i, _, bin => return (i, bin)
  | len + 1, i, hex, bin =>
      match hex with
      | c1 :: c2 :: hex =>
          match hextab c1, hextab c2 with
          | some hi, some lo => do
              let bin ← store bin i (UInt8.ofNat (hi * 16 + lo))
              hex2binLoop len (i + 1) hex bin
          | _, _ => return (i, bin)
      | _ => return (i, bin)

/-- `fr_hex2bin`. -/
def frHex2binLen (hex bin : List UInt8) (len : Nat) :
    Mem (Nat × List UInt8) :=
  hex2binLoop len 0 hex bin

-- ======== names

/-- Why there is no pair. -/
inductive PairmakeError where
  | requiresHex
  | vendorValue
  | vendorName
  | vendorNameTooLong
  | unknownVendor
  | vendorText
  | format
  | value
  | number
  | memory
  | hexString
deriving Repr, DecidableEq

/-- The text in `fr_strerror`. -/
def PairmakeError.text (attr value : List UInt8) : PairmakeError → List UInt8
  | .requiresHex =>
      ascii "Unknown attribute \"" ++ attr ++
        ascii "\" requires a hex string, not \"" ++ value ++ ascii "\""
  | .vendorValue => ascii "Invalid vendor value" ++ inName
  | .vendorName => ascii "Invalid vendor name" ++ inName
  | .vendorNameTooLong => ascii "Vendor name too long" ++ inName
  | .unknownVendor => ascii "Unknown vendor name" ++ inName
  | .vendorText =>
      ascii "Invalid text following vendor definition" ++ inName
  | .format => ascii "Invalid format" ++ inName
  | .value => ascii "Invalid value" ++ inName
  | .number => ascii "Invalid attribute number" ++ inName
  | .memory => ascii "out of memory"
  | .hexString => ascii "Invalid hex string"
where
  inName : List UInt8 := ascii " in attribute name \"" ++ attr ++ ascii "\""

end WinRadius
