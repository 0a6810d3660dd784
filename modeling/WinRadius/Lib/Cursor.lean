/-
A pointer that only moves forward over a text: what is left of the text,
with its terminator. A pointer that has moved behind the terminator has
nothing left, and a read there is an overread.
-/
import WinRadius.Lib.Bytes

namespace WinRadius.Lib

/-- `*(from++)`. -/
def readByte : List UInt8 → Mem (UInt8 × List UInt8)
  | [] => throw .overread
  | c :: rest => return (c, rest)

/-- `*from`. -/
def peekByte : List UInt8 → Mem UInt8
  | [] => throw .overread
  | c :: _ => return c

@[simp] theorem readByte_cons (c : UInt8) (rest : List UInt8) :
    readByte (c :: rest) = .ok (c, rest) := rfl

@[simp] theorem peekByte_cons (c : UInt8) (rest : List UInt8) :
    peekByte (c :: rest) = .ok c := rfl

end WinRadius.Lib
