/-
What an expansion comes to, as a text.

This is `radius_xlat` without the output it writes to: a round is the text
it adds, and the space that is left follows from the text before it. What a
variable asks for is read first (`readVariable`) and then expanded
(`itemText`).

An expansion has no text where the code leaves what it may touch:

- an escape of two characters where there is room for one and the
  terminator;
- a backslash at the end of a variable, which is read as an escape;
- a variable that does not fit into the intermediate buffer;
- an octal escape that is shorter than three digits, at the end of the
  second alternative.

In each of them the answer is an error.
-/
import WinRadius.Model.Xlat

namespace WinRadius

open Lib

-- ======== variables

/-- What a variable asks for. -/
inductive VariableItem where
  | conditional (first second : List UInt8) (expand2 : Bool)
  | module (name str : List UInt8) (next : Option (List UInt8))
      (doLength : Bool)
deriving Repr, DecidableEq

/-- What an expansion leaves; it is not done where a variable could not be
expanded. -/
structure XlatText where
  text : List UInt8
  done : Bool
deriving Repr, DecidableEq

/-- The text whose length is returned. -/
def XlatText.shown (e : XlatText) : List UInt8 :=
  if e.done then cString e.text else []

end WinRadius
