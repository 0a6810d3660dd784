/-
`rad_sortvp` of radius.cpp on linked pairs.

The pairs are those of `pairmove`: a `VALUE_PAIR **` is a head or the link
of a pair, and `none` is a read or a write of a pair that is not there.
Both loops run on fuel, and `none` is also a loop that goes on.
-/
import WinRadius.Model.Decode
import WinRadius.Model.Pairmove

namespace WinRadius

namespace PairStore

/-- `*tail`. -/
def deref (s : PairStore) : PairRef → Option Nat
  | .toHead => s.toHead
  | .fromHead => s.fromHead
  | .nextOf a => s.next a

/-- `vp->next` is put in front of `vp`, where `tail` leads to `vp`. -/
def exchange (s : PairStore) (tail : PairRef) (vp : Nat) :
    Option PairStore := do
  let s ← s.assign tail (s.next vp)
  let moved ← s.deref tail
  let s ← s.assign (.nextOf vp) (s.next moved)
  s.assign (.nextOf moved) (some vp)

/-- `while (*tail)`, with `swapped`. -/
def sortWalk : Nat → PairStore → PairRef → Bool → Option (PairStore × Bool)
  | fuel, s, tail, swapped =>
      match s.deref tail with
      | none => some (s, swapped)
      | some vp =>
          match fuel with
          | 0 => none
          | fuel + 1 => do
              let a ← s.vps vp
              match s.next vp with
              | none => some (s, swapped)
              | some next => do
                  let b ← s.vps next
                  if signedAttr b < signedAttr a then
                    sortWalk fuel (← s.exchange tail vp) (.nextOf vp) true
                  else sortWalk fuel s (.nextOf vp) swapped

/-- `rad_sortvp(head)`. -/
def radSortvp (head : PairRef) : Nat → PairStore → Option PairStore
  | 0, _ => none
  | fuel + 1, s => do
      let (s, swapped) ← sortWalk fuel s head false
      if swapped then radSortvp head fuel s else some s

end PairStore

end WinRadius
