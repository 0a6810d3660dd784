/-
Cells of memory at addresses: a finite table, in which an address that is
not in use has no cell.

One field of the cells, read through the table, is a function of the
address (`fieldOf`), which is how a linked list of `Linked` lies in it. A
write, an allocation and a release change it at one address.
-/
import WinRadius.Lib.FiniteMap
import WinRadius.Lib.Linked

namespace WinRadius.Lib

-- ======== allocation

/-- `malloc`, where it does not fail: an address that is not in use. -/
structure Malloc where
  address : List Nat → Nat
  fresh : ∀ used, address used ∉ used

/-- The address above all that are in use. -/
def Malloc.above : Malloc where
  address := fun used => used.sum + 1
  fresh := by
    intro used h
    have hle := List.le_sum_of_mem h
    omega

-- ======== cells

abbrev Cells (γ : Type) := AList fun _ : Nat => γ

section cells

variable {γ β : Type} (cells : Cells γ) (field : γ → Option β)

/-- A field of the cell at an address. -/
def fieldOf (a : Nat) : Option β := (cells.lookup a).bind field

theorem fieldOf_insert (a : Nat) (c : γ) :
    fieldOf (cells.insert a c) field
      = Function.update (fieldOf cells field) a (field c) := by
  funext b
  unfold fieldOf
  rw [FiniteMap.lookup_insert, Function.update_apply]
  split
  · rfl
  · rfl

theorem fieldOf_erase (a : Nat) :
    fieldOf (cells.erase a) field
      = Function.update (fieldOf cells field) a none := by
  funext b
  unfold fieldOf
  rw [FiniteMap.lookup_erase, Function.update_apply]
  split
  · rfl
  · rfl

/-- An address that was given out has no cell. -/
theorem Malloc.fresh_cell (m : Malloc) : m.address cells.keys ∉ cells :=
  m.fresh cells.keys

end cells

end WinRadius.Lib
