/-
Singly linked lists in a memory of links: the links are a table over
addresses, and a stretch of it is a list.

A stretch is kept by every write elsewhere (`Segment.congr`); writing the
link of its last cell redirects its end (`Segment.redirect`), which is all
that appending and replacing do.
-/
import Mathlib.Data.List.Nodup
import Mathlib.Logic.Function.Basic
import Mathlib.Tactic.Cases

namespace WinRadius.Lib

section linked

variable {α κ : Type} (addr : α → κ)

/-- From the pointer `p`, the links lead through the cells `xs` to the
pointer `q`. -/
def Segment (next : κ → Option α) : Option α → List α → Option α → Prop
  | p, [], q => p = q
  | p, x :: xs, q => p = some x ∧ Segment next (next (addr x)) xs q

variable {addr} {next next' : κ → Option α} {p q r : Option α} {x y : α}
  {xs ys : List α}

/-- Two stretches in a row. -/
theorem segment_append :
    Segment addr next p (xs ++ ys) r
      ↔ ∃ q, Segment addr next p xs q ∧ Segment addr next q ys r := by
  induction xs generalizing p with
  | nil =>
      constructor
      · exact fun h => ⟨p, rfl, h⟩
      · intro ⟨q, hpq, h⟩
        cases hpq
        exact h
  | cons x xs ih =>
      rw [List.cons_append, Segment, ih]
      constructor
      · intro ⟨hp, q, hxs, hys⟩
        exact ⟨q, ⟨hp, hxs⟩, hys⟩
      · intro ⟨q, ⟨hp, hxs⟩, hys⟩
        exact ⟨hp, q, hxs, hys⟩

/-- What leads to a list up to `NULL`. -/
theorem Segment.start_eq (h : Segment addr next p xs none) :
    p = xs.head? := by
  cases xs with
  | nil => exact h
  | cons x xs => exact h.1

/-- Behind a cell. -/
theorem Segment.behind (h : Segment addr next p (xs ++ x :: ys) none) :
    Segment addr next (next (addr x)) ys none := by
  obtain ⟨q, -, -, hys⟩ := segment_append.mp h
  exact hys

/-- A stretch only reads the links of its cells. -/
theorem Segment.congr (h : Segment addr next p xs q)
    (heq : ∀ x ∈ xs, next' (addr x) = next (addr x)) :
    Segment addr next' p xs q := by
  induction xs generalizing p with
  | nil => exact h
  | cons x xs ih =>
      obtain ⟨hp, hxs⟩ := h
      refine ⟨hp, ?_⟩
      rw [heq x List.mem_cons_self]
      exact ih hxs fun y hy => heq y (List.mem_cons_of_mem x hy)

variable [DecidableEq κ]

/-- A write to a link outside a stretch. -/
theorem Segment.update {a : κ} (h : Segment addr next p xs q)
    (ha : ∀ x ∈ xs, addr x ≠ a) :
    Segment addr (Function.update next a r) p xs q :=
  h.congr fun x hx => Function.update_of_ne (ha x hx) _ _

/-- Writing the link of the last cell redirects the end. -/
theorem Segment.redirect (h : Segment addr next p (xs ++ [x]) q)
    (hx : ∀ y ∈ xs, addr y ≠ addr x) :
    Segment addr (Function.update next (addr x) r) p (xs ++ [x]) r := by
  rw [segment_append] at h ⊢
  obtain ⟨m, hxs, hm, -⟩ := h
  refine ⟨m, hxs.update hx, hm, ?_⟩
  exact Function.update_self _ _ _

/-- A cell is taken out: the link of the cell before it leads past it. -/
theorem Segment.unlink (h : Segment addr next p (xs ++ [y] ++ x :: ys) none)
    (hxs : ∀ z ∈ xs, addr z ≠ addr y) (hys : ∀ z ∈ ys, addr z ≠ addr y) :
    Segment addr (Function.update next (addr y) (next (addr x))) p
      (xs ++ [y] ++ ys) none := by
  obtain ⟨q, hfront, -⟩ := segment_append.mp h
  exact segment_append.mpr ⟨_, hfront.redirect hxs, h.behind.update hys⟩

end linked

end WinRadius.Lib
