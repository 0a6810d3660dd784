/-
Binary heaps in a list: position `i` has its parent at `(i - 1) / 2`.

# The order with one defect

Both repairs of a heap keep an order with a defect at one position.
`OrderedBut` is what bubbling up starts from and keeps: every pair is in
order but the one of `c` and its parent, and the children of `c` are above
its parent too. `Hollow` is what a hole that moves down keeps: every pair
off the hole is in order, and the hole's children are above its parent.

# The elements and their positions

A swap permutes the list, and a hole that moves permutes what is outside
of it. `Placed pos l k` says that `pos` is the position of every element
but perhaps of the one at `k`; the elements off `k` are then distinct.
-/
import Mathlib.Tactic

namespace WinRadius.Lib.BinaryHeap

/-- The parent of position `i`; the root is its own. -/
def parent (i : Nat) : Nat := (i - 1) / 2

theorem parent_lt {i : Nat} (h : 0 < i) : parent i < i := by
  unfold parent
  omega

section order

variable {α : Type} {le : α → α → Prop} {l : List α}

/-- What stands at `i` is at most what stands at `j`. -/
def Edge (le : α → α → Prop) (l : List α) (i j : Nat) : Prop :=
  ∀ x y, l[i]? = some x → l[j]? = some y → le x y

/-- The order of a heap. -/
def Ordered (le : α → α → Prop) (l : List α) : Prop :=
  ∀ i, 0 < i → Edge le l (parent i) i

/-- The order but for `c` and its parent. -/
structure OrderedBut (le : α → α → Prop) (l : List α) (c : Nat) :
    Prop where
  edge : ∀ i, 0 < i → i ≠ c → Edge le l (parent i) i
  grand : ∀ i, 0 < i → parent i = c → 0 < c → Edge le l (parent c) i

/-- The order but for a hole at `h`. -/
structure Hollow (le : α → α → Prop) (l : List α) (h : Nat) : Prop where
  edge : ∀ i, 0 < i → i ≠ h → parent i ≠ h → Edge le l (parent i) i
  grand : ∀ i, 0 < i → parent i = h → 0 < h → Edge le l (parent h) i

/-- An element of an updated list. -/
theorem getElem?_set_cases {i j : Nat} {a x : α}
    (h : (l.set i a)[j]? = some x) :
    (j = i ∧ x = a) ∨ (j ≠ i ∧ l[j]? = some x) := by
  rw [List.getElem?_set] at h
  split at h
  next hij =>
    split at h
    · exact Or.inl ⟨hij.symm, (Option.some.inj h).symm⟩
    · cases h
  next hij => exact Or.inr ⟨fun e => hij e.symm, h⟩

/-- An element of a list in which two positions were exchanged. -/
theorem getElem?_swap_cases {c p j : Nat} {a b x : α}
    (h : ((l.set c a).set p b)[j]? = some x) :
    (j = p ∧ x = b) ∨ (j ≠ p ∧ j = c ∧ x = a)
      ∨ (j ≠ p ∧ j ≠ c ∧ l[j]? = some x) := by
  rcases getElem?_set_cases h with h | ⟨hp, h⟩
  · exact Or.inl h
  · rcases getElem?_set_cases h with ⟨hc, hx⟩ | ⟨hc, hx⟩
    · exact Or.inr (Or.inl ⟨hp, hc, hx⟩)
    · exact Or.inr (Or.inr ⟨hp, hc, hx⟩)

/-- The root is the least. -/
theorem Ordered.root (hrefl : ∀ a, le a a)
    (htrans : ∀ a b c, le a b → le b c → le a c) (h : Ordered le l)
    {x : α} (hx : l[0]? = some x) : ∀ (i : Nat) y, l[i]? = some y → le x y := by
  intro i
  induction i using Nat.strong_induction_on with
  | _ i ih =>
      intro y hy
      rcases Nat.eq_zero_or_pos i with hi | hi
      · subst hi
        rw [hx] at hy
        cases hy
        exact hrefl x
      · have hlt := parent_lt hi
        have hlen := (List.getElem?_eq_some_iff.mp hy).1
        obtain ⟨z, hz⟩ : ∃ z, l[parent i]? = some z :=
          ⟨_, List.getElem?_eq_getElem (hlt.trans hlen)⟩
        exact htrans _ _ _ (ih _ hlt z hz) (h i hi z y hz hy)

/-- A new last element. -/
theorem Ordered.append (h : Ordered le l) (d : α) :
    OrderedBut le (l ++ [d]) l.length := by
  constructor
  · intro i hi hne x y hx hy
    have hlen := (List.getElem?_eq_some_iff.mp hy).1
    simp only [List.length_append, List.length_singleton] at hlen
    have hlt := parent_lt hi
    rw [List.getElem?_append_left (by omega)] at hx hy
    exact h i hi x y hx hy
  · intro i hi hp _ x y _ hy
    have hlen := (List.getElem?_eq_some_iff.mp hy).1
    have hlt := parent_lt hi
    simp only [List.length_append, List.length_singleton] at hlen
    omega

/-- The defect is gone at the root, -/
theorem OrderedBut.ordered_zero (h : OrderedBut le l 0) : Ordered le l :=
  fun i hi => h.edge i hi (Nat.pos_iff_ne_zero.mp hi)

/-- and where the parent is no greater. -/
theorem OrderedBut.ordered {c : Nat} (h : OrderedBut le l c)
    (hc : Edge le l (parent c) c) : Ordered le l := by
  intro i hi
  by_cases he : i = c
  · subst he
    exact hc
  · exact h.edge i hi he

/-- Exchanged with its parent, the defect is one level up. -/
theorem OrderedBut.up (htrans : ∀ a b c, le a b → le b c → le a c)
    {c : Nat} {a b : α} (h : OrderedBut le l c) (hc : 0 < c)
    (ha : l[parent c]? = some a) (hb : l[c]? = some b) (hba : le b a) :
    OrderedBut le ((l.set c a).set (parent c) b) (parent c) := by
  have hpc := parent_lt hc
  constructor
  · intro i hi hne x y hx hy
    have hpi := parent_lt hi
    rcases getElem?_swap_cases hy with
      ⟨hyp, -⟩ | ⟨-, rfl, rfl⟩ | ⟨-, hyc, hold⟩
    · exact absurd hyp hne
    · -- the old parent, now below the new one
      rcases getElem?_swap_cases hx with ⟨-, rfl⟩ | ⟨hxp, -⟩ | ⟨hxp, -⟩
      · exact hba
      · exact absurd rfl hxp
      · exact absurd rfl hxp
    · rcases getElem?_swap_cases hx with
        ⟨hxp, rfl⟩ | ⟨-, hxc, rfl⟩ | ⟨-, -, hx⟩
      · -- the sibling was above the old parent
        rw [← hxp] at ha
        exact htrans _ _ _ hba (h.edge i hi hyc a y ha hold)
      · -- a child of `c`
        exact h.grand i hi hxc hc _ y ha hold
      · exact h.edge i hi hyc x y hx hold
  · intro i hi hp hpos x y hx hy
    have hpi := parent_lt hpos
    have hold : l[parent (parent c)]? = some x := by
      rcases getElem?_swap_cases hx with ⟨hx, -⟩ | ⟨-, hx, -⟩ | ⟨-, -, hx⟩
      · omega
      · omega
      · exact hx
    have hxa : le x a := h.edge _ hpos (by omega) x a hold ha
    rcases getElem?_swap_cases hy with ⟨hy, -⟩ | ⟨-, -, rfl⟩ | ⟨-, hyc, hy⟩
    · have := parent_lt hi
      omega
    · exact hxa
    · rw [← hp] at ha
      exact htrans _ _ _ hxa (h.edge i hi hyc a y ha hy)

/-- A hole is opened anywhere. -/
theorem Ordered.hollow (htrans : ∀ a b c, le a b → le b c → le a c)
    (h : Ordered le l) (k : Nat) : Hollow le l k := by
  constructor
  · intro i hi _ _
    exact h i hi
  · intro i hi hp hk x y hx hy
    have hki := parent_lt hi
    have hlen := (List.getElem?_eq_some_iff.mp hy).1
    obtain ⟨z, hz⟩ : ∃ z, l[k]? = some z :=
      ⟨_, List.getElem?_eq_getElem (by omega)⟩
    exact htrans _ _ _ (h k hk x z hx hz) (h i hi z y (hp ▸ hz) hy)

/-- The smaller child moves into the hole. -/
theorem Hollow.down {k c : Nat} {d : α} (h : Hollow le l k) (hc : 0 < c)
    (hck : parent c = k) (hd : l[c]? = some d)
    (hmin : ∀ i y, 0 < i → parent i = k → i ≠ c → l[i]? = some y → le d y) :
    Hollow le (l.set k d) c := by
  have hkc := parent_lt hc
  constructor
  · intro i hi hic hpc x y hx hy
    rcases getElem?_set_cases hy with ⟨rfl, rfl⟩ | ⟨hik, hold⟩
    · -- the child, now below the hole's parent
      have hpi := parent_lt hi
      rcases getElem?_set_cases hx with ⟨hx, -⟩ | ⟨-, hx⟩
      · omega
      · exact h.grand c hc hck hi x _ hx hd
    · rcases getElem?_set_cases hx with ⟨hpk, rfl⟩ | ⟨hpk, hx⟩
      · exact hmin i y hi hpk hic hold
      · exact h.edge i hi hik hpk x y hx hold
  · intro i hi hp _ x y hx hy
    have hpi := parent_lt hi
    rcases getElem?_set_cases hx with ⟨-, rfl⟩ | ⟨hx, -⟩
    · rcases getElem?_set_cases hy with ⟨hy, -⟩ | ⟨hik, hy⟩
      · omega
      · exact h.edge i hi hik (by omega) _ y (hp ▸ hd) hy
    · exact absurd hck hx

/-- A hole without children is filled by the last element. -/
theorem Hollow.fill {k : Nat} (h : Hollow le l k)
    (hleaf : l.length ≤ 2 * k + 1) (d : α) :
    OrderedBut le (l.dropLast.set k d) k := by
  have hold {i : Nat} {y : α} (hy : l.dropLast[i]? = some y) :
      l[i]? = some y ∧ i < l.length - 1 := by
    rw [List.getElem?_dropLast] at hy
    split at hy
    next hlt => exact ⟨hy, hlt⟩
    next => cases hy
  have hchild {i : Nat} (hi : 0 < i) (hil : i < l.length) :
      parent i ≠ k := by
    unfold parent
    omega
  constructor
  · intro i hi hik x y hx hy
    rcases getElem?_set_cases hy with ⟨hy, -⟩ | ⟨-, hy⟩
    · exact absurd hy hik
    · obtain ⟨hy, hil⟩ := hold hy
      have hpk := hchild hi (by omega)
      rcases getElem?_set_cases hx with ⟨hx, -⟩ | ⟨-, hx⟩
      · exact absurd hx hpk
      · exact h.edge i hi hik hpk x y (hold hx).1 hy
  · intro i hi hp _ x y _ hy
    have hpi := parent_lt hi
    rcases getElem?_set_cases hy with ⟨hy, -⟩ | ⟨-, hy⟩
    · omega
    · exact absurd hp (hchild hi (by have := (hold hy).2; omega))

/-- A hole at the end is cut off. -/
theorem Hollow.dropLast {k : Nat} (h : Hollow le l k)
    (hk : k = l.length - 1) : Ordered le l.dropLast := by
  intro i hi x y hx hy
  have hpi := parent_lt hi
  rw [List.getElem?_dropLast] at hx hy
  split at hy
  next hlt =>
    rw [if_pos (by omega)] at hx
    exact h.edge i hi (by omega) (by omega) x y hx hy
  next => cases hy

end order

-- ======== the elements

section elements

variable {α : Type} {l : List α}

/-- The exchange of two positions. -/
theorem swap_perm {i j : Nat} {a b : α} (ha : l[i]? = some a)
    (hb : l[j]? = some b) : ((l.set j a).set i b).Perm l := by
  obtain ⟨hi, rfl⟩ := List.getElem?_eq_some_iff.mp ha
  obtain ⟨hj, rfl⟩ := List.getElem?_eq_some_iff.mp hb
  exact List.set_set_perm hj hi

/-- What moves into the hole leaves another one behind. -/
theorem hole_perm {k c : Nat} {d : α} (hk : k < l.length) (hkc : k ≠ c)
    (hd : l[c]? = some d) :
    ((l.set k d).eraseIdx c).Perm (l.eraseIdx k) := by
  obtain ⟨hc, hd⟩ := List.getElem?_eq_some_iff.mp hd
  have h₁ : (d :: (l.set k d).eraseIdx c).Perm (l.set k d) := by
    have hc' : c < (l.set k d).length := by simpa using hc
    have h := List.getElem_cons_eraseIdx_perm hc'
    rwa [List.getElem_set_ne hkc, hd] at h
  have h₂ := List.set_perm_cons_eraseIdx hk d
  exact List.Perm.cons_inv (h₁.trans h₂)

end elements

-- ======== the positions

section positions

variable {α : Type} {pos : α → Int} {l : List α} {k : Nat}

/-- `pos` is right but for what stands at `k`. -/
def Placed (pos : α → Int) (l : List α) (k : Nat) : Prop :=
  ∀ (i : Nat) x, i ≠ k → l[i]? = some x → pos x = i

/-- What stands at `k` stands nowhere else. -/
def Alone (l : List α) (k : Nat) : Prop :=
  ∀ (i : Nat) x, i ≠ k → l[i]? = some x → l[k]? ≠ some x

variable [DecidableEq α]

/-- The position of what stands at `k` is written. -/
theorem Placed.write {d : α} (h : Placed pos l k) (hk : Alone l k)
    (hd : l[k]? = some d) :
    ∀ (i : Nat) x, l[i]? = some x → (if x = d then (k : Int) else pos x) = i := by
  intro i x hx
  by_cases hik : i = k
  · subst hik
    rw [hd] at hx
    rw [if_pos (Option.some.inj hx).symm]
  · have hne : x ≠ d := fun e => hk i x hik hx (e ▸ hd)
    rw [if_neg hne]
    exact h i x hik hx

/-- What stands at `k` may have any position. -/
theorem Placed.forget {d : α} (h : Placed pos l k) (hk : Alone l k)
    (hd : l[k]? = some d) (v : Int) :
    Placed (fun x => if x = d then v else pos x) l k := by
  intro i x hik hx
  have hne : x ≠ d := fun e => hk i x hik hx (e ▸ hd)
  show (if x = d then v else pos x) = i
  rw [if_neg hne]
  exact h i x hik hx

end positions

end WinRadius.Lib.BinaryHeap
