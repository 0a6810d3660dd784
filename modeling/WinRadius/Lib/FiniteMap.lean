/-
Finite maps whose entries are counted: an association list with distinct
keys, read by key, and the number of its values with a property.

A change of one key changes the number by what the old value and the new
one count for, so an invariant that says "the number of values with `p` is
`n`" follows from what the change did at one key.
-/
import Mathlib.Data.List.AList
import Mathlib.Tactic

namespace WinRadius.Lib.FiniteMap

variable {κ ν : Type} [DecidableEq κ]

/-- A key that was written, read. -/
theorem lookup_insert (s : AList fun _ : κ => ν) (k k' : κ) (v : ν) :
    (s.insert k v).lookup k' = if k' = k then some v else s.lookup k' := by
  split
  next h =>
    subst h
    exact AList.lookup_insert s
  next h => exact AList.lookup_insert_ne h

/-- A key that was removed, read. -/
theorem lookup_erase (s : AList fun _ : κ => ν) (k k' : κ) :
    (s.erase k).lookup k' = if k' = k then none else s.lookup k' := by
  split
  next h =>
    subst h
    exact AList.lookup_erase _ s
  next h => exact AList.lookup_erase_ne h

/-- How many values have the property. -/
def count (p : ν → Bool) (s : AList fun _ : κ => ν) : Nat :=
  s.entries.countP fun e => p e.2

/-- What a value counts for. -/
def weight (p : ν → Bool) (v : Option ν) : Nat := if v.any p then 1 else 0

/-- The entries, with that of one key in front. -/
theorem entries_perm {s : AList fun _ : κ => ν} {k : κ} {v : ν}
    (h : s.lookup k = some v) :
    s.entries.Perm (⟨k, v⟩ :: (s.erase k).entries) := by
  have hmem : (⟨k, v⟩ : Sigma fun _ => ν) ∈ s.entries :=
    AList.mem_lookup_iff.mp h
  have hkey : k ∈ s.entries.keys := List.mem_keys_of_mem hmem
  obtain ⟨v', l₁, l₂, hl₁, hs, herase⟩ := List.exists_of_kerase hkey
  have hv : v' = v := by
    have hmem' : (⟨k, v'⟩ : Sigma fun _ => ν) ∈ s.entries := by
      rw [hs]
      exact List.mem_append_right _ List.mem_cons_self
    have := AList.mem_lookup_iff.mpr hmem'
    rw [Option.mem_def, h] at this
    exact (Option.some.inj this).symm
  subst hv
  show s.entries.Perm (⟨k, v'⟩ :: s.entries.kerase k)
  rw [herase]
  conv_lhs => rw [hs]
  exact List.perm_middle

theorem count_erase (p : ν → Bool) (s : AList fun _ : κ => ν) (k : κ) :
    count p (s.erase k) + weight p (s.lookup k) = count p s := by
  cases h : s.lookup k with
  | none =>
      have hs : s.erase k = s := by
        apply AList.ext
        exact List.kerase_of_notMem_keys (AList.lookup_eq_none.mp h)
      rw [hs]
      rfl
  | some v =>
      unfold count weight
      rw [(entries_perm h).countP_eq, List.countP_cons]
      rfl

theorem count_insert (p : ν → Bool) (s : AList fun _ : κ => ν) (k : κ)
    (v : ν) :
    count p (s.insert k v) + weight p (s.lookup k)
      = count p s + weight p (some v) := by
  have h : count p (s.insert k v)
      = count p (s.erase k) + weight p (some v) := by
    unfold count weight
    rw [AList.entries_insert, List.countP_cons]
    rfl
  have := count_erase p s k
  omega

/-- A value with the property counts. -/
theorem weight_le_count (p : ν → Bool) (s : AList fun _ : κ => ν) (k : κ) :
    weight p (s.lookup k) ≤ count p s := by
  have := count_erase p s k
  omega

theorem weight_some {p : ν → Bool} {v : ν} (h : p v = true) :
    weight p (some v) = 1 := by
  unfold weight
  rw [Option.any_some, if_pos h]

theorem weight_some_not {p : ν → Bool} {v : ν} (h : p v = false) :
    weight p (some v) = 0 := by
  unfold weight
  rw [Option.any_some, h]
  rfl

end WinRadius.Lib.FiniteMap
