import Mathlib.Data.Set.Card
import Mathlib.Data.Set.Finite.List

/-! # Maps from prefixes to values

A prefix is the word of its bits, the first bit first. The words that a map has a value
for are counted where they are finitely many, as they are below any length.
-/
namespace LogStats

abbrev PrefixMap (V : Type*) := List Bool → Option V

namespace PrefixMap
variable {V : Type*}

def empty : PrefixMap V := fun _ => none

def stored (M : PrefixMap V) : Set (List Bool) := { w | M w ≠ none }

noncomputable def size (M : PrefixMap V) : ℕ := M.stored.ncard

def assign (M : PrefixMap V) (w : List Bool) (v : Option V) : PrefixMap V := Function.update M w v

/-- The value of the longest stored prefix among those of up to `n` bits; `bits i` is the
prefix of `i` bits. -/
def longest (M : PrefixMap V) (bits : ℕ → List Bool) : ℕ → Option V
  | 0 => M (bits 0)
  | n + 1 => match M (bits (n + 1)) with
    | some v => some v
    | none => longest M bits n

def Bounded (M : PrefixMap V) (n : ℕ) : Prop := ∀ w ∈ M.stored, w.length ≤ n

section Lemmas
variable {M : PrefixMap V} {w : List Bool} {v : V} {n : ℕ} {bits : ℕ → List Bool}

@[simp] theorem size_empty : (empty : PrefixMap V).size = 0 := by
  have hnone : (empty : PrefixMap V).stored = ∅ := by
    ext w
    simp [stored, empty]
  rw [size, hnone, Set.ncard_empty]

@[simp] theorem assign_self (o : Option V) : M.assign w o w = o := by
  rw [assign, Function.update_self]

theorem assign_of_ne {u : List Bool} (h : u ≠ w) (o : Option V) : M.assign w o u = M u := by
  rw [assign, Function.update_of_ne h]

theorem mem_stored : w ∈ M.stored ↔ M w ≠ none := Iff.rfl

theorem Bounded.finite (h : M.Bounded n) : M.stored.Finite := (List.finite_length_le Bool n).subset h

theorem stored_assign_some : (M.assign w (some v)).stored = insert w M.stored := by
  ext u
  rw [Set.mem_insert_iff]
  by_cases h : u = w
  · subst h
    simp [stored]
  · simp [stored, assign_of_ne h, h]

theorem stored_assign_none : (M.assign w none).stored = M.stored \ {w} := by
  ext u
  rw [Set.mem_sdiff_singleton]
  by_cases h : u = w
  · subst h
    simp [stored]
  · simp [stored, assign_of_ne h, h]

theorem size_assign_some (h : M.Bounded n) (hw : M w = none) : (M.assign w (some v)).size = M.size + 1 := by
  rw [size, stored_assign_some, Set.ncard_insert_of_notMem (fun hin => mem_stored.mp hin hw) h.finite, size]

theorem size_assign_none (h : M.Bounded n) (hw : M w ≠ none) : (M.assign w none).size + 1 = M.size := by
  rw [size, stored_assign_none, Set.ncard_sdiff_singleton_add_one hw h.finite, size]

/-- A longer prefix that is stored nowhere changes nothing. -/
theorem longest_of_none {m : ℕ} (hmn : n ≤ m) (h : ∀ i, n < i → i ≤ m → M (bits i) = none) :
    M.longest bits m = M.longest bits n := by
  induction m, hmn using Nat.le_induction with
  | base => rfl
  | succ m hmn ih =>
    rw [longest, h (m + 1) (by omega) le_rfl]
    exact ih fun i hi hle => h i hi (by omega)

end Lemmas

end PrefixMap

end LogStats
