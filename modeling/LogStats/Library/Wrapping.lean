import Mathlib.Data.Int.Basic
import Mathlib.Logic.Function.Iterate
import Mathlib.Tactic.NormNum
import Mathlib.Tactic.SplitIfs

/-! # 32-bit words that wrap

What a counter shows after so many increments, and what is left of a difference or of a value when its
bits are read as a signed number.
-/
namespace LogStats

section Wrapping
variable {a b : UInt32} {d : ℤ}

theorem iterate_succ_eq_add (a : UInt32) (k : ℕ) : (· + 1)^[k] a = a + UInt32.ofNat k := by
  induction k with
  | zero => simp
  | succ k ih => rw [Function.iterate_succ_apply', ih, UInt32.ofNat_add, UInt32.add_assoc]; rfl

/-- The difference of two words, read as a signed number, is the difference modulo 2^32 that is nearest to 0. -/
theorem toInt_toInt32_sub (a b : UInt32) : (a - b).toInt32.toInt = ((a.toNat : ℤ) - b.toNat).bmod (2 ^ 32) := by
  change (a.toBitVec - b.toBitVec).toInt = _
  rw [BitVec.toInt_sub, BitVec.toInt_eq_toNat_bmod, BitVec.toInt_eq_toNat_bmod, Int.bmod_sub_bmod,
    Int.sub_bmod_bmod]
  rfl

theorem toInt_toInt32 (a : UInt32) : a.toInt32.toInt = (a.toNat : ℤ).bmod (2 ^ 32) := BitVec.toInt_eq_toNat_bmod _

theorem toInt_toInt32_eq_iff : a.toInt32.toInt = a.toNat ↔ a.toNat < 2 ^ 31 := by
  have hlt := a.toNat_lt
  rw [toInt_toInt32, Int.bmod_def]
  split_ifs <;> omega

/-- The sign of a difference survives unless the difference is too great for a signed number. -/
theorem bmod_signs_iff (hlow : -2 ^ 32 < d) (hhigh : d < 2 ^ 32) :
    ((d.bmod (2 ^ 32) < 0 ↔ d < 0) ∧ (d.bmod (2 ^ 32) = 0 ↔ d = 0) ∧ (0 < d.bmod (2 ^ 32) ↔ 0 < d)) ↔
      -2 ^ 31 ≤ d ∧ d < 2 ^ 31 := by
  rw [Int.bmod_def]
  split_ifs <;> omega

end Wrapping

end LogStats
