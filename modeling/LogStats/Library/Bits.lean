import Mathlib.Data.List.Range
import Mathlib.Tactic.IntervalCases

/-! # Bits of words and of bytes, the highest one first -/
namespace LogStats

variable {w : ℕ}

def msbBits (x : BitVec w) : List Bool := (List.range w).map x.getMsbD

/-- The bits of a row of bytes in the order in which they are sent. -/
def byteBits (bytes : List UInt8) : List Bool := bytes.flatMap fun b => msbBits b.toBitVec

@[simp] theorem length_msbBits (x : BitVec w) : (msbBits x).length = w := by simp [msbBits]

theorem length_byteBits (bytes : List UInt8) : (byteBits bytes).length = 8 * bytes.length := by
  induction bytes with
  | nil => rfl
  | cons b bytes ih =>
    rw [byteBits] at ih
    rw [byteBits, List.flatMap_cons, List.length_append, ih, length_msbBits, List.length_cons]
    omega

theorem take_msbBits_eq_iff {x y : BitVec w} {m : ℕ} (h : m ≤ w) :
    (msbBits x).take m = (msbBits y).take m ↔ ∀ j < m, x.getMsbD j = y.getMsbD j := by
  rw [msbBits, msbBits, ← List.map_take, ← List.map_take, List.take_range, min_eq_left h]
  simp

/-! ## Masks of the first bits -/

/-- All bits but the `n` lowest ones. -/
def highMask (w n : ℕ) : BitVec w := -BitVec.twoPow w n

theorem getMsbD_highMask {n i : ℕ} (h : n < w) : (highMask w n).getMsbD i = decide (i < w - n) := by
  have hbelow : (∃ j < w, i < j ∧ (BitVec.twoPow w n).getMsbD j = true) ↔ i < w - n - 1 := by
    constructor
    · rintro ⟨j,-,hij,hj⟩
      simp only [BitVec.getMsbD_twoPow, Bool.and_eq_true, decide_eq_true_eq] at hj
      omega
    · intro hi
      exact ⟨w - n - 1,by omega,hi,by simp [BitVec.getMsbD_twoPow, h]⟩
  rw [highMask, BitVec.getMsbD_neg]
  simp only [hbelow]
  simp only [BitVec.getMsbD_twoPow, h, decide_true, Bool.true_and]
  by_cases hlast : i = w - n - 1
  · simp [hlast]
    omega
  · by_cases hi : i < w - n - 1
    · simp [hlast, hi]
      omega
    · simp [hlast, hi]
      omega

theorem and_highMask_eq_iff {x y : BitVec w} {n : ℕ} (h : n < w) :
    x &&& highMask w n = y &&& highMask w n ↔ (msbBits x).take (w - n) = (msbBits y).take (w - n) := by
  rw [take_msbBits_eq_iff (Nat.sub_le w n)]
  constructor
  · intro he j hj
    have := congrArg (fun z => z.getMsbD j) he
    simpa [getMsbD_highMask h, hj] using this
  · intro he
    apply BitVec.eq_of_getMsbD_eq
    intro i hi
    rw [BitVec.getMsbD_and, BitVec.getMsbD_and, getMsbD_highMask h]
    by_cases hn : i < w - n
    · rw [he i hn]
    · simp [hn]

/-! ## The smaller of two ints -/

theorem toInt_smaller (a b : Int32) : (if a < b then a else b).toInt = min a.toInt b.toInt := by
  split
  · rename_i h
    have := Int32.lt_iff_toInt_lt.mp h
    omega
  · rename_i h
    have := mt Int32.lt_iff_toInt_lt.mpr h
    omega

end LogStats
