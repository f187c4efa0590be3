import LogStats.Library.WordTree
import Mathlib.Algebra.GroupWithZero.Nat

/-! # Words and linked cells in a memory of bytes

A word is eight bytes, the lowest first. Cells are linked by the word at their beginning,
where 0 ends a list. What keeps a list together is that no write meets one of these words.
-/
namespace LogStats

abbrev Bytes := ℕ → UInt8

/-- The ranges of `n` bytes at `a` and of `k` bytes at `b` do not meet. -/
def Apart (a n b k : ℕ) : Prop := a + n ≤ b ∨ b + k ≤ a

theorem Apart.symm {a n b k : ℕ} (h : Apart a n b k) : Apart b k a n := Or.symm h

theorem Apart.mono {a n b k a' n' b' k' : ℕ} (h : Apart a n b k) (ha : a ≤ a') (han : a' + n' ≤ a + n) (hb : b ≤ b')
    (hbk : b' + k' ≤ b + k) : Apart a' n' b' k' := by
  rcases h with h | h
  · exact Or.inl (by omega)
  · exact Or.inr (by omega)

/-- NULL or the cell at an address. -/
def pointer (v : ℕ) : Option ℕ := if v = 0 then none else some v

@[simp] theorem pointer_zero : pointer 0 = none := rfl

theorem pointer_of_ne {v : ℕ} (h : v ≠ 0) : pointer v = some v := if_neg h

theorem pointer_eq_none {v : ℕ} : pointer v = none ↔ v = 0 := by
  by_cases h : v = 0
  · simp [h]
  · simp [pointer_of_ne h, h]

theorem pointer_eq_some {v a : ℕ} : pointer v = some a ↔ v = a ∧ a ≠ 0 := by
  by_cases h : v = 0
  · subst h
    simp [eq_comm]
  · rw [pointer_of_ne h, Option.some.injEq]
    exact ⟨fun heq => ⟨heq,heq ▸ h⟩,And.left⟩

namespace Bytes
variable {m m' : Bytes} {a b v x : ℕ}

/-- The number in `n` bytes. -/
def number (m : Bytes) : ℕ → ℕ → ℕ
  | _, 0 => 0
  | a, n + 1 => (m a).toNat + 256 * number m (a + 1) n

def readWord (m : Bytes) (a : ℕ) : ℕ := m.number a 8

def writeWord (m : Bytes) (a v : ℕ) : Bytes :=
  fun x => if a ≤ x ∧ x < a + 8 then UInt8.ofNat (v / 256 ^ (x - a)) else m x

/-- The cell that the word of a cell points to. -/
def next (m : Bytes) (a : ℕ) : Option ℕ := pointer (m.readWord a)

/-- `m'` differs from `m` in `n` bytes at `a` at most. -/
def Within (m m' : Bytes) (a n : ℕ) : Prop := ∀ x, x < a ∨ a + n ≤ x → m' x = m x

theorem number_congr {n : ℕ} (h : ∀ x, a ≤ x → x < a + n → m' x = m x) : m'.number a n = m.number a n := by
  induction n generalizing a with
  | zero => rfl
  | succ n ih =>
    rw [number, number, h a (Nat.le_refl a) (by omega), ih fun x hx hxn => h x (by omega) (by omega)]

theorem number_of_bytes {n : ℕ} (h : ∀ k < n, m (a + k) = UInt8.ofNat (v / 256 ^ k)) : m.number a n = v % 256 ^ n := by
  induction n generalizing a v with
  | zero => rw [number, Nat.pow_zero, Nat.mod_one]
  | succ n ih =>
    have hfirst : m a = UInt8.ofNat v := by
      have h0 := h 0 (Nat.succ_pos n)
      rwa [Nat.add_zero, Nat.pow_zero, Nat.div_one] at h0
    have hrest := @ih (a + 1) (v / 256) fun k hk => by
      rw [show a + 1 + k = a + (k + 1) by omega, h (k + 1) (by omega), Nat.pow_succ', Nat.div_div_eq_div_mul]
    rw [number, hfirst, hrest, UInt8.toNat_ofNat', show 2 ^ 8 = 256 from rfl, Nat.pow_succ', Nat.mod_mul]

theorem readWord_writeWord (m : Bytes) (a : ℕ) (hv : v < 2 ^ 64) : (m.writeWord a v).readWord a = v := by
  have hbytes : (m.writeWord a v).number a 8 = v % 256 ^ 8 := by
    apply number_of_bytes
    intro k hk
    rw [writeWord, if_pos ⟨Nat.le_add_right a k,by omega⟩, Nat.add_sub_cancel_left]
  have hlt : v < 256 ^ 8 := by omega
  exact hbytes.trans (Nat.mod_eq_of_lt hlt)

theorem Within.refl (m : Bytes) (a n : ℕ) : Within m m a n := fun _ _ => rfl

theorem Within.trans {m'' : Bytes} {n : ℕ} (h : Within m m' a n) (h' : Within m' m'' a n) : Within m m'' a n :=
  fun x hx => (h' x hx).trans (h x hx)

theorem Within.mono {n k : ℕ} (h : Within m m' a n) (hb : b ≤ a) (hk : a + n ≤ b + k) : Within m m' b k :=
  fun x hx => h x (by omega)

theorem writeWord_within (m : Bytes) (a v : ℕ) : Within m (m.writeWord a v) a 8 :=
  fun x hx => if_neg (by omega)

theorem Within.readWord_eq {n : ℕ} (h : Within m m' a n) (hb : Apart b 8 a n) : m'.readWord b = m.readWord b :=
  number_congr fun x hx hxn => h x (by rcases hb with hb | hb <;> omega)

theorem Within.next_eq {n : ℕ} (h : Within m m' a n) (hb : Apart b 8 a n) : m'.next b = m.next b := by
  rw [next, next, h.readWord_eq hb]

/-- A list does not see what is written apart from its links. -/
theorem Within.chained {n : ℕ} {ptr : Option ℕ} {xs : List ℕ} (h : Within m m' a n) (hc : Chained m.next ptr xs)
    (hxs : ∀ y ∈ xs, Apart y 8 a n) : Chained m'.next ptr xs := hc.congr fun y hy => h.next_eq (hxs y hy)

/-- A cell put in front. -/
theorem chained_push {head e : ℕ} {xs : List ℕ} (hc : Chained m.next (pointer head) xs) (he : e ≠ 0) (hhead : head < 2 ^ 64)
    (hxs : ∀ y ∈ xs, Apart y 8 e 8) : Chained (m.writeWord e head).next (pointer e) (e :: xs) := by
  refine ⟨pointer_of_ne he,?_⟩
  rw [next, readWord_writeWord m e hhead]
  exact (writeWord_within m e head).chained hc hxs

/-- The head of a list is one of its cells or NULL. -/
theorem chained_head {head : ℕ} {xs : List ℕ} (hc : Chained m.next (pointer head) xs) : head = xs.headD 0 := by
  cases xs with
  | nil => exact pointer_eq_none.mp hc
  | cons y ys => exact (pointer_eq_some.mp hc.1).1

end Bytes

/-! ## Places at equal distances -/

/-- `n` places from `base` on. -/
def strided (base size n : ℕ) : List ℕ := (List.range n).map fun i => base + i * size

section Strided
variable {base size n a : ℕ}

@[simp] theorem length_strided : (strided base size n).length = n := by rw [strided, List.length_map, List.length_range]

theorem strided_succ : strided base size (n + 1) = strided base size n ++ [base + n * size] := by
  rw [strided, List.range_succ, List.map_append]
  rfl

theorem mem_strided : a ∈ strided base size n ↔ ∃ i < n, base + i * size = a := by
  rw [strided, List.mem_map]
  simp only [List.mem_range]

theorem strided_inside (h : a ∈ strided base size n) : base ≤ a ∧ a + size ≤ base + n * size := by
  obtain ⟨i,hi,rfl⟩ := mem_strided.mp h
  have hmul : (i + 1) * size ≤ n * size := Nat.mul_le_mul_right size hi
  rw [Nat.succ_mul] at hmul
  omega

theorem strided_apart : (strided base size n).Pairwise fun a b => Apart a size b size := by
  rw [strided, List.pairwise_map]
  refine List.pairwise_lt_range.imp ?_
  intro i j hij
  have hmul : (i + 1) * size ≤ j * size := Nat.mul_le_mul_right size hij
  rw [Nat.succ_mul] at hmul
  exact Or.inl (by omega)

end Strided

end LogStats
