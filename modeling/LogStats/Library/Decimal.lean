import LogStats.Library.CString
import Mathlib.Data.Nat.Digits.Defs

/-! # Numbers in decimal, as printf writes them and atoi reads them

`strtol` stays within 64 bits, and `atoi` takes the low 32 of them.
-/
namespace LogStats

/-- `isspace` in the C locale. -/
def isSpace (b : UInt8) : Bool := b == 32 || (9 ≤ b && b ≤ 13)
def isDigit (b : UInt8) : Bool := 48 ≤ b && b ≤ 57

def numeral (bs : List UInt8) : ℕ := bs.foldl (fun n b => 10 * n + (b.toNat - 48)) 0

def clampLong (z : ℤ) : ℤ := max (-2 ^ 63) (min (2 ^ 63 - 1) z)

/-- `strtol(s, NULL, 10)` -/
def strtol (s : CString) : ℤ :=
  match s.bytes.dropWhile isSpace with
  | [] => 0
  | b :: bs =>
    if b = 45 then clampLong (-(numeral (bs.takeWhile isDigit)))
    else if b = 43 then clampLong (numeral (bs.takeWhile isDigit))
    else clampLong (numeral ((b :: bs).takeWhile isDigit))

def atoi (s : CString) : Int32 := Int32.ofInt (strtol s)

def digitBytes (n : ℕ) : List UInt8 := (Nat.toDigits 10 n).map fun c => UInt8.ofNat c.toNat

section Digits
variable {n : ℕ} {b : UInt8} {z : Int32}

theorem toDigits_range {c : Char} (hc : c ∈ Nat.toDigits 10 n) : 48 ≤ c.toNat ∧ c.toNat ≤ 57 := by
  have hdigit := Nat.isDigit_of_mem_toDigits (by decide) (by decide) hc
  simp only [Char.isDigit, Bool.and_eq_true, decide_eq_true_eq] at hdigit
  exact hdigit

theorem toNat_digitByte {c : Char} (hc : c ∈ Nat.toDigits 10 n) : (UInt8.ofNat c.toNat).toNat = c.toNat := by
  have hrange := toDigits_range hc
  rw [UInt8.toNat_ofNat']
  omega

theorem isDigit_of_mem (h : b ∈ digitBytes n) : isDigit b = true := by
  obtain ⟨c,hc,rfl⟩ := List.mem_map.mp h
  simp only [isDigit, Bool.and_eq_true, decide_eq_true_eq, UInt8.le_iff_toNat_le, toNat_digitByte hc]
  exact toDigits_range hc

theorem digitBytes_ne_nil (n : ℕ) : digitBytes n ≠ [] := by
  intro h
  exact Nat.toDigits_ne_nil (List.map_eq_nil_iff.mp h)

theorem length_digitBytes (h : n < 10 ^ 10) : (digitBytes n).length ≤ 10 := by
  rw [digitBytes, List.length_map]
  exact (Nat.length_toDigits_le_iff (by decide) (by decide)).mpr h

theorem numeral_digitBytes (n : ℕ) : numeral (digitBytes n) = n := by
  have hread := @Nat.ofDigitChars_toDigits 10 n (by decide) (by decide)
  rw [Nat.ofDigitChars_eq_foldl] at hread
  rw [numeral, digitBytes, List.foldl_map]
  refine Eq.trans (List.foldl_ext _ _ 0 ?_) hread
  intro m c hc
  rw [toNat_digitByte hc]
  rfl

theorem isDigit_ne {c : UInt8} (h : isDigit b = true) (hc : isDigit c = false) : b ≠ c := by
  rintro rfl
  rw [h] at hc
  cases hc

theorem isSpace_of_isDigit (h : isDigit b = true) : isSpace b = false := by
  have hne := isDigit_ne h (by decide : isDigit 32 = false)
  simp only [isDigit, Bool.and_eq_true, decide_eq_true_eq, UInt8.le_iff_toNat_le] at h
  have hlow : 48 ≤ b.toNat := h.1
  have hgt : ¬b ≤ 13 := by
    rw [UInt8.le_iff_toNat_le]
    change ¬b.toNat ≤ 13
    omega
  simp [isSpace, hne, hgt]

def decimalBytes (z : Int32) : List UInt8 :=
  if z.toInt < 0 then 45 :: digitBytes z.toInt.natAbs else digitBytes z.toInt.natAbs

/-- A number is a digit, or a sign and digits. -/
theorem mem_decimalBytes (h : b ∈ decimalBytes z) : b = 45 ∨ isDigit b = true := by
  unfold decimalBytes at h
  split at h
  · rcases List.mem_cons.mp h with rfl | h
    · exact Or.inl rfl
    · exact Or.inr (isDigit_of_mem h)
  · exact Or.inr (isDigit_of_mem h)

theorem notMem_decimalBytes {c : UInt8} (hc : isDigit c = false) (hsign : c ≠ 45) : c ∉ decimalBytes z := by
  intro h
  rcases mem_decimalBytes h with heq | hdigit
  · exact hsign heq
  · rw [hdigit] at hc
    cases hc

theorem length_decimalBytes (z : Int32) : (decimalBytes z).length ≤ 11 := by
  have hlow := z.le_toInt
  have hhigh := z.toInt_lt
  have hdigits := @length_digitBytes z.toInt.natAbs (by omega)
  unfold decimalBytes
  split
  · rw [List.length_cons]
    omega
  · omega

/-- `%d` -/
def decimal (z : Int32) : CString := ⟨decimalBytes z,notMem_decimalBytes (by decide) (by decide)⟩

theorem takeWhile_digitBytes (n : ℕ) : (digitBytes n).takeWhile isDigit = digitBytes n := by
  rw [List.takeWhile_eq_self_iff]
  intro b hb
  exact isDigit_of_mem hb

theorem clampLong_eq {z : ℤ} (hlow : -2 ^ 63 ≤ z) (hhigh : z < 2 ^ 63) : clampLong z = z := by
  unfold clampLong
  omega

theorem strtol_decimal (z : Int32) : strtol (decimal z) = z.toInt := by
  have hlow := z.le_toInt
  have hhigh := z.toInt_lt
  by_cases hneg : z.toInt < 0
  · have hbytes : (decimal z).bytes = 45 :: digitBytes z.toInt.natAbs := if_pos hneg
    rw [strtol, hbytes, List.dropWhile_cons_of_neg (by decide)]
    change clampLong (-(numeral ((digitBytes z.toInt.natAbs).takeWhile isDigit))) = _
    rw [takeWhile_digitBytes, numeral_digitBytes, clampLong_eq] <;> omega
  · have hbytes : (decimal z).bytes = digitBytes z.toInt.natAbs := if_neg hneg
    obtain ⟨b,bs,hcons⟩ := List.exists_cons_of_ne_nil (digitBytes_ne_nil z.toInt.natAbs)
    have hb : isDigit b = true := isDigit_of_mem (n := z.toInt.natAbs) (hcons ▸ List.mem_cons_self)
    have hspace := isSpace_of_isDigit hb
    rw [strtol, hbytes, hcons, List.dropWhile_cons_of_neg (by simp [hspace])]
    simp only [if_neg (isDigit_ne hb (by decide : isDigit 45 = false)),
      if_neg (isDigit_ne hb (by decide : isDigit 43 = false))]
    rw [← hcons, takeWhile_digitBytes, numeral_digitBytes, clampLong_eq] <;> omega

theorem atoi_decimal (z : Int32) : atoi (decimal z) = z := by
  rw [atoi, strtol_decimal, Int32.ofInt_toInt]

end Digits

end LogStats
