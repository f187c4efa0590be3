import LogStats.Containers.RadixTree
import LogStats.Library.DottedQuad
import LogStats.Server.Addr

/-! # Subnets as texts, in dig_radix_tree.c

A subnet is given as an address and a number of bits with a slash between them. The bytes
before the slash are copied to `bi_subnet`, which has 33 bytes: `none` is a copy that
writes behind them.
-/
namespace LogStats

variable {V : Type*}

def htonl (x : UInt32) : UInt32 := ntohl x

/-- The bytes of a word in the memory of the host. -/
def storeWord (x : UInt32) : Vector UInt8 4 := #v[x.toUInt8,(x >>> 8).toUInt8,(x >>> 16).toUInt8,(x >>> 24).toUInt8]

theorem zero_notMem_take (inputStr : CString) (p : ℕ) : 0 ∉ inputStr.bytes.take p :=
  fun h => inputStr.nulFree (List.mem_of_mem_take h)

/-- What is copied and terminated. -/
def biSubnet (inputStr : CString) (p : ℕ) : CString := ⟨inputStr.bytes.take p,zero_notMem_take inputStr p⟩

/-- The mask and `*key`; `some none` is the answer −1. -/
def trimBinarySubnet (inputStr : CString) : Option (Option (Int32 × BitVec 32)) :=
  match inputStr.strchr 47 with
  | none => some none
  | some p =>
    if (inputStr.drop (p + 1)).bytes.all isDigit then
      let mask := atoi (inputStr.drop (p + 1))
      if mask ≤ 0 ∨ 32 < mask then some none
      else if p < 33 then
        match inetPton (biSubnet inputStr p) with
        | none => some none
        | some myin => some (some (mask,(ntohl (loadWord myin)).toBitVec))
      else none
    else some none

/-- `result_t` with `FORMAT_ERROR`. -/
inductive SubnetResult where
  | formatError
  | tree (result : RadixResult)
deriving DecidableEq

def radixTreeInsertSubnet (malloc : Bool) (t : RadixTree V) (subnet : CString) (info : V) :
    Option (SubnetResult × RadixTree V) :=
  (trimBinarySubnet subnet).map fun trimmed =>
    match trimmed with
    | none => (.formatError,t)
    | some (mask,key) =>
      let (result,t) := radixTreeInsertNode malloc t key mask.toInt.toNat info
      (.tree result,t)

def radixTreeRemoveSubnet (t : RadixTree V) (subnet : CString) : Option (SubnetResult × RadixTree V) :=
  (trimBinarySubnet subnet).bind fun trimmed =>
    match trimmed with
    | none => some (.formatError,t)
    | some (mask,key) => (radixTreeDeleteNode t key mask.toInt.toNat).map fun (result,t) => (.tree result,t)

/-- With the steps that `radix_tree_find` may take. -/
def radixTreeFindStr (t : RadixTree V) (strip : CString) (fuel : ℕ) : Option (Option V) :=
  match inetPton strip with
  | none => some none
  | some myin => radixTreeFind t (ntohl (loadWord myin)).toBitVec fuel

/-! ## Byte order -/

theorem ntohl_htonl (x : UInt32) : ntohl (htonl x) = x := by
  apply UInt32.toBitVec_inj.mp
  apply BitVec.eq_of_getLsbD_eq
  intro i hi
  interval_cases i <;> simp [htonl, ntohl]

theorem loadWord_storeWord (x : UInt32) : loadWord (storeWord x) = x := by
  apply UInt32.toBitVec_inj.mp
  apply BitVec.eq_of_getLsbD_eq
  intro i hi
  interval_cases i <;> simp [loadWord, storeWord, -UInt32.toUInt32_toUInt8]

theorem storeWord_loadWord (a : Vector UInt8 4) : storeWord (loadWord a) = a := by
  apply Vector.ext
  intro k hk
  apply UInt8.toBitVec_inj.mp
  apply BitVec.eq_of_getLsbD_eq
  intro i hi
  interval_cases k <;> interval_cases i <;> simp [loadWord, storeWord]

/-- The bytes of an address as they are sent, from its key. -/
def keyQuad (key : BitVec 32) : Vector UInt8 4 := storeWord (htonl (UInt32.ofBitVec key))

theorem key_of_keyQuad (key : BitVec 32) : (ntohl (loadWord (keyQuad key))).toBitVec = key := by
  rw [keyQuad, loadWord_storeWord, ntohl_htonl]

theorem keyQuad_of_load (a : Vector UInt8 4) : keyQuad (ntohl (loadWord a)).toBitVec = a := by
  change storeWord (ntohl (htonl (loadWord a))) = a
  rw [ntohl_htonl, storeWord_loadWord]

/-! ## The texts that are taken -/

/-- The values that are a number of bits from 1 to 32 as an `int`: only the low 32 bits count,
and from 2^63 on a value is read as −1. -/
def MaskNumeral (n : ℕ) : Prop := n < 2 ^ 63 ∧ 1 ≤ n % 2 ^ 32 ∧ n % 2 ^ 32 ≤ 32

/-- A text names a prefix: an address in dotted decimal, a slash and digits. -/
def NamesSubnet (s : CString) (key : BitVec 32) (mask : ℕ) : Prop :=
  ∃ digits, (∀ b ∈ digits, isDigit b = true) ∧ MaskNumeral (numeral digits) ∧
    s.bytes = (inetNtop (keyQuad key)).bytes ++ 47 :: digits ∧ mask = numeral digits % 2 ^ 32

/-- There is more before the first slash than `bi_subnet` takes. -/
def OverrunsSubnet (s : CString) : Prop :=
  ∃ front digits, (∀ b ∈ digits, isDigit b = true) ∧ MaskNumeral (numeral digits) ∧
    s.bytes = front ++ 47 :: digits ∧ (47 : UInt8) ∉ front ∧ 33 ≤ front.length

section Trim
variable {s : CString} {front digits : List UInt8} {mask : Int32} {key : BitVec 32} {n : ℕ}

theorem atoi_digits (hdigits : ∀ b ∈ s.bytes, isDigit b = true) : atoi s = Int32.ofInt (clampLong (numeral s.bytes)) := by
  rw [atoi, strtol]
  cases hs : s.bytes with
  | nil => rfl
  | cons b bs =>
    rw [hs] at hdigits
    have hb := hdigits b List.mem_cons_self
    rw [List.dropWhile_cons_of_neg (by simp [isSpace_of_isDigit hb])]
    simp only [if_neg (isDigit_ne hb (by decide : isDigit 45 = false)),
      if_neg (isDigit_ne hb (by decide : isDigit 43 = false))]
    rw [List.takeWhile_eq_self_iff.mpr hdigits]

/-- What a number is as an `int`, in 32 bits with a sign. -/
theorem toInt_digits (n : ℕ) : (Int32.ofInt (clampLong n)).toInt = if n < 2 ^ 63 then Int.bmod n (2 ^ 32) else -1 := by
  rw [Int32.toInt_ofInt]
  split
  · rw [clampLong_eq (by omega) (by omega)]
    rfl
  · rw [clampLong, show max (-2 ^ 63) (min (2 ^ 63 - 1) (n : ℤ)) = 2 ^ 63 - 1 by omega]
    rfl

theorem mask_refused : (Int32.ofInt (clampLong n) ≤ 0 ∨ 32 < Int32.ofInt (clampLong n)) ↔ ¬MaskNumeral n := by
  rw [Int32.le_iff_toInt_le, Int32.lt_iff_toInt_lt, toInt_digits, MaskNumeral]
  change _ ≤ (0 : ℤ) ∨ (32 : ℤ) < _ ↔ _
  split
  · rw [Int.bmod_def]
    omega
  · omega

theorem mask_taken (h : MaskNumeral n) : Int32.ofInt (clampLong n) = Int32.ofNat (n % 2 ^ 32) := by
  obtain ⟨hlt,hlow,hhigh⟩ := h
  apply Int32.toInt_inj.mp
  rw [toInt_digits, if_pos hlt, Int32.toInt_ofNat_of_lt (by omega), Int.bmod_def]
  omega

theorem drop_split (hs : s.bytes = front ++ 47 :: digits) : (s.drop (front.length + 1)).bytes = digits := by
  change s.bytes.drop (front.length + 1) = digits
  rw [hs, ← List.drop_drop, List.drop_left]
  rfl

/-- What follows from where the first slash stands. -/
theorem trim_split (hs : s.bytes = front ++ 47 :: digits) (hfront : (47 : UInt8) ∉ front) :
    (((∀ b ∈ digits, isDigit b = true) ∧ MaskNumeral (numeral digits)) → trimBinarySubnet s =
      if front.length < 33 then some ((inetPton (biSubnet s front.length)).map fun myin =>
        (Int32.ofInt (clampLong (numeral digits)),(ntohl (loadWord myin)).toBitVec)) else none) ∧
    (¬((∀ b ∈ digits, isDigit b = true) ∧ MaskNumeral (numeral digits)) → trimBinarySubnet s = some none) := by
  have hdrop := drop_split hs
  rw [trimBinarySubnet, CString.strchr_split hs hfront]
  simp only [hdrop, List.all_eq_true]
  by_cases hdigits : ∀ b ∈ digits, isDigit b = true
  · have hatoi := atoi_digits (s := s.drop (front.length + 1)) (by rwa [hdrop])
    rw [hdrop] at hatoi
    rw [if_pos hdigits, hatoi]
    constructor
    · rintro ⟨-,hmask⟩
      rw [if_neg (not_not_intro hmask ∘ mask_refused.mp)]
      cases inetPton (biSubnet s front.length) <;> rfl
    · intro hnot
      rw [if_pos (mask_refused.mpr fun hmask => hnot ⟨hdigits,hmask⟩)]
  · exact ⟨fun h => absurd h.1 hdigits,fun _ => if_neg hdigits⟩

theorem slash_notMem (a : Vector UInt8 4) : (47 : UInt8) ∉ (inetNtop a).bytes :=
  notMem_quadBytes (by decide) (by decide)

theorem biSubnet_split (hs : s.bytes = front ++ 47 :: digits) : (biSubnet s front.length).bytes = front := by
  change s.bytes.take front.length = front
  rw [hs, List.take_left]

theorem trim_names {mask : ℕ} (h : NamesSubnet s key mask) :
    trimBinarySubnet s = some (some (Int32.ofNat mask,key)) ∧ 1 ≤ mask ∧ mask ≤ 32 := by
  obtain ⟨digits,hdigits,hmask,hs,rfl⟩ := h
  have hlen : (inetNtop (keyQuad key)).bytes.length ≤ 15 := strlen_inetNtop (keyQuad key)
  have hcopy : biSubnet s (inetNtop (keyQuad key)).bytes.length = inetNtop (keyQuad key) := CString.ext (biSubnet_split hs)
  refine ⟨?_,hmask.2⟩
  rw [(trim_split hs (slash_notMem _)).1 ⟨hdigits,hmask⟩, if_pos (by omega), hcopy, inetPton_inetNtop, Option.map_some,
    key_of_keyQuad, mask_taken hmask]

/-- Without a slash there is no prefix. -/
theorem trim_cases (s : CString) : trimBinarySubnet s = some none ∨
    ∃ front digits, s.bytes = front ++ 47 :: digits ∧ (47 : UInt8) ∉ front ∧ (∀ b ∈ digits, isDigit b = true) ∧
      MaskNumeral (numeral digits) ∧ trimBinarySubnet s =
        if front.length < 33 then some ((inetPton (biSubnet s front.length)).map fun myin =>
          (Int32.ofInt (clampLong (numeral digits)),(ntohl (loadWord myin)).toBitVec)) else none := by
  by_cases hslash : (47 : UInt8) ∈ s.bytes
  · obtain ⟨front,digits,hs,hfront⟩ := List.eq_append_cons_of_mem hslash
    obtain ⟨htaken,hrefused⟩ := trim_split hs hfront
    by_cases hmask : (∀ b ∈ digits, isDigit b = true) ∧ MaskNumeral (numeral digits)
    · exact Or.inr ⟨front,digits,hs,hfront,hmask.1,hmask.2,htaken hmask⟩
    · exact Or.inl (hrefused hmask)
  · left
    have hnone : s.strchr 47 = none := by
      rw [CString.strchr, List.findIdx?_eq_none_iff]
      intro b hb
      simpa using fun heq : b = 47 => hslash (heq ▸ hb)
    rw [trimBinarySubnet, hnone]

theorem trim_eq_some : trimBinarySubnet s = some (some (mask,key)) ↔ ∃ n, mask = Int32.ofNat n ∧ NamesSubnet s key n := by
  constructor
  · intro h
    rcases trim_cases s with hnone | ⟨front,digits,hs,-,hdigits,hmask,htrim⟩
    · rw [hnone] at h
      cases h
    · rw [htrim] at h
      split at h
      · obtain ⟨myin,hmyin,heq⟩ := Option.map_eq_some_iff.mp (Option.some.inj h)
        obtain ⟨rfl,rfl⟩ := Prod.mk.inj heq
        have hcopy := congrArg CString.bytes (inetPton_eq_some.mp hmyin)
        rw [biSubnet_split hs] at hcopy
        exact ⟨_,mask_taken hmask,digits,hdigits,hmask,by rw [keyQuad_of_load, ← hcopy, hs],rfl⟩
      · cases h
  · rintro ⟨n,rfl,hnames⟩
    exact (trim_names hnames).1

theorem trim_eq_none : trimBinarySubnet s = none ↔ OverrunsSubnet s := by
  constructor
  · intro h
    rcases trim_cases s with hnone | ⟨front,digits,hs,hfront,hdigits,hmask,htrim⟩
    · rw [hnone] at h
      cases h
    · rw [htrim] at h
      split at h
      · cases h
      · exact ⟨front,digits,hdigits,hmask,hs,hfront,by omega⟩
  · rintro ⟨front,digits,hdigits,hmask,hs,hfront,hlen⟩
    rw [(trim_split hs hfront).1 ⟨hdigits,hmask⟩, if_neg (by omega)]

theorem not_overruns (h : s.strlen ≤ 33) : ¬OverrunsSubnet s := by
  rintro ⟨front,digits,-,-,hs,-,hlen⟩
  rw [CString.strlen, hs, List.length_append, List.length_cons] at h
  omega

end Trim

/-- A text is taken as a prefix where it names one, and only there; the copy goes over the end of
`bi_subnet` where there is too much before the slash and the number of bits is let through. -/
theorem trimBinarySubnet_iff (s : CString) :
    (∀ mask key, trimBinarySubnet s = some (some (mask,key)) ↔ ∃ n, mask = Int32.ofNat n ∧ NamesSubnet s key n) ∧
    (trimBinarySubnet s = none ↔ OverrunsSubnet s) := ⟨fun _ _ => trim_eq_some,trim_eq_none⟩

end LogStats
