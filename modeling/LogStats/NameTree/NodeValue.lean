import LogStats.Library.CString

/-! # The node of a name tree, byte by byte

`fqdn` has 32 bytes and `count`, `heap_index` and `ptr` follow it, so that a name
copied into it may run into `count`, and a name without a NUL in `fqdn` is read on
from there.
-/
namespace LogStats

def maxNameLen : ℕ := 32

structure NodeValue where
  fqdn : List UInt8
  count : UInt32
  heapIndex : ℤ
  ptr : ℕ
  fqdn_length : fqdn.length = maxNameLen

/-! ## Dot-terminated names -/

def dot : CString := ⟨[46],by decide⟩

/-- `name_end_with_dot`, which asserts that the name is not empty. -/
def nameEndWithDot (name : CString) : Option Bool := name.bytes.getLast?.map (· == 46)

/-- What `strcpy` and `strcat` leave in the field. -/
def dotted (name : CString) : Option CString :=
  (nameEndWithDot name).map fun endWithDot => if endWithDot then name else name ++ dot

theorem dotted_eq_none {name : CString} : dotted name = none ↔ name.strlen = 0 := by
  simp [dotted, nameEndWithDot, CString.strlen]

theorem dotted_cases {name s : CString} (h : dotted name = some s) :
    s = name ∨ (s = name ++ dot ∧ s.strlen = name.strlen + 1) := by
  obtain ⟨e,-,he⟩ := Option.map_eq_some_iff.mp h
  cases e with
  | true => exact Or.inl (by simpa using he.symm)
  | false =>
    obtain rfl : name ++ dot = s := by simpa using he
    exact Or.inr ⟨rfl,by simp [dot, CString.strlen]⟩

theorem dotted_getLast {name s : CString} (h : dotted name = some s) : s.bytes.getLast? = some 46 := by
  obtain ⟨e,he,hs⟩ := Option.map_eq_some_iff.mp h
  obtain ⟨b,hb,hbe⟩ := Option.map_eq_some_iff.mp he
  cases e with
  | true =>
    obtain rfl : name = s := by simpa using hs
    obtain rfl : b = 46 := by simpa using hbe
    exact hb
  | false =>
    obtain rfl : name ++ dot = s := by simpa using hs
    simp [dot]

theorem dotted_of_getLast {s : CString} (h : s.bytes.getLast? = some 46) : dotted s = some s := by
  simp [dotted, nameEndWithDot, h]

theorem dotted_dotted {name s : CString} (h : dotted name = some s) : dotted s = some s :=
  dotted_of_getLast (dotted_getLast h)

theorem dotted_strlen_le {name s : CString} (h : dotted name = some s) (hn : name.strlen < maxNameLen) :
    s.strlen ≤ maxNameLen := by
  rcases dotted_cases h with rfl | ⟨-,hs⟩ <;> omega

/-! ## The field and what lies behind it -/

namespace NodeValue

def image (nv : NodeValue) : List UInt8 :=
  (nv.fqdn ++ leBytes 4 nv.count.toNat) ++ (leBytes 4 (nv.heapIndex % 2 ^ 32).toNat ++ leBytes 8 nv.ptr)

/-- The string that starts at `fqdn`. -/
def name (nv : NodeValue) : CString := CString.read nv.image

/-- Write a string at `fqdn`: at most its last bytes reach `count`. -/
def setFqdn (nv : NodeValue) (s : CString) : NodeValue where
  fqdn := (s.write nv.image).take maxNameLen
  count := UInt32.ofNat (ofLeBytes (((s.write nv.image).drop maxNameLen).take 4))
  heapIndex := nv.heapIndex
  ptr := nv.ptr
  fqdn_length := by
    have hlen := nv.fqdn_length
    simp only [CString.write, CString.strlen, image, maxNameLen, List.length_take, List.length_append, List.length_cons,
      List.length_drop, length_leBytes] at hlen ⊢
    omega

/-- The pool links its free elements through their first eight bytes. -/
def setNext (nv : NodeValue) (next : ℕ) : NodeValue where
  fqdn := leBytes 8 next ++ nv.fqdn.drop 8
  count := nv.count
  heapIndex := nv.heapIndex
  ptr := nv.ptr
  fqdn_length := by
    have hlen := nv.fqdn_length
    simp only [maxNameLen, List.length_append, List.length_drop, length_leBytes] at hlen ⊢
    omega

@[simp] theorem setNext_heapIndex (nv : NodeValue) (next : ℕ) : (nv.setNext next).heapIndex = nv.heapIndex := rfl
@[simp] theorem setNext_count (nv : NodeValue) (next : ℕ) : (nv.setNext next).count = nv.count := rfl

/-- The name ends inside the field. -/
def Fits (nv : NodeValue) : Prop := (0 : UInt8) ∈ nv.fqdn

instance (nv : NodeValue) : Decidable nv.Fits := inferInstanceAs (Decidable (_ ∈ _))

theorem Fits.name_eq {nv : NodeValue} (h : nv.Fits) : nv.name = CString.read nv.fqdn := by
  rw [name, image, List.append_assoc]
  exact CString.read_append_of_nul h _

theorem name_congr {nv nv' : NodeValue} (hf : nv'.fqdn = nv.fqdn) (hc : nv'.count = nv.count)
    (h : (0 : UInt8) ∈ nv.fqdn ++ leBytes 4 nv.count.toNat) : nv'.name = nv.name := by
  rw [name, image, name, image, CString.read_append_of_nul h, hf, hc, CString.read_append_of_nul h]

theorem Fits.name_congr {nv nv' : NodeValue} (h : nv.Fits) (hf : nv'.fqdn = nv.fqdn) : nv'.name = nv.name := by
  have h' : nv'.Fits := by rw [Fits, hf]; exact h
  rw [h.name_eq, h'.name_eq, hf]

/-- A name without a NUL in the field is read on into `count`. -/
theorem name_eq_of_not_fits {nv : NodeValue} (h : ¬nv.Fits) :
    ∃ rest, nv.name.bytes = nv.fqdn ++ rest ∧
      rest = (leBytes 4 nv.count.toNat ++ (leBytes 4 (nv.heapIndex % 2 ^ 32).toNat ++ leBytes 8 nv.ptr)).takeWhile
        (· != 0) := by
  refine ⟨_,?_,rfl⟩
  rw [name, image, List.append_assoc, CString.read]
  apply List.takeWhile_append_of_pos
  intro b hb
  have hne : b ≠ 0 := by
    rintro rfl
    exact h hb
  simpa using hne

theorem strlen_lt_iff (nv : NodeValue) : nv.name.strlen < maxNameLen ↔ nv.Fits := by
  constructor
  · intro hlt
    by_contra h
    obtain ⟨rest,hb,-⟩ := name_eq_of_not_fits h
    have hlen := nv.fqdn_length
    rw [CString.strlen, hb, List.length_append] at hlt
    omega
  · intro h
    have hlen := nv.fqdn_length
    rw [h.name_eq, CString.strlen, CString.read]
    apply lt_of_le_of_ne (hlen ▸ (List.takeWhile_prefix _).length_le)
    intro he
    have hall := (List.takeWhile_prefix (p := (· != (0 : UInt8))) (l := nv.fqdn)).eq_of_length (he.trans hlen.symm)
    have hzero := List.takeWhile_eq_self_iff.mp hall 0 h
    simp at hzero

theorem setFqdn_fits (nv : NodeValue) {s : CString} (hs : s.strlen < maxNameLen) :
    (nv.setFqdn s).Fits ∧ CString.read (nv.setFqdn s).fqdn = s := by
  have hsplit : (nv.setFqdn s).fqdn = s.bytes ++ 0 :: ((nv.image.drop (s.strlen + 1)).take (31 - s.strlen)) := by
    have hlen : maxNameLen - s.bytes.length = (31 - s.strlen) + 1 := by
      simp only [maxNameLen, CString.strlen] at hs ⊢
      omega
    simp only [setFqdn, CString.write]
    rw [List.take_append, List.take_of_length_le (show s.bytes.length ≤ maxNameLen from hs.le), hlen,
      List.take_succ_cons]
  refine ⟨?_,by rw [hsplit, CString.read_bytes_append]⟩
  rw [Fits, hsplit]
  exact List.mem_append_right _ List.mem_cons_self

/-- A name of 32 bytes fills the field and its terminator is outside. -/
theorem setFqdn_overlong (nv : NodeValue) {s : CString} (hs : s.strlen = maxNameLen) :
    (nv.setFqdn s).fqdn = s.bytes := by
  simp only [setFqdn, CString.write]
  rw [← show s.bytes.length = maxNameLen from hs, List.take_left]

/-- With `count` zero the terminator is still there. -/
theorem name_of_count_zero {nv : NodeValue} (h : ¬nv.Fits) (hc : nv.count = 0) : nv.name.bytes = nv.fqdn := by
  obtain ⟨rest,hb,hr⟩ := name_eq_of_not_fits h
  rw [hb, hr, hc]
  simp [leBytes]

/-- With `count` one the name is a byte longer than what was written. -/
theorem name_of_count_one {nv : NodeValue} (h : ¬nv.Fits) (hc : nv.count = 1) :
    nv.name.bytes = nv.fqdn ++ [1] := by
  obtain ⟨rest,hb,hr⟩ := name_eq_of_not_fits h
  rw [hb, hr, hc]
  simp [leBytes]

end NodeValue

end LogStats
