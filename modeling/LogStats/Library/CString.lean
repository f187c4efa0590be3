import Mathlib.Data.List.Lex
import Mathlib.Data.List.TakeWhile
import Mathlib.Tactic.Linarith

/-! # NUL-terminated strings and the fields that hold them

A string is the list of its bytes before the terminator. Fields are byte lists;
copying a string writes its bytes and one NUL over the front of the field, and
reading stops at the first NUL. Little-endian images of integers are included
because a copy may run over the end of its field into the one behind it.
-/
namespace LogStats

structure CString where
  bytes : List UInt8
  nulFree : (0 : UInt8) ∉ bytes

namespace CString

@[ext] theorem ext {s t : CString} (h : s.bytes = t.bytes) : s = t := by
  cases s; cases t; cases h; rfl

instance : DecidableEq CString := fun s t => decidable_of_iff (s.bytes = t.bytes) ⟨ext, congrArg bytes⟩

def strlen (s : CString) : ℕ := s.bytes.length

def append (s t : CString) : CString where
  bytes := s.bytes ++ t.bytes
  nulFree h := (List.mem_append.mp h).elim s.nulFree t.nulFree

instance : Append CString := ⟨append⟩

@[simp] theorem bytes_append (s t : CString) : (s ++ t).bytes = s.bytes ++ t.bytes := rfl
@[simp] theorem strlen_append (s t : CString) : (s ++ t).strlen = s.strlen + t.strlen :=
  List.length_append

theorem append_left_cancel {s t u : CString} (h : s ++ t = s ++ u) : t = u :=
  ext (List.append_cancel_left (congrArg bytes h))
theorem append_right_cancel {s t u : CString} (h : s ++ u = t ++ u) : s = t :=
  ext (List.append_cancel_right (congrArg bytes h))

/-- The string that starts `n` bytes behind the first. -/
def drop (s : CString) (n : ℕ) : CString where
  bytes := s.bytes.drop n
  nulFree h := s.nulFree (List.mem_of_mem_drop h)

/-- Where a byte stands first. -/
def strchr (s : CString) (b : UInt8) : Option ℕ := s.bytes.findIdx? (· == b)

theorem strchr_split {s : CString} {b : UInt8} {front rest : List UInt8} (h : s.bytes = front ++ b :: rest)
    (hb : b ∉ front) : s.strchr b = some front.length := by
  rw [strchr, h, List.findIdx?_append, List.findIdx?_eq_none_iff.mpr]
  · simp [List.findIdx?_cons]
  · intro c hc
    have hne : c ≠ b := fun he => hb (he ▸ hc)
    simpa using hne

/-- A string is cut in two where a byte that is not in the first part stands. -/
theorem append_sep_cancel {s t u w sep : CString} {b : UInt8} (hsep : sep.bytes = [b]) (hs : b ∉ s.bytes)
    (ht : b ∉ t.bytes) (h : s ++ sep ++ u = t ++ sep ++ w) : s = t ∧ u = w := by
  have hcut : ∀ x y : CString, b ∉ x.bytes → (x ++ sep ++ y).bytes.takeWhile (· != b) = x.bytes := by
    intro x y hx
    have hall : ∀ c ∈ x.bytes, (c != b) = true := by
      intro c hc
      have hne : c ≠ b := fun he => hx (he ▸ hc)
      simpa using hne
    simp only [bytes_append, hsep, List.append_assoc, List.cons_append, List.nil_append]
    rw [List.takeWhile_append_of_pos hall]
    simp
  obtain rfl : s = t := ext (by rw [← hcut s u hs, h, hcut t w ht])
  exact ⟨rfl,append_left_cancel h⟩

/-- Strings are ordered by their bytes, taken as unsigned numbers. -/
def code (s : CString) : List ℕ := s.bytes.map UInt8.toNat

theorem code_injective : Function.Injective code := fun _ _ h =>
  ext (List.map_injective_iff.mpr (fun _ _ => UInt8.toNat_inj.mp) h)

instance : LinearOrder CString := LinearOrder.lift' code code_injective

theorem lt_iff (s t : CString) : s < t ↔ s.code < t.code := Iff.rfl

/-- The sign of `strcmp`: the difference of the first bytes that differ. -/
def strcmpBytes : List UInt8 → List UInt8 → ℤ
  | [], [] => 0
  | [], b :: _ => -(b.toNat : ℤ)
  | a :: _, [] => a.toNat
  | a :: s, b :: t => if a = b then strcmpBytes s t else (a.toNat : ℤ) - b.toNat

def strcmp (s t : CString) : ℤ := strcmpBytes s.bytes t.bytes

private theorem toNat_pos {b : UInt8} (h : (0 : UInt8) ≠ b) : 0 < b.toNat := by
  rcases Nat.eq_zero_or_pos b.toNat with hz | hp
  · exact absurd (UInt8.toNat_inj.mp (hz.trans UInt8.toNat_zero.symm)).symm h
  · exact hp

private theorem strcmpBytes_spec (s t : List UInt8) (hs : (0 : UInt8) ∉ s) (ht : (0 : UInt8) ∉ t) :
    (strcmpBytes s t < 0 ↔ s.map UInt8.toNat < t.map UInt8.toNat) ∧ (strcmpBytes s t = 0 ↔ s = t) ∧
      (0 < strcmpBytes s t ↔ t.map UInt8.toNat < s.map UInt8.toNat) := by
  induction s generalizing t with
  | nil =>
    cases t with
    | nil => simp [strcmpBytes]
    | cons b t =>
      have hb := toNat_pos (fun h => ht (h ▸ List.mem_cons_self))
      simp only [strcmpBytes, List.map_nil, List.map_cons, List.nil_lt_cons, List.not_lt_nil]
      refine ⟨⟨fun _ => trivial,fun _ => by omega⟩,⟨fun h => by omega,fun h => by cases h⟩,
        ⟨fun h => by omega,False.elim⟩⟩
  | cons a s ih =>
    cases t with
    | nil =>
      have ha := toNat_pos (fun h => hs (h ▸ List.mem_cons_self))
      simp only [strcmpBytes, List.map_nil, List.map_cons, List.nil_lt_cons, List.not_lt_nil]
      refine ⟨⟨fun h => by omega,False.elim⟩,⟨fun h => by omega,fun h => by cases h⟩,
        ⟨fun _ => trivial,fun _ => by omega⟩⟩
    | cons b t =>
      have h := ih t (fun h => hs (List.mem_cons_of_mem _ h)) (fun h => ht (List.mem_cons_of_mem _ h))
      simp only [strcmpBytes, List.map_cons, List.cons_lt_cons_iff, List.cons.injEq]
      by_cases hab : a = b
      · subst hab
        simpa using h
      · have hne : a.toNat ≠ b.toNat := fun hn => hab (UInt8.toNat_inj.mp hn)
        simp only [hab, ↓reduceIte, false_and, hne, hne.symm, or_false]
        exact ⟨by omega,⟨fun h => by omega,False.elim⟩,by omega⟩

theorem strcmp_neg (s t : CString) : strcmp s t < 0 ↔ s < t :=
  (strcmpBytes_spec s.bytes t.bytes s.nulFree t.nulFree).1
theorem strcmp_eq_zero (s t : CString) : strcmp s t = 0 ↔ s = t :=
  (strcmpBytes_spec s.bytes t.bytes s.nulFree t.nulFree).2.1.trans ⟨ext,congrArg bytes⟩
theorem strcmp_pos (s t : CString) : 0 < strcmp s t ↔ t < s :=
  (strcmpBytes_spec s.bytes t.bytes s.nulFree t.nulFree).2.2

private theorem append_one_le (s n : List ℕ) (hn : 0 ∉ n) (h : s < n) : s ++ [1] ≤ n := by
  induction s generalizing n with
  | nil =>
    cases n with
    | nil => exact absurd h (List.not_lt_nil _)
    | cons b n =>
      have hb : b ≠ 0 := fun he => hn (he ▸ List.mem_cons_self)
      rcases Nat.lt_or_ge 1 b with hlt | hge
      · exact le_of_lt (List.cons_lt_cons_iff.mpr (Or.inl hlt))
      · obtain rfl : b = 1 := by omega
        cases n with
        | nil => exact le_rfl
        | cons c n => exact le_of_lt (List.cons_lt_cons_iff.mpr (Or.inr ⟨rfl,List.nil_lt_cons c n⟩))
  | cons a s ih =>
    cases n with
    | nil => exact absurd h (List.not_lt_nil _)
    | cons b n =>
      rcases List.cons_lt_cons_iff.mp h with hlt | ⟨rfl,hlt⟩
      · exact le_of_lt (List.cons_lt_cons_iff.mpr (Or.inl hlt))
      · rcases lt_or_eq_of_le (ih n (fun hm => hn (List.mem_cons_of_mem _ hm)) hlt) with hs | hs
        · exact le_of_lt (List.cons_lt_cons_iff.mpr (Or.inr ⟨rfl,hs⟩))
        · exact le_of_eq (congrArg (a :: ·) hs)

theorem zero_not_mem_code (s : CString) : 0 ∉ s.code := by
  intro h
  obtain ⟨b,hb,hz⟩ := List.mem_map.mp h
  exact (toNat_pos (fun he => s.nulFree (he ▸ hb))).ne' hz

/-- The string with the byte 1 added is the next one. -/
theorem covers_append_one {s s' : CString} (h : s'.bytes = s.bytes ++ [1]) :
    s < s' ∧ ∀ n : CString, s < n → s' ≤ n := by
  have hcode : s'.code = s.code ++ [1] := by simp [code, h]
  have hle : ∀ n : CString, s < n → s' ≤ n := by
    intro n hn
    apply not_lt.mp
    intro hlt
    have hone := append_one_le s.code n.code n.zero_not_mem_code ((lt_iff s n).mp hn)
    exact absurd ((lt_iff n s').mp hlt) (not_lt.mpr (hcode ▸ hone))
  refine ⟨(lt_iff s s').mpr ?_,hle⟩
  rw [hcode]
  induction s.code with
  | nil => exact List.nil_lt_cons 1 []
  | cons a l ih => exact List.cons_lt_cons_iff.mpr (Or.inr ⟨rfl,ih⟩)

/-- The string a reader of this memory sees: everything before the first NUL. -/
def read (buffer : List UInt8) : CString where
  bytes := buffer.takeWhile (· != 0)
  nulFree h := by
    have hzero := List.mem_takeWhile_imp h
    simp at hzero

/-- Copying writes the bytes and the terminator over the front of the memory. -/
def write (s : CString) (buffer : List UInt8) : List UInt8 :=
  s.bytes ++ 0 :: buffer.drop (s.strlen + 1)

private theorem takeWhile_self (s : CString) (rest : List UInt8) :
    (s.bytes ++ 0 :: rest).takeWhile (· != 0) = s.bytes := by
  rw [List.takeWhile_append_of_pos]
  · simp
  · intro b hb
    have hne : b ≠ 0 := fun h => s.nulFree (h ▸ hb)
    simpa using hne

@[simp] theorem read_bytes_append (s : CString) (rest : List UInt8) :
    read (s.bytes ++ 0 :: rest) = s := ext (takeWhile_self s rest)

@[simp] theorem read_bytes (s : CString) : read s.bytes = s := by
  apply ext
  rw [read, List.takeWhile_eq_self_iff]
  intro b hb
  have hne : b ≠ 0 := fun h => s.nulFree (h ▸ hb)
  simpa using hne

@[simp] theorem read_write (s : CString) (buffer : List UInt8) : read (s.write buffer) = s :=
  read_bytes_append s _

/-- Once a field holds a NUL, what lies behind it is never read. -/
theorem read_append_of_nul {field : List UInt8} (h : (0 : UInt8) ∈ field) (rest : List UInt8) :
    read (field ++ rest) = read field := by
  apply ext
  simp only [read, List.takeWhile_append]
  rw [if_neg]
  intro hlen
  have hall : field.takeWhile (· != 0) = field := (List.takeWhile_prefix _).eq_of_length hlen
  have hzero := List.takeWhile_eq_self_iff.mp hall 0 h
  simp at hzero

end CString

/-- The `k` bytes of an unsigned integer, least significant first. -/
def leBytes : ℕ → ℕ → List UInt8
  | 0, _ => []
  | k + 1, n => UInt8.ofNat n :: leBytes k (n / 256)

def ofLeBytes : List UInt8 → ℕ
  | [] => 0
  | b :: bs => b.toNat + 256 * ofLeBytes bs

@[simp] theorem length_leBytes (k n : ℕ) : (leBytes k n).length = k := by
  induction k generalizing n with
  | zero => rfl
  | succ k ih => simp [leBytes, ih]

theorem leBytes_ofLeBytes (bs : List UInt8) : leBytes bs.length (ofLeBytes bs) = bs := by
  induction bs with
  | nil => rfl
  | cons b bs ih =>
    have hb := b.toNat_lt
    have hdiv : (b.toNat + 256 * ofLeBytes bs) / 256 = ofLeBytes bs := by omega
    have hmod : UInt8.ofNat (b.toNat + 256 * ofLeBytes bs) = b := by
      apply UInt8.toNat_inj.mp
      simp only [UInt8.toNat_ofNat']
      omega
    simp only [List.length_cons, ofLeBytes, leBytes, hdiv, hmod, ih]

theorem ofLeBytes_lt (bs : List UInt8) : ofLeBytes bs < 256 ^ bs.length := by
  induction bs with
  | nil => simp [ofLeBytes]
  | cons b bs ih =>
    have hb := b.toNat_lt
    simp only [ofLeBytes, List.length_cons, Nat.pow_succ]
    omega

end LogStats
