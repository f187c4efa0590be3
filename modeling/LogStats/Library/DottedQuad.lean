import LogStats.Library.Decimal
import Mathlib.Data.List.Induction
import Mathlib.Tactic.IntervalCases

/-! # Dotted decimal addresses

`inet_ntop` writes the four bytes of an address in decimal with dots between them, and
`inet_pton` takes these texts only: four numbers up to 255, in digits and without leading
zeros.
-/
namespace LogStats

/-- One of the numbers. -/
def octet (s : List UInt8) : Option UInt8 :=
  if s ≠ [] ∧ s.all isDigit ∧ (s.head? = some 48 → s.length = 1) ∧ numeral s ≤ 255 then some (UInt8.ofNat (numeral s))
  else none

/-- `inet_pton(AF_INET, s, &dst)`: the bytes at `dst`, or nothing where the answer is 0. -/
def inetPton (s : CString) : Option (Vector UInt8 4) :=
  match (s.bytes.splitOn 46).mapM octet with
  | some [a,b,c,d] => some #v[a,b,c,d]
  | _ => none

section Digits
variable {n d : ℕ} {b : UInt8} {s : List UInt8}

theorem digitBytes_of_lt (h : n < 10) : digitBytes n = [UInt8.ofNat (48 + n)] := by
  rw [digitBytes, Nat.toDigits_of_lt_base h]
  interval_cases n <;> rfl

theorem digitBytes_snoc (hn : 0 < n) (hd : d < 10) : digitBytes (10 * n + d) = digitBytes n ++ [UInt8.ofNat (48 + d)] := by
  rw [digitBytes, ← Nat.toDigits_append_toDigits (by decide) hn hd, List.map_append]
  exact congrArg (digitBytes n ++ ·) (digitBytes_of_lt hd)

theorem numeral_snoc : numeral (s ++ [b]) = 10 * numeral s + (b.toNat - 48) := by
  rw [numeral, List.foldl_append]
  rfl

theorem isDigit_eq (h : isDigit b = true) : ∃ d < 10, b = UInt8.ofNat (48 + d) ∧ b.toNat - 48 = d := by
  simp only [isDigit, Bool.and_eq_true, decide_eq_true_eq, UInt8.le_iff_toNat_le] at h
  have hlow : 48 ≤ b.toNat := h.1
  have hhigh : b.toNat ≤ 57 := h.2
  refine ⟨b.toNat - 48,by omega,?_,rfl⟩
  rw [Nat.add_sub_cancel' hlow, UInt8.ofNat_toNat]

/-- Digits without a leading zero are those of their value. -/
theorem digitBytes_numeral (hs : s ≠ []) (hdigit : ∀ b ∈ s, isDigit b = true) (hzero : s.head? = some 48 → s.length = 1) :
    digitBytes (numeral s) = s ∧ (s.head? ≠ some 48 → 0 < numeral s) := by
  induction s using List.reverseRecOn with
  | nil => exact absurd rfl hs
  | append_singleton s b ih =>
    obtain ⟨d,hd,hb,hval⟩ := isDigit_eq (hdigit b (by simp))
    rw [numeral_snoc, hval]
    by_cases hnil : s = []
    · subst hnil
      refine ⟨?_,fun hne => ?_⟩
      · rw [show 10 * numeral [] + d = d by rw [show numeral [] = 0 from rfl]; omega, digitBytes_of_lt hd, hb]
        rfl
      · rw [show numeral [] = 0 from rfl]
        have hd0 : d ≠ 0 := by
          rintro rfl
          exact hne (by rw [hb]; rfl)
        omega
    · obtain ⟨c,cs,rfl⟩ := List.exists_cons_of_ne_nil hnil
      have hhead : (c :: cs).head? ≠ some 48 := fun h => by
        have hlen := hzero (by simpa using h)
        simp at hlen
      obtain ⟨hrest,hpos⟩ := ih hnil (fun b' hb' => hdigit b' (by simp only [List.mem_append]; exact Or.inl hb'))
        (fun h => absurd h hhead)
      have hn := hpos hhead
      refine ⟨?_,fun _ => by omega⟩
      rw [digitBytes_snoc hn hd, hrest, hb]

theorem head_digitBytes (n : ℕ) : (digitBytes n).head? = some 48 → (digitBytes n).length = 1 := by
  induction n using Nat.strongRecOn with
  | ind n ih =>
    by_cases hn : n < 10
    · rw [digitBytes_of_lt hn]
      exact fun _ => rfl
    · rw [← Nat.div_add_mod n 10, digitBytes_snoc (by omega) (by omega)]
      obtain ⟨c,cs,hcs⟩ := List.exists_cons_of_ne_nil (digitBytes_ne_nil (n / 10))
      intro hhead
      have hlen := ih (n / 10) (by omega) (by rw [hcs] at hhead ⊢; exact hhead)
      rw [hcs] at hhead hlen
      obtain rfl : cs = [] := by simpa using hlen
      obtain rfl : c = 48 := by simpa using hhead
      have hzero := numeral_digitBytes (n / 10)
      rw [hcs] at hzero
      have : numeral [48] = 0 := rfl
      omega

theorem octet_eq_some : octet s = some b ↔ s = digitBytes b.toNat := by
  rw [octet]
  constructor
  · intro h
    split at h
    · rename_i hs
      obtain ⟨hne,hdigit,hzero,hle⟩ := hs
      obtain rfl := Option.some.inj h
      rw [UInt8.toNat_ofNat', Nat.mod_eq_of_lt (by omega)]
      exact (digitBytes_numeral hne (List.all_eq_true.mp hdigit) hzero).1.symm
    · cases h
  · rintro rfl
    have hlt := b.toNat_lt
    rw [if_pos ⟨digitBytes_ne_nil _,List.all_eq_true.mpr fun c hc => isDigit_of_mem hc,head_digitBytes _,by
      rw [numeral_digitBytes]; omega⟩, numeral_digitBytes, UInt8.ofNat_toNat]

theorem notMem_digitBytes {c : UInt8} (hc : isDigit c = false) : c ∉ digitBytes n := fun h => by
  rw [isDigit_of_mem h] at hc
  cases hc

theorem mapM_octet {texts : List (List UInt8)} {bytes : List UInt8} :
    texts.mapM octet = some bytes ↔ texts = bytes.map fun b => digitBytes b.toNat := by
  induction texts generalizing bytes with
  | nil => cases bytes <;> simp
  | cons s texts ih =>
    rw [List.mapM_cons]
    simp only [Option.bind_eq_bind, Option.bind_eq_some_iff, ih, octet_eq_some]
    constructor
    · rintro ⟨b,rfl,rest,rfl,hbytes⟩
      obtain rfl := Option.some.inj hbytes
      rfl
    · intro h
      cases bytes with
      | nil => cases h
      | cons b bytes =>
        obtain ⟨hs,htexts⟩ := List.cons.inj h
        exact ⟨b,hs,bytes,htexts,rfl⟩

end Digits

theorem mem_intercalate {α : Type*} {sep x : α} {ls : List (List α)} (h : x ∈ [sep].intercalate ls) :
    x = sep ∨ ∃ l ∈ ls, x ∈ l := by
  induction ls with
  | nil => cases h
  | cons l ls ih =>
    cases ls with
    | nil =>
      rw [List.intercalate_singleton] at h
      exact Or.inr ⟨l,List.mem_cons_self,h⟩
    | cons l' ls =>
      rw [List.intercalate_cons_cons, List.append_assoc, List.mem_append, List.mem_append, List.mem_singleton] at h
      rcases h with h | h | h
      · exact Or.inr ⟨l,List.mem_cons_self,h⟩
      · exact Or.inl h
      · rcases ih h with hsep | ⟨l₁,hl,hx⟩
        · exact Or.inl hsep
        · exact Or.inr ⟨l₁,List.mem_cons_of_mem _ hl,hx⟩

def quadBytes (a : Vector UInt8 4) : List UInt8 := [46].intercalate (a.toList.map fun b => digitBytes b.toNat)

theorem notMem_quadBytes {a : Vector UInt8 4} {c : UInt8} (hc : isDigit c = false) (hdot : c ≠ 46) : c ∉ quadBytes a := by
  intro h
  rcases mem_intercalate h with heq | ⟨l,hl,hin⟩
  · exact hdot heq
  · obtain ⟨b,-,rfl⟩ := List.mem_map.mp hl
    exact notMem_digitBytes hc hin

/-- `inet_ntop(AF_INET, src, ..)` -/
def inetNtop (a : Vector UInt8 4) : CString := ⟨quadBytes a,notMem_quadBytes (by decide) (by decide)⟩

section Inverse
variable {s : CString} {a : Vector UInt8 4}

theorem splitOn_quadBytes : (quadBytes a).splitOn 46 = a.toList.map fun b => digitBytes b.toNat := by
  refine List.splitOn_intercalate 46 ?_ ?_
  · intro l hl
    obtain ⟨b,-,rfl⟩ := List.mem_map.mp hl
    exact notMem_digitBytes (by decide)
  · intro h
    have hlen := congrArg List.length h
    simp at hlen

theorem exists_quad (a : Vector UInt8 4) : ∃ b₀ b₁ b₂ b₃, a.toList = [b₀,b₁,b₂,b₃] := by
  have hlen : a.toList.length = 4 := a.length_toList
  match a.toList, hlen with
  | [b₀,b₁,b₂,b₃], _ => exact ⟨b₀,b₁,b₂,b₃,rfl⟩

theorem inetPton_inetNtop (a : Vector UInt8 4) : inetPton (inetNtop a) = some a := by
  obtain ⟨b₀,b₁,b₂,b₃,hquad⟩ := exists_quad a
  have hbytes : ((inetNtop a).bytes.splitOn 46).mapM octet = some [b₀,b₁,b₂,b₃] := by
    rw [show (inetNtop a).bytes = quadBytes a from rfl, splitOn_quadBytes, mapM_octet.mpr rfl, hquad]
  rw [inetPton, hbytes]
  exact congrArg some (Vector.toList_inj.mp hquad.symm)

/-- The texts that are taken are those that are written. -/
theorem inetPton_eq_some : inetPton s = some a ↔ s = inetNtop a := by
  constructor
  · intro h
    rw [inetPton] at h
    split at h
    · rename_i b₀ b₁ b₂ b₃ hmap
      obtain rfl := Option.some.inj h
      apply CString.ext
      have hjoin := congrArg ([46].intercalate ·) (mapM_octet.mp hmap)
      simp only [List.intercalate_splitOn] at hjoin
      exact hjoin
    · cases h
  · rintro rfl
    exact inetPton_inetNtop a

/-- A buffer of 16 bytes holds the text and its terminator. -/
theorem strlen_inetNtop (a : Vector UInt8 4) : (inetNtop a).strlen ≤ 15 := by
  have hlen : ∀ b : UInt8, (digitBytes b.toNat).length ≤ 3 := by
    intro b
    have hlt := b.toNat_lt
    rw [digitBytes, List.length_map]
    exact (Nat.length_toDigits_le_iff (by decide) (by decide)).mpr (by omega)
  obtain ⟨b₀,b₁,b₂,b₃,hquad⟩ := exists_quad a
  have h₀ := hlen b₀
  have h₁ := hlen b₁
  have h₂ := hlen b₂
  have h₃ := hlen b₃
  change (quadBytes a).length ≤ 15
  rw [quadBytes, hquad]
  simp only [List.map_cons, List.map_nil, List.intercalate_cons_cons, List.intercalate_singleton, List.length_append,
    List.length_singleton]
  omega

end Inverse

end LogStats
