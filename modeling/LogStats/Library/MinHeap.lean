import Mathlib.Data.List.Perm.Basic
import Mathlib.Data.List.Nodup
import Mathlib.Data.List.Range
import Mathlib.Logic.Equiv.Basic
import Mathlib.Tactic.Linarith

/-! # Array heaps with a hole

A comparison returns an integer whose sign is what counts, as in C. An array is a
function on the indices, of which the first `n` matter. Sifting keeps an element
in hand and moves a hole, so the facts below are about an array, a hole `i` and
the element `e` in hand; `Function.update arr i e` is the array they stand for.
-/
namespace LogStats

variable {α : Type*}

/-- A comparison that orders the elements of `S`; of others nothing is known. -/
structure TotalPreorderOn (S : α → Prop) (cmp : α → α → ℤ) : Prop where
  pos_iff : ∀ a b, S a → S b → (0 < cmp a b ↔ cmp b a < 0)
  trans : ∀ a b c, S a → S b → S c → cmp a b ≤ 0 → cmp b c ≤ 0 → cmp a c ≤ 0

namespace TotalPreorderOn

variable {S : α → Prop} {cmp : α → α → ℤ} (hc : TotalPreorderOn S cmp)
include hc

theorem refl {a : α} (ha : S a) : cmp a a ≤ 0 := by
  have := hc.pos_iff a a ha ha
  omega

/-- What does not compare at most equal compares greater, and the other way round less. -/
theorem le_of_pos {a b : α} (ha : S a) (hb : S b) (h : 0 < cmp a b) : cmp b a ≤ 0 :=
  ((hc.pos_iff a b ha hb).mp h).le

end TotalPreorderOn

/-- Integers compared by their difference. -/
theorem sub_preorder (S : ℤ → Prop) : TotalPreorderOn S (fun a b => a - b) where
  pos_iff a b _ _ := by omega
  trans a b c _ _ _ hab hbc := by omega

/-! ## The entries of an array -/

def entries (arr : ℕ → α) (n : ℕ) : List α := (List.range n).map arr

@[simp] theorem length_entries (arr : ℕ → α) (n : ℕ) : (entries arr n).length = n := by simp [entries]

theorem mem_entries {arr : ℕ → α} {n : ℕ} {a : α} : a ∈ entries arr n ↔ ∃ k < n, arr k = a := by
  simp [entries]

theorem entries_congr {arr arr' : ℕ → α} {n : ℕ} (h : ∀ k < n, arr k = arr' k) :
    entries arr n = entries arr' n :=
  List.map_congr_left (fun k hk => h k (List.mem_range.mp hk))

theorem entries_succ (arr : ℕ → α) (n : ℕ) : entries arr (n + 1) = entries arr n ++ [arr n] := by
  simp [entries, List.range_succ]

/-- Rearranging a prefix rearranges the array. -/
theorem entries_perm_of_front {arr arr' : ℕ → α} {n len : ℕ} (hp : (entries arr len).Perm (entries arr' len))
    (hn : len ≤ n) (h : ∀ k, len ≤ k → arr k = arr' k) : (entries arr n).Perm (entries arr' n) := by
  induction n, hn using Nat.le_induction with
  | base => exact hp
  | succ n hn ih =>
    rw [entries_succ, entries_succ, h n hn]
    exact ih.append_right _

theorem entries_nodup_iff {arr : ℕ → α} {n : ℕ} :
    (entries arr n).Nodup ↔ ∀ i < n, ∀ j < n, arr i = arr j → i = j := by
  rw [entries, List.nodup_map_iff_inj_on List.nodup_range]
  simp only [List.mem_range]

private theorem map_swap_perm {n i j : ℕ} (hi : i < n) (hj : j < n) :
    ((List.range n).map (Equiv.swap i j)).Perm (List.range n) := by
  refine (List.perm_ext_iff_of_nodup ?_ List.nodup_range).mpr ?_
  · exact List.nodup_range.map (Equiv.swap i j).injective
  · intro k
    have hlt : ∀ k, k < n → Equiv.swap i j k < n := by
      intro k hk
      rw [Equiv.swap_apply_def]
      split_ifs <;> assumption
    constructor
    · intro h
      obtain ⟨k',hk',rfl⟩ := List.mem_map.mp h
      exact List.mem_range.mpr (hlt k' (List.mem_range.mp hk'))
    · intro h
      exact List.mem_map.mpr ⟨Equiv.swap i j k,List.mem_range.mpr (hlt k (List.mem_range.mp h)),
        Equiv.swap_apply_self i j k⟩

/-- Moving an entry into the hole and the hole to where it came from exchanges it
with the element in hand. -/
theorem entries_move_perm (arr : ℕ → α) (e : α) {n i j : ℕ} (hi : i < n) (hj : j < n) (hij : i ≠ j) :
    (entries (Function.update (Function.update arr i (arr j)) j e) n).Perm
      (entries (Function.update arr i e) n) := by
  have hswap : Function.update (Function.update arr i (arr j)) j e =
      Function.update arr i e ∘ Equiv.swap i j := by
    funext k
    simp only [Function.comp_apply, Equiv.swap_apply_def, Function.update_apply]
    split_ifs <;> simp_all
  rw [hswap, entries, entries, ← List.map_map]
  exact (map_swap_perm hi hj).map _

/-- Exchanging the first entry with another one. -/
theorem swap_perm {n len : ℕ} (arr : ℕ → α) (h : len < n) :
    (entries (Function.update (Function.update arr len (arr 0)) 0 (arr len)) n).Perm (entries arr n) := by
  by_cases h0 : len = 0
  · subst h0
    simp
  · apply (entries_move_perm arr (arr len) h (by omega) h0).trans
    rw [Function.update_eq_self]

/-! ## Heap order -/

def parent (i : ℕ) : ℕ := (i - 1) / 2

def MinHeap (cmp : α → α → ℤ) (arr : ℕ → α) (n : ℕ) : Prop :=
  ∀ i, 0 < i → i < n → cmp (arr (parent i)) (arr i) ≤ 0

theorem MinHeap.mono {cmp : α → α → ℤ} {arr : ℕ → α} {n m : ℕ} (h : MinHeap cmp arr n) (hm : m ≤ n) :
    MinHeap cmp arr m := fun i hi him => h i hi (him.trans_le hm)

theorem MinHeap.congr {cmp : α → α → ℤ} {arr arr' : ℕ → α} {n : ℕ} (h : MinHeap cmp arr n)
    (he : ∀ k < n, arr' k = arr k) : MinHeap cmp arr' n := by
  intro i hi hn
  have hp : parent i < n := by unfold parent; omega
  rw [he i hn, he _ hp]
  exact h i hi hn

theorem MinHeap.root_le {S : α → Prop} {cmp : α → α → ℤ} (hc : TotalPreorderOn S cmp) {arr : ℕ → α} {n : ℕ}
    (hS : ∀ k < n, S (arr k)) (h : MinHeap cmp arr n) {i : ℕ} (hi : i < n) : cmp (arr 0) (arr i) ≤ 0 := by
  induction i using Nat.strongRecOn with
  | ind i ih =>
    by_cases h0 : i = 0
    · subst h0
      exact hc.refl (hS 0 hi)
    · have hp : parent i < i := by unfold parent; omega
      exact hc.trans _ _ _ (hS 0 (by omega)) (hS _ (by omega)) (hS i hi) (ih (parent i) hp (by omega))
        (h i (by omega) hi)

/-- Everything but the element in hand against the hole's children is in order. -/
structure DownOrder (cmp : α → α → ℤ) (arr : ℕ → α) (n i : ℕ) (e : α) : Prop where
  except : ∀ k, 0 < k → k < n → k ≠ i → parent k ≠ i → cmp (arr (parent k)) (arr k) ≤ 0
  above : 0 < i → cmp (arr (parent i)) e ≤ 0
  grand : 0 < i → ∀ k, k < n → 0 < k → parent k = i → cmp (arr (parent i)) (arr k) ≤ 0

/-- The element in hand may go where it is not greater than any child. -/
theorem DownOrder.finish {cmp : α → α → ℤ} {arr : ℕ → α} {n i : ℕ} {e : α} (o : DownOrder cmp arr n i e)
    (hstop : ∀ k, k < n → 0 < k → parent k = i → cmp e (arr k) ≤ 0) :
    MinHeap cmp (Function.update arr i e) n := by
  intro k hk hn
  by_cases hki : k = i
  · subst hki
    have hp : parent k ≠ k := by unfold parent; omega
    simpa [hp] using o.above hk
  · by_cases hpi : parent k = i
    · simpa [hki, hpi] using hstop k hn hk hpi
    · simpa [hki, hpi] using o.except k hk hn hki hpi

/-- The smaller child moves up and leaves a hole behind. -/
theorem DownOrder.move {S : α → Prop} {cmp : α → α → ℤ} (hc : TotalPreorderOn S cmp) {arr : ℕ → α}
    {n i j : ℕ} {e : α} (hSj : S (arr j)) (hSe : S e) (o : DownOrder cmp arr n i e) (hj : 0 < j) (hjn : j < n) (hji : parent j = i)
    (hmin : ∀ k, k < n → 0 < k → parent k = i → cmp (arr j) (arr k) ≤ 0) (he : 0 < cmp e (arr j)) :
    DownOrder cmp (Function.update arr i (arr j)) n j e := by
  have hij : i < j := by unfold parent at hji; omega
  constructor
  · intro k hk hn hkj hpj
    by_cases hki : k = i
    · subst hki
      have hp : parent k ≠ k := by unfold parent; omega
      simpa [hp] using o.grand hk j hjn hj hji
    · by_cases hpi : parent k = i
      · simpa [hki, hpi] using hmin k hn hk hpi
      · simpa [hki, hpi] using o.except k hk hn hki hpi
  · intro _
    simpa [hji] using hc.le_of_pos hSe hSj he
  · intro _ k hn hk hpk
    have hki : k ≠ i := by unfold parent at hpk; omega
    have hold := o.except k hk hn hki (by omega)
    simpa [hji, hki, hpk] using hold

/-- Every entry and its parent are in order but where the parent is the entry `i`. -/
def OrderedBut (cmp : α → α → ℤ) (arr : ℕ → α) (n i : ℕ) : Prop :=
  ∀ k, 0 < k → k < n → parent k ≠ i → cmp (arr (parent k)) (arr k) ≤ 0

/-- The children of the entry `i` are not less than its parent. -/
def GrandOrder (cmp : α → α → ℤ) (arr : ℕ → α) (n i : ℕ) : Prop :=
  0 < i → ∀ k, k < n → 0 < k → parent k = i → cmp (arr (parent i)) (arr k) ≤ 0

theorem OrderedBut.downOrder {cmp : α → α → ℤ} {arr : ℕ → α} {n i : ℕ} (h : OrderedBut cmp arr n i) (hi : i < n)
    (hg : GrandOrder cmp arr n i) : DownOrder cmp arr n i (arr i) where
  except k hk hn _ hp := h k hk hn hp
  above h0 := h i h0 hi (by unfold parent; omega)
  grand := hg

/-- With the hole at the top nothing is required of the element in hand. -/
theorem MinHeap.downOrder_root {cmp : α → α → ℤ} {arr : ℕ → α} {n : ℕ} (h : MinHeap cmp arr n) (e : α) :
    DownOrder cmp arr n 0 e where
  except k hk hn _ _ := h k hk hn
  above h0 := absurd h0 (lt_irrefl 0)
  grand h0 := absurd h0 (lt_irrefl 0)

/-- A heap whose entry `i` was replaced by something not less is in order but for that entry. -/
theorem MinHeap.downOrder {S : α → Prop} {cmp : α → α → ℤ} {arr : ℕ → α} {n i : ℕ} {e : α}
    (hc : TotalPreorderOn S cmp) (hS : ∀ k < n, S (arr k)) (hSe : S e) (h : MinHeap cmp arr n) (hi : i < n)
    (he : cmp (arr i) e ≤ 0) : DownOrder cmp arr n i e where
  except k hk hn _ _ := h k hk hn
  above h0 := hc.trans _ _ _ (hS _ (by unfold parent; omega)) (hS i hi) hSe (h i h0 hi) he
  grand h0 k hn hk hp := hc.trans _ _ _ (hS _ (by unfold parent; omega)) (hS i hi) (hS k hn) (h i h0 hi)
    (hp ▸ h k hk hn)

end LogStats
