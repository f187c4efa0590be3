import LogStats.Containers.Heap
import Mathlib.Tactic.IntervalCases

/-! # Copying and sorting a heap

`heap_sort` puts the root behind the entries that are left and sifts the entry
taken from there down from the top. What it has put away is in descending order
and not greater than anything left.
-/
namespace LogStats

variable {α M : Type*}

/-- `heap_copy`: only the first `len` entries are copied. -/
def heapCopy (memory : ℕ → α) (hbt : Heap α) : Heap α :=
  ⟨fun i => if i < hbt.len then hbt.heap i else memory i,hbt.len,hbt.maxSize⟩

/-- `heap_sort` from the pass with `len` entries left. -/
def heapSortLoop (cmp : M → α → α → ℤ) (m : M) : ℕ → (ℕ → α) → ℕ → α
  | 0, arr => arr
  | len + 1, arr =>
    let elem := arr len
    let arr := Function.update (Function.update arr len (arr 0)) 0 elem
    if len + 1 = 2 then arr
    else
      let (_,arr,i) := heapSiftHole cmp (fun m _ _ => m) len elem m arr 0
      heapSortLoop cmp m len (Function.update arr i elem)

def heapSort (cmp : M → α → α → ℤ) (m : M) (hbt : Heap α) : Heap α :=
  ⟨heapSortLoop cmp m hbt.len hbt.heap,hbt.len,hbt.maxSize⟩

theorem heapCopy_elems (memory : ℕ → α) (hbt : Heap α) : (heapCopy memory hbt).elems = hbt.elems :=
  entries_congr (fun _ hk => if_pos hk)

/-! ## One pass -/

/-- Of `n` entries the first `len` are still to be sorted. -/
structure Sorting (cmp : α → α → ℤ) (n len : ℕ) (arr : ℕ → α) : Prop where
  minHeap : MinHeap cmp arr len
  least : ∀ i < len, ∀ k, len ≤ k → k < n → cmp (arr k) (arr i) ≤ 0
  sorted : ∀ i k, len ≤ i → i < k → k < n → cmp (arr k) (arr i) ≤ 0

section Pass
variable {S : α → Prop} {cmp : M → α → α → ℤ} {m : M} {arr : ℕ → α} {n len : ℕ}

/-- The pass before anything is sifted: the least entry is behind the others. -/
theorem Sorting.swap (hc : TotalPreorderOn S (cmp m)) (hS : ∀ k < len + 1, S (arr k))
    (h : Sorting (cmp m) n (len + 1) arr) :
    let arr' := Function.update (Function.update arr len (arr 0)) 0 (arr len)
    (∀ i < len, ∀ k, len ≤ k → k < n → cmp m (arr' k) (arr' i) ≤ 0) ∧
      (∀ i k, len ≤ i → i < k → k < n → cmp m (arr' k) (arr' i) ≤ 0) ∧
      (0 < len → DownOrder (cmp m) arr' len 0 (arr len)) := by
  intro arr'
  have hroot : ∀ i < len + 1, cmp m (arr 0) (arr i) ≤ 0 := fun i hi => h.minHeap.root_le hc hS hi
  have hfront : ∀ i ≤ len, ∃ i' < len + 1, arr' i = arr i' := by
    intro i hi
    by_cases h0 : i = 0
    · exact ⟨len,by omega,by simp [arr', h0]⟩
    · by_cases hl : i = len
      · refine ⟨0,by omega,?_⟩
        subst hl
        simp only [arr', Function.update_of_ne h0, Function.update_self]
      · exact ⟨i,by omega,by simp [arr', h0, hl]⟩
  have hback : ∀ k, len < k → arr' k = arr k := by
    intro k hk
    simp only [arr', Function.update_of_ne (show k ≠ 0 by omega), Function.update_of_ne hk.ne']
  have hlast : 0 < len → arr' len = arr 0 := by
    intro hl
    simp only [arr', Function.update_of_ne hl.ne', Function.update_self]
  refine ⟨?_,?_,?_⟩
  · intro i hi k hk hkn
    obtain ⟨i',hi',he⟩ := hfront i (by omega)
    rw [he]
    by_cases hkl : k = len
    · rw [hkl, hlast (by omega)]
      exact hroot i' hi'
    · rw [hback k (by omega)]
      exact h.least i' hi' k (by omega) hkn
  · intro i k hi hik hkn
    rw [hback k (by omega)]
    by_cases hil : i = len
    · obtain ⟨i',hi',he⟩ := hfront i (by omega)
      rw [he]
      exact h.least i' hi' k (by omega) hkn
    · rw [hback i (by omega)]
      exact h.sorted i k (by omega) hik hkn
  · intro hl
    refine ⟨?_,fun h0 => absurd h0 (lt_irrefl 0),fun h0 => absurd h0 (lt_irrefl 0)⟩
    intro k h0 hk hk0 hp
    have hkeep : ∀ j, j ≠ 0 → j < len → arr' j = arr j := by
      intro j hj hjl
      simp only [arr', Function.update_of_ne hj, Function.update_of_ne hjl.ne]
    rw [hkeep k hk0 hk, hkeep _ hp (by unfold parent; omega)]
    exact h.minHeap k h0 (by omega)

/-- One pass of the loop, from the swap to the last store. -/
def heapSortPass (cmp : M → α → α → ℤ) (m : M) (len : ℕ) (arr : ℕ → α) : ℕ → α :=
  let arr' := Function.update (Function.update arr len (arr 0)) 0 (arr len)
  let out := heapSiftHole cmp (fun m _ _ => m) len (arr len) m arr' 0
  Function.update out.2.1 out.2.2 (arr len)

/-- Behind the entries that are left a pass changes what the swap does. -/
theorem heapSortPass_behind {k : ℕ} (hl : 0 < len) (hk : len ≤ k) : heapSortPass cmp m len arr k =
    Function.update (Function.update arr len (arr 0)) 0 (arr len) k := by
  refine (Function.update_of_ne ?_ _ _).trans (siftHole_outside hl hk)
  exact ((siftHole_index hl).2.trans_le hk).ne'

theorem heapSortPass_front (hl : 0 < len) : (entries (heapSortPass cmp m len arr) len).Perm
    (entries (Function.update (Function.update arr len (arr 0)) 0 (arr len)) len) := by
  apply (siftHole_perm _ _ _ hl).trans
  rw [Function.update_idem]

theorem heapSortPass_perm (cmp : M → α → α → ℤ) (m : M) (arr : ℕ → α) (hl : 0 < len) (hn : len < n) :
    (entries (heapSortPass cmp m len arr) n).Perm (entries arr n) :=
  (entries_perm_of_front (heapSortPass_front hl) hn.le (fun _ hk => heapSortPass_behind hl hk)).trans
    (swap_perm arr hn)

theorem Sorting.pass (hc : TotalPreorderOn S (cmp m)) (hS : ∀ k < len + 1, S (arr k))
    (h : Sorting (cmp m) n (len + 1) arr) (hl : 0 < len) :
    Sorting (cmp m) n len (heapSortPass cmp m len arr) := by
  obtain ⟨hleast,hsorted,hdown⟩ := h.swap hc hS
  refine ⟨siftHole_minHeap (fun _ _ _ => rfl) hc ?_ (hS len (by omega)) (hdown hl),?_,?_⟩
  · intro k hk hk0
    rw [Function.update_of_ne hk0, Function.update_of_ne hk.ne]
    exact hS k (by omega)
  · intro i hi k hk hkn
    rw [heapSortPass_behind hl hk]
    obtain ⟨i',hi',he⟩ := mem_entries.mp ((heapSortPass_front hl).mem_iff.mp (mem_entries.mpr ⟨i,hi,rfl⟩))
    rw [← he]
    exact hleast i' hi' k hk hkn
  · intro i k hi hik hkn
    rw [heapSortPass_behind hl (by omega), heapSortPass_behind hl hi]
    exact hsorted i k hi hik hkn

end Pass

/-! ## The whole loop -/

section Loop
variable {S : α → Prop} {cmp : M → α → α → ℤ} {m : M} {n : ℕ}

theorem heapSortLoop_one (arr : ℕ → α) : heapSortLoop cmp m 1 arr = arr := by
  have hsift : heapSiftHole cmp (fun m _ _ => m) 0 (arr 0) m arr 0 = (m,arr,0) := by
    rw [heapSiftHole]
    simp
  simp [heapSortLoop, hsift]

theorem heapSortLoop_two (arr : ℕ → α) :
    heapSortLoop cmp m 2 arr = Function.update (Function.update arr 1 (arr 0)) 0 (arr 1) := by
  simp [heapSortLoop]

theorem heapSortLoop_pass {len : ℕ} (hl : 2 ≤ len) (arr : ℕ → α) :
    heapSortLoop cmp m (len + 1) arr = heapSortLoop cmp m len (heapSortPass cmp m len arr) := by
  have h2 : len + 1 ≠ 2 := by omega
  simp only [heapSortLoop, if_neg h2, heapSortPass]

theorem heapSortLoop_perm (len : ℕ) (arr : ℕ → α) (hn : len ≤ n) :
    (entries (heapSortLoop cmp m len arr) n).Perm (entries arr n) := by
  induction len generalizing arr with
  | zero => exact List.Perm.refl _
  | succ len ih =>
    rcases Nat.lt_or_ge len 2 with hlt | hge
    · interval_cases len
      · rw [heapSortLoop_one]
      · rw [heapSortLoop_two]
        exact swap_perm arr hn
    · rw [heapSortLoop_pass hge]
      exact (ih _ (by omega)).trans (heapSortPass_perm _ _ _ (by omega) hn)

theorem heapSortLoop_sorting (hc : TotalPreorderOn S (cmp m)) (len : ℕ) (arr : ℕ → α)
    (hS : ∀ k < n, S (arr k)) (hn : len ≤ n) (h : Sorting (cmp m) n len arr) :
    Sorting (cmp m) n 0 (heapSortLoop cmp m len arr) := by
  induction len generalizing arr with
  | zero => exact h
  | succ len ih =>
    have hSl : ∀ k < len + 1, S (arr k) := fun k hk => hS k (by omega)
    obtain ⟨hleast,hsorted,-⟩ := h.swap hc hSl
    rcases Nat.lt_or_ge len 2 with hlt | hge
    · refine ⟨fun i hi hlt => absurd hlt (by omega),fun i hi => absurd hi (by omega),?_⟩
      intro i k _ hik hkn
      interval_cases len
      · rw [heapSortLoop_one]
        simpa using hsorted i k (by omega) hik hkn
      · rw [heapSortLoop_two]
        by_cases hi : i < 1
        · exact hleast i hi k (by omega) hkn
        · exact hsorted i k (by omega) hik hkn
    · rw [heapSortLoop_pass hge]
      refine ih _ (fun k hk => ?_) (by omega) (h.pass hc hSl (by omega))
      have hmem := (heapSortPass_perm cmp m arr (by omega) hn).mem_iff.mp (mem_entries.mpr ⟨k,hk,rfl⟩)
      obtain ⟨i,hi,he⟩ := mem_entries.mp hmem
      exact he ▸ hS i hi

end Loop

theorem heapSort_elems (cmp : M → α → α → ℤ) (m : M) (hbt : Heap α) : (heapSort cmp m hbt).elems.Perm hbt.elems :=
  heapSortLoop_perm hbt.len hbt.heap le_rfl

theorem heapSort_sorting {S : α → Prop} {cmp : M → α → α → ℤ} {m : M} {hbt : Heap α}
    (hc : TotalPreorderOn S (cmp m)) (hS : ∀ a ∈ hbt.elems, S a) (h : MinHeap (cmp m) hbt.heap hbt.len) :
    Sorting (cmp m) hbt.len 0 (heapSort cmp m hbt).heap := by
  have hstart : Sorting (cmp m) hbt.len hbt.len hbt.heap :=
    ⟨h,fun i _ k hk hkn => absurd hkn (by omega),fun i k hi hik hkn => absurd hkn (by omega)⟩
  exact heapSortLoop_sorting hc hbt.len hbt.heap (fun k hk => hS _ (mem_entries.mpr ⟨k,hk,rfl⟩)) le_rfl hstart

/-- Sorting a heap puts its entries in descending order. -/
theorem heapSort_descending {S : α → Prop} {cmp : M → α → α → ℤ} {m : M} {hbt : Heap α}
    (hc : TotalPreorderOn S (cmp m)) (hS : ∀ a ∈ hbt.elems, S a) (h : MinHeap (cmp m) hbt.heap hbt.len) :
    (heapSort cmp m hbt).elems.Pairwise (fun a b => cmp m b a ≤ 0) := by
  have hsort := heapSort_sorting hc hS h
  rw [Heap.elems, entries, List.pairwise_map]
  apply List.pairwise_lt_range.imp_of_mem
  intro i k hi hk hik
  exact hsort.sorted i k (Nat.zero_le i) hik (List.mem_range.mp hk)

end LogStats
