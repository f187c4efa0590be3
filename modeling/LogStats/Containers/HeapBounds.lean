import LogStats.Containers.HeapSort

/-! # heap_sort and the bounds of its array

Here `heap_sort` runs with every access checked against the number of entries and
with its loops counted, and it is the same function. The heaps lie in memory by
their addresses, so that a copy is a heap of its own.
-/
namespace LogStats

variable {α M : Type*}

def readEntry (size : ℕ) (arr : ℕ → α) (i : ℕ) : Option α := if i < size then some (arr i) else none

def writeEntry (size : ℕ) (arr : ℕ → α) (i : ℕ) (a : α) : Option (ℕ → α) :=
  if i < size then some (Function.update arr i a) else none

theorem readEntry_some {size : ℕ} {i : ℕ} (h : i < size) (arr : ℕ → α) : readEntry size arr i = some (arr i) :=
  if_pos h

theorem writeEntry_some {size : ℕ} {i : ℕ} (h : i < size) (arr : ℕ → α) (a : α) :
    writeEntry size arr i a = some (Function.update arr i a) :=
  if_pos h

section Checked
variable (cmp : M → α → α → ℤ) (m : M) (size : ℕ)

/-- The smaller child, in the pass with `len` entries left. -/
def sortChildChecked (len : ℕ) (arr : ℕ → α) (j : ℕ) : Option ℕ :=
  if j + 2 < len then
    (readEntry size arr j).bind fun left =>
      (readEntry size arr (j + 1)).bind fun right => some (if 0 < cmp m left right then j + 1 else j)
  else some j

/-- The inner loop of `heap_sort`, of at most as many turns as the first number says. -/
def sortSiftChecked (len : ℕ) (elem : α) : ℕ → (ℕ → α) → ℕ → Option ((ℕ → α) × ℕ)
  | 0, _, _ => none
  | turns + 1, arr, i =>
    if 2 * i + 1 + 2 ≤ len then
      (sortChildChecked cmp m size len arr (2 * i + 1)).bind fun j =>
        (readEntry size arr j).bind fun child =>
          if cmp m elem child ≤ 0 then some (arr,i)
          else (writeEntry size arr i child).bind fun arr => sortSiftChecked len elem turns arr j
    else some (arr,i)

/-- `heap_sort` from the pass with `len` entries left. -/
def sortLoopChecked : ℕ → (ℕ → α) → Option (ℕ → α)
  | 0, arr => some arr
  | len + 1, arr => do
    let elem ← readEntry size arr len
    let root ← readEntry size arr 0
    let arr ← writeEntry size arr len root
    let arr ← writeEntry size arr 0 elem
    if len + 1 = 2 then return arr
    let sifted ← sortSiftChecked cmp m size (len + 1) elem (len + 1) arr 0
    let arr ← writeEntry size sifted.1 sifted.2 elem
    sortLoopChecked len arr

end Checked

section Checked
variable {cmp : M → α → α → ℤ} {m : M} {size : ℕ}

theorem sortChildChecked_eq {len : ℕ} (hl : len + 1 ≤ size) (arr : ℕ → α) (j : ℕ) :
    sortChildChecked cmp m size (len + 1) arr j = some (heapChild cmp m arr len j) := by
  unfold sortChildChecked heapChild
  by_cases hj : j + 1 < len
  · rw [if_pos (by omega), readEntry_some (by omega), readEntry_some (by omega)]
    simp only [Option.bind_some, hj, true_and]
  · rw [if_neg (by omega), if_neg (fun h => hj h.1)]

/-- The hole at `i` moves down fewer times than there are entries after it. -/
theorem sortSiftChecked_eq {len : ℕ} (hl : len + 1 ≤ size) (elem : α) (turns : ℕ) (arr : ℕ → α) {i : ℕ}
    (hi : i ≤ len) (ht : len < i + turns) :
    sortSiftChecked cmp m size (len + 1) elem turns arr i =
      some (heapSiftHole cmp (fun m _ _ => m) len elem m arr i).2 := by
  induction turns generalizing arr i with
  | zero => omega
  | succ turns ih =>
    rw [sortSiftChecked, heapSiftHole]
    by_cases hlt : 2 * i + 1 < len
    · obtain ⟨hij,hjn,-⟩ := heapChild_bounds cmp m arr hlt
      rw [if_pos (by omega), if_pos hlt, sortChildChecked_eq hl]
      have hjs : heapChild cmp m arr len (2 * i + 1) < size := by omega
      simp only [Option.bind_some, readEntry_some hjs, writeEntry_some (show i < size by omega)]
      split
      · rfl
      · exact ih _ (by omega) (by omega)
    · rw [if_neg (by omega), if_neg hlt]

/-- No access of `heap_sort` is out of bounds. -/
theorem sortLoopChecked_eq (len : ℕ) (arr : ℕ → α) (hl : len ≤ size) :
    sortLoopChecked cmp m size len arr = some (heapSortLoop cmp m len arr) := by
  induction len generalizing arr with
  | zero => rfl
  | succ len ih =>
    rw [sortLoopChecked, heapSortLoop, readEntry_some (by omega), readEntry_some (by omega)]
    simp only [Option.bind_eq_bind, Option.bind_some, writeEntry_some (show len < size by omega),
      writeEntry_some (show 0 < size by omega)]
    split
    · rfl
    · rw [sortSiftChecked_eq hl _ _ _ (Nat.zero_le _) (by omega)]
      have hin : (heapSiftHole cmp (fun m _ _ => m) len (arr len) m
          (Function.update (Function.update arr len (arr 0)) 0 (arr len)) 0).2.2 < size := by
        rcases Nat.eq_zero_or_pos len with h0 | hpos
        · rw [h0, heapSiftHole]
          simp
          omega
        · exact (siftHole_index hpos).2.trans hl
      simp only [Option.bind_some, writeEntry_some hin]
      exact ih _ (by omega)

end Checked

/-! ## Heaps in memory -/

/-- The heaps by their addresses, and the memory the elements point to. -/
structure HeapStore (α M : Type*) where
  heaps : ℕ → Heap α
  elems : M

/-- `heap_copy` of the heap at `hbt`, when malloc returned `copyHeap`. -/
def HeapStore.heapCopy (s : HeapStore α M) (hbt copyHeap : ℕ) : HeapStore α M :=
  { s with heaps := Function.update s.heaps copyHeap (LogStats.heapCopy (s.heaps copyHeap).heap (s.heaps hbt)) }

/-- `heap_sort` of the heap at `hbt`. -/
def HeapStore.heapSort (cmp : M → α → α → ℤ) (s : HeapStore α M) (hbt : ℕ) : Option (HeapStore α M) :=
  let h := s.heaps hbt
  (sortLoopChecked cmp s.elems h.len h.len h.heap).map fun arr =>
    { s with heaps := Function.update s.heaps hbt { h with heap := arr } }

theorem HeapStore.heapSort_eq (cmp : M → α → α → ℤ) (s : HeapStore α M) (hbt : ℕ) : s.heapSort cmp hbt =
    some { s with heaps := Function.update s.heaps hbt (LogStats.heapSort cmp s.elems (s.heaps hbt)) } := by
  rw [HeapStore.heapSort, sortLoopChecked_eq _ _ le_rfl]
  rfl

/-- The entries are those of the other heap in descending order. -/
structure SortedFrom (cmp : α → α → ℤ) (hbt sorted : Heap α) : Prop where
  len : sorted.len = hbt.len
  elems : sorted.elems.Perm hbt.elems
  descending : ∀ i, i + 1 < hbt.len → 0 ≤ cmp (sorted.heap i) (sorted.heap (i + 1))

theorem heapSort_sortedFrom {S : α → Prop} {cmp : M → α → α → ℤ} {m : M} {hbt : Heap α}
    (hc : TotalPreorderOn S (cmp m)) (hS : ∀ a ∈ hbt.elems, S a) (h : MinHeap (cmp m) hbt.heap hbt.len) :
    SortedFrom (cmp m) hbt (heapSort cmp m hbt) where
  len := rfl
  elems := heapSort_elems cmp m hbt
  descending i hi := by
    have hle := (heapSort_sorting hc hS h).sorted i (i + 1) (Nat.zero_le i) (Nat.lt_succ_self i) hi
    have hSi : ∀ k < hbt.len, S ((heapSort cmp m hbt).heap k) := fun k hk =>
      hS _ ((heapSort_elems cmp m hbt).mem_iff.mp (mem_entries.mpr ⟨k,hk,rfl⟩))
    by_contra hneg
    have hpos := (hc.pos_iff _ _ (hSi (i + 1) hi) (hSi i (by omega))).mpr (not_le.mp hneg)
    omega

/-- Sorting a heap, or a copy of it, which leaves the heap itself and its elements alone. -/
theorem heapStore_heapSort {S : α → Prop} {cmp : M → α → α → ℤ} {s : HeapStore α M} {hbt : ℕ}
    (hc : TotalPreorderOn S (cmp s.elems)) (hS : ∀ a ∈ (s.heaps hbt).elems, S a)
    (h : MinHeap (cmp s.elems) (s.heaps hbt).heap (s.heaps hbt).len) :
    (∃ out, s.heapSort cmp hbt = some out ∧ out.elems = s.elems ∧
        SortedFrom (cmp s.elems) (s.heaps hbt) (out.heaps hbt) ∧ ∀ a ≠ hbt, out.heaps a = s.heaps a) ∧
      ∀ copyHeap ≠ hbt, ∃ out, (s.heapCopy hbt copyHeap).heapSort cmp copyHeap = some out ∧
        out.elems = s.elems ∧ SortedFrom (cmp s.elems) (s.heaps hbt) (out.heaps copyHeap) ∧
        ∀ a ≠ copyHeap, out.heaps a = s.heaps a := by
  constructor
  · refine ⟨_,s.heapSort_eq cmp hbt,rfl,?_,?_⟩
    · dsimp only
      rw [Function.update_self]
      exact heapSort_sortedFrom hc hS h
    · intro a ha
      exact Function.update_of_ne ha _ _
  · intro copyHeap hne
    have hcopy : (s.heapCopy hbt copyHeap).heaps copyHeap =
        LogStats.heapCopy (s.heaps copyHeap).heap (s.heaps hbt) := Function.update_self _ _ _
    have helems := heapCopy_elems (s.heaps copyHeap).heap (s.heaps hbt)
    refine ⟨_,(s.heapCopy hbt copyHeap).heapSort_eq cmp copyHeap,rfl,?_,?_⟩
    · dsimp only
      rw [Function.update_self, hcopy]
      have hheap : MinHeap (cmp s.elems) (LogStats.heapCopy (s.heaps copyHeap).heap (s.heaps hbt)).heap
          (s.heaps hbt).len := h.congr (fun k hk => if_pos hk)
      have hsort := heapSort_sortedFrom hc (fun a ha => hS a (helems ▸ ha)) hheap
      exact ⟨hsort.len,hsort.elems.trans (List.Perm.of_eq helems),hsort.descending⟩
    · intro a ha
      exact (Function.update_of_ne ha _ _).trans (Function.update_of_ne ha _ _)

/-- A copy of the entries 1, 3 and 2 is sorted. -/
theorem heapStore_heapSort_three :
    let hbt : Heap ℤ := ⟨fun k => if k = 0 then 1 else if k = 1 then 3 else 2,3,10000⟩
    let s : HeapStore ℤ (ℤ → ℤ) := ⟨fun a => if a = 0 then hbt else ⟨fun _ => 0,0,0⟩,fun a => a⟩
    ∃ out, (s.heapCopy 0 1).heapSort (fun _ a b => a - b) 1 = some out ∧ out.elems = s.elems ∧
      (out.heaps 1).elems.Perm [1,3,2] ∧ out.heaps 0 = hbt := by
  intro hbt s
  have hheap : MinHeap (fun a b => a - b) (s.heaps 0).heap (s.heaps 0).len := by
    intro k hk hn
    change k < 3 at hn
    interval_cases k <;> decide
  obtain ⟨out,hsort,helems,hsorted,hrest⟩ := (@heapStore_heapSort ℤ (ℤ → ℤ) (fun _ => True) (fun _ a b => a - b) s 0
    (sub_preorder _) (fun _ _ => trivial) hheap).2 1 (by decide)
  exact ⟨out,hsort,helems,hsorted.elems,hrest 0 (by decide)⟩

end LogStats
