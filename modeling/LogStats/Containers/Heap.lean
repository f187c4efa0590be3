import LogStats.Library.MinHeap

/-! # The array heap of log_heap.c

`cmp` and the callback `func` read and write the memory the elements point to, so
they take that memory as an argument and `func` returns it. A NULL callback is
the one that returns the memory unchanged. `heap_replace_least`,
`heap_adjust_siftdown` and `heap_sort` contain the same loop over a hole; it is
stated once, with the number of entries it may look at.
-/
namespace LogStats

structure Heap (α : Type*) where
  heap : ℕ → α
  len : ℕ
  maxSize : ℕ

variable {α M : Type*}

/-- `heap_init`: the array is whatever malloc returned. -/
def heapInit (memory : ℕ → α) (ms : ℕ) : Heap α := ⟨memory,0,ms⟩

def heapReachRoof (hbt : Heap α) (roof : ℕ) : Bool := roof ≤ hbt.len

section Operations
variable (cmp : M → α → α → ℤ) (func : M → α → ℕ → M)

def heapMinLessThan (m : M) (hbt : Heap α) (elem : α) : Bool := cmp m (hbt.heap 0) elem < 0

/-- The loop of `heap_insert`: it compares the parent with what the hole still contains. -/
def heapRise (m : M) (arr : ℕ → α) (i : ℕ) : M × (ℕ → α) × ℕ :=
  if i = 0 then (m,arr,i)
  else
    let j := (i - 1) / 2
    if cmp m (arr j) (arr i) ≤ 0 then (m,arr,i)
    else heapRise (func m (arr j) i) (Function.update arr i (arr j)) j
termination_by i

def heapInsert (m : M) (hbt : Heap α) (x : α) : M × Heap α × ℕ :=
  let arr := Function.update hbt.heap hbt.len x
  let (m,arr,i) := heapRise cmp func (func m x hbt.len) arr hbt.len
  (func m x i,⟨Function.update arr i x,hbt.len + 1,hbt.maxSize⟩,i)

def heapChild (m : M) (arr : ℕ → α) (n j : ℕ) : ℕ :=
  if j + 1 < n ∧ 0 < cmp m (arr j) (arr (j + 1)) then j + 1 else j

theorem heapChild_cases (m : M) (arr : ℕ → α) (n j : ℕ) :
    heapChild cmp m arr n j = j ∨ (heapChild cmp m arr n j = j + 1 ∧ j + 1 < n) := by
  unfold heapChild
  split
  · rename_i h
    exact Or.inr ⟨rfl,h.1⟩
  · exact Or.inl rfl

/-- The hole at `i` moves down, among the first `n` entries, until `elem` fits. -/
def heapSiftHole (n : ℕ) (elem : α) (m : M) (arr : ℕ → α) (i : ℕ) : M × (ℕ → α) × ℕ :=
  if 2 * i + 1 < n then
    let j := heapChild cmp m arr n (2 * i + 1)
    if cmp m elem (arr j) ≤ 0 then (m,arr,i)
    else heapSiftHole n elem (func m (arr j) i) (Function.update arr i (arr j)) j
  else (m,arr,i)
termination_by n - i
decreasing_by
  have := heapChild_cases cmp m arr n (2 * i + 1)
  omega

def heapAdjustSiftdown (m : M) (hbt : Heap α) (index : ℕ) : M × Heap α :=
  let elem := hbt.heap index
  let (m,arr,i) := heapSiftHole cmp func hbt.len elem m hbt.heap index
  if i ≠ index then (func m elem i,{ hbt with heap := Function.update arr i elem })
  else (m,{ hbt with heap := arr })

/-- `heap_replace_least`: the element pushed out, or the new one if it is not greater. -/
def heapReplaceLeast (m : M) (hbt : Heap α) (new : α) : M × Heap α × α :=
  let temp := hbt.heap 0
  if cmp m new temp ≤ 0 then (m,hbt,new)
  else
    let (m,arr,i) := heapSiftHole cmp func hbt.len new m hbt.heap 0
    (func m new i,{ hbt with heap := Function.update arr i new },temp)

end Operations

/-! ## The loop over the hole -/

/-- What the callbacks of a name tree do: they record an element's index in a field
that comparisons do not read. -/
structure Callback [DecidableEq α] (cmp : M → α → α → ℤ) (func : M → α → ℕ → M) (pos : M → α → ℤ) :
    Prop where
  cmp_func : ∀ m a i, cmp (func m a i) = cmp m
  pos_func : ∀ m a i b, pos (func m a i) b = if b = a then (i : ℤ) else pos m b

section SiftHole
variable {cmp : M → α → α → ℤ} {func : M → α → ℕ → M} {n : ℕ} {elem : α} {m : M} {arr : ℕ → α} {i : ℕ}

theorem heapChild_bounds (cmp : M → α → α → ℤ) (m : M) (arr : ℕ → α) (h : 2 * i + 1 < n) :
    i < heapChild cmp m arr n (2 * i + 1) ∧ heapChild cmp m arr n (2 * i + 1) < n ∧
      parent (heapChild cmp m arr n (2 * i + 1)) = i := by
  have := heapChild_cases cmp m arr n (2 * i + 1)
  unfold parent
  omega

theorem heapChild_least {S : α → Prop} (hc : TotalPreorderOn S (cmp m))
    (hS : ∀ k < n, k ≠ i → S (arr k)) : ∀ k, k < n → 0 < k → parent k = i →
      cmp m (arr (heapChild cmp m arr n (2 * i + 1))) (arr k) ≤ 0 := by
  intro k hk h0 hp
  have hki : k = 2 * i + 1 ∨ k = 2 * i + 1 + 1 := by unfold parent at hp; omega
  unfold heapChild
  split
  · rename_i h
    rcases hki with rfl | rfl
    · exact hc.le_of_pos (hS _ hk (by omega)) (hS _ h.1 (by omega)) h.2
    · exact hc.refl (hS _ hk (by omega))
  · rename_i h
    rcases hki with rfl | rfl
    · exact hc.refl (hS _ hk (by omega))
    · by_contra hpos
      exact h ⟨hk,by omega⟩

theorem siftHole_index (hi : i < n) :
    i ≤ (heapSiftHole cmp func n elem m arr i).2.2 ∧ (heapSiftHole cmp func n elem m arr i).2.2 < n := by
  fun_induction heapSiftHole cmp func n elem m arr i with
  | case1 m arr i hlt j hle => exact ⟨le_rfl,hi⟩
  | case2 m arr i hlt j hgt ih =>
    obtain ⟨hij,hjn,-⟩ := heapChild_bounds cmp m arr hlt
    exact ⟨hij.le.trans (ih hjn).1,(ih hjn).2⟩
  | case3 m arr i hge => exact ⟨le_rfl,hi⟩

/-- Whatever a callback preserves, sifting does. -/
theorem siftHole_preserves {P : M → Prop} {S : α → Prop} (hP : ∀ m a k, S a → P m → P (func m a k))
    (hS : ∀ k < n, k ≠ i → S (arr k)) (h : P m) : P (heapSiftHole cmp func n elem m arr i).1 := by
  fun_induction heapSiftHole cmp func n elem m arr i with
  | case1 m arr i hlt j hle => exact h
  | case2 m arr i hlt j hgt ih =>
    obtain ⟨hij,hjn,-⟩ := heapChild_bounds cmp m arr hlt
    apply ih
    · intro k hk hkj
      by_cases hki : k = i
      · subst hki
        simpa using hS j hjn hij.ne'
      · simpa [hki] using hS k hk hki
    · exact hP m (arr j) i (hS j hjn hij.ne') h
  | case3 m arr i hge => exact h

theorem siftHole_perm (cmp : M → α → α → ℤ) (func : M → α → ℕ → M) (m : M) (hi : i < n) :
    (entries (Function.update (heapSiftHole cmp func n elem m arr i).2.1
      (heapSiftHole cmp func n elem m arr i).2.2 elem) n).Perm (entries (Function.update arr i elem) n) := by
  fun_induction heapSiftHole cmp func n elem m arr i with
  | case1 m arr i hlt j hle => exact List.Perm.refl _
  | case2 m arr i hlt j hgt ih =>
    obtain ⟨hij,hjn,-⟩ := heapChild_bounds cmp m arr hlt
    exact (ih hjn).trans (entries_move_perm arr elem hi hjn hij.ne)
  | case3 m arr i hge => exact List.Perm.refl _

theorem siftHole_outside (hi : i < n) {k : ℕ} (hk : n ≤ k) :
    (heapSiftHole cmp func n elem m arr i).2.1 k = arr k := by
  fun_induction heapSiftHole cmp func n elem m arr i with
  | case1 m arr i hlt j hle => rfl
  | case2 m arr i hlt j hgt ih =>
    obtain ⟨hij,hjn,-⟩ := heapChild_bounds cmp m arr hlt
    rw [ih hjn]
    exact Function.update_of_ne (by omega) _ _
  | case3 m arr i hge => rfl

theorem siftHole_stay (h : (heapSiftHole cmp func n elem m arr i).2.2 = i) :
    heapSiftHole cmp func n elem m arr i = (m,arr,i) := by
  rw [heapSiftHole] at h ⊢
  split
  · rename_i hlt
    simp only [if_pos hlt] at h
    dsimp only
    split
    · rfl
    · rename_i hgt
      simp only [if_neg hgt] at h
      obtain ⟨hij,hjn,-⟩ := heapChild_bounds cmp m arr hlt
      have hdown : heapChild cmp m arr n (2 * i + 1) ≤ i := (siftHole_index hjn).1.trans_eq h
      omega
  · rfl

theorem siftHole_minHeap {S : α → Prop} (hcmp : ∀ m a i, cmp (func m a i) = cmp m)
    (hc : TotalPreorderOn S (cmp m)) (hS : ∀ k < n, k ≠ i → S (arr k)) (hSe : S elem)
    (ho : DownOrder (cmp m) arr n i elem) :
    MinHeap (cmp m) (Function.update (heapSiftHole cmp func n elem m arr i).2.1
      (heapSiftHole cmp func n elem m arr i).2.2 elem) n := by
  fun_induction heapSiftHole cmp func n elem m arr i with
  | case1 m arr i hlt j hle =>
    obtain ⟨hij,hjn,-⟩ := heapChild_bounds cmp m arr hlt
    apply ho.finish
    intro k hk h0 hp
    have hki : k ≠ i := by unfold parent at hp; omega
    exact hc.trans _ _ _ hSe (hS _ hjn hij.ne') (hS k hk hki) hle (heapChild_least hc hS k hk h0 hp)
  | case2 m arr i hlt j hgt ih =>
    obtain ⟨hij,hjn,hp⟩ := heapChild_bounds cmp m arr hlt
    have hSj := hS _ hjn hij.ne'
    rw [hcmp] at ih
    refine ih hc (fun k hk hkj => ?_)
      (ho.move hc hSj hSe (by omega) hjn hp (heapChild_least hc hS) (by omega))
    by_cases hki : k = i
    · subst hki
      simpa using hSj
    · simpa [hki] using hS k hk hki
  | case3 m arr i hge =>
    exact ho.finish (fun k hk h0 hp => absurd hk (by unfold parent at hp; omega))

theorem siftHole_pos [DecidableEq α] {pos : M → α → ℤ} (cb : Callback cmp func pos) (hi : i < n)
    (hnd : (entries (Function.update arr i elem) n).Nodup)
    (hpos : ∀ k < n, k ≠ i → pos m (arr k) = k) :
    ∀ k < n, k ≠ (heapSiftHole cmp func n elem m arr i).2.2 →
      pos (heapSiftHole cmp func n elem m arr i).1 ((heapSiftHole cmp func n elem m arr i).2.1 k) = k := by
  fun_induction heapSiftHole cmp func n elem m arr i with
  | case1 m arr i hlt j hle => exact hpos
  | case2 m arr i hlt j hgt ih =>
    obtain ⟨hij,hjn,-⟩ := heapChild_bounds cmp m arr hlt
    apply ih hjn ((entries_move_perm arr elem hi hjn hij.ne).nodup_iff.mpr hnd)
    intro k hk hkj
    rw [cb.pos_func]
    by_cases hki : k = i
    · subst hki
      simp [j]
    · rw [Function.update_of_ne hki, if_neg, hpos k hk hki]
      intro he
      apply hkj
      apply entries_nodup_iff.mp hnd k hk j hjn
      rw [Function.update_of_ne hki, Function.update_of_ne hij.ne', he]
  | case3 m arr i hge => exact hpos

end SiftHole

/-! ## The loop of heap_insert -/

section Rise
variable {cmp : M → α → α → ℤ} {func : M → α → ℕ → M} {m : M} {arr : ℕ → α} {i : ℕ}

theorem rise_index : (heapRise cmp func m arr i).2.2 ≤ i := by
  fun_induction heapRise cmp func m arr i with
  | case1 m arr => exact le_rfl
  | case2 m arr i h0 j hle => exact le_rfl
  | case3 m arr i h0 j hgt ih =>
    have hj : j ≤ i := by simp only [j]; omega
    exact ih.trans hj

theorem rise_preserves {P : M → Prop} {S : α → Prop} (hP : ∀ m a k, S a → P m → P (func m a k))
    (hS : ∀ k < i, S (arr k)) (h : P m) : P (heapRise cmp func m arr i).1 := by
  fun_induction heapRise cmp func m arr i with
  | case1 m arr => exact h
  | case2 m arr i h0 j hle => exact h
  | case3 m arr i h0 j hgt ih =>
    have hj : j < i := by simp only [j]; omega
    apply ih
    · intro k hk
      rw [Function.update_of_ne (by omega)]
      exact hS k (by omega)
    · exact hP m (arr j) i (hS j hj) h

theorem rise_perm (cmp : M → α → α → ℤ) (func : M → α → ℕ → M) (m : M) (arr : ℕ → α) (x : α) {n : ℕ}
    (hi : i < n) :
    (entries (Function.update (heapRise cmp func m arr i).2.1 (heapRise cmp func m arr i).2.2 x) n).Perm
      (entries (Function.update arr i x) n) := by
  fun_induction heapRise cmp func m arr i with
  | case1 m arr => exact List.Perm.refl _
  | case2 m arr i h0 j hle => exact List.Perm.refl _
  | case3 m arr i h0 j hgt ih =>
    have hj : j < i := by simp only [j]; omega
    exact (ih (by omega)).trans (entries_move_perm arr x hi (by omega) hj.ne')

theorem rise_pos [DecidableEq α] {pos : M → α → ℤ} (cb : Callback cmp func pos) (x : α) {n : ℕ} (hi : i < n)
    (hnd : (entries (Function.update arr i x) n).Nodup) (hpos : ∀ k < n, k ≠ i → pos m (arr k) = k) :
    ∀ k < n, k ≠ (heapRise cmp func m arr i).2.2 →
      pos (heapRise cmp func m arr i).1 ((heapRise cmp func m arr i).2.1 k) = k := by
  fun_induction heapRise cmp func m arr i with
  | case1 m arr => exact hpos
  | case2 m arr i h0 j hle => exact hpos
  | case3 m arr i h0 j hgt ih =>
    have hj : j < i := by simp only [j]; omega
    apply ih (by omega) ((entries_move_perm arr x hi (by omega) hj.ne').nodup_iff.mpr hnd)
    intro k hk hkj
    rw [cb.pos_func]
    by_cases hki : k = i
    · subst hki
      simp
    · rw [Function.update_of_ne hki, if_neg, hpos k hk hki]
      intro he
      apply hkj
      apply entries_nodup_iff.mp hnd k hk j (by omega)
      rw [Function.update_of_ne hki, Function.update_of_ne hj.ne, he]

end Rise

/-! ## The operations

The lists of entries are compared up to order. Where every entry's recorded index
is its position, it is so again afterwards, also for an element that enters.
-/

def Heap.elems (hbt : Heap α) : List α := entries hbt.heap hbt.len

/-- Every entry knows its position. -/
def Heap.Indexed (pos : M → α → ℤ) (m : M) (hbt : Heap α) : Prop :=
  ∀ k < hbt.len, pos m (hbt.heap k) = k

theorem Heap.Indexed.nodup {pos : M → α → ℤ} {m : M} {hbt : Heap α} (h : hbt.Indexed pos m) :
    hbt.elems.Nodup := by
  apply entries_nodup_iff.mpr
  intro i hi j hj he
  have hij := (h i hi).symm.trans ((congrArg (pos m) he).trans (h j hj))
  omega

section Operations
variable {cmp : M → α → α → ℤ} {func : M → α → ℕ → M} {m : M} {hbt : Heap α}

theorem heapInsert_elems (x : α) :
    (heapInsert cmp func m hbt x).2.1.len = hbt.len + 1 ∧
      (heapInsert cmp func m hbt x).2.1.elems.Perm (hbt.elems ++ [x]) := by
  refine ⟨rfl,(rise_perm cmp func _ _ x (Nat.lt_succ_self hbt.len)).trans ?_⟩
  rw [entries_succ, Function.update_idem, Function.update_self]
  refine List.Perm.of_eq (congrArg (· ++ [x]) (entries_congr (fun k hk => ?_)))
  exact Function.update_of_ne hk.ne _ _

theorem heapInsert_preserves {P : M → Prop} {S : α → Prop} (hP : ∀ m a k, S a → P m → P (func m a k))
    {x : α} (hS : ∀ a ∈ hbt.elems, S a) (hx : S x) (h : P m) : P (heapInsert cmp func m hbt x).1 := by
  refine hP _ x _ hx (rise_preserves hP (fun k hk => ?_) (hP m x _ hx h))
  rw [Function.update_of_ne hk.ne]
  exact hS _ (mem_entries.mpr ⟨k,hk,rfl⟩)

theorem heapInsert_indexed [DecidableEq α] {pos : M → α → ℤ} (cb : Callback cmp func pos) {x : α}
    (h : hbt.Indexed pos m) (hx : x ∉ hbt.elems) :
    (heapInsert cmp func m hbt x).2.1.Indexed pos (heapInsert cmp func m hbt x).1 := by
  have hne : ∀ k < hbt.len, hbt.heap k ≠ x := fun k hk he => hx (mem_entries.mpr ⟨k,hk,he⟩)
  have hnd : (entries (Function.update (Function.update hbt.heap hbt.len x) hbt.len x)
      (hbt.len + 1)).Nodup := by
    rw [Function.update_idem, entries_succ, Function.update_self,
      entries_congr (fun k hk => Function.update_of_ne (Nat.ne_of_lt hk) _ _)]
    exact List.nodup_append.mpr ⟨h.nodup,List.nodup_singleton x,
      fun a ha b hb hab => hx (List.mem_singleton.mp hb ▸ hab ▸ ha)⟩
  have hpos : ∀ k < hbt.len + 1, k ≠ hbt.len →
      pos (func m x hbt.len) (Function.update hbt.heap hbt.len x k) = k := by
    intro k hk hkl
    have hkl' : k < hbt.len := by omega
    rw [Function.update_of_ne hkl, cb.pos_func, if_neg (hne k hkl'), h k hkl']
  have hrise := rise_pos cb x (Nat.lt_succ_self hbt.len) hnd hpos
  have hperm := (rise_perm cmp func (func m x hbt.len)
    (Function.update hbt.heap hbt.len x) x (Nat.lt_succ_self hbt.len)).nodup_iff.mpr hnd
  intro k hk
  simp only [heapInsert, cb.pos_func]
  by_cases hki : k = (heapRise cmp func (func m x hbt.len) (Function.update hbt.heap hbt.len x) hbt.len).2.2
  · simp [← hki]
  · have hne' := fun he => hki (entries_nodup_iff.mp hperm k hk _
      (Nat.lt_succ_of_le rise_index) (by rw [Function.update_of_ne hki, Function.update_self]; exact he))
    rw [Function.update_of_ne hki, if_neg hne']
    exact hrise k hk hki

/-- In a heap the second comparison of `heap_insert` is between two entries in order,
so the new element stays or moves up once. -/
theorem heapInsert_cases (hcmp : ∀ m a i, cmp (func m a i) = cmp m) (h : MinHeap (cmp m) hbt.heap hbt.len)
    (x : α) :
    ((hbt.len = 0 ∨ cmp m (hbt.heap (parent hbt.len)) x ≤ 0) ∧
        (heapInsert cmp func m hbt x).2.1.heap = Function.update hbt.heap hbt.len x) ∨
      (0 < hbt.len ∧ 0 < cmp m (hbt.heap (parent hbt.len)) x ∧
        (heapInsert cmp func m hbt x).2.1.heap =
          Function.update (Function.update hbt.heap hbt.len (hbt.heap (parent hbt.len))) (parent hbt.len) x) := by
  by_cases h0 : hbt.len = 0
  · refine Or.inl ⟨Or.inl h0,?_⟩
    simp only [heapInsert]
    rw [heapRise, if_pos h0, Function.update_idem]
  have hlt : parent hbt.len < hbt.len := by unfold parent; omega
  have hj : (hbt.len - 1) / 2 = parent hbt.len := rfl
  by_cases hle : cmp m (hbt.heap (parent hbt.len)) x ≤ 0
  · refine Or.inl ⟨Or.inr hle,?_⟩
    simp only [heapInsert]
    rw [heapRise, if_neg h0]
    simp only [hcmp, hj, Function.update_self, Function.update_of_ne hlt.ne, hle, if_true,
      Function.update_idem]
  · refine Or.inr ⟨by omega,by omega,?_⟩
    simp only [heapInsert]
    rw [heapRise, if_neg h0]
    simp only [hcmp, hj, Function.update_self, Function.update_of_ne hlt.ne, hle, if_false,
      Function.update_idem]
    have hstop : parent hbt.len = 0 ∨
        cmp m (hbt.heap (parent (parent hbt.len))) (hbt.heap (parent hbt.len)) ≤ 0 := by
      rcases Nat.eq_zero_or_pos (parent hbt.len) with hz | hp
      · exact Or.inl hz
      · exact Or.inr (h _ hp hlt)
    rw [heapRise]
    rcases hstop with hz | hle'
    · rw [if_pos hz]
    · split
      · rfl
      · have hgp : (parent hbt.len - 1) / 2 = parent (parent hbt.len) := rfl
        have hgplt : parent (parent hbt.len) < hbt.len := by unfold parent; omega
        simp only [hcmp, hgp, Function.update_of_ne hgplt.ne, Function.update_of_ne hlt.ne, hle', if_true]

/-- Since it moves up at most once, it must not be less than its grandparent. -/
theorem heapInsert_minHeap_iff {S : α → Prop} (hcmp : ∀ m a i, cmp (func m a i) = cmp m)
    (hc : TotalPreorderOn S (cmp m)) (hS : ∀ a ∈ hbt.elems, S a) {x : α} (hx : S x)
    (h : MinHeap (cmp m) hbt.heap hbt.len) :
    MinHeap (cmp m) (heapInsert cmp func m hbt x).2.1.heap (hbt.len + 1) ↔
      parent hbt.len = 0 ∨ cmp m (hbt.heap (parent (parent hbt.len))) x ≤ 0 := by
  have hSk : ∀ k < hbt.len, S (hbt.heap k) := fun k hk => hS _ (mem_entries.mpr ⟨k,hk,rfl⟩)
  have hlt : 0 < hbt.len → parent hbt.len < hbt.len := by unfold parent; omega
  have hltp : 0 < parent hbt.len → parent (parent hbt.len) < parent hbt.len := by unfold parent; omega
  rcases heapInsert_cases hcmp h x with ⟨hle,he⟩ | ⟨h0,hgt,he⟩ <;> rw [he]
  · constructor
    · intro _
      rcases Nat.eq_zero_or_pos (parent hbt.len) with hz | hp
      · exact Or.inl hz
      · have hn : 0 < hbt.len := by unfold parent at hp; omega
        refine Or.inr (hc.trans _ _ _ (hSk _ ?_) (hSk _ (hlt hn)) hx (h _ hp (hlt hn)) ?_)
        · exact (hltp hp).trans (hlt hn)
        · exact hle.resolve_left hn.ne'
    · intro _ i hi hin
      have hp : parent i < i := by unfold parent; omega
      rw [Function.update_of_ne (show parent i ≠ hbt.len by omega)]
      by_cases hil : i = hbt.len
      · subst hil
        rw [Function.update_self]
        exact hle.resolve_left hi.ne'
      · rw [Function.update_of_ne hil]
        exact h i hi (by omega)
  · have hxj : cmp m x (hbt.heap (parent hbt.len)) ≤ 0 := hc.le_of_pos (hSk _ (hlt h0)) hx hgt
    have hjl := hlt h0
    constructor
    · intro hheap
      rcases Nat.eq_zero_or_pos (parent hbt.len) with hz | hp
      · exact Or.inl hz
      · have := hheap (parent hbt.len) hp (by omega)
        have hgp := hltp hp
        rw [Function.update_self, Function.update_of_ne hgp.ne, Function.update_of_ne (by omega)] at this
        exact Or.inr this
    · intro hgp i hi hin
      have hpi : parent i < i := by unfold parent; omega
      by_cases hil : i = hbt.len
      · subst hil
        simpa [hjl.ne'] using hxj
      · have hold := h i hi (by omega)
        by_cases hij : i = parent hbt.len
        · have hne : parent i ≠ hbt.len := by omega
          subst hij
          simpa [hpi.ne, hne] using hgp.resolve_left hi.ne'
        · by_cases hpj : parent i = parent hbt.len
          · rw [hpj] at hold ⊢
            simpa [hij, hil] using hc.trans _ _ _ hx (hSk _ hjl) (hSk i (by omega)) hxj hold
          · have hne : parent i ≠ hbt.len := by omega
            simpa [hij, hil, hpj, hne] using hold

/-- Whether or not the hole moved, the array is the one with the element in the hole. -/
theorem heapAdjustSiftdown_heap (index : ℕ) :
    (heapAdjustSiftdown cmp func m hbt index).2 =
      ⟨Function.update (heapSiftHole cmp func hbt.len (hbt.heap index) m hbt.heap index).2.1
        (heapSiftHole cmp func hbt.len (hbt.heap index) m hbt.heap index).2.2 (hbt.heap index),
        hbt.len,hbt.maxSize⟩ := by
  unfold heapAdjustSiftdown
  dsimp only
  split
  · rfl
  · rename_i h
    rw [siftHole_stay (not_not.mp h), Function.update_eq_self]

theorem heapAdjustSiftdown_elems (cmp : M → α → α → ℤ) (func : M → α → ℕ → M) (m : M) {index : ℕ}
    (hi : index < hbt.len) :
    (heapAdjustSiftdown cmp func m hbt index).2.elems.Perm hbt.elems := by
  rw [heapAdjustSiftdown_heap]
  apply (siftHole_perm cmp func m hi).trans
  rw [Function.update_eq_self, Heap.elems]

@[simp] theorem heapAdjustSiftdown_len (index : ℕ) :
    (heapAdjustSiftdown cmp func m hbt index).2.len = hbt.len := by
  rw [heapAdjustSiftdown_heap]

theorem heapAdjustSiftdown_preserves {P : M → Prop} {S : α → Prop}
    (hP : ∀ m a k, S a → P m → P (func m a k)) (hS : ∀ a ∈ hbt.elems, S a) {index : ℕ}
    (hi : index < hbt.len) (h : P m) : P (heapAdjustSiftdown cmp func m hbt index).1 := by
  have hk : ∀ k < hbt.len, S (hbt.heap k) := fun k hk => hS _ (mem_entries.mpr ⟨k,hk,rfl⟩)
  have hsift : P (heapSiftHole cmp func hbt.len (hbt.heap index) m hbt.heap index).1 :=
    siftHole_preserves hP (fun k hkl _ => hk k hkl) h
  unfold heapAdjustSiftdown
  dsimp only
  split
  · exact hP _ _ _ (hk index hi) hsift
  · exact hsift

/-- Filling the hole with an element that is nowhere else makes the array indexed. -/
theorem siftHole_indexed [DecidableEq α] {pos : M → α → ℤ} (cb : Callback cmp func pos) {n : ℕ} {elem : α}
    {arr : ℕ → α} {i : ℕ} (hi : i < n) (hnd : (entries (Function.update arr i elem) n).Nodup)
    (hpos : ∀ k < n, k ≠ i → pos m (arr k) = k) :
    ∀ k < n, pos (func (heapSiftHole cmp func n elem m arr i).1 elem (heapSiftHole cmp func n elem m arr i).2.2)
      (Function.update (heapSiftHole cmp func n elem m arr i).2.1
        (heapSiftHole cmp func n elem m arr i).2.2 elem k) = k := by
  intro k hk
  rw [cb.pos_func]
  by_cases hki : k = (heapSiftHole cmp func n elem m arr i).2.2
  · simp [← hki]
  · have hperm := (siftHole_perm cmp func m hi).nodup_iff.mpr hnd
    have hne := fun he => hki (entries_nodup_iff.mp hperm k hk _ (siftHole_index hi).2
      (by rw [Function.update_of_ne hki, Function.update_self]; exact he))
    rw [Function.update_of_ne hki, if_neg hne]
    exact siftHole_pos cb hi hnd hpos k hk hki

theorem heapAdjustSiftdown_indexed [DecidableEq α] {pos : M → α → ℤ} (cb : Callback cmp func pos)
    (h : hbt.Indexed pos m) {index : ℕ} (hi : index < hbt.len) :
    (heapAdjustSiftdown cmp func m hbt index).2.Indexed pos (heapAdjustSiftdown cmp func m hbt index).1 := by
  have hnd : (entries (Function.update hbt.heap index (hbt.heap index)) hbt.len).Nodup := by
    rw [Function.update_eq_self]
    exact h.nodup
  intro k hk
  rw [heapAdjustSiftdown_len] at hk
  by_cases hstay : (heapSiftHole cmp func hbt.len (hbt.heap index) m hbt.heap index).2.2 = index
  · have hrun := siftHole_stay hstay
    simp only [heapAdjustSiftdown, hrun, ne_eq, not_true_eq_false, if_false]
    exact h k hk
  · rw [heapAdjustSiftdown_heap]
    simp only [heapAdjustSiftdown, ne_eq, hstay, not_false_eq_true, if_true]
    exact siftHole_indexed cb hi hnd (fun k hk _ => h k hk) k hk

theorem heapAdjustSiftdown_minHeap {S : α → Prop} (hcmp : ∀ m a i, cmp (func m a i) = cmp m)
    (hc : TotalPreorderOn S (cmp m)) (hS : ∀ a ∈ hbt.elems, S a) {index : ℕ} (hi : index < hbt.len)
    (ho : DownOrder (cmp m) hbt.heap hbt.len index (hbt.heap index)) :
    MinHeap (cmp m) (heapAdjustSiftdown cmp func m hbt index).2.heap hbt.len := by
  have hk : ∀ k < hbt.len, S (hbt.heap k) := fun k hk => hS _ (mem_entries.mpr ⟨k,hk,rfl⟩)
  rw [heapAdjustSiftdown_heap]
  exact siftHole_minHeap hcmp hc (fun k hkl _ => hk k hkl) (hk index hi) ho

/-! `heap_replace_least`, where the new element is greater than the root. -/

theorem heapReplaceLeast_keep {new : α} (h : cmp m new (hbt.heap 0) ≤ 0) :
    heapReplaceLeast cmp func m hbt new = (m,hbt,new) := by
  simp [heapReplaceLeast, h]

@[simp] theorem heapReplaceLeast_len (new : α) : (heapReplaceLeast cmp func m hbt new).2.1.len = hbt.len := by
  unfold heapReplaceLeast
  dsimp only
  split <;> rfl

theorem heapReplaceLeast_out {new : α} (h : 0 < cmp m new (hbt.heap 0)) :
    (heapReplaceLeast cmp func m hbt new).2.2 = hbt.heap 0 := by
  simp [heapReplaceLeast, show ¬cmp m new (hbt.heap 0) ≤ 0 by omega]

theorem heapReplaceLeast_elems {new : α} (h : 0 < cmp m new (hbt.heap 0)) (hn : 0 < hbt.len) :
    (heapReplaceLeast cmp func m hbt new).2.1.elems.Perm (entries (Function.update hbt.heap 0 new) hbt.len) := by
  simp only [heapReplaceLeast, show ¬cmp m new (hbt.heap 0) ≤ 0 by omega, if_false]
  exact siftHole_perm cmp func m hn

/-- The callback sees the new element and those that stay, not the one pushed out. -/
theorem heapReplaceLeast_preserves {P : M → Prop} {S : α → Prop} (hP : ∀ m a k, S a → P m → P (func m a k))
    (hS : ∀ k < hbt.len, k ≠ 0 → S (hbt.heap k)) {new : α} (hnew : S new) (h : P m) :
    P (heapReplaceLeast cmp func m hbt new).1 := by
  unfold heapReplaceLeast
  dsimp only
  split
  · exact h
  · exact hP _ _ _ hnew (siftHole_preserves hP hS h)

theorem heapReplaceLeast_indexed [DecidableEq α] {pos : M → α → ℤ} (cb : Callback cmp func pos) {new : α}
    (h : hbt.Indexed pos m) (hx : new ∉ hbt.elems) :
    (heapReplaceLeast cmp func m hbt new).2.1.Indexed pos (heapReplaceLeast cmp func m hbt new).1 := by
  by_cases hle : cmp m new (hbt.heap 0) ≤ 0
  · rw [heapReplaceLeast_keep hle]
    exact h
  intro k hk
  rw [heapReplaceLeast_len] at hk
  have hn : 0 < hbt.len := by omega
  have hnd : (entries (Function.update hbt.heap 0 new) hbt.len).Nodup := by
    apply entries_nodup_iff.mpr
    intro i hi j hj he
    have hne : ∀ k < hbt.len, hbt.heap k ≠ new := fun k hk he => hx (mem_entries.mpr ⟨k,hk,he⟩)
    by_cases hi0 : i = 0 <;> by_cases hj0 : j = 0
    · rw [hi0, hj0]
    · rw [hi0, Function.update_self, Function.update_of_ne hj0] at he
      exact absurd he.symm (hne j hj)
    · rw [hj0, Function.update_self, Function.update_of_ne hi0] at he
      exact absurd he (hne i hi)
    · rw [Function.update_of_ne hi0, Function.update_of_ne hj0] at he
      exact entries_nodup_iff.mp h.nodup i hi j hj he
  simp only [heapReplaceLeast, hle, if_false]
  exact siftHole_indexed cb hn hnd (fun k hk _ => h k hk) k hk

theorem heapReplaceLeast_minHeap {S : α → Prop} (hcmp : ∀ m a i, cmp (func m a i) = cmp m)
    (hc : TotalPreorderOn S (cmp m)) (hS : ∀ a ∈ hbt.elems, S a) {new : α} (hnew : S new)
    (h : MinHeap (cmp m) hbt.heap hbt.len) :
    MinHeap (cmp m) (heapReplaceLeast cmp func m hbt new).2.1.heap hbt.len := by
  by_cases hle : cmp m new (hbt.heap 0) ≤ 0
  · rw [heapReplaceLeast_keep hle]
    exact h
  · rcases Nat.eq_zero_or_pos hbt.len with h0 | hn
    · intro i hi hlt
      omega
    simp only [heapReplaceLeast, hle, if_false]
    have hk : ∀ k < hbt.len, S (hbt.heap k) := fun k hk => hS _ (mem_entries.mpr ⟨k,hk,rfl⟩)
    exact siftHole_minHeap hcmp hc (fun k hkl _ => hk k hkl) hnew
      (h.downOrder hc hk hnew hn (hc.le_of_pos hnew (hk 0 hn) (by omega)))

end Operations

end LogStats
