import LogStats.NameTree.Counting
import LogStats.NameTree.Delete
import LogStats.NameTree.Reply

/-! # The heap of a name tree and the nodes that know their place in it

The heap holds addresses of values. Insertion keeps every entry's recorded index
right. What it does not keep is that a node outside of the heap is marked as such,
since `heap_replace_least` leaves the mark of the node it pushes out, and what a
deletion does not keep is that entries are nodes of the tree.
-/
namespace LogStats

open NameTree

/-- What the callback records. -/
def indexIn (mem : ℕ → NodeValue) (a : ℕ) : ℤ := (mem a).heapIndex

theorem elemCallback : Callback elemCompare elemInsert indexIn where
  cmp_func := by
    intro mem a i
    funext b c
    have hcount : ∀ x, (elemInsert mem a i x).count = (mem x).count := by
      intro x
      by_cases hx : x = a
      · subst hx
        simp [elemInsert]
      · simp [elemInsert, hx]
    rw [elemCompare, elemCompare, hcount, hcount]
  pos_func := by
    intro mem a i b
    by_cases hb : b = a
    · subst hb
      simp [elemInsert, indexIn]
    · simp [elemInsert, indexIn, hb]

namespace NameTree

/-- With its new count the node is greater than the root, whichever way they are compared. -/
def Outranks (t : NameTree) (v : ℕ) : Prop :=
  elemCompare (t.bump v) (t.heap.heap 0) v < 0 ∧ 0 < elemCompare (t.bump v) v (t.heap.heap 0)

instance (t : NameTree) (v : ℕ) : Decidable (t.Outranks v) := inferInstanceAs (Decidable (_ ∧ _))

/-- All that counting a node can do with the heap. -/
theorem nameTreeCount_cases (t : NameTree) (v : ℕ) :
    (t.heapIndexOf v ≠ -1 ∧ nameTreeCount t v =
      let out := heapAdjustSiftdown elemCompare elemInsert (t.bump v) t.heap (t.heapIndexOf v).toNat
      { t with mem := out.1, heap := out.2 }) ∨
    (t.heapIndexOf v = -1 ∧ t.heap.len < 1000 ∧ nameTreeCount t v =
      let out := heapInsert elemCompare elemInsert (t.bump v) t.heap v
      { t with mem := out.1, heap := out.2.1 }) ∨
    (t.heapIndexOf v = -1 ∧ 1000 ≤ t.heap.len ∧ ¬t.Outranks v ∧ nameTreeCount t v = { t with mem := t.bump v }) ∨
    (t.heapIndexOf v = -1 ∧ 1000 ≤ t.heap.len ∧ t.Outranks v ∧ nameTreeCount t v =
      let out := heapReplaceLeast elemCompare elemInsert (t.bump v) t.heap v
      { t with mem := out.1, heap := out.2.1 }) := by
  have hidx : (t.bump v v).heapIndex = t.heapIndexOf v := by simp [bump, heapIndexOf]
  unfold nameTreeCount
  change _ ∨ _ ∨ _ ∨ _
  dsimp only
  rw [show Function.update t.mem v { t.mem v with count := (t.mem v).count + 1 } = t.bump v from rfl, hidx]
  by_cases hi : t.heapIndexOf v = -1
  · rw [if_neg (not_not.mpr hi)]
    by_cases hroof : 1000 ≤ t.heap.len
    · have hr : heapReachRoof t.heap 1000 = true := by simpa [heapReachRoof] using hroof
      rw [if_pos hr]
      by_cases hmin : elemCompare (t.bump v) (t.heap.heap 0) v < 0
      · have hm : heapMinLessThan elemCompare (t.bump v) t.heap v = true := by simpa [heapMinLessThan] using hmin
        rw [if_pos hm]
        by_cases hgt : 0 < elemCompare (t.bump v) v (t.heap.heap 0)
        · exact Or.inr (Or.inr (Or.inr ⟨hi,hroof,⟨hmin,hgt⟩,rfl⟩))
        · refine Or.inr (Or.inr (Or.inl ⟨hi,hroof,fun h => hgt h.2,?_⟩))
          rw [heapReplaceLeast_keep (not_lt.mp hgt)]
      · have hm : ¬heapMinLessThan elemCompare (t.bump v) t.heap v = true := by simpa [heapMinLessThan] using hmin
        rw [if_neg hm]
        exact Or.inr (Or.inr (Or.inl ⟨hi,hroof,fun h => hmin h.1,rfl⟩))
    · have hr : ¬heapReachRoof t.heap 1000 = true := by simpa [heapReachRoof] using hroof
      rw [if_neg hr]
      exact Or.inr (Or.inl ⟨hi,by omega,rfl⟩)
  · rw [if_pos hi]
    exact Or.inl ⟨hi,rfl⟩

/-! ## Entries and their recorded indices -/

/-- Entries record their indices, and what a tracked node records is -1 or the index of
some entry. -/
structure HeapWf (t : NameTree) : Prop where
  indexed : t.heap.Indexed indexIn t.mem
  inside : ∀ v ∈ t.values, t.heapIndexOf v = -1 ∨ ∃ i < t.heap.len, t.heapIndexOf v = i

section Count
variable {t : NameTree} {v : ℕ}

theorem not_mem_heap (h : t.heap.Indexed indexIn t.mem) (hv : t.heapIndexOf v = -1) :
    v ∉ t.heap.elems := by
  intro hm
  obtain ⟨k,hk,he⟩ := mem_entries.mp hm
  have hidx : t.heapIndexOf (t.heap.heap k) = k := h k hk
  rw [he] at hidx
  omega

theorem bump_indexed (h : t.heap.Indexed indexIn t.mem) :
    t.heap.Indexed indexIn (t.bump v) := by
  intro k hk
  have hidx := h k hk
  by_cases hkv : t.heap.heap k = v
  · rw [← hidx, hkv]
    simp [bump, indexIn]
  · rw [← hidx]
    simp [bump, indexIn, hkv]

theorem nameTreeCount_indexed (h : t.heap.Indexed indexIn t.mem)
    (hv : t.heapIndexOf v = -1 ∨ ∃ i < t.heap.len, t.heapIndexOf v = i) :
    (nameTreeCount t v).heap.Indexed indexIn (nameTreeCount t v).mem := by
  have hb := bump_indexed (v := v) h
  rcases nameTreeCount_cases t v with ⟨hi,he⟩ | ⟨hi,-,he⟩ | ⟨hi,-,-,he⟩ | ⟨hi,-,-,he⟩ <;> rw [he]
  · obtain ⟨i,hlt,hvi⟩ := hv.resolve_left hi
    exact heapAdjustSiftdown_indexed elemCallback hb (by omega)
  · exact heapInsert_indexed elemCallback hb (not_mem_heap h hi)
  · exact hb
  · exact heapReplaceLeast_indexed elemCallback hb (not_mem_heap h hi)

theorem nameTreeCount_len : t.heap.len ≤ (nameTreeCount t v).heap.len := by
  rcases nameTreeCount_cases t v with ⟨-,he⟩ | ⟨-,-,he⟩ | ⟨-,-,-,he⟩ | ⟨-,-,-,he⟩ <;> rw [he]
  · simp
  · exact Nat.le_succ _
  · simp

/-- Entries come from the heap before, or are the node that was counted. -/
theorem nameTreeCount_elems (hv : t.heapIndexOf v = -1 ∨ ∃ i < t.heap.len, t.heapIndexOf v = i) {a : ℕ}
    (ha : a ∈ (nameTreeCount t v).heap.elems) : a ∈ t.heap.elems ∨ a = v := by
  rcases nameTreeCount_cases t v with ⟨hi,he⟩ | ⟨-,-,he⟩ | ⟨-,-,-,he⟩ | ⟨-,hroof,hr,he⟩ <;> rw [he] at ha
  · obtain ⟨i,hlt,hvi⟩ := hv.resolve_left hi
    exact Or.inl ((heapAdjustSiftdown_elems _ _ _ (by omega)).mem_iff.mp ha)
  · rcases List.mem_append.mp ((heapInsert_elems v).2.mem_iff.mp ha) with hm | hm
    · exact Or.inl hm
    · exact Or.inr (List.mem_singleton.mp hm)
  · exact Or.inl ha
  · obtain ⟨k,hk,rfl⟩ := mem_entries.mp ((heapReplaceLeast_elems hr.2 (by omega)).mem_iff.mp ha)
    by_cases h0 : k = 0
    · subst h0
      exact Or.inr (Function.update_self _ _ _)
    · rw [Function.update_of_ne h0]
      exact Or.inl (mem_entries.mpr ⟨k,hk,rfl⟩)

private theorem elemInsert_other {mem : ℕ → NodeValue} {a b k : ℕ} (h : b ≠ a) :
    (elemInsert mem b k a).heapIndex = (mem a).heapIndex := by simp [elemInsert, h.symm]

/-- A node outside of the heap afterwards records what it did before. -/
theorem nameTreeCount_heapIndex (hv : t.heapIndexOf v = -1 ∨ ∃ i < t.heap.len, t.heapIndexOf v = i) {a : ℕ}
    (ha : a ∉ (nameTreeCount t v).heap.elems) : (nameTreeCount t v).heapIndexOf a = t.heapIndexOf a := by
  have hbump : (t.bump v a).heapIndex = t.heapIndexOf a := by
    by_cases hav : a = v
    · subst hav
      simp [bump, heapIndexOf]
    · simp [bump, hav, heapIndexOf]
  have hkeep : ∀ (mem : ℕ → NodeValue) (b k : ℕ), b ≠ a → (mem a).heapIndex = t.heapIndexOf a →
      (elemInsert mem b k a).heapIndex = t.heapIndexOf a :=
    fun mem b k hb hm => (elemInsert_other hb).trans hm
  have hne : ∀ (l : List ℕ), a ∉ l → ∀ b ∈ l, b ≠ a := fun l hl b hb he => hl (he ▸ hb)
  rcases nameTreeCount_cases t v with ⟨hi,he⟩ | ⟨-,-,he⟩ | ⟨-,-,-,he⟩ | ⟨-,hroof,hr,he⟩ <;> rw [he] at ha ⊢
  · obtain ⟨i,hlt,hvi⟩ := hv.resolve_left hi
    have hold : a ∉ t.heap.elems := fun hm =>
      ha ((heapAdjustSiftdown_elems elemCompare elemInsert (t.bump v) (by omega)).mem_iff.mpr hm)
    exact heapAdjustSiftdown_preserves (P := fun mem : ℕ → NodeValue => (mem a).heapIndex = t.heapIndexOf a) hkeep (hne _ hold)
      (by omega) hbump
  · have hold : a ∉ t.heap.elems ++ [v] := fun hm => ha ((heapInsert_elems v).2.mem_iff.mpr hm)
    exact heapInsert_preserves (P := fun mem : ℕ → NodeValue => (mem a).heapIndex = t.heapIndexOf a) hkeep
      (fun b hb => hne _ hold b (List.mem_append_left _ hb)) (hne _ hold v (by simp)) hbump
  · exact hbump
  · have hold : a ∉ entries (Function.update t.heap.heap 0 v) t.heap.len := fun hm =>
      ha ((heapReplaceLeast_elems hr.2 (by omega)).mem_iff.mpr hm)
    have hv0 : v ≠ a := hne _ hold v (mem_entries.mpr ⟨0,by omega,Function.update_self _ _ _⟩)
    refine heapReplaceLeast_preserves (P := fun mem : ℕ → NodeValue => (mem a).heapIndex = t.heapIndexOf a) hkeep ?_ hv0 hbump
    intro k hk hk0
    exact hne _ hold _ (mem_entries.mpr ⟨k,hk,Function.update_of_ne hk0 _ _⟩)

end Count

/-! ## One insertion -/

section Step
variable {t t' : NameTree} {cells : List ℕ}

/-- The heap of a tree in which all entries are nodes of the tree. -/
structure HeapInside (t : NameTree) : Prop extends HeapWf t where
  live : ∀ a ∈ t.heap.elems, a ∈ t.values

theorem HeapInside.refused (h : t.HeapInside) (hr : Refused t t') : t'.HeapInside := by
  have hmem : ∀ k < t.heap.len, t'.mem (t.heap.heap k) = t.mem (t.heap.heap k) := by
    intro k hk
    exact hr.mem_eq _ (h.live _ (mem_entries.mpr ⟨k,hk,rfl⟩))
  refine ⟨⟨?_,?_⟩,?_⟩
  · rw [hr.heap_eq]
    intro k hk
    rw [indexIn, hmem k hk]
    exact h.indexed k hk
  · rw [hr.values_eq, hr.heap_eq]
    intro v hv
    rw [heapIndexOf, hr.mem_eq v hv]
    exact h.inside v hv
  · rw [hr.heap_eq, hr.values_eq]
    exact h.live

/-- The state in which the counting starts. -/
theorem Tracks.heapInside {t₁ : NameTree} {s : CString} {v : ℕ} (ht : Tracks t t₁ s v) (h : t.HeapInside) :
    t₁.HeapInside ∧ v ∈ t₁.values := by
  have hmem : ∀ k < t.heap.len, t₁.mem (t.heap.heap k) = t.mem (t.heap.heap k) := by
    intro k hk
    exact ht.mem_eq _ (h.live _ (mem_entries.mpr ⟨k,hk,rfl⟩))
  have hindexed : t₁.heap.Indexed indexIn t₁.mem := by
    rw [ht.heap_eq]
    intro k hk
    rw [indexIn, hmem k hk]
    exact h.indexed k hk
  have hold : ∀ a ∈ t.values, t₁.heapIndexOf a = -1 ∨ ∃ i < t₁.heap.len, t₁.heapIndexOf a = i := by
    intro a ha
    rw [ht.heap_eq, heapIndexOf, ht.mem_eq a ha]
    exact h.inside a ha
  by_cases hv : v ∈ t.values
  · have hvals : t₁.values = t.values := by rw [values, (ht.hit hv).1, values]
    refine ⟨⟨⟨hindexed,?_⟩,?_⟩,hvals ▸ hv⟩
    · rw [hvals]
      exact hold
    · rw [hvals, ht.heap_eq]
      exact h.live
  · obtain ⟨hperm,-,hidx,-⟩ := ht.new hv
    refine ⟨⟨⟨hindexed,?_⟩,?_⟩,hperm.mem_iff.mpr List.mem_cons_self⟩
    · intro a ha
      rcases List.mem_cons.mp (hperm.mem_iff.mp ha) with rfl | ha
      · exact Or.inl hidx
      · exact hold a ha
    · rw [ht.heap_eq]
      exact fun a ha => hperm.mem_iff.mpr (List.mem_cons_of_mem _ (h.live a ha))

theorem HeapInside.counted {v : ℕ} (h : t.HeapInside) (hv : v ∈ t.values) : (nameTreeCount t v).HeapInside := by
  have hin := h.inside v hv
  have hvals := (nameTreeCount_counted t v).values_eq
  have hindexed := nameTreeCount_indexed h.indexed hin
  refine ⟨⟨hindexed,?_⟩,?_⟩
  · rw [hvals]
    intro a ha
    by_cases hm : a ∈ (nameTreeCount t v).heap.elems
    · obtain ⟨k,hk,rfl⟩ := mem_entries.mp hm
      exact Or.inr ⟨k,hk,hindexed k hk⟩
    · rw [nameTreeCount_heapIndex hin hm]
      rcases h.inside a ha with hneg | ⟨i,hi,he⟩
      · exact Or.inl hneg
      · exact Or.inr ⟨i,hi.trans_le nameTreeCount_len,he⟩
  · rw [hvals]
    intro a ha
    rcases nameTreeCount_elems hin ha with hm | rfl
    · exact h.live a hm
    · exact hv

theorem HeapInside.inserted {malloc : Mallocs} {name : CString} {r : ℤ} (h : t.HeapInside) (hwf : t.Wf cells)
    (hr : nameTreeInsert malloc t name = some (t',r)) : t'.HeapInside := by
  rcases nameTreeInsert_cases hwf hr with ⟨-,href,-⟩ | ⟨-,-,s,v,t₁,cells',-,ht,rfl,-⟩
  · exact h.refused href
  · obtain ⟨h₁,hv⟩ := ht.heapInside h
    exact h₁.counted hv

/-- A deletion keeps all this if the node was not in the heap. -/
theorem HeapInside.removed {v : ℕ} (h : t.HeapInside) (hr : Removed t t' v) (hv : v ∉ t.heap.elems) :
    t'.HeapInside := by
  have hperm := hr.perm
  have hne : ∀ a ∈ t.heap.elems, a ≠ v := fun a ha he => hv (he ▸ ha)
  refine ⟨⟨?_,?_⟩,?_⟩
  · rw [hr.heap_eq]
    intro k hk
    rw [indexIn, hr.mem_eq _ (hne _ (mem_entries.mpr ⟨k,hk,rfl⟩))]
    exact h.indexed k hk
  · intro a ha
    have hidx : t'.heapIndexOf a = t.heapIndexOf a := by
      by_cases hav : a = v
      · rw [hav]
        exact hr.heapIndex_eq
      · rw [heapIndexOf, hr.mem_eq a hav, heapIndexOf]
    rw [hr.heap_eq, hidx]
    exact h.inside a (hperm.mem_iff.mpr (List.mem_cons_of_mem _ ha))
  · rw [hr.heap_eq]
    intro a ha
    rcases List.mem_cons.mp (hperm.mem_iff.mp (h.live a ha)) with he | hm
    · exact absurd he (hne a ha)
    · exact hm

/-- While the heap is not full it holds every node. -/
structure Filled (t : NameTree) : Prop where
  len_le : t.heap.len ≤ 1000
  all : t.heap.len < 1000 → ∀ v ∈ t.values, v ∈ t.heap.elems

theorem Filled.counted {v : ℕ} (hle : t.heap.len ≤ 1000) (h : t.HeapInside) (hv : v ∈ t.values)
    (hall : t.heap.len < 1000 → ∀ a ∈ t.values, (a = v ∧ t.heapIndexOf v = -1) ∨ a ∈ t.heap.elems) :
    (nameTreeCount t v).Filled := by
  have hin := h.inside v hv
  have hvals := (nameTreeCount_counted t v).values_eq
  constructor
  · rcases nameTreeCount_cases t v with ⟨-,he⟩ | ⟨-,hlt,he⟩ | ⟨-,-,-,he⟩ | ⟨-,-,-,he⟩ <;> rw [he]
    · simpa using hle
    · exact hlt
    · exact hle
    · simpa using hle
  · intro hlt a ha
    rw [hvals] at ha
    have hlt' : t.heap.len < 1000 := nameTreeCount_len.trans_lt hlt
    rcases nameTreeCount_cases t v with ⟨hi,he⟩ | ⟨-,-,he⟩ | ⟨-,hroof,-⟩ | ⟨-,hroof,-⟩
    · obtain ⟨i,hilt,hvi⟩ := hin.resolve_left hi
      rw [he]
      refine (heapAdjustSiftdown_elems _ _ _ (by omega)).mem_iff.mpr ((hall hlt' a ha).resolve_left ?_)
      exact fun hav => hi hav.2
    · rw [he]
      apply (heapInsert_elems v).2.mem_iff.mpr
      rcases hall hlt' a ha with ⟨rfl,-⟩ | hm
      · exact List.mem_append_right _ (List.mem_singleton_self a)
      · exact List.mem_append_left _ hm
    · omega
    · omega

theorem Filled.inserted {malloc : Mallocs} {name : CString} {r : ℤ} (hf : t.Filled) (h : t.HeapInside)
    (hwf : t.Wf cells) (hr : nameTreeInsert malloc t name = some (t',r)) : t'.Filled := by
  rcases nameTreeInsert_cases hwf hr with ⟨-,href,-⟩ | ⟨-,-,s,v,t₁,cells',-,ht,rfl,-⟩
  · refine ⟨href.heap_eq ▸ hf.len_le,?_⟩
    rw [href.heap_eq, href.values_eq]
    exact hf.all
  · obtain ⟨h₁,hv⟩ := ht.heapInside h
    apply Filled.counted (ht.heap_eq ▸ hf.len_le) h₁ hv
    intro hlt a ha
    rw [ht.heap_eq] at hlt ⊢
    by_cases hvt : v ∈ t.values
    · rw [values, (ht.hit hvt).1] at ha
      exact Or.inr (hf.all hlt a ha)
    · obtain ⟨hperm,-,hidx,-⟩ := ht.new hvt
      rcases List.mem_cons.mp (hperm.mem_iff.mp ha) with rfl | hm
      · exact Or.inl ⟨rfl,hidx⟩
      · exact Or.inr (hf.all hlt a hm)

/-- The heap has 1000 entries, or as many as there are nodes. -/
theorem Filled.len_eq (hf : t.Filled) (h : t.HeapInside) (hwf : t.Wf cells) :
    t.heap.len = min 1000 t.values.length := by
  have hnd := h.indexed.nodup
  have hlen : t.heap.elems.length = t.heap.len := length_entries _ _
  have hsub := (List.subperm_of_subset hnd h.live).length_le
  rcases Nat.lt_or_ge t.heap.len 1000 with hlt | hge
  · have hsub' := (List.subperm_of_subset hwf.values_nodup (hf.all hlt)).length_le
    omega
  · have hle := hf.len_le
    omega

end Step

theorem create_heapInside {memory : NameTreeMemory} (h : nameTreeCreate memory = some t) :
    ∃ cells, t.Wf cells ∧ t.HeapInside ∧ t.Filled ∧ t.values = [] := by
  obtain ⟨t',ht',hwf,hv,hheap,-⟩ := nameTreeCreate_wf memory
  obtain rfl : t' = t := Option.some_inj.mp (ht'.symm.trans h)
  refine ⟨[],hwf,⟨⟨?_,by simp [hv]⟩,?_⟩,⟨by simp [hheap, heapInit],by simp [hv]⟩,hv⟩
  · rw [hheap]
    intro k hk
    exact absurd hk (Nat.not_lt_zero k)
  · rw [hheap]
    simp [Heap.elems, heapInit, entries]

end NameTree

end LogStats
