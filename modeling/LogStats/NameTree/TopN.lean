import LogStats.NameTree.HeapRuns
import LogStats.NameTree.Reply

/-! # The reply lists the names that were counted most

While the heap keeps its order and no node outside of it has a greater count than an
entry, the sorted copy starts with the names of the greatest counts. Two branches of
`name_tree_insert` break this. `heap_insert` moves the new entry up by one place
only, and a node that was pushed out still has an index, so that it does not compete
for a place when it is counted again.
-/
namespace LogStats

open NameTree

/-- What the reply for the `topn` names of a log should be. -/
structure StatsReply.TopN (reply : StatsReply) (log : List CString) (topn : ℤ) : Prop where
  distinct : reply.name.Nodup
  logged : ∀ s ∈ reply.name, s ∈ log
  counts : reply.count = reply.name.map (fun s => (log.count s : ℤ))
  descending : reply.count.Pairwise (fun a b => b ≤ a)
  length_eq : (reply.name.length : ℤ) = min topn log.dedup.length
  omitted : ∀ s ∈ log, s ∉ reply.name → ∀ u ∈ reply.name, log.count s ≤ log.count u

/-! ## Comparing counts -/

theorem toInt32_sub {a b : UInt32} (ha : a.toNat < 2 ^ 31) (hb : b.toNat < 2 ^ 31) :
    (a - b).toInt32.toInt = a.toNat - b.toNat := by
  have hsub : (a - b).toInt32.toInt = (a.toBitVec - b.toBitVec).toInt := rfl
  rw [hsub, BitVec.toInt_sub, BitVec.toInt_eq_toNat_of_lt, BitVec.toInt_eq_toNat_of_lt]
  · have hat : a.toBitVec.toNat = a.toNat := rfl
    have hbt : b.toBitVec.toNat = b.toNat := rfl
    rw [hat, hbt, Int.bmod_eq_of_le (by omega) (by omega)]
  · exact (by omega : 2 * b.toNat < 2 ^ 32)
  · exact (by omega : 2 * a.toNat < 2 ^ 32)

theorem elemCompare_eq {mem : ℕ → NodeValue} {a b : ℕ} (ha : (mem a).count.toNat < 2 ^ 31)
    (hb : (mem b).count.toNat < 2 ^ 31) :
    elemCompare mem a b = (mem a).count.toNat - (mem b).count.toNat := toInt32_sub ha hb

theorem elemCompare_le_iff {mem : ℕ → NodeValue} {a b : ℕ} (ha : (mem a).count.toNat < 2 ^ 31)
    (hb : (mem b).count.toNat < 2 ^ 31) :
    elemCompare mem a b ≤ 0 ↔ (mem a).count.toNat ≤ (mem b).count.toNat := by
  rw [elemCompare_eq ha hb]
  omega

theorem elemCompare_preorder (mem : ℕ → NodeValue) :
    TotalPreorderOn (fun a => (mem a).count.toNat < 2 ^ 31) (elemCompare mem) where
  pos_iff a b ha hb := by
    rw [elemCompare_eq ha hb, elemCompare_eq hb ha]
    omega
  trans a b c ha hb hc hab hbc := by
    rw [elemCompare_le_iff ha hb] at hab
    rw [elemCompare_le_iff hb hc] at hbc
    rw [elemCompare_le_iff ha hc]
    exact hab.trans hbc

theorem elemCompare_congr {mem mem' : ℕ → NodeValue} (h : ∀ a, (mem' a).count = (mem a).count) :
    elemCompare mem' = elemCompare mem := by
  funext a b
  rw [elemCompare, elemCompare, h, h]

namespace NameTree

/-! ## The order of the heap -/

/-- The heap is ordered and has the greatest counts. -/
structure Ranked (t : NameTree) : Prop where
  small : ∀ v ∈ t.values, t.countOf v < 2 ^ 31
  minHeap : MinHeap (elemCompare t.mem) t.heap.heap t.heap.len
  outside : ∀ v ∈ t.values, v ∉ t.heap.elems → ∀ a ∈ t.heap.elems, t.countOf v ≤ t.countOf a

section Step
variable {t t₁ t' : NameTree} {cells : List ℕ} {s : CString} {v : ℕ}

theorem Ranked.root_le (h : t.Ranked) (hin : t.HeapInside) {a : ℕ} (ha : a ∈ t.heap.elems) :
    t.countOf (t.heap.heap 0) ≤ t.countOf a := by
  obtain ⟨k,hk,rfl⟩ := mem_entries.mp ha
  have hsmall : ∀ i < t.heap.len, t.countOf (t.heap.heap i) < 2 ^ 31 := fun i hi =>
    h.small _ (hin.live _ (mem_entries.mpr ⟨i,hi,rfl⟩))
  have hle := h.minHeap.root_le (elemCompare_preorder t.mem) hsmall hk
  exact (elemCompare_le_iff (hsmall 0 (by omega)) (hsmall k hk)).mp hle

theorem Ranked.refused (h : t.Ranked) (hin : t.HeapInside) (hr : Refused t t') : t'.Ranked := by
  have hcount : ∀ a ∈ t.values, t'.countOf a = t.countOf a := by
    intro a ha
    rw [countOf, hr.mem_eq a ha, countOf]
  refine ⟨?_,?_,?_⟩
  · rw [hr.values_eq]
    exact fun a ha => hcount a ha ▸ h.small a ha
  · rw [hr.heap_eq]
    intro i hi hlt
    have hmem : ∀ k < t.heap.len, t'.mem (t.heap.heap k) = t.mem (t.heap.heap k) := fun k hk =>
      hr.mem_eq _ (hin.live _ (mem_entries.mpr ⟨k,hk,rfl⟩))
    rw [elemCompare, hmem i hlt, hmem _ (by unfold parent; omega)]
    exact h.minHeap i hi hlt
  · rw [hr.values_eq, hr.heap_eq]
    intro a ha hnot b hb
    rw [hcount a ha, hcount b (hin.live b hb)]
    exact h.outside a ha hnot b hb

theorem Tracks.ranked (ht : Tracks t t₁ s v) (hin : t.HeapInside) (h : t.Ranked) : t₁.Ranked := by
  have hcount : ∀ a ∈ t.values, t₁.countOf a = t.countOf a := by
    intro a ha
    rw [countOf, ht.mem_eq a ha, countOf]
  have hvalues : ∀ a ∈ t₁.values, a ∈ t.values ∨ t₁.countOf a = 0 := by
    intro a ha
    by_cases hv : v ∈ t.values
    · rw [values, (ht.hit hv).1] at ha
      exact Or.inl ha
    · obtain ⟨hperm,-,-,hzero,-⟩ := ht.new hv
      rcases List.mem_cons.mp (hperm.mem_iff.mp ha) with rfl | ha
      · exact Or.inr (by rw [countOf, hzero]; rfl)
      · exact Or.inl ha
  refine ⟨?_,?_,?_⟩
  · intro a ha
    rcases hvalues a ha with ha | hzero
    · exact hcount a ha ▸ h.small a ha
    · omega
  · rw [ht.heap_eq]
    intro i hi hlt
    have hmem : ∀ k < t.heap.len, t₁.mem (t.heap.heap k) = t.mem (t.heap.heap k) := fun k hk =>
      ht.mem_eq _ (hin.live _ (mem_entries.mpr ⟨k,hk,rfl⟩))
    rw [elemCompare, hmem i hlt, hmem _ (by unfold parent; omega)]
    exact h.minHeap i hi hlt
  · rw [ht.heap_eq]
    intro a ha hnot b hb
    rcases hvalues a ha with ha | hzero
    · rw [hcount a ha, hcount b (hin.live b hb)]
      exact h.outside a ha hnot b hb
    · omega

/-- What the tree must offer when `v` is counted: a new entry is not less than its
grandparent, and a node with an index that it lost may not overtake the root. -/
structure Contends (t : NameTree) (v : ℕ) : Prop where
  enters : t.heapIndexOf v = -1 → t.heap.len < 1000 → parent t.heap.len = 0 ∨
    t.countOf (t.heap.heap (parent (parent t.heap.len))) ≤ t.countOf v + 1
  stale : t.heapIndexOf v ≠ -1 → v ∉ t.heap.elems → t.countOf v < t.countOf (t.heap.heap 0)

theorem countOf_bump (hv : t.countOf v + 1 < 2 ^ 31) (a : ℕ) :
    (t.bump v a).count.toNat = if a = v then t.countOf v + 1 else t.countOf a := by
  by_cases hav : a = v
  · subst hav
    rw [countOf] at hv
    simp only [bump, Function.update_self, if_true, UInt32.toNat_add, countOf]
    exact Nat.mod_eq_of_lt (hv.trans (by omega))
  · simp [bump, hav, countOf]

/-- The counted node may go down from its place in the heap. -/
theorem Ranked.downOrder (h : t.Ranked) (hin : t.HeapInside) (hsmall : t.countOf v + 1 < 2 ^ 31) {i : ℕ}
    (hi : i < t.heap.len) (hvi : v ∈ t.heap.elems → t.heap.heap i = v) :
    DownOrder (elemCompare (t.bump v)) t.heap.heap t.heap.len i (t.heap.heap i) := by
  have hlt : ∀ k < t.heap.len, t.countOf (t.heap.heap k) < 2 ^ 31 := fun k hk =>
    h.small _ (hin.live _ (mem_entries.mpr ⟨k,hk,rfl⟩))
  have hb : ∀ k < t.heap.len, (t.bump v (t.heap.heap k)).count.toNat < 2 ^ 31 := by
    intro k hk
    rw [countOf_bump hsmall]
    split
    · exact hsmall
    · exact hlt k hk
  have horder : ∀ k, 0 < k → k < t.heap.len →
      t.countOf (t.heap.heap (parent k)) ≤ t.countOf (t.heap.heap k) := fun k h0 hk =>
    (elemCompare_le_iff (hlt _ (by unfold parent; omega)) (hlt k hk)).mp (h.minHeap k h0 hk)
  have hother : ∀ k < t.heap.len, k ≠ i → (t.bump v (t.heap.heap k)).count.toNat = t.countOf (t.heap.heap k) := by
    intro k hk hki
    have hkv : t.heap.heap k ≠ v := by
      intro he
      have hvk := hvi (mem_entries.mpr ⟨k,hk,he⟩)
      exact hki (entries_nodup_iff.mp hin.indexed.nodup k hk i hi (he.trans hvk.symm))
    rw [countOf_bump hsmall, if_neg hkv]
  have hup : t.countOf (t.heap.heap i) ≤ (t.bump v (t.heap.heap i)).count.toNat := by
    rw [countOf_bump hsmall]
    split
    · rename_i he
      rw [he]
      omega
    · exact le_rfl
  have hparent : ∀ k, 0 < k → parent k < k := fun k h0 => by unfold parent; omega
  constructor
  · intro k h0 hk hki hpi
    have hpk := (hparent k h0).trans hk
    rw [elemCompare_le_iff (hb _ hpk) (hb k hk), hother k hk hki, hother _ hpk hpi]
    exact horder k h0 hk
  · intro h0
    have hpi := (hparent i h0).trans hi
    rw [elemCompare_le_iff (hb _ hpi) (hb i hi), hother _ hpi (hparent i h0).ne]
    exact (horder i h0 hi).trans hup
  · intro h0 k hk hk0 hpk
    have hpi := (hparent i h0).trans hi
    have hki : k ≠ i := fun he => (hparent k hk0).ne (hpk.trans he.symm)
    rw [elemCompare_le_iff (hb _ hpi) (hb k hk), hother _ hpi (hparent i h0).ne, hother k hk hki]
    exact (horder i h0 hi).trans (hpk ▸ horder k hk0 hk)

theorem countOf_counted (hsmall : t.countOf v + 1 < 2 ^ 31) (a : ℕ) :
    (nameTreeCount t v).countOf a = if a = v then t.countOf v + 1 else t.countOf a := by
  rw [← countOf_bump hsmall, countOf, (nameTreeCount_counted t v).counts a]
  by_cases hav : a = v
  · simp [bump, hav]
  · simp [bump, hav]

theorem outranks_bump_iff (h : t.Ranked) (hin : t.HeapInside) (hsmall : t.countOf v + 1 < 2 ^ 31)
    (hlen : 0 < t.heap.len) (hv : v ∉ t.heap.elems) :
    t.Outranks v ↔ t.countOf (t.heap.heap 0) < t.countOf v + 1 := by
  have hroot : t.heap.heap 0 ∈ t.heap.elems := mem_entries.mpr ⟨0,hlen,rfl⟩
  have hne : t.heap.heap 0 ≠ v := fun he => hv (he ▸ hroot)
  have hlt := h.small _ (hin.live _ hroot)
  have hr : (t.bump v (t.heap.heap 0)).count.toNat = t.countOf (t.heap.heap 0) := by
    rw [countOf_bump hsmall, if_neg hne]
  have hn : (t.bump v v).count.toNat = t.countOf v + 1 := by rw [countOf_bump hsmall, if_pos rfl]
  rw [Outranks, elemCompare_eq (by omega) (by omega), elemCompare_eq (by omega) (by omega), hr, hn]
  omega

theorem Ranked.bump_small (h : t.Ranked) (hin : t.HeapInside) (hsmall : t.countOf v + 1 < 2 ^ 31) :
    ∀ a ∈ t.heap.elems, (t.bump v a).count.toNat < 2 ^ 31 := by
  intro a ha
  rw [countOf_bump hsmall]
  split
  · exact hsmall
  · exact h.small a (hin.live a ha)

/-- A node outside of the heap is counted without a change to the order. -/
theorem Ranked.bump_minHeap (h : t.Ranked) (hv : v ∉ t.heap.elems) :
    MinHeap (elemCompare (t.bump v)) t.heap.heap t.heap.len := by
  intro i hi hlt
  have hsame : ∀ k < t.heap.len, t.bump v (t.heap.heap k) = t.mem (t.heap.heap k) := by
    intro k hk
    have hne : t.heap.heap k ≠ v := fun he => hv (mem_entries.mpr ⟨k,hk,he⟩)
    simp [bump, hne]
  rw [elemCompare, hsame i hlt, hsame _ (by unfold parent; omega)]
  exact h.minHeap i hi hlt

theorem Ranked.counted_minHeap (h : t.Ranked) (hin : t.HeapInside) (hv : v ∈ t.values)
    (hsmall : t.countOf v + 1 < 2 ^ 31) (hc : t.Contends v) :
    MinHeap (elemCompare (nameTreeCount t v).mem) (nameTreeCount t v).heap.heap (nameTreeCount t v).heap.len := by
  have hcmp : elemCompare (nameTreeCount t v).mem = elemCompare (t.bump v) := by
    refine elemCompare_congr (fun a => UInt32.toNat_inj.mp ?_)
    rw [countOf_bump hsmall]
    exact countOf_counted hsmall a
  have hbump := h.bump_small hin hsmall
  have hbumpv : (t.bump v v).count.toNat < 2 ^ 31 := by
    rw [countOf_bump hsmall, if_pos rfl]
    exact hsmall
  have hpre := elemCompare_preorder (t.bump v)
  rw [hcmp]
  rcases nameTreeCount_cases t v with ⟨hi,he⟩ | ⟨hi,hlt,he⟩ | ⟨hi,-,-,he⟩ | ⟨hi,-,-,he⟩ <;> rw [he]
  · obtain ⟨i,hilt,hvi⟩ := (hin.inside v hv).resolve_left hi
    have hplace : v ∈ t.heap.elems → t.heap.heap i = v := by
      intro hmem
      obtain ⟨k,hk,hke⟩ := mem_entries.mp hmem
      have hki : t.heapIndexOf (t.heap.heap k) = k := hin.indexed k hk
      rw [hke, hvi] at hki
      obtain rfl : i = k := by omega
      exact hke
    have hmin := heapAdjustSiftdown_minHeap elemCallback.cmp_func hpre hbump hilt
      (h.downOrder hin hsmall hilt hplace)
    rw [show (t.heapIndexOf v).toNat = i by omega]
    exact hmin.mono (heapAdjustSiftdown_len i).le
  · have hnot := not_mem_heap hin.indexed hi
    apply (heapInsert_minHeap_iff elemCallback.cmp_func hpre hbump hbumpv (h.bump_minHeap hnot)).mpr
    rcases hc.enters hi hlt with h0 | hle
    · exact Or.inl h0
    · rcases Nat.eq_zero_or_pos t.heap.len with h0 | hpos
      · exact Or.inl (by simp [parent, h0])
      · have hg : t.heap.heap (parent (parent t.heap.len)) ∈ t.heap.elems :=
          mem_entries.mpr ⟨_,by unfold parent; omega,rfl⟩
        have hgv : t.heap.heap (parent (parent t.heap.len)) ≠ v := fun hgv => hnot (hgv ▸ hg)
        right
        rwa [elemCompare_le_iff (hbump _ hg) hbumpv, countOf_bump hsmall, countOf_bump hsmall, if_pos rfl, if_neg hgv]
  · exact h.bump_minHeap (not_mem_heap hin.indexed hi)
  · have hmin := heapReplaceLeast_minHeap elemCallback.cmp_func hpre hbump hbumpv
      (h.bump_minHeap (not_mem_heap hin.indexed hi))
    exact hmin.mono (heapReplaceLeast_len v).le

theorem Ranked.counted_outside (h : t.Ranked) (hin : t.HeapInside) (hv : v ∈ t.values)
    (hsmall : t.countOf v + 1 < 2 ^ 31) (hc : t.Contends v)
    (hall : t.heap.len < 1000 → ∀ a ∈ t.values, a = v ∨ a ∈ t.heap.elems) :
    ∀ a ∈ t.values, a ∉ (nameTreeCount t v).heap.elems → ∀ b ∈ (nameTreeCount t v).heap.elems,
      (nameTreeCount t v).countOf a ≤ (nameTreeCount t v).countOf b := by
  have hcount := countOf_counted hsmall
  have hgrow : ∀ a, t.countOf a ≤ (nameTreeCount t v).countOf a := by
    intro a
    rw [hcount]
    by_cases hav : a = v
    · subst hav
      simp
    · rw [if_neg hav]
  -- the cases in which the entries stay
  have hkeep : (nameTreeCount t v).heap.elems.Perm t.heap.elems →
      (v ∉ t.heap.elems → t.countOf v < t.countOf (t.heap.heap 0)) →
      ∀ a ∈ t.values, a ∉ (nameTreeCount t v).heap.elems → ∀ b ∈ (nameTreeCount t v).heap.elems,
        (nameTreeCount t v).countOf a ≤ (nameTreeCount t v).countOf b := by
    intro hperm hout a ha hnot b hb
    rw [hperm.mem_iff] at hnot hb
    refine le_trans ?_ (hgrow b)
    rw [hcount]
    by_cases hav : a = v
    · subst hav
      rw [if_pos rfl]
      exact (hout hnot).trans_le (h.root_le hin hb)
    · rw [if_neg hav]
      exact h.outside a ha hnot b hb
  rcases nameTreeCount_cases t v with ⟨hi,he⟩ | ⟨hi,hlt,he⟩ | ⟨hi,hroof,hno,he⟩ | ⟨hi,hroof,hr,he⟩
  · obtain ⟨i,hilt,hvi⟩ := (hin.inside v hv).resolve_left hi
    refine hkeep ?_ (hc.stale hi)
    rw [he]
    exact heapAdjustSiftdown_elems _ _ _ (by omega)
  · intro a ha hnot
    have hmem : a ∈ t.heap.elems ++ [v] := by
      rcases hall hlt a ha with rfl | hm
      · exact List.mem_append_right _ (List.mem_singleton_self a)
      · exact List.mem_append_left _ hm
    rw [he] at hnot
    exact absurd ((heapInsert_elems v).2.mem_iff.mpr hmem) hnot
  · rw [outranks_bump_iff h hin hsmall (by omega) (not_mem_heap hin.indexed hi)] at hno
    refine hkeep ?_ (fun _ => by omega)
    rw [he]
  · have hvnot := not_mem_heap hin.indexed hi
    have hover := (outranks_bump_iff h hin hsmall (by omega) hvnot).mp hr
    have helems : (nameTreeCount t v).heap.elems.Perm (entries (Function.update t.heap.heap 0 v) t.heap.len) := by
      rw [he]
      exact heapReplaceLeast_elems hr.2 (by omega)
    have hleast : ∀ b ∈ (nameTreeCount t v).heap.elems, t.countOf (t.heap.heap 0) ≤ (nameTreeCount t v).countOf b ∧
        ∀ a ∈ t.values, a ∉ t.heap.elems → t.countOf a ≤ (nameTreeCount t v).countOf b := by
      intro b hb
      obtain ⟨k,hk,rfl⟩ := mem_entries.mp (helems.mem_iff.mp hb)
      have hroot : t.heap.heap 0 ∈ t.heap.elems := mem_entries.mpr ⟨0,by omega,rfl⟩
      by_cases h0 : k = 0
      · subst h0
        rw [Function.update_self, hcount, if_pos rfl]
        refine ⟨by omega,fun a ha hnot => ?_⟩
        have hle := h.outside a ha hnot _ hroot
        omega
      · rw [Function.update_of_ne h0]
        have hkm : t.heap.heap k ∈ t.heap.elems := mem_entries.mpr ⟨k,hk,rfl⟩
        exact ⟨(h.root_le hin hkm).trans (hgrow _),fun a ha hnot => (h.outside a ha hnot _ hkm).trans (hgrow _)⟩
    intro a ha hnot b hb
    have hav : a ≠ v := by
      rintro rfl
      exact hnot (helems.mem_iff.mpr (mem_entries.mpr ⟨0,by omega,Function.update_self _ _ _⟩))
    rw [hcount a, if_neg hav]
    by_cases ham : a ∈ t.heap.elems
    · obtain ⟨k,hk,rfl⟩ := mem_entries.mp ham
      by_cases h0 : k = 0
      · subst h0
        exact (hleast b hb).1
      · exact absurd (helems.mem_iff.mpr (mem_entries.mpr ⟨k,hk,Function.update_of_ne h0 _ _⟩)) hnot
    · exact (hleast b hb).2 a ha ham

theorem Ranked.counted (h : t.Ranked) (hin : t.HeapInside) (hv : v ∈ t.values)
    (hsmall : t.countOf v + 1 < 2 ^ 31) (hc : t.Contends v)
    (hall : t.heap.len < 1000 → ∀ a ∈ t.values, a = v ∨ a ∈ t.heap.elems) : (nameTreeCount t v).Ranked := by
  have hvals := (nameTreeCount_counted t v).values_eq
  refine ⟨?_,h.counted_minHeap hin hv hsmall hc,hvals ▸ h.counted_outside hin hv hsmall hc hall⟩
  rw [hvals]
  intro a ha
  rw [countOf_counted hsmall]
  split
  · exact hsmall
  · exact h.small a ha

/-! ## One insertion -/

/-- Both pools have a node. -/
def canAdd (malloc : Mallocs) (t : NameTree) : Prop :=
  (memPoolAlloc malloc.name t.namePool).any (fun p => p.2.isSome) ∧
    (memPoolAlloc malloc.node t.nodePool).any (fun p => p.2.isSome)

instance (malloc : Mallocs) (t : NameTree) : Decidable (t.canAdd malloc) := inferInstanceAs (Decidable (_ ∧ _))

/-- The insertion stays away from both branches: a new entry has a grandparent that was
counted once at most, and a node that was pushed out stays behind the root. -/
def Competes (t : NameTree) (malloc : Mallocs) (name : CString) : Prop :=
  name.strlen < maxNameLen →
    match nameTreeExactlyFind t name with
    | none => True
    | some none => t.canAdd malloc → t.heap.len < 1000 →
        parent t.heap.len = 0 ∨ t.countOf (t.heap.heap (parent (parent t.heap.len))) ≤ 1
    | some (some v) => t.heapIndexOf v ≠ -1 → v ∉ t.heap.elems → t.countOf v < t.countOf (t.heap.heap 0)

instance (t : NameTree) (malloc : Mallocs) (name : CString) : Decidable (t.Competes malloc name) := by
  unfold Competes
  cases nameTreeExactlyFind t name with
  | none => exact inferInstanceAs (Decidable (_ → True))
  | some v =>
    cases v with
    | none => exact inferInstanceAs (Decidable (_ → _ → _ → _ ∨ _))
    | some v => exact inferInstanceAs (Decidable (_ → _ → _ → _))

theorem canAdd_of_inserted {malloc : Mallocs} {name : CString} (hname : name.strlen < maxNameLen)
    (hfind : nameTreeExactlyFind t name = some none) (hr : nameTreeInsert malloc t name = some (t',0)) :
    t.canAdd malloc := by
  simp only [nameTreeInsert, if_neg (not_le.mpr hname), hfind, Option.bind_eq_bind, Option.bind_some,
    Option.bind_eq_some_iff] at hr
  obtain ⟨⟨t₁,added⟩,hadd,hr⟩ := hr
  cases added with
  | none => simp at hr
  | some nv =>
    simp only [nameTreeAdd, Option.bind_eq_bind, Option.bind_eq_some_iff] at hadd
    obtain ⟨⟨namePool,value⟩,hvalue,hadd⟩ := hadd
    cases value with
    | none => simp at hadd
    | some value =>
      obtain ⟨⟨nodePool,node⟩,hnode,hadd⟩ := Option.bind_eq_some_iff.mp hadd
      cases node with
      | none => simp [Option.bind_eq_some_iff] at hadd
      | some node => exact ⟨by simp [hvalue],by simp [hnode]⟩

theorem Ranked.inserted {malloc : Mallocs} {name : CString} {r : ℤ} (h : t.Ranked) (hin : t.HeapInside)
    (hf : t.Filled) (hwf : t.Wf cells) (hcomp : t.Competes malloc name)
    (hsmall : r = 0 → ∀ v ∈ t.values, dotted name = some (t.nameOf v) → t.countOf v + 1 < 2 ^ 31)
    (hr : nameTreeInsert malloc t name = some (t',r)) : t'.Ranked := by
  rcases nameTreeInsert_cases hwf hr with ⟨-,href,-⟩ | ⟨rfl,hname,s,v,t₁,cells',hs,ht,rfl,-⟩
  · exact h.refused hin href
  · obtain ⟨hin₁,hv⟩ := ht.heapInside hin
    have h₁ := ht.ranked hin h
    have hlive : ∀ k < t.heap.len, t₁.countOf (t.heap.heap k) = t.countOf (t.heap.heap k) := fun k hk =>
      congrArg (fun nv : NodeValue => nv.count.toNat) (ht.mem_eq _ (hin.live _ (mem_entries.mpr ⟨k,hk,rfl⟩)))
    have hcomp := hcomp hname
    by_cases hvt : v ∈ t.values
    · obtain ⟨htree,hn,-⟩ := ht.hit hvt
      have hvals : t₁.values = t.values := by rw [values, htree, values]
      have hcount : t₁.countOf v = t.countOf v := by rw [countOf, ht.mem_eq v hvt, countOf]
      have hidx : t₁.heapIndexOf v = t.heapIndexOf v := by rw [heapIndexOf, ht.mem_eq v hvt, heapIndexOf]
      rw [(hwf.exactlyFind_some hname hs).mpr ⟨hvt,hn⟩] at hcomp
      refine h₁.counted hin₁ hv (hcount ▸ hsmall rfl v hvt (hn ▸ hs)) ⟨?_,?_⟩ ?_
      · intro hneg hlt
        rw [ht.heap_eq] at hlt
        exact absurd (hf.all hlt v hvt) (ht.heap_eq ▸ not_mem_heap hin₁.indexed hneg)
      · rw [hidx, hcount, ht.heap_eq]
        intro hneg hnot
        rcases Nat.eq_zero_or_pos t.heap.len with h0 | hpos
        · exact absurd (hf.all (by omega) v hvt) hnot
        · rw [hlive 0 hpos]
          exact hcomp hneg hnot
      · rw [ht.heap_eq, hvals]
        exact fun hlt a ha => Or.inr (hf.all hlt a ha)
    · obtain ⟨hperm,hnone,hidx,hzero,-⟩ := ht.new hvt
      have hfind := (hwf.exactlyFind_none hname hs).mpr hnone
      rw [hfind] at hcomp
      have hcount : t₁.countOf v = 0 := by rw [countOf, hzero]; rfl
      refine h₁.counted hin₁ hv (by omega) ⟨?_,fun hneg => absurd hidx hneg⟩ ?_
      · intro _ hlt
        rw [ht.heap_eq] at hlt ⊢
        rw [hcount]
        rcases hcomp (canAdd_of_inserted hname hfind hr) hlt with h0 | hle
        · exact Or.inl h0
        · rcases Nat.eq_zero_or_pos t.heap.len with h0 | hpos
          · exact Or.inl (by simp [parent, h0])
          · rw [hlive _ (by unfold parent; omega)]
            exact Or.inr (by omega)
      · rw [ht.heap_eq]
        intro hlt a ha
        rcases List.mem_cons.mp (hperm.mem_iff.mp ha) with rfl | hm
        · exact Or.inl rfl
        · exact Or.inr (hf.all hlt a hm)

end Step

/-! ## The reply of an ordered heap -/

/-- The names fit their field and the counts are not negative in the reply. -/
def Bounded (log : List CString) : Prop := ∀ s ∈ log, s.strlen < maxNameLen ∧ log.count s < 2 ^ 31

theorem Bounded.of_cons {log : List CString} {s : CString} (h : Bounded (s :: log)) : Bounded log := by
  intro u hu
  obtain ⟨hlen,hcount⟩ := h u (List.mem_cons_of_mem s hu)
  exact ⟨hlen,(List.count_le_count_cons).trans_lt hcount⟩

section Reply
variable {t : NameTree} {cells : List ℕ} {log : List CString}

theorem Tallied.fits (h : Tallied t log) (hb : Bounded log) {v : ℕ} (hv : v ∈ t.values) : (t.mem v).Fits := by
  by_contra hnf
  obtain ⟨s,hs,hlen⟩ := h.overlong ⟨v,hv,hnf⟩
  exact (hb s hs).1.ne hlen

theorem Tallied.countOf_eq (h : Tallied t log) (hb : Bounded log) {v : ℕ} (hv : v ∈ t.values) :
    t.nameOf v ∈ log ∧ t.countOf v = log.count (t.nameOf v) := by
  obtain ⟨hmem,hcount⟩ := h.counts v hv (h.fits hb hv)
  refine ⟨hmem,?_⟩
  have hlt := (hb _ hmem).2
  rw [countOf, hcount, UInt32.toNat_ofNat', Nat.mod_eq_of_lt (by omega)]

theorem toInt32_toInt {a : UInt32} (ha : a.toNat < 2 ^ 31) : a.toInt32.toInt = a.toNat := by
  have hsub := toInt32_sub ha (by decide : (0 : UInt32).toNat < 2 ^ 31)
  simpa using hsub

/-- The nodes of the reply are in descending order, and no other has a greater count. -/
theorem Ranked.descending (h : t.Ranked) (hin : t.HeapInside) (memory : ℕ → ℕ) (topn : ℤ) :
    (topNodes memory t topn).Pairwise (fun a b => t.countOf b ≤ t.countOf a) ∧
      ∀ v ∈ t.values, v ∉ topNodes memory t topn → ∀ a ∈ topNodes memory t topn, t.countOf v ≤ t.countOf a := by
  have hsmall : ∀ a ∈ t.heap.elems, (t.mem a).count.toNat < 2 ^ 31 := fun a ha => h.small a (hin.live a ha)
  have hcopy := heapCopy_elems memory t.heap
  have hmin : MinHeap (elemCompare t.mem) (heapCopy memory t.heap).heap (heapCopy memory t.heap).len :=
    h.minHeap.congr (fun k hk => if_pos hk)
  have hperm : (heapSort elemCompare t.mem (heapCopy memory t.heap)).elems.Perm t.heap.elems :=
    (heapSort_elems _ _ _).trans (List.Perm.of_eq hcopy)
  have hsorted := heapSort_descending (elemCompare_preorder t.mem) (fun a ha => hsmall a (hcopy ▸ ha)) hmin
  have hdesc : (heapSort elemCompare t.mem (heapCopy memory t.heap)).elems.Pairwise
      (fun a b => t.countOf b ≤ t.countOf a) := by
    refine hsorted.imp_of_mem (fun {a b} ha hb hle => ?_)
    exact (elemCompare_le_iff (hsmall b (hperm.mem_iff.mp hb)) (hsmall a (hperm.mem_iff.mp ha))).mp hle
  refine ⟨hdesc.sublist (List.take_sublist _ _),?_⟩
  intro v hv hnot a ha
  by_cases hvm : v ∈ t.heap.elems
  · rw [← List.take_append_drop (min topn (heapSort elemCompare t.mem (heapCopy memory t.heap)).len).toNat
      (heapSort elemCompare t.mem (heapCopy memory t.heap)).elems, List.pairwise_append] at hdesc
    apply hdesc.2.2 a ha v
    have hmem := hperm.mem_iff.mpr hvm
    rw [← List.take_append_drop (min topn (heapSort elemCompare t.mem (heapCopy memory t.heap)).len).toNat
      (heapSort elemCompare t.mem (heapCopy memory t.heap)).elems] at hmem
    exact (List.mem_append.mp hmem).resolve_left hnot
  · exact h.outside v hv hvm a ((topNodes_subperm memory t topn).subset ha)

theorem Ranked.topN (h : t.Ranked) (hin : t.HeapInside) (hf : t.Filled) (hwf : t.Wf cells)
    (hlog : Tallied t log) (hb : Bounded log) {topn : ℤ} (h0 : 1 ≤ topn) (hroof : topn ≤ 1000)
    (memory : ℕ → ℕ) (key : String) :
    ∃ reply, viewStatsResult memory t key topn = some reply ∧ reply.TopN log topn := by
  obtain ⟨hdesc,hout⟩ := h.descending hin memory topn
  have hsub := topNodes_subperm memory t topn
  have hlive : ∀ v ∈ topNodes memory t topn, v ∈ t.values := fun v hv => hin.live v (hsub.subset hv)
  have hcount : ∀ v ∈ t.values, (t.mem v).count.toInt32.toInt = log.count (t.nameOf v) := by
    intro v hv
    rw [toInt32_toInt (h.small v hv), ← (hlog.countOf_eq hb hv).2]
    rfl
  have hnd : (topNodes memory t topn).Nodup := by
    obtain ⟨l,hperm,hl⟩ := hsub
    exact hperm.nodup_iff.mp (hl.nodup hin.indexed.nodup)
  refine ⟨_,if_neg (by omega),?_,?_,?_,?_,?_,?_⟩
  · apply (List.nodup_map_iff_inj_on hnd).mpr
    intro a ha b hb' he
    exact hwf.name_inj (hlive a ha) (hlive b hb') (hlog.fits hb (hlive a ha)) he
  · intro s hs
    obtain ⟨v,hv,rfl⟩ := List.mem_map.mp hs
    exact (hlog.countOf_eq hb (hlive v hv)).1
  · rw [List.map_map]
    exact List.map_congr_left (fun v hv => hcount v (hlive v hv))
  · refine List.pairwise_map.mpr (hdesc.imp_of_mem (fun {a b} ha hb' hle => ?_))
    rw [hcount a (hlive a ha), hcount b (hlive b hb'), ← (hlog.countOf_eq hb (hlive a ha)).2,
      ← (hlog.countOf_eq hb (hlive b hb')).2]
    omega
  · have hnames := (hlog.names_perm hwf (fun s hs => (hb s hs).1)).length_eq
    rw [List.length_map] at hnames
    rw [List.length_map, topNodes_length, hf.len_eq hin hwf, ← hnames]
    omega
  · intro s hs hnot u hu
    obtain ⟨a,ha,rfl⟩ := List.mem_map.mp hu
    obtain ⟨v,hv,rfl⟩ := hlog.tracked s hs (hb s hs).1
    rw [← (hlog.countOf_eq hb hv).2, ← (hlog.countOf_eq hb (hlive a ha)).2]
    exact hout v hv (fun hm => hnot (List.mem_map_of_mem hm)) a ha

end Reply

end NameTree

/-! ## Runs of insertions -/

/-- Invariant of the insertions that compete. -/
structure Logged.Ordered (calls : List Insertion) (s : Logged) : Prop where
  inv : s.Inv calls
  inside : s.tree.HeapInside
  filled : s.tree.Filled
  ranked : Bounded s.log → s.tree.Ranked

theorem Logged.Ordered.step {calls : List Insertion} {s s' : Logged} {call : Insertion} (h : s.Ordered calls)
    (hcomp : s.tree.Competes call.malloc call.name) (hs : insertStep s call = some s') :
    s'.Ordered (calls ++ [call]) := by
  obtain ⟨cells,hwf⟩ := h.inv.wf
  have hinv' := insertStep_inv h.inv hs
  obtain ⟨⟨tree,r⟩,hr,rfl⟩ := Option.map_eq_some_iff.mp hs
  refine ⟨hinv',h.inside.inserted hwf hr,h.filled.inserted h.inside hwf hr,fun hb => ?_⟩
  have hlog : Bounded s.log := by
    by_cases hr0 : r = 0
    · simp only [hr0, if_true] at hb
      cases hd : dotted call.name with
      | none => simpa [hd] using hb
      | some u => exact Bounded.of_cons (s := u) (by simpa [hd] using hb)
    · simpa [hr0] using hb
  refine (h.ranked hlog).inserted h.inside h.filled hwf hcomp (fun hr0 v hv hd => ?_) hr
  simp only [hr0, if_true, hd, Option.toList_some, List.singleton_append] at hb
  have hlt := (hb _ List.mem_cons_self).2
  rw [List.count_cons_self] at hlt
  rw [(h.inv.tallied.countOf_eq hlog hv).2]
  exact hlt

theorem Logged.Ordered.create {memory : NameTreeMemory} {t : NameTree} (h : nameTreeCreate memory = some t) :
    Logged.Ordered [] ⟨t,[]⟩ := by
  obtain ⟨cells,-,hin,hfill,hv⟩ := create_heapInside h
  have hempty : ∀ a, a ∉ t.heap.elems := fun a ha => by
    have hm := hin.live a ha
    simp [hv] at hm
  have hlen : t.heap.len = 0 := by
    by_contra hne
    exact hempty _ (mem_entries.mpr ⟨0,by omega,rfl⟩)
  refine ⟨nameTreeCreate_inv h,hin,hfill,fun _ => ⟨by simp [hv],?_,by simp [hv]⟩⟩
  change MinHeap _ t.heap.heap t.heap.len
  intro i hi hlt
  omega

/-- Every reply to a query for up to 1000 names is the right one. -/
def Logged.AnswersTopN (s : Logged) : Prop :=
  Bounded s.log → ∀ topn, 1 ≤ topn → topn ≤ 1000 → ∀ array key,
    ∃ reply, viewStatsResult array s.tree key topn = some reply ∧ reply.TopN s.log topn

/-- As long as every insertion competes for its place, every reply lists the names that
were inserted most. -/
theorem topN_kept (memory : NameTreeMemory) (calls : List Insertion) (t : NameTree)
    (ht : nameTreeCreate memory = some t)
    (hok : Along insertStep (fun s call => s.tree.Competes call.malloc call.name) ⟨t,[]⟩ calls) :
    Always insertStep Logged.AnswersTopN ⟨t,[]⟩ calls := by
  intro js hjs s hs hb topn h0 hroof array key
  have hinv : s.Ordered js := run_induction (P := fun js s => s.Ordered js) (Logged.Ordered.create ht)
    (fun _ _ _ _ h hcomp hstep => h.step hcomp hstep) (hok.take hjs) hs
  obtain ⟨cells,hwf⟩ := hinv.inv.wf
  exact (hinv.ranked hb).topN hinv.inside hinv.filled hwf hinv.inv.tallied hb h0 hroof array key

theorem topN_kept_small : ∃ t, nameTreeCreate staleMemory = some t ∧
    Always insertStep Logged.AnswersTopN ⟨t,[]⟩ (insertAll [letters 1,letters 2,letters 2,letters 3]) := by
  obtain ⟨t,ht,-⟩ := nameTreeCreate_wf staleMemory
  have hok : ∀ t ∈ nameTreeCreate staleMemory, Along insertStep
      (fun s call => s.tree.Competes call.malloc call.name) ⟨t,[]⟩
      (insertAll [letters 1,letters 2,letters 2,letters 3]) := by decide +kernel
  exact ⟨t,ht,topN_kept staleMemory _ t ht (hok t ht)⟩

/-- Three names twice and then a fourth: the fourth stays between two greater counts. -/
theorem topN_fails : ∃ s, insertRun staleMemory (insertAll [letters 1,letters 1,letters 2,letters 2,letters 3,
    letters 3,letters 4]) = some s ∧ ¬s.AnswersTopN := by
  obtain ⟨s,hs⟩ := Option.isSome_iff_exists.mp (by decide +kernel : (insertRun staleMemory (insertAll
    [letters 1,letters 1,letters 2,letters 2,letters 3,letters 3,letters 4])).isSome = true)
  have hfacts : (insertRun staleMemory (insertAll [letters 1,letters 1,letters 2,letters 2,letters 3,
      letters 3,letters 4])).map (fun s => (s.log.all (fun u => u.strlen < maxNameLen && s.log.count u < 2 ^ 31),
        (viewStatsResult (fun _ => 0) s.tree "" 4).map StatsReply.count)) = some (true,some [2,2,1,2]) := by
    decide +kernel
  rw [hs] at hfacts
  obtain ⟨hb,hcounts⟩ := Prod.mk.inj (Option.some_inj.mp hfacts)
  refine ⟨s,hs,fun h => ?_⟩
  obtain ⟨reply,hreply,htop⟩ := h (by simpa [Bounded] using hb) 4 (by omega) (by omega) (fun _ => 0) ""
  rw [hreply, Option.map_some, Option.some_inj] at hcounts
  have hdesc := htop.descending
  rw [hcounts] at hdesc
  exact absurd hdesc (by decide)

end LogStats
