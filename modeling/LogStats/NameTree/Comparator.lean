import LogStats.Library.Wrapping
import LogStats.NameTree.TopN

/-! # What elem_compare says about two counts

The comparator subtracts two 32-bit counts and reads the difference as a signed number, and the reply reads
each count as one. Both are right as long as the numbers are below 2^31, and only then.
-/
namespace LogStats

open NameTree

/-- The sign of the comparison of two nodes is that of their counts. -/
structure ComparesByCount (mem : ℕ → NodeValue) (a b : ℕ) : Prop where
  less : elemCompare mem a b < 0 ↔ (mem a).count < (mem b).count
  equal : elemCompare mem a b = 0 ↔ (mem a).count = (mem b).count
  greater : 0 < elemCompare mem a b ↔ (mem b).count < (mem a).count

/-- What the heap needs of the comparator on the nodes it may hold. -/
structure OrdersByCount (mem : ℕ → NodeValue) (nodes : Set ℕ) : Prop where
  compares : ∀ a ∈ nodes, ∀ b ∈ nodes, ComparesByCount mem a b
  preorder : TotalPreorderOn (· ∈ nodes) (elemCompare mem)
  minLess : ∀ hbt : Heap ℕ, hbt.heap 0 ∈ nodes → ∀ e ∈ nodes,
    (heapMinLessThan elemCompare mem hbt e = true ↔ (mem (hbt.heap 0)).count < (mem e).count)

/-- The counts of every reply are those of the nodes it lists. -/
def RepliesByCount (t : NameTree) : Prop :=
  ∀ memory key topn reply, viewStatsResult memory t key topn = some reply →
    reply.count = (topNodes memory t topn).map fun nv => ((t.mem nv).count.toNat : ℤ)

section Comparator
variable {mem : ℕ → NodeValue} {nodes : Set ℕ} {a b : ℕ} {t : NameTree}

theorem elemCompare_eq_bmod (mem : ℕ → NodeValue) (a b : ℕ) :
    elemCompare mem a b = (((mem a).count.toNat : ℤ) - (mem b).count.toNat).bmod (2 ^ 32) := toInt_toInt32_sub _ _

theorem comparesByCount_iff : ComparesByCount mem a b ↔
    (mem a).count.toNat < (mem b).count.toNat + 2 ^ 31 ∧ (mem b).count.toNat ≤ (mem a).count.toNat + 2 ^ 31 := by
  have ha := (mem a).count.toNat_lt
  have hb := (mem b).count.toNat_lt
  have hsigns := @bmod_signs_iff (((mem a).count.toNat : ℤ) - (mem b).count.toNat) (by omega) (by omega)
  rw [← elemCompare_eq_bmod] at hsigns
  have hless : (mem a).count < (mem b).count ↔ ((mem a).count.toNat : ℤ) - (mem b).count.toNat < 0 := by
    rw [UInt32.lt_iff_toNat_lt]
    omega
  have hequal : (mem a).count = (mem b).count ↔ ((mem a).count.toNat : ℤ) - (mem b).count.toNat = 0 := by
    rw [← UInt32.toNat_inj]
    omega
  have hgreater : (mem b).count < (mem a).count ↔ 0 < ((mem a).count.toNat : ℤ) - (mem b).count.toNat := by
    rw [UInt32.lt_iff_toNat_lt]
    omega
  constructor
  · rintro ⟨hl,he,hg⟩
    have hrange := hsigns.mp ⟨hl.trans hless,he.trans hequal,hg.trans hgreater⟩
    omega
  · intro hrange
    obtain ⟨hl,he,hg⟩ := hsigns.mpr (by omega)
    exact ⟨hl.trans hless.symm,he.trans hequal.symm,hg.trans hgreater.symm⟩

/-- Comparisons that all have the right sign are a total preorder. -/
theorem preorder_of_compares (h : ∀ a ∈ nodes, ∀ b ∈ nodes, ComparesByCount mem a b) :
    TotalPreorderOn (· ∈ nodes) (elemCompare mem) where
  pos_iff a b ha hb := by rw [(h a ha b hb).greater, (h b hb a ha).less]
  trans a b c ha hb hc hab hbc := by
    have hle : (mem a).count ≤ (mem b).count := by
      rw [← UInt32.not_lt, ← (h a ha b hb).greater]
      omega
    have hle' : (mem b).count ≤ (mem c).count := by
      rw [← UInt32.not_lt, ← (h b hb c hc).greater]
      omega
    have hnot : ¬0 < elemCompare mem a c := by
      rw [(h a ha c hc).greater, UInt32.not_lt]
      exact UInt32.le_trans hle hle'
    omega

theorem ordersByCount_iff :
    OrdersByCount mem nodes ↔ ∀ a ∈ nodes, ∀ b ∈ nodes, (mem a).count.toNat < (mem b).count.toNat + 2 ^ 31 := by
  constructor
  · intro h a ha b hb
    exact (comparesByCount_iff.mp (h.compares a ha b hb)).1
  · intro h
    have hcompares : ∀ a ∈ nodes, ∀ b ∈ nodes, ComparesByCount mem a b := by
      intro a ha b hb
      exact comparesByCount_iff.mpr ⟨h a ha b hb,(h b hb a ha).le⟩
    refine ⟨hcompares,preorder_of_compares hcompares,?_⟩
    intro hbt hroot e he
    rw [heapMinLessThan, decide_eq_true_iff]
    exact (hcompares _ hroot e he).less

theorem repliesByCount_iff : RepliesByCount t ↔ ∀ nv ∈ t.heap.elems, (t.mem nv).count.toNat < 2 ^ 31 := by
  constructor
  · intro h nv hnv
    -- the reply for as many names as the heap has entries lists them all
    have hall : (topNodes (fun _ => 0) t t.heap.len).Perm t.heap.elems := by
      apply (topNodes_subperm _ t _).perm_of_length_le
      rw [topNodes_length, min_self, Int.toNat_natCast]
      exact (length_entries _ _).le
    have hreply := h (fun _ => 0) "" t.heap.len _ (if_neg (by omega))
    rw [List.map_inj_left] at hreply
    exact toInt_toInt32_eq_iff.mp (hreply nv (hall.mem_iff.mpr hnv))
  · intro h memory key topn reply hreply
    unfold viewStatsResult at hreply
    split at hreply
    · cases hreply
    · obtain rfl := Option.some_inj.mp hreply
      apply List.map_congr_left
      intro nv hnv
      exact toInt_toInt32_eq_iff.mpr (h nv ((topNodes_subperm memory t topn).subset hnv))

/-- Two nodes are compared by their counts if and only if the first does not exceed the second by 2^31 and the
second does not exceed the first by more. Nodes are in the order of their counts if and only if no two of them
are 2^31 apart. Replies have the counts of their nodes if and only if each node of the heap has less than 2^31. -/
theorem elemCompare_byCount_iff (t : NameTree) (nodes : Set ℕ) :
    (∀ a b, ComparesByCount t.mem a b ↔
      (t.mem a).count.toNat < (t.mem b).count.toNat + 2 ^ 31 ∧
        (t.mem b).count.toNat ≤ (t.mem a).count.toNat + 2 ^ 31) ∧
    (OrdersByCount t.mem nodes ↔
      ∀ a ∈ nodes, ∀ b ∈ nodes, (t.mem a).count.toNat < (t.mem b).count.toNat + 2 ^ 31) ∧
    (RepliesByCount t ↔ ∀ nv ∈ t.heap.elems, (t.mem nv).count.toNat < 2 ^ 31) := by
  refine ⟨?_,ordersByCount_iff,repliesByCount_iff⟩
  intro a b
  exact comparesByCount_iff

/-- A node that was counted 2^31 times is compared as less than one that was never counted. -/
theorem elemCompare_not_byCount :
    ¬∀ (mem : ℕ → NodeValue) (a b : ℕ), ComparesByCount mem a b := by
  intro h
  have hgreater := (h (fun a => ⟨List.replicate 32 0,if a = 0 then 2147483648 else 0,-1,0,rfl⟩) 0 1).greater
  exact absurd (hgreater.mpr (by decide)) (by decide)

end Comparator

end LogStats
