import Mathlib.Data.List.Basic
import Mathlib.Order.Lattice

/-! # Lists of entries with the greatest values first

What the first `n` entries of such a list are, told by how many entries have at least a
value or stand before a key; and what stands before an element of a list in a strict order.
-/
namespace LogStats

/-! ## Lists in a strict order -/

section Strict
variable {α : Type*} {R : α → α → Prop} [DecidableRel R] {xs : List α} {n : ℕ} {e : α}

/-- What stands before an element is what is before it in the order. -/
theorem takeWhile_eq_filter [DecidableEq α] (h : xs.Pairwise R) (hasymm : ∀ a b, R a b → ¬R b a) (he : e ∈ xs) :
    xs.takeWhile (· ≠ e) = xs.filter fun f => R f e := by
  induction xs with
  | nil => cases he
  | cons a xs ih =>
    obtain ⟨ha,hxs⟩ := List.pairwise_cons.mp h
    by_cases hae : a = e
    · subst hae
      have hself : ¬R a a := fun hr => hasymm a a hr hr
      have hnone : xs.filter (fun f => R f a) = [] :=
        List.filter_eq_nil_iff.mpr fun f hf => by simpa using hasymm a f (ha f hf)
      simp [hself, hnone]
    · have hin : e ∈ xs := (List.mem_cons.mp he).resolve_left (Ne.symm hae)
      have hrest := ih hxs hin
      simpa [hae, ha e hin] using hrest

/-- The first `n` are those with fewer than `n` before them. -/
theorem mem_take_iff (h : xs.Pairwise R) (hasymm : ∀ a b, R a b → ¬R b a) (he : e ∈ xs) :
    e ∈ xs.take n ↔ (xs.filter fun f => R f e).length < n := by
  induction xs generalizing n with
  | nil => cases he
  | cons a xs ih =>
    obtain ⟨ha,hxs⟩ := List.pairwise_cons.mp h
    cases n with
    | zero => simp
    | succ n =>
      rw [List.take_succ_cons, List.mem_cons]
      by_cases hin : e ∈ xs
      · have hne : e ≠ a := by
          rintro rfl
          exact hasymm e e (ha e hin) (ha e hin)
        simp [hne, ih hxs hin, ha e hin]
      · obtain rfl : e = a := (List.mem_cons.mp he).resolve_right hin
        have hself : ¬R e e := fun hr => hasymm e e hr hr
        have hnone : xs.filter (fun f => R f e) = [] :=
          List.filter_eq_nil_iff.mpr fun f hf => by simpa using hasymm e f (ha f hf)
        simp [hself, hnone]

omit [DecidableRel R] in
/-- Two elements stand in the list in one order or the other. -/
theorem pair_sublist_or {a b : α} (ha : a ∈ xs) (hb : b ∈ xs) (hne : a ≠ b) : [a,b].Sublist xs ∨ [b,a].Sublist xs := by
  induction xs with
  | nil => cases ha
  | cons c xs ih =>
    rcases List.mem_cons.mp ha with rfl | hain
    · exact Or.inl ((List.singleton_sublist.mpr ((List.mem_cons.mp hb).resolve_left (Ne.symm hne))).cons_cons a)
    · rcases List.mem_cons.mp hb with rfl | hbin
      · exact Or.inr ((List.singleton_sublist.mpr hain).cons_cons b)
      · exact (ih hain hbin).imp (fun h => h.cons c) fun h => h.cons c

omit [DecidableRel R] in
theorem not_swapped {a b : α} (hnodup : xs.Nodup) (hab : [a,b].Sublist xs) : ¬[b,a].Sublist xs := by
  intro hba
  induction xs with
  | nil => cases hab
  | cons c xs ih =>
    obtain ⟨hc,hxs⟩ := List.nodup_cons.mp hnodup
    cases hab with
    | cons _ hab =>
      cases hba with
      | cons _ hba => exact ih hxs hab hba
      | cons_cons _ hba => exact hc (hab.subset (by simp))
    | cons_cons _ hab =>
      cases hba with
      | cons _ hba => exact hc (hba.subset (by simp))
      | cons_cons _ hba => exact hc (hab.subset (by simp))

omit [DecidableRel R] in
/-- Sorting keeps the order of what the comparison does not tell apart. -/
theorem pairwise_mergeSort_stable {le : α → α → Bool} (htrans : ∀ a b c, le a b → le b c → le a c)
    (htotal : ∀ a b, le a b || le b a) (hnodup : xs.Nodup) (h : xs.Pairwise R) :
    (xs.mergeSort le).Pairwise fun a b => le a b ∧ (le b a → R a b) := by
  have hsorted := List.pairwise_mergeSort htrans htotal xs
  have hnd : (xs.mergeSort le).Nodup := (List.mergeSort_perm xs le).nodup_iff.mpr hnodup
  apply List.pairwise_iff_forall_sublist.mpr
  intro a b hab
  refine ⟨List.pairwise_iff_forall_sublist.mp hsorted hab,fun hba => ?_⟩
  have hne : a ≠ b := List.pairwise_iff_forall_sublist.mp hnd hab
  have hmem : ∀ c ∈ [a,b], c ∈ xs := fun c hc => (List.mergeSort_perm xs le).mem_iff.mp (hab.subset hc)
  rcases pair_sublist_or (hmem a (by simp)) (hmem b (by simp)) hne with hsub | hsub
  · exact List.pairwise_iff_forall_sublist.mp h hsub
  · -- the other way round they would still be so when sorted
    have hswap := List.pair_sublist_mergeSort htrans htotal hba hsub
    exact absurd hswap (not_swapped hnd hab)

end Strict

/-! ## Entries with values -/

variable {K V : Type*} [LinearOrder V]

def Descending (xs : List (K × V)) : Prop := xs.Pairwise fun a b => b.2 ≤ a.2

namespace Descending
variable {xs : List (K × V)} {n : ℕ} {v : V} {e f : K × V}

theorem take (h : Descending xs) (n : ℕ) : Descending (xs.take n) := h.sublist (List.take_sublist n xs)

/-- The first entries have no less than those that are left out. -/
theorem take_drop (h : Descending xs) (he : e ∈ xs.take n) (hf : f ∈ xs.drop n) : f.2 ≤ e.2 := by
  rw [← List.take_append_drop n xs] at h
  exact (List.pairwise_append.mp h).2.2 e he f hf

theorem filter_eq_nil (h : Descending (e :: xs)) (he : e.2 < v) : (e :: xs).filter (fun f => v ≤ f.2) = [] := by
  apply List.filter_eq_nil_iff.mpr
  intro f hf
  have hle : f.2 ≤ e.2 := by
    rcases List.mem_cons.mp hf with rfl | hf
    · exact le_rfl
    · exact (List.pairwise_cons.mp h).1 f hf
  simpa using hle.trans_lt he

/-- Where `n` entries have a value, the first `n` entries do. -/
theorem le_of_count (h : Descending xs) (hn : n ≤ (xs.filter fun f => v ≤ f.2).length) (he : e ∈ xs.take n) : v ≤ e.2 := by
  induction xs generalizing n with
  | nil => simp at he
  | cons a xs ih =>
    cases n with
    | zero => simp at he
    | succ n =>
      have ha : v ≤ a.2 := by
        by_contra hlt
        rw [h.filter_eq_nil (not_le.mp hlt)] at hn
        simp at hn
      rcases List.mem_cons.mp he with rfl | he
      · exact ha
      · apply ih (List.pairwise_cons.mp h).2 _ he
        simpa [ha] using hn

end Descending

section InFront
variable [DecidableEq K]

/-- The entries in front of a key, all of them if there is none of the key. -/
def inFront (key : K) (xs : List (K × V)) : List (K × V) := xs.takeWhile fun f => f.1 ≠ key

variable {xs : List (K × V)} {n : ℕ} {v : V} {e : K × V} {key : K}

omit [LinearOrder V] in
@[simp] theorem inFront_nil : inFront key ([] : List (K × V)) = [] := rfl

omit [LinearOrder V] in
theorem inFront_cons_self (h : e.1 = key) : inFront key (e :: xs) = [] := by simp [inFront, h]

omit [LinearOrder V] in
theorem inFront_cons_of_ne (h : e.1 ≠ key) : inFront key (e :: xs) = e :: inFront key xs := by simp [inFront, h]

omit [LinearOrder V] in
theorem inFront_sublist : (inFront key xs).Sublist xs := List.takeWhile_sublist _

omit [LinearOrder V] in
/-- Fewer than `n` entries are in front of one of the first `n`. -/
theorem length_inFront_lt (he : e ∈ xs.take n) : (inFront e.1 xs).length < n := by
  induction xs generalizing n with
  | nil => simp at he
  | cons a xs ih =>
    cases n with
    | zero => simp at he
    | succ n =>
      by_cases ha : a.1 = e.1
      · rw [inFront_cons_self ha]
        exact Nat.succ_pos n
      · have hin : e ∈ xs.take n := by
          rcases List.mem_cons.mp he with rfl | he
          · exact absurd rfl ha
          · exact he
        rw [inFront_cons_of_ne ha]
        exact Nat.succ_lt_succ (ih hin)

omit [LinearOrder V] in
/-- Where a key is not among the first entries, they are all in front of it. -/
theorem take_sublist_inFront (h : ∀ f ∈ xs.take n, f.1 ≠ key) : (xs.take n).Sublist (inFront key xs) := by
  induction xs generalizing n with
  | nil => simp
  | cons a xs ih =>
    cases n with
    | zero => simp
    | succ n =>
      rw [inFront_cons_of_ne (h a (by simp)), List.take_succ_cons]
      exact (ih fun f hf => h f (List.mem_cons_of_mem a hf)).cons_cons a

end InFront

end LogStats
