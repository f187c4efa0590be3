import LogStats.Containers.LruList

/-! # The search in the LRU list

The loop of lru_list_search tests a node and goes round again without going on to the
next one. It ends where it starts or not at all.
-/
namespace LogStats

/-- The loop from a node on, for as many rounds as there is fuel. -/
def lruSearchLoop (l : LruList) (userData : ℕ) : ℕ → ℕ → Option ℕ
  | 0, _ => none
  | fuel + 1, node =>
    if node = 0 then some 0
    else if l.dataOf node = userData then some node
    else lruSearchLoop l userData fuel node

/-- `lru_list_search`: the list afterwards, and a node or NULL. -/
def lruListSearch (fuel : ℕ) (l : LruList) (userData : ℕ) : Option (LruList × ℕ) :=
  (lruSearchLoop l userData fuel l.header).map fun node => (l,node)

namespace LruList

/-- The first of the nodes that carries the pointer, or NULL. -/
def firstWith (l : LruList) (userData : ℕ) (xs : List ℕ) : ℕ := (xs.find? fun x => l.dataOf x = userData).getD 0

/-- The search ends, whatever time it is given beyond what it needs. -/
def Finds (l : LruList) (userData : ℕ) (xs : List ℕ) : Prop :=
  ∃ fuel, ∀ n, fuel ≤ n → lruListSearch n l userData = some (l,l.firstWith userData xs)

section Search
variable {l : LruList} {userData node : ℕ} {xs : List ℕ}

/-- No round does what the one before did not. -/
theorem searchLoop_eq (fuel : ℕ) : lruSearchLoop l userData fuel node =
    if fuel = 0 then none else if node = 0 then some 0 else if l.dataOf node = userData then some node else none := by
  induction fuel with
  | zero => rfl
  | succ fuel ih =>
    rw [lruSearchLoop, ih, if_neg (Nat.succ_ne_zero fuel)]
    split
    · rfl
    · split
      · rfl
      · exact ite_self none

theorem search_stuck (hnode : l.header ≠ 0) (hdata : l.dataOf l.header ≠ userData) (fuel : ℕ) :
    lruListSearch fuel l userData = none := by
  rw [lruListSearch, searchLoop_eq, if_neg hnode, if_neg hdata, ite_self]
  rfl

theorem search_ends (hdata : l.header = 0 ∨ l.dataOf l.header = userData) {fuel : ℕ} (hfuel : 1 ≤ fuel) :
    lruListSearch fuel l userData = some (l,l.header) := by
  rw [lruListSearch, searchLoop_eq, if_neg (by omega)]
  split
  · rename_i hnode
    rw [hnode]
    rfl
  · rename_i hnode
    rw [if_pos (hdata.resolve_left hnode)]
    rfl

theorem Chain.firstWith_header (h : l.Chain xs) (hdata : xs = [] ∨ l.dataOf l.header = userData) :
    l.firstWith userData xs = l.header := by
  cases xs with
  | nil => exact h.header_eq.symm
  | cons x xs =>
    have hx : l.header = x := h.header_eq
    rw [hx] at hdata ⊢
    have hfound : (x :: xs).find? (fun y => decide (l.dataOf y = userData)) = some x :=
      List.find?_cons_of_pos (by simpa using hdata)
    rw [firstWith, hfound]
    rfl

end Search

end LruList

open LruList

/-- The search ends, and then with the right node, if and only if the list is empty or its
first node carries the pointer. Otherwise no time is enough for it. -/
theorem lruListSearch_finds_iff {l : LruList} {xs : List ℕ} (h : l.Chain xs) (userData : ℕ) :
    (l.Finds userData xs ↔ xs = [] ∨ l.dataOf l.header = userData) ∧
    (¬(xs = [] ∨ l.dataOf l.header = userData) → ∀ fuel, lruListSearch fuel l userData = none) := by
  have hstuck : ¬(xs = [] ∨ l.dataOf l.header = userData) → ∀ fuel, lruListSearch fuel l userData = none := by
    intro hno
    obtain ⟨hne,hdata⟩ := not_or.mp hno
    exact search_stuck (h.header_nonnull hne) hdata
  refine ⟨⟨?_,?_⟩,hstuck⟩
  · rintro ⟨fuel,hfound⟩
    by_contra hno
    have hnone := hfound fuel le_rfl
    rw [hstuck hno fuel] at hnone
    cases hnone
  · intro hdata
    refine ⟨1,fun n hn => ?_⟩
    rw [h.firstWith_header hdata]
    apply search_ends _ hn
    rcases hdata with rfl | hdata
    · exact Or.inl h.header_eq
    · exact Or.inr hdata

/-- A list into which two pointers were inserted, 5 and then 7. -/
theorem lruListInsert_twice : ∃ l₁ l n₁ n₂, lruListInsert true (lruListCreate fun _ => ⟨0,0,0⟩) 5 = some (l₁,some n₁) ∧
    lruListInsert true l₁ 7 = some (l,some n₂) ∧ l.Represents [n₂,n₁] ∧ l.dataOf n₁ = 5 ∧ l.dataOf n₂ = 7 := by
  obtain ⟨l₁,hrun₁,h₁,hdata₁,-⟩ := lruListInsert_spec (lruListCreate_represents fun _ => ⟨0,0,0⟩) (show 5 ≠ 0 by decide)
  obtain ⟨l,hrun,h,hdata,hsame⟩ := lruListInsert_spec h₁ (show 7 ≠ 0 by decide)
  exact ⟨l₁,l,_,_,hrun₁,hrun,h,(hsame _ List.mem_cons_self).trans hdata₁,hdata⟩

theorem lruListSearch_finds_iff_twice : ∃ l xs, LruList.Chain l xs ∧ l.Finds 7 xs ∧ ¬l.Finds 5 xs := by
  obtain ⟨l₁,l,n₁,n₂,-,-,h,-,hdata⟩ := lruListInsert_twice
  have hhead : l.dataOf l.header = 7 := by rw [h.header_eq]; exact hdata
  refine ⟨l,_,h.chain,(lruListSearch_finds_iff h.chain 7).1.mpr (Or.inr hhead),?_⟩
  rw [(lruListSearch_finds_iff h.chain 5).1, hhead]
  simp

/-- The pointer that was inserted first is not found. -/
theorem lruListSearch_stuck : ∃ l₁ l n₁ n₂,
    lruListInsert true (lruListCreate fun _ => ⟨0,0,0⟩) 5 = some (l₁,some n₁) ∧
    lruListInsert true l₁ 7 = some (l,some n₂) ∧ l.Represents [n₂,n₁] ∧ l.dataOf n₁ = 5 ∧
    ∀ fuel, lruListSearch fuel l 5 = none := by
  obtain ⟨l₁,l,n₁,n₂,hrun₁,hrun,h,hdata₁,hdata⟩ := lruListInsert_twice
  refine ⟨l₁,l,n₁,n₂,hrun₁,hrun,h,hdata₁,search_stuck (h.chain.header_nonnull (List.cons_ne_nil _ _)) ?_⟩
  have hhead : l.header = n₂ := h.header_eq
  rw [hhead, hdata]
  decide

end LogStats
