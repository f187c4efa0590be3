import Mathlib.Data.List.Nodup

/-! # Keys with their values, the last used first -/
namespace LogStats

variable {K V : Type*} [DecidableEq K]

/-- The entry of a key moves to the front, past entries that keep their order. -/
def toFront (a : K) (xs : List (K × V)) : List (K × V) :=
  xs.filter (fun p => p.1 = a) ++ xs.filter (fun p => p.1 ≠ a)

def without (a : K) (xs : List (K × V)) : List (K × V) := xs.filter (fun p => p.1 ≠ a)

theorem without_of_not_mem {a : K} {xs : List (K × V)} (h : a ∉ xs.map Prod.fst) : without a xs = xs := by
  apply List.filter_eq_self.mpr
  rintro ⟨k,v⟩ hp
  have hk : k ≠ a := by
    rintro rfl
    exact h (List.mem_map_of_mem hp)
  simpa using hk

section Middle
variable {a : K} {b : V} {xs ys : List (K × V)}

omit [DecidableEq K] in
theorem not_mem_sides (h : ((xs ++ (a,b) :: ys).map Prod.fst).Nodup) :
    a ∉ xs.map Prod.fst ∧ a ∉ ys.map Prod.fst := by
  rw [List.map_append, List.map_cons] at h
  obtain ⟨hl,hr⟩ := List.nodup_middle.mp h |> List.nodup_cons.mp
  rw [List.mem_append, not_or] at hl
  exact hl

theorem without_middle (h : ((xs ++ (a,b) :: ys).map Prod.fst).Nodup) : without a (xs ++ (a,b) :: ys) = xs ++ ys := by
  obtain ⟨hx,hy⟩ := not_mem_sides h
  have hxs := without_of_not_mem hx
  have hys := without_of_not_mem hy
  simp only [without] at hxs hys ⊢
  rw [List.filter_append, List.filter_cons, hxs, hys]
  simp

theorem toFront_middle (h : ((xs ++ (a,b) :: ys).map Prod.fst).Nodup) :
    toFront a (xs ++ (a,b) :: ys) = (a,b) :: (xs ++ ys) := by
  obtain ⟨hx,hy⟩ := not_mem_sides h
  have hout := without_middle h
  have hnone : ∀ zs : List (K × V), a ∉ zs.map Prod.fst → zs.filter (fun p => p.1 = a) = [] := by
    intro zs hz
    apply List.filter_eq_nil_iff.mpr
    rintro ⟨k,v⟩ hp
    have hk : k ≠ a := by
      rintro rfl
      exact hz (List.mem_map_of_mem hp)
    simpa using hk
  have hin : (xs ++ (a,b) :: ys).filter (fun p => p.1 = a) = [(a,b)] := by
    rw [List.filter_append, List.filter_cons, hnone xs hx, hnone ys hy]
    simp
  rw [toFront, hin]
  exact congrArg ((a,b) :: ·) hout

end Middle

end LogStats
