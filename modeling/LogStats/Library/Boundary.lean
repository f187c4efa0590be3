import Mathlib.Data.List.Infix

/-! # Suffixes that begin behind a separator

What follows a separator in a list is a suffix at a boundary, and so is the whole list.
-/
namespace LogStats

variable {α : Type*} {sep : α} {u s a rest : List α}

def BoundarySuffix (sep : α) (u s : List α) : Prop := u = s ∨ ∃ pre, s = pre ++ sep :: u

namespace BoundarySuffix

theorem refl (s : List α) : BoundarySuffix sep s s := Or.inl rfl

theorem suffix (h : BoundarySuffix sep u s) : u <:+ s := by
  rcases h with rfl | ⟨pre,rfl⟩
  · exact List.suffix_rfl
  · exact ⟨pre ++ [sep],by simp⟩

theorem length_le (h : BoundarySuffix sep u s) : u.length ≤ s.length := h.suffix.length_le

theorem eq_of_length_le (h : BoundarySuffix sep u s) (hle : s.length ≤ u.length) : u = s :=
  h.suffix.eq_of_length_le hle

theorem nil_right (h : BoundarySuffix sep u []) : u = [] := List.eq_nil_of_suffix_nil h.suffix

/-- Past the first separator the boundaries are those of the rest. -/
theorem cut_iff (ha : sep ∉ a) :
    BoundarySuffix sep u (a ++ sep :: rest) ↔ u = a ++ sep :: rest ∨ BoundarySuffix sep u rest := by
  constructor
  · rintro (rfl | ⟨pre,he⟩)
    · exact Or.inl rfl
    · right
      rcases List.append_eq_append_iff.mp he with ⟨mid,rfl,hmid⟩ | ⟨mid,rfl,hmid⟩
      · -- the separator in front of `u` is the first one, or comes later
        cases mid with
        | nil =>
          obtain ⟨-,rfl⟩ := List.cons_eq_cons.mp hmid
          exact refl rest
        | cons b mid =>
          obtain ⟨rfl,rfl⟩ := List.cons_eq_cons.mp hmid
          exact Or.inr ⟨mid,rfl⟩
      · cases mid with
        | nil =>
          obtain ⟨-,rfl⟩ := List.cons_eq_cons.mp hmid
          exact refl u
        | cons b mid =>
          obtain ⟨rfl,-⟩ := List.cons_eq_cons.mp hmid
          exact absurd (List.mem_append_right pre List.mem_cons_self) ha
  · rintro (rfl | rfl | ⟨pre,rfl⟩)
    · exact refl _
    · exact Or.inr ⟨a,rfl⟩
    · exact Or.inr ⟨a ++ sep :: pre,by simp⟩

end BoundarySuffix

end LogStats
