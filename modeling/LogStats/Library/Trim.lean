import Mathlib.Data.List.Infix

/-! # Dropping elements from the end of a list until the rest is small enough

Elements leave one by one while the rest is over a limit and more than a given number
of them are left. What stays is determined by this.
-/
namespace LogStats

variable {α : Type*}

/-- `kept` is what stays of `xs`. -/
structure Trimmed (excess : List α → Prop) (least : ℕ) (xs kept : List α) : Prop where
  initial : kept <+: xs
  stops : excess kept → kept.length ≤ least
  needed : ∀ ys, kept <+: ys → ys <+: xs → ys ≠ kept → excess ys ∧ least < ys.length

namespace Trimmed

variable {excess : List α → Prop} {least : ℕ} {xs kept : List α}

theorem stop (h : excess xs → xs.length ≤ least) : Trimmed excess least xs xs where
  initial := List.prefix_refl xs
  stops := h
  needed _ hkept hxs hne := absurd (hxs.eq_of_length_le hkept.length_le) hne

theorem drop {x : α} (hexcess : excess (xs ++ [x])) (hlen : least < (xs ++ [x]).length)
    (h : Trimmed excess least xs kept) : Trimmed excess least (xs ++ [x]) kept where
  initial := h.initial.trans (List.prefix_append xs [x])
  stops := h.stops
  needed ys hkept hys hne := by
    rcases List.prefix_concat_iff.mp hys with rfl | hys
    · exact ⟨hexcess,hlen⟩
    · exact h.needed ys hkept hys hne

theorem unique {kept' : List α} (h : Trimmed excess least xs kept) (h' : Trimmed excess least xs kept') :
    kept = kept' := by
  have hle : ∀ {k k' : List α}, Trimmed excess least xs k → Trimmed excess least xs k' → k <+: k' → k = k' := by
    intro k k' h h' hk
    by_contra hne
    obtain ⟨hexcess,hlen⟩ := h.needed k' hk h'.initial (fun he => hne he.symm)
    have hstop := h'.stops hexcess
    omega
  rcases List.prefix_or_prefix_of_prefix h.initial h'.initial with hk | hk
  · exact hle h h' hk
  · exact (hle h' h hk).symm

/-- Nothing stays if every other prefix is over the limit. -/
theorem eq_nil_iff (h : Trimmed excess 0 xs kept) : kept = [] ↔ ∀ ys, ys <+: xs → ys ≠ [] → excess ys := by
  constructor
  · rintro rfl ys hys hne
    exact (h.needed ys List.nil_prefix hys hne).1
  · intro hall
    by_contra hne
    have hlen := h.stops (hall kept h.initial hne)
    exact hne (List.eq_nil_of_length_eq_zero (Nat.le_zero.mp hlen))

theorem congr {excess' : List α → Prop} (hiff : ∀ ys, ys <+: xs → (excess' ys ↔ excess ys))
    (h : Trimmed excess least xs kept) : Trimmed excess' least xs kept where
  initial := h.initial
  stops hexcess := h.stops ((hiff kept h.initial).mp hexcess)
  needed ys hkept hys hne := by
    obtain ⟨hexcess,hlen⟩ := h.needed ys hkept hys hne
    exact ⟨(hiff ys hys).mpr hexcess,hlen⟩

theorem length_pos (h : Trimmed excess least xs kept) (hleast : 0 < least) (hxs : xs ≠ []) : kept ≠ [] := by
  rintro rfl
  obtain ⟨x,rest,rfl⟩ := List.exists_cons_of_ne_nil hxs
  have hone : [x] <+: x :: rest := List.prefix_iff_eq_append.mpr rfl
  have hlen := (h.needed [x] List.nil_prefix hone (List.cons_ne_nil x [])).2
  rw [List.length_singleton] at hlen
  omega

end Trimmed

end LogStats
