import Mathlib.Data.List.DropRight
import Mathlib.Algebra.BigOperators.Group.List.Basic
import Mathlib.Algebra.GroupWithZero.Nat

/-! # Words between separators, and trimming

The words of a list are its longest parts without a separator. Separators at the ends make no
difference to them, and a list of words is read back from the words with a separator behind
each.
-/
namespace LogStats

variable {α : Type*} [DecidableEq α]

def words (sep : α) (xs : List α) : List (List α) := (xs.splitOn sep).filter (· ≠ [])

/-- The list without the separators at its ends. -/
def trim (sep : α) (xs : List α) : List α := (xs.rdropWhile (· == sep)).dropWhile (· == sep)

/-- How many elements are no separators. -/
def solid (sep : α) (xs : List α) : ℕ := (xs.filter (· ≠ sep)).length

section Words
variable {sep : α} {xs ys : List α} {ws : List (List α)} {a : α}

@[simp] theorem words_nil : words sep [] = [] := rfl

theorem words_append_sep : words sep (xs ++ sep :: ys) = words sep xs ++ words sep ys := by
  rw [words, List.splitOn_append_cons_self, List.filter_append]
  rfl

theorem words_cons_sep : words sep (sep :: xs) = words sep xs := by
  have hsplit := @words_append_sep α _ sep [] xs
  rwa [words_nil, List.nil_append, List.nil_append] at hsplit

theorem words_concat_sep : words sep (xs ++ [sep]) = words sep xs := by
  rw [words_append_sep, words_nil, List.append_nil]

theorem words_single (hne : xs ≠ []) (hsep : sep ∉ xs) : words sep xs = [xs] := by
  rw [words, List.splitOn_eq_singleton hsep]
  simp [hne]

/-- Words with a separator behind each are read back. -/
theorem words_flatMap (h : ∀ w ∈ ws, w ≠ [] ∧ sep ∉ w) : words sep (ws.flatMap (· ++ [sep])) = ws := by
  induction ws with
  | nil => rfl
  | cons w ws ih =>
    obtain ⟨⟨hne,hsep⟩,hws⟩ := List.forall_mem_cons.mp h
    rw [List.flatMap_cons, List.append_assoc, List.singleton_append, words_append_sep, words_single hne hsep, ih hws]
    rfl

theorem words_dropWhile : words sep (xs.dropWhile (· == sep)) = words sep xs := by
  induction xs with
  | nil => rfl
  | cons a xs ih =>
    by_cases ha : a = sep
    · subst ha
      rw [List.dropWhile_cons_of_pos (by simp), ih, words_cons_sep]
    · rw [List.dropWhile_cons_of_neg (by simpa using ha)]

theorem words_rdropWhile : words sep (xs.rdropWhile (· == sep)) = words sep xs := by
  induction xs using List.reverseRecOn with
  | nil => simp
  | append_singleton xs a ih =>
    by_cases ha : a = sep
    · subst ha
      rw [List.rdropWhile_concat_pos _ _ _ (by simp), ih, words_concat_sep]
    · rw [List.rdropWhile_concat_neg _ _ _ (by simpa using ha)]

theorem words_trim : words sep (trim sep xs) = words sep xs := by rw [trim, words_dropWhile, words_rdropWhile]

/-! ## Trimming -/

theorem rdropWhile_append_solid (ha : a ≠ sep) :
    (xs ++ a :: ys).rdropWhile (· == sep) = xs ++ a :: ys.rdropWhile (· == sep) := by
  induction ys using List.reverseRecOn with
  | nil => rw [List.rdropWhile_concat_neg _ _ _ (by simpa using ha), List.rdropWhile_nil]
  | append_singleton ys b ih =>
    rw [← List.cons_append, ← List.append_assoc]
    by_cases hb : b = sep
    · subst hb
      rw [List.rdropWhile_concat_pos _ _ _ (by simp), List.rdropWhile_concat_pos _ _ _ (by simp), ih]
    · rw [List.rdropWhile_concat_neg _ _ _ (by simpa using hb), List.rdropWhile_concat_neg _ _ _ (by simpa using hb),
        List.append_assoc, List.cons_append]

/-- Nothing is dropped from a list that starts and ends with no separator. -/
theorem trim_eq_self (hhead : xs.head? ≠ some sep) (hlast : xs.getLast? ≠ some sep) : trim sep xs = xs := by
  cases xs using List.reverseRecOn with
  | nil => rfl
  | append_singleton xs a =>
    rw [List.getLast?_concat] at hlast
    have ha : a ≠ sep := fun heq => hlast (congrArg some heq)
    rw [trim, List.rdropWhile_concat_neg _ _ _ (by simpa using ha), List.dropWhile_eq_self_iff]
    intro hlen hsep
    apply hhead
    rw [List.head?_eq_getElem?, List.getElem?_eq_getElem hlen, beq_iff_eq.mp hsep]

theorem trim_cons_sep : trim sep (sep :: xs) = trim sep xs := by
  induction xs using List.reverseRecOn with
  | nil => simp [trim, List.rdropWhile_singleton]
  | append_singleton xs b ih =>
    by_cases hb : b = sep
    · subst hb
      rw [trim, ← List.cons_append, List.rdropWhile_concat_pos _ _ _ (by simp), trim,
        List.rdropWhile_concat_pos _ _ _ (by simp)]
      exact ih
    · rw [trim, ← List.cons_append, List.rdropWhile_concat_neg _ _ _ (by simpa using hb), trim,
        List.rdropWhile_concat_neg _ _ _ (by simpa using hb), List.cons_append, List.dropWhile_cons_of_pos (by simp)]

theorem trim_concat_sep : trim sep (xs ++ [sep]) = trim sep xs := by
  rw [trim, List.rdropWhile_concat_pos _ _ _ (by simp), trim]

theorem trim_rdropWhile : trim sep (xs.rdropWhile (· == sep)) = trim sep xs := by
  rw [trim, List.rdropWhile_idempotent, trim]

theorem solid_append : solid sep (xs ++ ys) = solid sep xs + solid sep ys := by
  rw [solid, List.filter_append, List.length_append]
  rfl

theorem solid_cons : solid sep (a :: xs) = (if a = sep then 0 else 1) + solid sep xs := by
  by_cases ha : a = sep <;> simp [solid, ha, Nat.add_comm]

/-- Words have all that is no separator. -/
theorem sum_words : ((words sep xs).map List.length).sum = solid sep xs := by
  have hgen : ∀ n (xs : List α), xs.length ≤ n → ((words sep xs).map List.length).sum = solid sep xs := by
    intro n
    induction n with
    | zero =>
      intro xs hn
      obtain rfl := List.length_eq_zero_iff.mp (Nat.le_zero.mp hn)
      rfl
    | succ n ih =>
      intro xs hn
      by_cases hsep : sep ∈ xs
      · obtain ⟨ys,zs,rfl⟩ := List.append_of_mem hsep
        rw [List.length_append, List.length_cons] at hn
        rw [words_append_sep, List.map_append, List.sum_append, ih ys (by omega), ih zs (by omega), solid_append,
          solid_cons, if_pos rfl, Nat.zero_add]
      · have hsolid : solid sep xs = xs.length := by
          rw [solid, List.filter_eq_self.mpr]
          intro a ha
          exact decide_eq_true fun heq => hsep (heq ▸ ha)
        by_cases hne : xs = []
        · subst hne
          rfl
        · rw [words_single hne hsep, hsolid, List.map_singleton, List.sum_singleton]
  exact hgen xs.length xs le_rfl

theorem solid_trim : solid sep (trim sep xs) = solid sep xs := by rw [← sum_words, words_trim, sum_words]

/-- What a list of words with a separator behind each ends in. -/
theorem solid_suffix_pos (h : ∀ w ∈ ws, w ≠ [] ∧ sep ∉ w) (hsplit : ws.flatMap (· ++ [sep]) = xs ++ ys) (hys : 2 ≤ ys.length) :
    0 < solid sep ys := by
  cases ws using List.reverseRecOn with
  | nil =>
    have hlen := congrArg List.length hsplit
    simp at hlen
    omega
  | append_singleton ws w =>
    obtain ⟨hne,hsep⟩ := h w (by simp)
    rw [List.flatMap_append, List.flatMap_singleton, ← List.dropLast_concat_getLast hne] at hsplit
    have hlast : w.getLast hne ≠ sep := fun heq => hsep (heq ▸ List.getLast_mem hne)
    have hend : [w.getLast hne,sep] <:+ xs ++ ys := by
      rw [← hsplit]
      exact ⟨ws.flatMap (· ++ [sep]) ++ w.dropLast,by simp⟩
    have hsuffix : [w.getLast hne,sep] <:+ ys :=
      List.suffix_of_suffix_length_le hend (List.suffix_append xs ys) (by simpa using hys)
    obtain ⟨zs,rfl⟩ := hsuffix
    rw [solid_append, solid_cons, if_neg hlast]
    omega

end Words

end LogStats
