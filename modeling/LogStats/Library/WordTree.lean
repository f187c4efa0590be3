import Mathlib.Data.List.Induction
import Mathlib.Logic.Function.Iterate

/-! # Binary trees in a memory, and free lists

Each node of a tree is reached by one word, the left or right turns from the root to it.
`WordTree child parent place` says that the links of a memory are those of the tree whose
node at each word is `place`. Nodes are only hung below nodes, and only leaves are taken
away.
-/
namespace LogStats

variable {A : Type*}

structure WordTree (child : A → Bool → Option A) (parent : A → Option A) (place : List Bool → Option A) : Prop where
  child_eq : ∀ w a, place w = some a → ∀ b, child a b = place (w ++ [b])
  closed : ∀ w b, place w = none → place (w ++ [b]) = none
  parent_root : ∀ a, place [] = some a → parent a = none
  parent_eq : ∀ w b a, place (w ++ [b]) = some a → parent a = place w
  inj : ∀ w u a, place w = some a → place u = some a → w = u

namespace WordTree
variable {child child' : A → Bool → Option A} {parent parent' : A → Option A}
variable {place : List Bool → Option A} {w : List Bool} {b : Bool} {a x : A}

/-- The node at a word is found by following the links. -/
theorem foldl_child (h : WordTree child parent place) (w : List Bool) :
    w.foldl (fun node b => node.bind fun a => child a b) (place []) = place w := by
  induction w using List.reverseRecOn with
  | nil => rfl
  | append_singleton w b ih =>
    rw [List.foldl_append, ih, List.foldl_cons, List.foldl_nil]
    cases hw : place w with
    | none => exact (h.closed w b hw).symm
    | some a => exact h.child_eq w a hw b

theorem word_ne (w : List Bool) (b : Bool) : w ++ [b] ≠ w := fun h => by
  have hlen := congrArg List.length h
  simp at hlen

/-- A new leaf. -/
theorem attach (h : WordTree child parent place) (hw : place w = some a) (hno : place (w ++ [b]) = none)
    (hnew : ∀ u, place u ≠ some x) (hleaf : ∀ b', child' x b' = none) (hlink : child' a b = some x)
    (hother : ∀ u c, place u = some c → ∀ b', (c,b') ≠ (a,b) → child' c b' = child c b')
    (hup : parent' x = some a) (hparent : ∀ u c, place u = some c → parent' c = parent c) :
    WordTree child' parent' (Function.update place (w ++ [b]) (some x)) := by
  have hold : ∀ u c, place u = some c → u ≠ w ++ [b] := by
    rintro u c hu rfl
    rw [hno] at hu
    cases hu
  have hbelow : ∀ b', w ++ [b] ++ [b'] ≠ w ++ [b] := word_ne (w ++ [b])
  constructor
  · intro u c hu b'
    by_cases hu' : u = w ++ [b]
    · subst hu'
      rw [Function.update_self, Option.some.injEq] at hu
      subst hu
      rw [hleaf, Function.update_of_ne (hbelow b'), h.closed _ _ hno]
    · rw [Function.update_of_ne hu'] at hu
      by_cases hlast : u ++ [b'] = w ++ [b]
      · obtain ⟨rfl,hb⟩ := List.append_inj' hlast rfl
        obtain rfl : b' = b := List.singleton_inj.mp hb
        obtain rfl : a = c := Option.some.inj (hw.symm.trans hu)
        rw [hlink, Function.update_self]
      · rw [Function.update_of_ne hlast, ← h.child_eq u c hu]
        refine hother u c hu b' fun heq => hlast ?_
        obtain ⟨rfl,rfl⟩ := Prod.mk.inj heq
        rw [h.inj u w c hu hw]
  · intro u b' hu
    by_cases hu' : u = w ++ [b]
    · rw [hu', Function.update_self] at hu
      cases hu
    · rw [Function.update_of_ne hu'] at hu
      rw [Function.update_of_ne, h.closed _ _ hu]
      intro hlast
      obtain ⟨rfl,-⟩ := List.append_inj' hlast rfl
      rw [hw] at hu
      cases hu
  · intro c hc
    rw [Function.update_of_ne (by simp)] at hc
    rw [hparent _ _ hc, h.parent_root c hc]
  · intro u b' c hc
    by_cases hlast : u ++ [b'] = w ++ [b]
    · rw [hlast, Function.update_self, Option.some.injEq] at hc
      obtain ⟨rfl,-⟩ := List.append_inj' hlast rfl
      rw [← hc, hup, Function.update_of_ne (word_ne u b).symm, hw]
    · rw [Function.update_of_ne hlast] at hc
      have hu : place u ≠ none := fun hnone => by
        rw [h.closed u b' hnone] at hc
        cases hc
      have hu' : u ≠ w ++ [b] := by
        rintro rfl
        exact hu hno
      rw [hparent _ _ hc, h.parent_eq _ _ _ hc, Function.update_of_ne hu']
  · intro u v c hu hv
    by_cases hu' : u = w ++ [b] <;> by_cases hv' : v = w ++ [b]
    · rw [hu', hv']
    · rw [hu', Function.update_self, Option.some.injEq] at hu
      rw [Function.update_of_ne hv', ← hu] at hv
      exact absurd hv (hnew v)
    · rw [hv', Function.update_self, Option.some.injEq] at hv
      rw [Function.update_of_ne hu', ← hv] at hu
      exact absurd hu (hnew u)
    · rw [Function.update_of_ne hu'] at hu
      rw [Function.update_of_ne hv'] at hv
      exact h.inj u v c hu hv

/-- A leaf taken away. -/
theorem detach (h : WordTree child parent place) (hw : place w = some a)
    (hleaf : ∀ b', place (w ++ [b] ++ [b']) = none) (hlink : child' a b = none)
    (hother : ∀ u c, u ≠ w ++ [b] → place u = some c → ∀ b', (c,b') ≠ (a,b) → child' c b' = child c b')
    (hparent : ∀ u c, u ≠ w ++ [b] → place u = some c → parent' c = parent c) :
    WordTree child' parent' (Function.update place (w ++ [b]) none) := by
  have hsome : ∀ u c, Function.update place (w ++ [b]) none u = some c → u ≠ w ++ [b] ∧ place u = some c := by
    intro u c hu
    by_cases hu' : u = w ++ [b]
    · rw [hu', Function.update_self] at hu
      cases hu
    · exact ⟨hu',by rwa [Function.update_of_ne hu'] at hu⟩
  constructor
  · intro u c hu b'
    obtain ⟨hu',hc⟩ := hsome u c hu
    by_cases hlast : u ++ [b'] = w ++ [b]
    · obtain ⟨rfl,hb⟩ := List.append_inj' hlast rfl
      obtain rfl : b' = b := List.singleton_inj.mp hb
      obtain rfl : a = c := Option.some.inj (hw.symm.trans hc)
      rw [hlink, Function.update_self]
    · rw [Function.update_of_ne hlast, ← h.child_eq u c hc]
      refine hother u c hu' hc b' fun heq => hlast ?_
      obtain ⟨rfl,rfl⟩ := Prod.mk.inj heq
      rw [h.inj u w c hc hw]
  · intro u b' hu
    by_cases hlast : u ++ [b'] = w ++ [b]
    · rw [hlast, Function.update_self]
    · rw [Function.update_of_ne hlast]
      by_cases hu' : u = w ++ [b]
      · rw [hu', hleaf]
      · rw [Function.update_of_ne hu'] at hu
        exact h.closed _ _ hu
  · intro c hc
    obtain ⟨hne,hc⟩ := hsome _ _ hc
    rw [hparent _ _ hne hc, h.parent_root c hc]
  · intro u b' c hc
    obtain ⟨hne,hc⟩ := hsome _ _ hc
    have hu : u ≠ w ++ [b] := by
      rintro rfl
      rw [hleaf] at hc
      cases hc
    rw [hparent _ _ hne hc, h.parent_eq _ _ _ hc, Function.update_of_ne hu]
  · intro u v c hu hv
    exact h.inj u v c (hsome u c hu).2 (hsome v c hv).2

/-- The tree does not see writes elsewhere. -/
theorem congr (h : WordTree child parent place) (hchild : ∀ u c, place u = some c → child' c = child c)
    (hparent : ∀ u c, place u = some c → parent' c = parent c) : WordTree child' parent' place := by
  refine ⟨fun u c hu b' => ?_,h.closed,fun c hc => ?_,fun u b' c hc => ?_,h.inj⟩
  · rw [hchild u c hu]
    exact h.child_eq u c hu b'
  · rw [hparent _ c hc]
    exact h.parent_root c hc
  · rw [hparent _ c hc]
    exact h.parent_eq u b' c hc

end WordTree

/-- The cells `xs` follow each other along `next`, from where a pointer points to. -/
def Chained (next : A → Option A) : Option A → List A → Prop
  | ptr, [] => ptr = none
  | ptr, x :: xs => ptr = some x ∧ Chained next (next x) xs

section Chained
variable {next next' : A → Option A} {ptr : Option A} {xs : List A}

theorem Chained.congr (h : Chained next ptr xs) (hnext : ∀ x ∈ xs, next' x = next x) : Chained next' ptr xs := by
  induction xs generalizing ptr with
  | nil => exact h
  | cons x xs ih =>
    refine ⟨h.1,ih ?_ fun y hy => hnext y (List.mem_cons_of_mem _ hy)⟩
    rw [hnext x List.mem_cons_self]
    exact h.2

/-- Every cell that is reached is in the list. -/
theorem Chained.reached (h : Chained next ptr xs) (k : ℕ) {a : A} (hk : (fun o => Option.bind o next)^[k] ptr = some a) :
    a ∈ xs := by
  induction xs generalizing ptr k with
  | nil =>
    have hnone : ∀ k, (fun o => Option.bind o next)^[k] (none : Option A) = none := fun k => by
      induction k with
      | zero => rfl
      | succ k ih => rwa [Function.iterate_succ_apply]
    obtain rfl : ptr = none := h
    rw [hnone] at hk
    cases hk
  | cons x xs ih =>
    obtain ⟨rfl,hxs⟩ := h
    cases k with
    | zero =>
      obtain rfl := Option.some.inj hk
      exact List.mem_cons_self
    | succ k =>
      rw [Function.iterate_succ_apply] at hk
      exact List.mem_cons_of_mem _ (ih hxs k hk)

end Chained

end LogStats
