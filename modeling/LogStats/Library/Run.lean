import Mathlib.Data.List.Infix

/-! # Runs of a step function that may be undefined

A run stops where a step is undefined. `Along ok` says that the steps a run takes
meet a condition on the state before them, `Throughout ok` that the first step which is
undefined meets it as well, and `Always P` that all the states it reaches have a property,
the first and the last included.
-/
namespace LogStats

variable {σ ι : Type*} (step : σ → ι → Option σ)

def run : σ → List ι → Option σ
  | s, [] => some s
  | s, i :: is =>
    match step s i with
    | none => none
    | some s' => run s' is

def Along (ok : σ → ι → Prop) : σ → List ι → Prop
  | _, [] => True
  | s, i :: is =>
    match step s i with
    | none => True
    | some s' => ok s i ∧ Along ok s' is

def Throughout (ok : σ → ι → Prop) : σ → List ι → Prop
  | _, [] => True
  | s, i :: is =>
    ok s i ∧
      match step s i with
      | none => True
      | some s' => Throughout ok s' is

def Always (P : σ → Prop) (s : σ) (is : List ι) : Prop :=
  ∀ js, js <+: is → ∀ s', run step s js = some s' → P s'

instance decidableAlong (ok : σ → ι → Prop) [∀ s i, Decidable (ok s i)] :
    ∀ s is, Decidable (Along step ok s is)
  | _, [] => isTrue trivial
  | s, i :: is => by
    unfold Along
    cases step s i with
    | none => exact isTrue trivial
    | some s' => exact @instDecidableAnd _ _ _ (decidableAlong ok s' is)

instance decidableThroughout (ok : σ → ι → Prop) [∀ s i, Decidable (ok s i)] :
    ∀ s is, Decidable (Throughout step ok s is)
  | _, [] => isTrue trivial
  | s, i :: is => by
    unfold Throughout
    cases step s i with
    | none => exact inferInstanceAs (Decidable (ok s i ∧ True))
    | some s' => exact @instDecidableAnd _ _ _ (decidableThroughout ok s' is)

section Lemmas
variable {step : σ → ι → Option σ} {ok : σ → ι → Prop} {s : σ} {i : ι} {is : List ι}

@[simp] theorem run_nil : run step s [] = some s := rfl

theorem run_cons_some {s' : σ} (h : step s i = some s') : run step s (i :: is) = run step s' is := by
  simp [run, h]

theorem run_cons_none (h : step s i = none) : run step s (i :: is) = none := by simp [run, h]

theorem along_cons_some {s' : σ} (h : step s i = some s') :
    Along step ok s (i :: is) ↔ ok s i ∧ Along step ok s' is := by simp [Along, h]

theorem run_concat {s' : σ} (h : run step s is = some s') : run step s (is ++ [i]) = step s' i := by
  induction is generalizing s with
  | nil =>
    obtain rfl : s = s' := by simpa using h
    cases hi : step s i with
    | none => exact run_cons_none hi
    | some t => exact run_cons_some hi
  | cons j js ih =>
    cases hj : step s j with
    | none => simp [run_cons_none hj] at h
    | some t =>
      rw [run_cons_some hj] at h
      rw [List.cons_append, run_cons_some hj]
      exact ih h

/-- A step on states that carry more runs as the step on what they carry. -/
theorem run_map {τ : Type*} {step' : τ → ι → Option τ} {f : τ → σ} (h : ∀ t i, (step' t i).map f = step (f t) i)
    (t : τ) (is : List ι) : (run step' t is).map f = run step (f t) is := by
  induction is generalizing t with
  | nil => rfl
  | cons i is ih =>
    have hi := h t i
    cases ht : step' t i with
    | none =>
      rw [ht, Option.map_none] at hi
      rw [run_cons_none ht, run_cons_none hi.symm, Option.map_none]
    | some t' =>
      rw [ht, Option.map_some] at hi
      rw [run_cons_some ht, run_cons_some hi.symm]
      exact ih t'

/-- The induction over a run: the property may mention the inputs taken so far. -/
theorem run_induction {P : List ι → σ → Prop} (hnil : P [] s)
    (hstep : ∀ js s' i s'', P js s' → ok s' i → step s' i = some s'' → P (js ++ [i]) s'')
    (hok : Along step ok s is) {s' : σ} (h : run step s is = some s') : P is s' := by
  suffices hgen : ∀ js s₀, P js s₀ → Along step ok s₀ is → run step s₀ is = some s' → P (js ++ is) s' by
    simpa using hgen [] s hnil hok h
  clear hnil hok h
  induction is with
  | nil =>
    intro js s₀ hP _ hrun
    obtain rfl : s₀ = s' := by simpa using hrun
    simpa using hP
  | cons i is ih =>
    intro js s₀ hP hok hrun
    cases hi : step s₀ i with
    | none => simp [run_cons_none hi] at hrun
    | some t =>
      obtain ⟨hoki,hok⟩ := (along_cons_some hi).mp hok
      rw [run_cons_some hi] at hrun
      have := ih (js ++ [i]) t (hstep js s₀ i t hP hoki hi) hok hrun
      simpa using this

theorem Along.true : Along step (fun _ _ => True) s is := by
  induction is generalizing s with
  | nil => trivial
  | cons i is ih =>
    cases hi : step s i with
    | none => simp [Along, hi]
    | some t => exact (along_cons_some hi).mpr ⟨trivial,ih⟩

theorem Along.of_forall {ok : ι → Prop} (h : ∀ i ∈ is, ok i) : Along step (fun _ i => ok i) s is := by
  induction is generalizing s with
  | nil => trivial
  | cons i is ih =>
    cases hi : step s i with
    | none => simp [Along, hi]
    | some t => exact (along_cons_some hi).mpr ⟨h i List.mem_cons_self,ih fun j hj => h j (List.mem_cons_of_mem i hj)⟩

theorem Along.and {ok' : σ → ι → Prop} (h : Along step ok s is) (h' : Along step ok' s is) :
    Along step (fun s i => ok s i ∧ ok' s i) s is := by
  induction is generalizing s with
  | nil => trivial
  | cons i is ih =>
    cases hi : step s i with
    | none => simp [Along, hi]
    | some t =>
      rw [along_cons_some hi] at h h' ⊢
      exact ⟨⟨h.1,h'.1⟩,ih h.2 h'.2⟩

theorem Along.take {js : List ι} (hok : Along step ok s is) (hp : js <+: is) : Along step ok s js := by
  induction js generalizing s is with
  | nil => trivial
  | cons j js ih =>
    obtain ⟨is,rfl,hjs⟩ := List.cons_prefix_iff.mp hp
    cases hj : step s j with
    | none => simp [Along, hj]
    | some t =>
      rw [along_cons_some hj] at hok ⊢
      exact ⟨hok.1,ih hok.2 hjs⟩

theorem Throughout.along (h : Throughout step ok s is) : Along step ok s is := by
  induction is generalizing s with
  | nil => trivial
  | cons i is ih =>
    obtain ⟨hi,hrest⟩ := h
    cases hs : step s i with
    | none => simp [Along, hs]
    | some t =>
      rw [hs] at hrest
      exact (along_cons_some hs).mpr ⟨hi,ih hrest⟩

/-- Where an invariant makes a step defined exactly on the inputs with a property, a run is
defined exactly if all its inputs have it. -/
theorem run_ne_none_iff {I : σ → Prop} {Good : ι → Prop} (hinv : I s)
    (hkeep : ∀ s i s', I s → ok s i → step s i = some s' → I s')
    (hgood : ∀ s i, I s → ok s i → (step s i ≠ none ↔ Good i)) (hok : Throughout step ok s is) :
    run step s is ≠ none ↔ ∀ i ∈ is, Good i := by
  induction is generalizing s with
  | nil => simp
  | cons i is ih =>
    obtain ⟨hi,hrest⟩ := hok
    have hfirst := hgood s i hinv hi
    rw [List.forall_mem_cons]
    cases hs : step s i with
    | none =>
      rw [hs] at hfirst
      rw [run_cons_none hs]
      exact iff_of_false (not_not.mpr rfl) (fun h => hfirst.mpr h.1 rfl)
    | some t =>
      rw [hs] at hfirst hrest
      rw [run_cons_some hs, ih (hkeep s i t hinv hi hs) hrest]
      exact (and_iff_right (hfirst.mp (Option.some_ne_none t))).symm

/-- Two parts of a run of steps that are never undefined. -/
theorem along_append_total {f : σ → ι → σ} (is js : List ι) : Along (fun s i => some (f s i)) ok s (is ++ js) ↔
    Along (fun s i => some (f s i)) ok s is ∧ Along (fun s i => some (f s i)) ok (is.foldl f s) js := by
  induction is generalizing s with
  | nil => simp [Along]
  | cons i is ih =>
    rw [List.cons_append, along_cons_some rfl, along_cons_some rfl, ih, List.foldl_cons, and_assoc]

/-- A property that an invariant gives, and that every step which breaks the condition
destroys, holds throughout a run if and only if all the steps meet the condition. -/
theorem always_iff_along {I P : σ → Prop} (hinv : I s) (hP : ∀ s, I s → P s)
    (hkeep : ∀ s i s', I s → ok s i → step s i = some s' → I s')
    (hbreak : ∀ s i s', I s → ¬ok s i → step s i = some s' → ¬P s') :
    Always step P s is ↔ Along step ok s is := by
  constructor
  · intro h
    induction is generalizing s with
    | nil => trivial
    | cons i is ih =>
      cases hi : step s i with
      | none => simp [Along, hi]
      | some t =>
        have hok : ok s i := by
          by_contra hno
          refine hbreak s i t hinv hno hi (h [i] (by simp) t ?_)
          rw [run_cons_some hi, run_nil]
        refine (along_cons_some hi).mpr ⟨hok,ih (hkeep s i t hinv hok hi) (fun js hjs s' hs' => ?_)⟩
        apply h (i :: js) (List.cons_prefix_cons.mpr ⟨rfl,hjs⟩) s'
        rwa [run_cons_some hi]
  · intro hok js hjs s' hs'
    exact hP s' (run_induction (P := fun _ => I) hinv (fun _ s i s' h hoki hs => hkeep s i s' h hoki hs)
      (hok.take hjs) hs')

end Lemmas

end LogStats
