import LogStats.Library.Linearization
import LogStats.Library.Run
import Mathlib.Logic.Function.Basic

/-! # Operations under one mutex

Threads share a state and a mutex. An operation is a number of accesses to the state: a
thread waits for the mutex, makes the accesses one by one, in any interleaving with what
the other threads do, and releases the mutex. The mutex is no part of an access, which can
be made whoever has it.
-/
namespace LogStats

/-- The accesses of the operations: where each one starts, and what an access leads to, the
next one or the result. `ω` is what an access finds that is not in the state. -/
structure Accesses (σ ι ρ l ω : Type*) where
  start : ι → l
  access : l → ω → σ → Option (σ × (l ⊕ ρ))

/-- The accesses where only what meets the condition is found. -/
def Accesses.given {σ ι ρ l ω : Type*} (accesses : Accesses σ ι ρ l ω) (Q : ω → Prop) [DecidablePred Q] :
    Accesses σ ι ρ l ω :=
  ⟨accesses.start,fun pc found s => if Q found then accesses.access pc found s else none⟩

/-- Where a thread is, and the call that it works on. -/
inductive Place (κ ι ρ l : Type*) where
  | outside
  | waiting (id : Option κ) (i : ι)
  | inside (id : Option κ) (i : ι) (pc : l)
  | leaving (id : Option κ) (r : ρ)

/-- The threads, the state that they share, its mutex and the operations done. -/
structure Shared (θ σ κ ι ρ l : Type*) where
  state : σ
  mutex : Option θ
  threads : θ → Place κ ι ρ l
  done : List (Effect κ ι ρ)

inductive MutexEvent (θ ω : Type*) where
  | lock (t : θ)
  | access (t : θ) (found : ω)
  | unlock (t : θ)

variable {θ σ κ ι ρ l ω : Type*}

/-- What an access finds meets the condition. -/
def MutexEvent.Meets (Q : ω → Prop) : MutexEvent θ ω → Prop
  | .lock _ => True
  | .access _ found => Q found
  | .unlock _ => True

def sharedCreate (state : σ) : Shared θ σ κ ι ρ l := ⟨state,none,fun _ => .outside,[]⟩

section Steps
variable [DecidableEq θ] (accesses : Accesses σ ι ρ l ω)

def Shared.goto (s : Shared θ σ κ ι ρ l) (t : θ) (place : Place κ ι ρ l) : Shared θ σ κ ι ρ l :=
  { s with threads := Function.update s.threads t place }

/-- A thread starts to wait for the mutex. -/
def Shared.ask (s : Shared θ σ κ ι ρ l) (t : θ) (id : Option κ) (i : ι) : Shared θ σ κ ι ρ l := s.goto t (.waiting id i)

def mutexStep (s : Shared θ σ κ ι ρ l) : MutexEvent θ ω → Option (Shared θ σ κ ι ρ l)
  | .lock t =>
    match s.threads t with
    | .waiting id i =>
      if s.mutex.isSome then none else some ({ s with mutex := some t }.goto t (.inside id i (accesses.start i)))
    | _ => none
  | .access t found =>
    match s.threads t with
    | .inside id i pc =>
      (accesses.access pc found s.state).map fun (state,next) =>
        match next with
        | .inl pc => { s with state := state }.goto t (.inside id i pc)
        | .inr r => { s with state := state, done := s.done ++ [(⟨id,i,r⟩ : Effect κ ι ρ)] }.goto t (.leaving id r)
    | _ => none
  | .unlock t =>
    match s.threads t with
    | .leaving _ _ => some ({ s with mutex := none }.goto t .outside)
    | _ => none

/-- A step that finds what meets the condition is one of the restricted accesses. -/
theorem mutexStep_given {Q : ω → Prop} [DecidablePred Q] (s : Shared θ σ κ ι ρ l) {e : MutexEvent θ ω} (h : e.Meets Q) :
    mutexStep (accesses.given Q) s e = mutexStep accesses s e := by
  cases e with
  | lock t => rfl
  | access t found => simp only [mutexStep, Accesses.given, if_pos (show Q found from h)]
  | unlock t => rfl

end Steps

/-- The accesses from `pc` on, without anything in between. -/
inductive Accesses.Finishes (accesses : Accesses σ ι ρ l ω) : l → σ → ρ → σ → Prop where
  | last {pc : l} {found : ω} {s s' : σ} {r : ρ} (h : accesses.access pc found s = some (s',.inr r)) :
    Finishes accesses pc s r s'
  | more {pc pc' : l} {found : ω} {s s' s'' : σ} {r : ρ} (h : accesses.access pc found s = some (s',.inl pc'))
    (hrest : Finishes accesses pc' s' r s'') : Finishes accesses pc s r s''

/-- The next access, and what is left behind it. -/
theorem Accesses.Finishes.next {accesses : Accesses σ ι ρ l ω} {pc : l} {s s'' : σ} {r : ρ}
    (h : accesses.Finishes pc s r s'') : ∃ found s' next, accesses.access pc found s = some (s',next) ∧
      (next = .inr r ∧ s' = s'' ∨ ∃ pc', next = .inl pc' ∧ accesses.Finishes pc' s' r s'') := by
  cases h with
  | last h => exact ⟨_,_,_,h,Or.inl ⟨rfl,rfl⟩⟩
  | more h hrest => exact ⟨_,_,_,h,Or.inr ⟨_,rfl,hrest⟩⟩

/-- What is found by the restricted accesses meets the condition. -/
theorem Accesses.Finishes.given {accesses : Accesses σ ι ρ l ω} {Q : ω → Prop} [DecidablePred Q] {pc : l} {s s'' : σ} {r : ρ}
    (h : (accesses.given Q).Finishes pc s r s'') : ∃ found s' next, Q found ∧ accesses.access pc found s = some (s',next) ∧
      (next = .inr r ∧ s' = s'' ∨ ∃ pc', next = .inl pc' ∧ (accesses.given Q).Finishes pc' s' r s'') := by
  obtain ⟨found,s',next,haccess,hnext⟩ := h.next
  simp only [Accesses.given] at haccess
  split at haccess
  · rename_i hQ
    exact ⟨found,s',next,hQ,haccess,hnext⟩
  · cases haccess

/-- An operation as a whole. -/
def Accesses.object (accesses : Accesses σ ι ρ l ω) (s : σ) (i : ι) (r : ρ) (s' : σ) : Prop :=
  accesses.Finishes (accesses.start i) s r s'

def Place.Free : Place κ ι ρ l → Prop
  | .outside => True
  | .waiting _ _ => True
  | .inside _ _ _ => False
  | .leaving _ _ => False

/-- What the holder still does takes the state before its operation to the one behind it. -/
def Place.Continues (accesses : Accesses σ ι ρ l ω) (s₁ state : σ) : Place κ ι ρ l → Prop
  | .outside => False
  | .waiting _ _ => False
  | .inside _ i pc => ∀ r s', accesses.Finishes pc state r s' → accesses.object s₁ i r s'
  | .leaving _ _ => state = s₁

/-- The operations done are a serial run, and only the holder of the mutex is on from there. -/
structure Shared.Atomic (accesses : Accesses σ ι ρ l ω) (s₀ : σ) (s : Shared θ σ κ ι ρ l) (s₁ : σ) : Prop where
  serial : Serial accesses.object s₀ s.done s₁
  excluded : ∀ t, s.mutex ≠ some t → (s.threads t).Free
  idle : s.mutex = none → s.state = s₁
  holder : ∀ t, s.mutex = some t → (s.threads t).Continues accesses s₁ s.state

section Atomic
variable {accesses : Accesses σ ι ρ l ω} {s₀ s₁ : σ} {s s' : Shared θ σ κ ι ρ l} {t : θ} {place : Place κ ι ρ l}

theorem sharedCreate_atomic (state : σ) :
    (sharedCreate state : Shared θ σ κ ι ρ l).Atomic accesses state state where
  serial := .nil
  excluded _ _ := trivial
  idle _ := rfl
  holder _ ht := by cases ht

section Threads
variable [DecidableEq θ]

@[simp] theorem Shared.goto_self : (s.goto t place).threads t = place := Function.update_self _ _ _

theorem Shared.goto_other {u : θ} (hu : u ≠ t) : (s.goto t place).threads u = s.threads u := Function.update_of_ne hu _ _

/-- A thread that does not hold the mutex, and does not take it, moves on. -/
theorem Shared.Atomic.aside (h : s.Atomic accesses s₀ s₁) (hbefore : (s.threads t).Free) (hplace : place.Free) :
    (s.goto t place).Atomic accesses s₀ s₁ where
  serial := h.serial
  excluded u hu := by
    by_cases hut : u = t
    · rw [hut, goto_self]
      exact hplace
    · rw [goto_other hut]
      exact h.excluded u hu
  idle := h.idle
  holder u hu := by
    have hut : u ≠ t := by
      rintro rfl
      have hholder := h.holder u hu
      cases hp : s.threads u <;> rw [hp] at hholder hbefore
      case outside => exact hholder
      case waiting => exact hholder
      all_goals exact hbefore
    rw [goto_other hut]
    exact h.holder u hu

theorem Shared.Atomic.holds (h : s.Atomic accesses s₀ s₁) (hbusy : ¬(s.threads t).Free) :
    s.mutex = some t ∧ (s.threads t).Continues accesses s₁ s.state := by
  have ht : s.mutex = some t := by
    by_contra hno
    exact hbusy (h.excluded t hno)
  exact ⟨ht,h.holder t ht⟩

/-- The holder goes on, and nobody else is in its way. -/
theorem Shared.Atomic.goto (h : s.Atomic accesses s₀ s₁) {s₂ : σ} (ht : s.mutex = some t)
    (hthreads : s'.threads = s.threads) (hmutex : s'.mutex = some t) (hserial : Serial accesses.object s₀ s'.done s₂)
    (hplace : place.Continues accesses s₂ s'.state) : (s'.goto t place).Atomic accesses s₀ s₂ where
  serial := hserial
  excluded u hu := by
    have hut : u ≠ t := fun he => hu (he ▸ hmutex)
    rw [goto_other hut, hthreads]
    exact h.excluded u (fun he => hut (Option.some_inj.mp (he.symm.trans ht)))
  idle hno := by
    rw [show (s'.goto t place).mutex = s'.mutex from rfl, hmutex] at hno
    cases hno
  holder u hu := by
    obtain rfl : t = u := Option.some_inj.mp (hmutex.symm.trans hu)
    rw [goto_self]
    exact hplace

/-- What a step can do. -/
inductive MutexStep (accesses : Accesses σ ι ρ l ω) (s : Shared θ σ κ ι ρ l) :
    MutexEvent θ ω → Shared θ σ κ ι ρ l → Prop where
  | lock {t : θ} {id : Option κ} {i : ι} (hplace : s.threads t = .waiting id i) (hfree : s.mutex = none) :
    MutexStep accesses s (.lock t) ({ s with mutex := some t }.goto t (.inside id i (accesses.start i)))
  | access {t : θ} {found : ω} {id : Option κ} {i : ι} {pc pc' : l} {state : σ} (hplace : s.threads t = .inside id i pc)
    (haccess : accesses.access pc found s.state = some (state,.inl pc')) :
    MutexStep accesses s (.access t found) ({ s with state := state }.goto t (.inside id i pc'))
  | finish {t : θ} {found : ω} {id : Option κ} {i : ι} {pc : l} {state : σ} {r : ρ} (hplace : s.threads t = .inside id i pc)
    (haccess : accesses.access pc found s.state = some (state,.inr r)) :
    MutexStep accesses s (.access t found) ({ s with state := state, done := s.done ++ [(⟨id,i,r⟩ : Effect κ ι ρ)] }.goto t (.leaving id r))
  | unlock {t : θ} {id : Option κ} {r : ρ} (hplace : s.threads t = .leaving id r) :
    MutexStep accesses s (.unlock t) ({ s with mutex := none }.goto t .outside)

theorem mutexStep_cases {e : MutexEvent θ ω} (hr : mutexStep accesses s e = some s') : MutexStep accesses s e s' := by
  cases e with
  | lock t =>
    simp only [mutexStep] at hr
    split at hr
    · rename_i id i hplace
      split at hr
      · cases hr
      · rename_i hfree
        obtain rfl := Option.some_inj.mp hr
        exact .lock hplace (Option.not_isSome_iff_eq_none.mp hfree)
    · cases hr
  | access t found =>
    simp only [mutexStep] at hr
    split at hr
    · rename_i id i pc hplace
      obtain ⟨⟨state,next⟩,haccess,hr⟩ := Option.map_eq_some_iff.mp hr
      subst hr
      cases next with
      | inl pc' => exact .access hplace haccess
      | inr r => exact .finish hplace haccess
    · cases hr
  | unlock t =>
    simp only [mutexStep] at hr
    split at hr
    · rename_i id r hplace
      obtain rfl := Option.some_inj.mp hr
      exact .unlock hplace
    · cases hr

theorem Shared.Atomic.step (h : s.Atomic accesses s₀ s₁) {e : MutexEvent θ ω} (hr : mutexStep accesses s e = some s') :
    ∃ s₂, s'.Atomic accesses s₀ s₂ := by
  cases mutexStep_cases hr with
  | @lock t id i hplace hfree =>
    refine ⟨s₁,h.serial,fun u hu => ?_,(fun hmutex => by cases hmutex),fun u hu => ?_⟩
    · have hut : u ≠ t := fun he => hu (he ▸ rfl)
      rw [goto_other hut]
      exact h.excluded u (by rw [hfree]; exact fun he => by cases he)
    · obtain rfl : t = u := Option.some_inj.mp hu
      rw [goto_self]
      intro r s' hfinish
      rwa [← h.idle hfree]
  | @access t found id i pc pc' state hplace haccess =>
    obtain ⟨ht,hholder⟩ := h.holds (t := t) (by rw [hplace]; exact fun hfree => hfree)
    rw [hplace] at hholder
    exact ⟨s₁,h.goto ht rfl ht h.serial (fun r s' hfinish => hholder r s' (.more haccess hfinish))⟩
  | @finish t found id i pc state r hplace haccess =>
    obtain ⟨ht,hholder⟩ := h.holds (t := t) (by rw [hplace]; exact fun hfree => hfree)
    rw [hplace] at hholder
    exact ⟨state,h.goto ht rfl ht (h.serial.concat (hholder r state (.last haccess))) rfl⟩
  | @unlock t id r hplace =>
    obtain ⟨ht,hholder⟩ := h.holds (t := t) (by rw [hplace]; exact fun hfree => hfree)
    rw [hplace] at hholder
    refine ⟨s₁,h.serial,fun u _ => ?_,fun _ => hholder,fun u hu => by cases hu⟩
    by_cases hut : u = t
    · rw [hut, goto_self]
      trivial
    · rw [goto_other hut]
      exact h.excluded u (fun he => hut (Option.some_inj.mp (he.symm.trans ht)))

end Threads

end Atomic

end LogStats
