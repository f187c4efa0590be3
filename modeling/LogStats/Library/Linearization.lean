import Mathlib.Data.List.Basic
import Mathlib.Data.List.Nodup

/-! # Linearizable histories

The calls of an object overlap. Where each call takes effect at one moment between being
made and returning, the order of these moments linearizes what is observed: one operation
after the other gives the same results, and a call that returned before another was made
comes first.
-/
namespace LogStats

/-- An operation that took effect; `id` is the call that it was done for, if it was for one. -/
structure Effect (κ ι ρ : Type*) where
  id : Option κ
  input : ι
  result : ρ
deriving DecidableEq

inductive Mark (κ ι ρ : Type*) where
  | call (id : κ) (input : ι)
  | effect (e : Effect κ ι ρ)
  | ret (id : κ) (result : ρ)
deriving DecidableEq

variable {σ κ ι ρ : Type*}

namespace Mark

def effect? : Mark κ ι ρ → Option (Effect κ ι ρ)
  | .effect e => some e
  | .call _ _ => none
  | .ret _ _ => none

def Observed (m : Mark κ ι ρ) : Bool := m.effect?.isNone

end Mark

def effects (history : List (Mark κ ι ρ)) : List (Effect κ ι ρ) := history.filterMap Mark.effect?

/-- What a client of the object sees: calls and returns. -/
def observed (history : List (Mark κ ι ρ)) : List (Mark κ ι ρ) := history.filter Mark.Observed

/-- The operations one after the other, from the first state to the last. -/
inductive Serial (object : σ → ι → ρ → σ → Prop) (s₀ : σ) : List (Effect κ ι ρ) → σ → Prop where
  | nil : Serial object s₀ [] s₀
  | concat {order : List (Effect κ ι ρ)} {s s' : σ} {e : Effect κ ι ρ} (h : Serial object s₀ order s)
      (he : object s e.input e.result s') : Serial object s₀ (order ++ [e]) s'

/-- A call is made once, takes effect at most once and after it was made, and it returns the
result of its effect. -/
inductive Timely : List (Mark κ ι ρ) → Prop where
  | nil : Timely []
  | call {history : List (Mark κ ι ρ)} {id : κ} {i : ι} (h : Timely history) (hnew : ∀ j, .call id j ∉ history) :
    Timely (history ++ [.call id i])
  | effect {history : List (Mark κ ι ρ)} {e : Effect κ ι ρ} (h : Timely history)
    (hcalled : ∀ id, e.id = some id → .call id e.input ∈ history)
    (honce : ∀ id, e.id = some id → ∀ e' ∈ effects history, e'.id ≠ some id) : Timely (history ++ [.effect e])
  | ret {history : List (Mark κ ι ρ)} {id : κ} {i : ι} {r : ρ} (h : Timely history)
    (hdone : ⟨some id,i,r⟩ ∈ effects history) : Timely (history ++ [.ret id r])

/-- `order` linearizes the calls and returns of a history. -/
structure Linearizes (object : σ → ι → ρ → σ → Prop) (s₀ : σ) (history : List (Mark κ ι ρ))
    (order : List (Effect κ ι ρ)) (s : σ) : Prop where
  serial : Serial object s₀ order s
  once : (order.filterMap Effect.id).Nodup
  called : ∀ e ∈ order, ∀ id, e.id = some id → .call id e.input ∈ history
  returned : ∀ id r, .ret id r ∈ history → ∃ i, ⟨some id,i,r⟩ ∈ order
  realTime : ∀ a r b i, [.ret a r,.call b i].Sublist history → ∀ e ∈ order, e.id = some b →
    ∃ e', e'.id = some a ∧ e'.result = r ∧ [e',e].Sublist order

section Marks
variable {history : List (Mark κ ι ρ)} {e : Effect κ ι ρ} {id : κ} {i : ι} {r : ρ}

@[simp] theorem effects_nil : effects ([] : List (Mark κ ι ρ)) = [] := rfl

@[simp] theorem effects_call : effects (history ++ [.call id i]) = effects history := by
  rw [effects, List.filterMap_append]
  exact List.append_nil _

@[simp] theorem effects_effect : effects (history ++ [.effect e]) = effects history ++ [e] := by
  rw [effects, List.filterMap_append]
  rfl

@[simp] theorem effects_ret : effects (history ++ [.ret id r]) = effects history := by
  rw [effects, List.filterMap_append]
  exact List.append_nil _

theorem mem_effects : e ∈ effects history ↔ .effect e ∈ history := by
  rw [effects, List.mem_filterMap]
  constructor
  · rintro ⟨m,hm,he⟩
    cases m with
    | effect e' =>
      obtain rfl := Option.some_inj.mp he
      exact hm
    | _ => cases he
  · exact fun h => ⟨_,h,rfl⟩

@[simp] theorem observed_call : observed (history ++ [.call id i]) = observed history ++ [.call id i] := by
  rw [observed, List.filter_append]
  rfl

@[simp] theorem observed_effect : observed (history ++ [.effect e]) = observed history := by
  rw [observed, List.filter_append]
  exact List.append_nil _

@[simp] theorem observed_ret : observed (history ++ [.ret id r]) = observed history ++ [.ret id r] := by
  rw [observed, List.filter_append]
  rfl

theorem mem_observed_call : .call id i ∈ observed history ↔ .call id i ∈ history := by
  rw [observed, List.mem_filter]
  exact and_iff_left rfl

theorem mem_observed_ret : .ret id r ∈ observed history ↔ .ret id r ∈ history := by
  rw [observed, List.mem_filter]
  exact and_iff_left rfl

/-- A pair that ends a list that was continued by something else was in the list before. -/
theorem pair_sublist_concat {α : Type*} {l : List α} {a b c : α} (h : [a,b].Sublist (l ++ [c])) :
    [a,b].Sublist l ∨ (a ∈ l ∧ b = c) := by
  obtain ⟨l₁,l₂,hsplit,h₁,h₂⟩ := List.sublist_append_iff.mp h
  rcases List.eq_nil_or_concat l₂ with rfl | ⟨l₂,d,rfl⟩
  · rw [List.append_nil] at hsplit
    exact Or.inl (hsplit ▸ h₁)
  · rw [List.concat_eq_append] at hsplit h₂
    have hlen := h₂.length_le
    obtain rfl : l₂ = [] := List.eq_nil_of_length_eq_zero (by simp at hlen; exact List.length_eq_zero_iff.mpr hlen)
    rw [List.nil_append, List.singleton_sublist, List.mem_singleton] at h₂
    obtain rfl := h₂
    have hab : [a] ++ [b] = l₁ ++ [d] := hsplit
    obtain ⟨rfl,hb⟩ := List.append_inj' hab rfl
    exact Or.inr ⟨List.singleton_sublist.mp h₁,List.head_eq_of_cons_eq hb⟩

end Marks

section Timely
variable {object object' : σ → ι → ρ → σ → Prop} {s₀ s : σ} {history : List (Mark κ ι ρ)}
variable {order : List (Effect κ ι ρ)}

/-- What every operation keeps holds behind any number of them, and an object whose
operations are the same under it can take the place of the other. -/
theorem Serial.imp {I : σ → Prop} (h : Serial object s₀ order s) (h₀ : I s₀)
    (hobject : ∀ s i r s', I s → object s i r s' → object' s i r s' ∧ I s') : Serial object' s₀ order s ∧ I s := by
  induction h with
  | nil => exact ⟨.nil,h₀⟩
  | concat h he ih =>
    obtain ⟨he,hI⟩ := hobject _ _ _ _ ih.2 he
    exact ⟨ih.1.concat he,hI⟩

/-- The state that an operation of a serial run finds. -/
theorem Serial.split {before after : List (Effect κ ι ρ)} {e : Effect κ ι ρ} (h : Serial object s₀ order s)
    (hsplit : order = before ++ e :: after) :
    ∃ s₁ s₂, Serial object s₀ before s₁ ∧ object s₁ e.input e.result s₂ := by
  induction h generalizing after with
  | nil => simp at hsplit
  | concat h he ih =>
    rcases after.eq_nil_or_concat with rfl | ⟨after,x,rfl⟩
    · obtain ⟨rfl,hlast⟩ := List.append_inj' hsplit rfl
      obtain rfl := List.head_eq_of_cons_eq hlast
      exact ⟨_,_,h,he⟩
    · rw [List.concat_eq_append, ← List.cons_append, ← List.append_assoc] at hsplit
      exact ih (List.append_inj' hsplit rfl).1

/-- A call is made once. -/
theorem Timely.unique (h : Timely history) {id : κ} {i j : ι} (hi : .call id i ∈ history) (hj : .call id j ∈ history) :
    i = j := by
  induction h with
  | nil => exact absurd hi List.not_mem_nil
  | call h hnew ih =>
    rcases List.mem_append.mp hi with hiold | hilast <;> rcases List.mem_append.mp hj with hjold | hjlast
    · exact ih hiold hjold
    · cases List.mem_singleton.mp hjlast
      exact absurd hiold (hnew i)
    · cases List.mem_singleton.mp hilast
      exact absurd hjold (hnew j)
    · cases List.mem_singleton.mp hilast
      cases List.mem_singleton.mp hjlast
      rfl
  | effect h hcalled honce ih =>
    refine ih ?_ ?_
    · simpa using hi
    · simpa using hj
  | ret h hdone ih =>
    refine ih ?_ ?_
    · simpa using hi
    · simpa using hj

theorem Timely.once (h : Timely history) : ((effects history).filterMap Effect.id).Nodup := by
  induction h with
  | nil => exact List.nodup_nil
  | call h hnew ih => rwa [effects_call]
  | effect h hcalled honce ih =>
    rename_i history e
    rw [effects_effect, List.filterMap_append, List.nodup_append]
    refine ⟨ih,?_,?_⟩
    · cases hid : e.id with
      | none => simp [List.filterMap, hid]
      | some id => simp [List.filterMap, hid]
    · rintro id hold id' hnew rfl
      obtain ⟨e',he',hid'⟩ := List.mem_filterMap.mp hold
      obtain ⟨e'',he'',hid⟩ := List.mem_filterMap.mp hnew
      rw [List.mem_singleton.mp he''] at hid
      exact honce id hid e' he' hid'
  | ret h hdone ih => rwa [effects_ret]

theorem Timely.called (h : Timely history) {e : Effect κ ι ρ} (he : e ∈ effects history) {id : κ}
    (hid : e.id = some id) : .call id e.input ∈ history := by
  induction h with
  | nil => exact absurd he List.not_mem_nil
  | call h hnew ih =>
    rw [effects_call] at he
    exact List.mem_append_left _ (ih he)
  | effect h hcalled honce ih =>
    rw [effects_effect] at he
    rcases List.mem_append.mp he with he | he
    · exact List.mem_append_left _ (ih he)
    · obtain rfl := List.mem_singleton.mp he
      exact List.mem_append_left _ (hcalled id hid)
  | ret h hdone ih =>
    rw [effects_ret] at he
    exact List.mem_append_left _ (ih he)

theorem Timely.returned (h : Timely history) {id : κ} {r : ρ} (hr : .ret id r ∈ history) :
    ∃ i, ⟨some id,i,r⟩ ∈ effects history := by
  induction h with
  | nil => exact absurd hr List.not_mem_nil
  | call h hnew ih =>
    rw [effects_call]
    rcases List.mem_append.mp hr with hr | hr
    · exact ih hr
    · cases List.mem_singleton.mp hr
  | effect h hcalled honce ih =>
    rw [effects_effect]
    rcases List.mem_append.mp hr with hr | hr
    · obtain ⟨i,hi⟩ := ih hr
      exact ⟨i,List.mem_append_left _ hi⟩
    · cases List.mem_singleton.mp hr
  | ret h hdone ih =>
    rw [effects_ret]
    rcases List.mem_append.mp hr with hr | hr
    · exact ih hr
    · cases List.mem_singleton.mp hr
      exact ⟨_,hdone⟩

theorem Timely.realTime (h : Timely history) {a b : κ} {r : ρ} {i : ι}
    (hpair : [.ret a r,.call b i].Sublist (observed history)) {e : Effect κ ι ρ} (he : e ∈ effects history)
    (hid : e.id = some b) : ∃ e', e'.id = some a ∧ e'.result = r ∧ [e',e].Sublist (effects history) := by
  induction h with
  | nil => exact absurd he List.not_mem_nil
  | call h hnew ih =>
    rw [effects_call] at he ⊢
    rw [observed_call] at hpair
    rcases pair_sublist_concat hpair with hpair | ⟨-,hlast⟩
    · exact ih hpair he
    · -- a call that is made now has had no effect yet
      cases hlast
      exact absurd (h.called he hid) (hnew e.input)
  | effect h hcalled honce ih =>
    rw [effects_effect] at he ⊢
    rw [observed_effect] at hpair
    rcases List.mem_append.mp he with he | he
    · obtain ⟨e',ha,hr,hsub⟩ := ih hpair he
      exact ⟨e',ha,hr,hsub.trans (List.sublist_append_left _ _)⟩
    · obtain rfl := List.mem_singleton.mp he
      have hret := mem_observed_ret.mp (hpair.subset List.mem_cons_self)
      obtain ⟨j,hj⟩ := h.returned hret
      exact ⟨_,rfl,rfl,List.Sublist.append (List.singleton_sublist.mpr hj) (List.Sublist.refl [e])⟩
  | ret h hdone ih =>
    rw [effects_ret] at he ⊢
    rw [observed_ret] at hpair
    rcases pair_sublist_concat hpair with hpair | ⟨-,hlast⟩
    · exact ih hpair he
    · cases hlast

/-- The moments at which the calls of a history take effect linearize it. -/
theorem Timely.linearizes (h : Timely history) (hserial : Serial object s₀ (effects history) s) :
    Linearizes object s₀ (observed history) (effects history) s where
  serial := hserial
  once := h.once
  called _ he _ hid := mem_observed_call.mpr (h.called he hid)
  returned _ _ hr := h.returned (mem_observed_ret.mp hr)
  realTime _ _ _ _ hpair _ he hid := h.realTime hpair he hid

end Timely

end LogStats
