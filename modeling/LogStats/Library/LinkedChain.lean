import Mathlib.Data.List.Basic

/-! # Chains of doubly linked cells

`Linked prev next b xs e`: the cells `xs` follow each other along `next` and back
along `prev`; the first one's `prev` is `b` and the last one's `next` is `e`. The
two link functions are whatever memory the cells live in, so a write to a cell is
a change of one function at one point.
-/
namespace LogStats

variable {A : Type*} {prev next prev' next' : A → A}

def Linked (prev next : A → A) : A → List A → A → Prop
  | _, [], _ => True
  | b, x :: xs, e => prev x = b ∧ next x = xs.headD e ∧ Linked prev next x xs e

@[simp] theorem linked_nil (b e : A) : Linked prev next b [] e := trivial
@[simp] theorem linked_cons (b x : A) (xs : List A) (e : A) :
    Linked prev next b (x :: xs) e ↔ prev x = b ∧ next x = xs.headD e ∧ Linked prev next x xs e := Iff.rfl

theorem headD_append (xs ys : List A) (e : A) : (xs ++ ys).headD e = xs.headD (ys.headD e) := by
  cases xs <;> rfl

theorem linked_append (b : A) (xs ys : List A) (e : A) :
    Linked prev next b (xs ++ ys) e ↔
      Linked prev next b xs (ys.headD e) ∧ Linked prev next (xs.getLastD b) ys e := by
  induction xs generalizing b with
  | nil => simp
  | cons x xs ih =>
    simp only [List.cons_append, linked_cons, ih x, headD_append, List.getLastD_cons]
    exact ⟨fun ⟨hp,hn,hx,hy⟩ => ⟨⟨hp,hn,hx⟩,hy⟩,fun ⟨⟨hp,hn,hx⟩,hy⟩ => ⟨hp,hn,hx,hy⟩⟩

/-- A chain around one of its cells. -/
theorem linked_middle (b : A) (xs : List A) (a : A) (ys : List A) (e : A) :
    Linked prev next b (xs ++ a :: ys) e ↔
      Linked prev next b xs a ∧ prev a = xs.getLastD b ∧ next a = ys.headD e ∧ Linked prev next a ys e :=
  linked_append b xs (a :: ys) e

/-- A chain survives when only its two outer links change. -/
theorem Linked.change {b b' e e' : A} {xs : List A} (h : Linked prev next b xs e) (hnd : xs.Nodup)
    (hhead : ∀ x, xs.head? = some x → prev' x = b')
    (hprev : ∀ x ∈ xs, xs.head? ≠ some x → prev' x = prev x)
    (hlast : ∀ x, xs.getLast? = some x → next' x = e')
    (hnext : ∀ x ∈ xs, xs.getLast? ≠ some x → next' x = next x) : Linked prev' next' b' xs e' := by
  induction xs generalizing b b' with
  | nil => trivial
  | cons x xs ih =>
    obtain ⟨hp,hn,hl⟩ := h
    obtain ⟨hx,hnd⟩ := List.nodup_cons.mp hnd
    cases xs with
    | nil => exact ⟨hhead x rfl,hlast x rfl,trivial⟩
    | cons y ys =>
      have hxy : x ≠ y := fun h => hx (h ▸ List.mem_cons_self)
      have hxlast : (x :: y :: ys).getLast? ≠ some x := by
        intro h
        rw [List.getLast?_cons_cons] at h
        exact hx (List.mem_of_getLast? h)
      refine ⟨hhead x rfl,(hnext x List.mem_cons_self hxlast).trans hn,ih hl hnd ?_ ?_ ?_ ?_⟩
      · intro z hz
        obtain rfl : y = z := Option.some.inj hz
        exact (hprev y (by simp) (by simpa using hxy)).trans hl.1
      · intro z hz _
        exact hprev z (List.mem_cons_of_mem _ hz) (by rintro ⟨⟩; exact hx hz)
      · intro z hz
        exact hlast z (by rwa [List.getLast?_cons_cons])
      · intro z hz hne
        exact hnext z (List.mem_cons_of_mem _ hz) (by rwa [List.getLast?_cons_cons])

/-- A chain does not see writes to other cells. -/
theorem Linked.congr {b e : A} {xs : List A} (h : Linked prev next b xs e)
    (hprev : ∀ x ∈ xs, prev' x = prev x) (hnext : ∀ x ∈ xs, next' x = next x) :
    Linked prev' next' b xs e := by
  induction xs generalizing b with
  | nil => trivial
  | cons x xs ih =>
    obtain ⟨hp,hn,hl⟩ := h
    exact ⟨(hprev x List.mem_cons_self).trans hp,(hnext x List.mem_cons_self).trans hn,
      ih hl (fun y hy => hprev y (List.mem_cons_of_mem _ hy)) (fun y hy => hnext y (List.mem_cons_of_mem _ hy))⟩

theorem Linked.head_prev {b e x : A} {xs : List A} (h : Linked prev next b xs e) (hx : xs.head? = some x) :
    prev x = b := by
  cases xs with
  | nil => cases hx
  | cons y ys => cases hx; exact h.1

theorem Linked.last_next {b e x : A} {xs : List A} (h : Linked prev next b xs e) (hx : xs.getLast? = some x) :
    next x = e := by
  rcases xs.eq_nil_or_concat with rfl | ⟨ys,y,rfl⟩
  · cases hx
  · simp only [List.concat_eq_append, List.getLast?_append, List.getLast?_singleton, Option.some_or,
      Option.some.injEq] at hx
    subst hx
    exact ((linked_middle b ys y [] e).mp (by simpa using h)).2.2.1

/-- Taking a cell out: its neighbours are linked to each other. -/
theorem Linked.unlink {b e a : A} {xs ys : List A} (h : Linked prev next b (xs ++ a :: ys) e)
    (hnd : (xs ++ a :: ys).Nodup)
    (hpy : ∀ x, ys.head? = some x → prev' x = xs.getLastD b)
    (hp : ∀ x ∈ xs ++ ys, ys.head? ≠ some x → prev' x = prev x)
    (hnx : ∀ x, xs.getLast? = some x → next' x = ys.headD e)
    (hn : ∀ x ∈ xs ++ ys, xs.getLast? ≠ some x → next' x = next x) :
    Linked prev' next' b (xs ++ ys) e := by
  obtain ⟨hx,-,-,hy⟩ := (linked_middle b xs a ys e).mp h
  obtain ⟨hndx,hnday,hdisj⟩ := List.nodup_append.mp hnd
  have hndy := (List.nodup_cons.mp hnday).2
  rw [linked_append]
  constructor
  · refine hx.change hndx (fun x hh => ?_) (fun x hm _ => ?_) hnx (fun x hm hne => ?_)
    · have hm : x ∈ xs := List.mem_of_head? hh
      rw [hp x (List.mem_append_left _ hm)]
      · exact hx.head_prev hh
      · exact fun hy => hdisj x hm x (List.mem_cons_of_mem _ (List.mem_of_head? hy)) rfl
    · exact hp x (List.mem_append_left _ hm)
        (fun hy => hdisj x hm x (List.mem_cons_of_mem _ (List.mem_of_head? hy)) rfl)
    · exact hn x (List.mem_append_left _ hm) hne
  · refine hy.change hndy hpy (fun x hm hne => ?_) (fun x hl => ?_) (fun x hm _ => ?_)
    · exact hp x (List.mem_append_right _ hm) hne
    · have hm : x ∈ ys := List.mem_of_getLast? hl
      rw [hn x (List.mem_append_right _ hm)]
      · exact hy.last_next hl
      · exact fun hx => hdisj x (List.mem_of_getLast? hx) x (List.mem_cons_of_mem _ hm) rfl
    · exact hn x (List.mem_append_right _ hm)
        (fun hx => hdisj x (List.mem_of_getLast? hx) x (List.mem_cons_of_mem _ hm) rfl)

/-! ## Following the links -/

section Follow
variable [DecidableEq A]

/-- At most `n` cells from `a` along a link, up to the first one that is `e`. -/
def follow (link : A → A) (e : A) : ℕ → A → List A
  | 0, _ => []
  | n + 1, a => if a = e then [] else a :: follow link e n (link a)

theorem follow_end (link : A → A) (e : A) (n : ℕ) : follow link e n e = [] := by
  cases n with
  | zero => rfl
  | succ n => exact if_pos rfl

theorem follow_next {b e : A} {xs : List A} (h : Linked prev next b xs e) (hne : ∀ x ∈ xs, x ≠ e) {n : ℕ}
    (hn : xs.length ≤ n) : follow next e n (xs.headD e) = xs := by
  induction xs generalizing b n with
  | nil => exact follow_end next e n
  | cons x xs ih =>
    obtain ⟨n,rfl⟩ : ∃ k, n = k + 1 := ⟨n - 1,by simp at hn; omega⟩
    obtain ⟨-,hx,hl⟩ := h
    rw [List.headD_cons, follow, if_neg (hne x List.mem_cons_self), hx,
      ih hl (fun y hy => hne y (List.mem_cons_of_mem _ hy)) (by simpa using hn)]

omit [DecidableEq A] in
/-- A chain is a chain from behind. -/
theorem Linked.reverse {b e : A} {xs : List A} (h : Linked prev next b xs e) : Linked next prev e xs.reverse b := by
  induction xs generalizing b with
  | nil => trivial
  | cons x xs ih =>
    obtain ⟨hp,hn,hl⟩ := h
    rw [List.reverse_cons, linked_append]
    refine ⟨ih hl,?_,hp,trivial⟩
    rw [hn]
    cases xs <;> simp

theorem follow_prev {b e : A} {xs : List A} (h : Linked prev next b xs e) (hne : ∀ x ∈ xs, x ≠ b) {n : ℕ}
    (hn : xs.length ≤ n) : follow prev b n (xs.getLastD b) = xs.reverse := by
  have hhead : xs.getLastD b = xs.reverse.headD b := by
    rcases xs.eq_nil_or_concat with rfl | ⟨ys,y,rfl⟩ <;> simp
  rw [hhead]
  exact follow_next h.reverse (fun x hx => hne x (List.mem_reverse.mp hx)) (by simpa using hn)

end Follow

end LogStats
