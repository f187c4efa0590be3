import LogStats.Library.TreeMemory

/-! # The order of a tree, walked towards a side

A walk to the right sees the elements as `toList` has them and a walk to the left sees them
in reverse. What a position has ahead of it is the part of its own subtree that lies on the
side of the walk, and then what its ancestors have ahead.
-/
namespace LogStats

variable {α : Type*}

namespace Side

/-- A list as a walk towards the side sees it. -/
def walk (s : Side) (xs : List α) : List α :=
  match s with
  | .left => xs.reverse
  | .right => xs

@[simp] theorem walk_nil (s : Side) : s.walk ([] : List α) = [] := by cases s <;> rfl
@[simp] theorem walk_right (xs : List α) : Side.right.walk xs = xs := rfl
@[simp] theorem walk_left (xs : List α) : Side.left.walk xs = xs.reverse := rfl
@[simp] theorem length_walk (s : Side) (xs : List α) : (s.walk xs).length = xs.length := by cases s <;> simp
@[simp] theorem mem_walk {s : Side} {xs : List α} {a : α} : a ∈ s.walk xs ↔ a ∈ xs := by cases s <;> simp
@[simp] theorem nodup_walk {s : Side} {xs : List α} : (s.walk xs).Nodup ↔ xs.Nodup := by cases s <;> simp
theorem walk_other (s : Side) (xs : List α) : s.other.walk xs = (s.walk xs).reverse := by cases s <;> simp
theorem walk_eq_nil {s : Side} {xs : List α} : s.walk xs = [] ↔ xs = [] := by cases s <;> simp

end Side

/-- What a position has ahead of it among the elements outside. -/
def ahead (s : Side) : Path α → List α
  | [] => []
  | f :: p => if f.side = s then ahead s p else f.value :: (s.walk f.other.toList ++ ahead s p)

theorem ahead_right (p : Path α) : ahead .right p = after p := by
  induction p with
  | nil => rfl
  | cons f p ih =>
    obtain ⟨k,c,a,o⟩ := f
    cases k <;> simp [ahead, after, ih]

theorem ahead_left (p : Path α) : ahead .left p = (before p).reverse := by
  induction p with
  | nil => rfl
  | cons f p ih =>
    obtain ⟨k,c,a,o⟩ := f
    cases k <;> simp [ahead, before, ih]

/-- A position splits the walk over the whole tree. -/
theorem walk_zip (s : Side) (t : Tree α) (p : Path α) :
    s.walk (zip t p).toList = (ahead s.other p).reverse ++ (s.walk t.toList ++ ahead s p) := by
  rw [toList_zip]
  cases s <;> simp [ahead_left, ahead_right]

def Tree.child (s : Side) : Tree α → Tree α
  | .null => .null
  | .node _ l _ r => match s with
    | .left => l
    | .right => r

/-- The frame above a child. -/
def Frame.above (s : Side) (c : Color) (l : Tree α) (a : α) (r : Tree α) : Frame α :=
  ⟨s,c,a,(Tree.node c l a r).child s.other⟩

section Child
variable {c : Color} {l r : Tree α} {a : α}

@[simp] theorem plug_above (s : Side) : (Frame.above s c l a r).plug ((Tree.node c l a r).child s) = .node c l a r := by
  cases s <;> rfl

theorem walk_node (s : Side) : s.walk (Tree.node c l a r).toList =
    s.walk ((Tree.node c l a r).child s.other).toList ++ a :: s.walk ((Tree.node c l a r).child s).toList := by
  cases s <;> simp [Tree.child]

theorem length_child_lt (s : Side) : ((Tree.node c l a r).child s).toList.length < (Tree.node c l a r).toList.length := by
  have hnode := congrArg List.length (@walk_node α c l r a s)
  simp only [Side.length_walk, List.length_append, List.length_cons] at hnode
  omega

/-- Every element of a tree is at a position of it. -/
theorem exists_zip {t : Tree α} (h : a ∈ t.toList) (p : Path α) :
    ∃ c l r q, zip (.node c l a r) q = zip t p := by
  induction t generalizing p with
  | null => cases h
  | node c l b r ihl ihr =>
    rcases List.mem_append.mp h with hl | hr
    · exact ihl hl (⟨.left,c,b,r⟩ :: p)
    · rcases List.mem_cons.mp hr with rfl | hr
      · exact ⟨c,l,r,p,rfl⟩
      · exact ihr hr (⟨.right,c,b,l⟩ :: p)

end Child

/-! ## Floors -/

/-- The last element below the sought key. -/
def floor (cmp : α → ℤ) (xs : List α) : Option α := (xs.filter fun a => 0 < cmp a).getLast?

section Floor
variable {cmp : α → ℤ} {xs ys : List α} {a b : α}

theorem floor_append (cmp : α → ℤ) (xs ys : List α) : floor cmp (xs ++ ys) = (floor cmp ys).or (floor cmp xs) := by
  simp [floor]

theorem floor_eq_none : floor cmp xs = none ↔ ∀ a ∈ xs, cmp a ≤ 0 := by
  simp [floor]

theorem floor_mem (h : floor cmp xs = some a) : a ∈ xs ∧ 0 < cmp a := by
  have hmem := List.mem_of_getLast? h
  simpa using List.mem_filter.mp hmem

/-- In an ordered list nothing below the key is above the floor. -/
theorem floor_last {R : α → α → Prop} (hxs : xs.Pairwise R) (h : floor cmp xs = some a) (hb : b ∈ xs) (hcmp : 0 < cmp b) :
    b = a ∨ R b a := by
  obtain ⟨ys,hys⟩ := List.getLast?_eq_some_iff.mp h
  have hpair := hxs.filter (fun a => decide (0 < cmp a))
  have hin : b ∈ ys ++ [a] := by
    rw [← hys]
    exact List.mem_filter.mpr ⟨hb,decide_eq_true hcmp⟩
  rw [hys] at hpair
  rcases List.mem_append.mp hin with hin | hin
  · exact Or.inr ((List.pairwise_append.mp hpair).2.2 b hin a List.mem_cons_self)
  · exact Or.inl (List.mem_singleton.mp hin)

end Floor

end LogStats
