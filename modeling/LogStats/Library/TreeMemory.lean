import LogStats.Library.ColoredTree
import Mathlib.Data.List.Nodup

/-! # Coloured trees in a memory of linked cells

A tree of addresses is in a memory where the cell of each address points to its parent and
to its children, with `null` for a child that is missing and above the root. A position of
the tree is in a memory where its subtree is, its path leads up to the root, and no address
is used twice.
-/
namespace LogStats

structure Cell (A : Type*) where
  parent : A
  left : A
  right : A
  color : Color

def Side.other : Side → Side
  | .left => .right
  | .right => .left

@[simp] theorem Side.other_left : Side.left.other = .right := rfl
@[simp] theorem Side.other_right : Side.right.other = .left := rfl
@[simp] theorem Side.other_other (s : Side) : s.other.other = s := by cases s <;> rfl
@[simp] theorem Side.other_ne (s : Side) : s.other ≠ s := by cases s <;> exact fun h => nomatch h
@[simp] theorem Side.ne_other (s : Side) : s ≠ s.other := (Side.other_ne s).symm

variable {A : Type*}

namespace Cell

def child (n : Cell A) (s : Side) : A :=
  match s with
  | .left => n.left
  | .right => n.right

def setChild (n : Cell A) (s : Side) (x : A) : Cell A :=
  match s with
  | .left => { n with left := x }
  | .right => { n with right := x }

def map {B : Type*} (σ : A → B) (n : Cell A) : Cell B := ⟨σ n.parent,σ n.left,σ n.right,n.color⟩

/-- The cell with these children on a side and on the other one. -/
def make (s : Side) (parent x y : A) (color : Color) : Cell A :=
  match s with
  | .left => ⟨parent,x,y,color⟩
  | .right => ⟨parent,y,x,color⟩

section Make
variable {s : Side} {p q x y z : A} {c c' : Color}

@[simp] theorem make_parent : (make s p x y c).parent = p := by cases s <;> rfl
@[simp] theorem make_color : (make s p x y c).color = c := by cases s <;> rfl
@[simp] theorem make_child : (make s p x y c).child s = x := by cases s <;> rfl
@[simp] theorem make_child_other : (make s p x y c).child s.other = y := by cases s <;> rfl
@[simp] theorem make_setChild : (make s p x y c).setChild s z = make s p z y c := by cases s <;> rfl
@[simp] theorem make_setChild_other : (make s p x y c).setChild s.other z = make s p x z c := by cases s <;> rfl
@[simp] theorem make_setParent : { make s p x y c with parent := q } = make s q x y c := by cases s <;> rfl
@[simp] theorem make_setColor : { make s p x y c with color := c' } = make s p x y c' := by cases s <;> rfl

end Make

end Cell

/-- What a pointer to the tree is. -/
def Tree.ptr (null : A) : Tree A → A
  | .null => null
  | .node _ _ a _ => a

/-- The address above a position. -/
def top (null : A) : Path A → A
  | [] => null
  | f :: _ => f.value

/-- The addresses outside a position. -/
def outer : Path A → List A
  | [] => []
  | f :: p => f.value :: (f.other.toList ++ outer p)

def Tree.map {B : Type*} (σ : A → B) : Tree A → Tree B
  | .null => .null
  | .node c l a r => .node c (l.map σ) (σ a) (r.map σ)

def Frame.map {B : Type*} (σ : A → B) (f : Frame A) : Frame B := ⟨f.side,f.color,σ f.value,f.other.map σ⟩

section Memory
variable (μ : A → Cell A) (null root : A)

/-- The cell of an ancestor, `x` being the pointer to the position. -/
def Frame.cell (f : Frame A) (up x : A) : Cell A := Cell.make f.side up x (f.other.ptr null) f.color

def TreeAt : A → Tree A → Prop
  | _, .null => True
  | p, .node c l a r => μ a = ⟨p,l.ptr null,r.ptr null,c⟩ ∧ TreeAt a l ∧ TreeAt a r

def PathAt : A → Path A → Prop
  | x, [] => root = x
  | x, f :: p => μ f.value = f.cell null (top null p) x ∧ TreeAt μ null f.value f.other ∧ PathAt f.value p

structure PositionAt (t : Tree A) (p : Path A) : Prop where
  tree : TreeAt μ null (top null p) t
  path : PathAt μ null root (t.ptr null) p
  nodup : (t.toList ++ outer p).Nodup
  null_notMem : null ∉ t.toList ++ outer p
  null_cell : μ null = ⟨null,null,null,.black⟩

end Memory

section Lemmas
variable {μ μ' : A → Cell A} {null root root' x y q : A} {t l r : Tree A} {p : Path A} {f : Frame A} {c : Color} {a : A}

@[simp] theorem Tree.ptr_null : (Tree.null : Tree A).ptr null = null := rfl
@[simp] theorem Tree.ptr_node : (Tree.node c l a r).ptr null = a := rfl
@[simp] theorem top_nil : top null ([] : Path A) = null := rfl
@[simp] theorem top_cons : top null (f :: p) = f.value := rfl
@[simp] theorem outer_nil : outer ([] : Path A) = [] := rfl
@[simp] theorem outer_cons : outer (f :: p) = f.value :: (f.other.toList ++ outer p) := rfl

@[simp] theorem ptr_plug : (f.plug t).ptr null = f.value := by
  obtain ⟨s,_,_,_⟩ := f
  cases s <;> rfl

theorem plug_ne (f : Frame A) (t : Tree A) : f.plug t ≠ .null := by
  obtain ⟨s,c,a,o⟩ := f
  cases s <;> exact fun h => nomatch h

theorem zip_ne (h : t ≠ .null) (p : Path A) : zip t p ≠ .null := by
  induction p generalizing t with
  | nil => exact h
  | cons f p ih => exact ih (plug_ne f t)

theorem Tree.ptr_mem (null : A) (h : t ≠ .null) : t.ptr null ∈ t.toList := by
  cases t with
  | null => exact absurd rfl h
  | node c l a r => simp

/-- A pointer to a subtree points to none of the nodes outside. -/
theorem Tree.ne_ptr {a : A} (ha : a ∉ t.toList) (hnull : a ≠ null) : a ≠ t.ptr null := by
  intro heq
  by_cases ht : t = .null
  · rw [ht, Tree.ptr_null] at heq
    exact hnull heq
  · apply ha
    rw [heq]
    exact Tree.ptr_mem null ht

theorem perm_plug (f : Frame A) (t : Tree A) (p : Path A) :
    ((f.plug t).toList ++ outer p).Perm (t.toList ++ outer (f :: p)) := by
  classical
  apply List.perm_iff_count.mpr
  intro b
  obtain ⟨s,k,v,o⟩ := f
  cases s with
  | left => simp [Frame.plug, List.count_cons, Nat.add_comm, Nat.add_left_comm]
  | right => simp [Frame.plug, List.count_cons, Nat.add_assoc, Nat.add_comm, Nat.add_left_comm]

theorem perm_zip (t : Tree A) (p : Path A) : (zip t p).toList.Perm (t.toList ++ outer p) := by
  induction p generalizing t with
  | nil => simp
  | cons f p ih => exact (ih (f.plug t)).trans (perm_plug f t p)

/-- A tree does not see writes to other cells. -/
theorem TreeAt.congr (h : TreeAt μ null q t) (hμ : ∀ a ∈ t.toList, μ' a = μ a) : TreeAt μ' null q t := by
  induction t generalizing q with
  | null => trivial
  | node c l a r ihl ihr =>
    obtain ⟨hc,hl,hr⟩ := h
    refine ⟨(hμ a (by simp)).trans hc,ihl hl fun b hb => hμ b ?_,ihr hr fun b hb => hμ b ?_⟩
    · simp [hb]
    · simp [hb]

theorem PathAt.congr (h : PathAt μ null root x p) (hμ : ∀ a ∈ outer p, μ' a = μ a) : PathAt μ' null root x p := by
  induction p generalizing x with
  | nil => exact h
  | cons f p ih =>
    obtain ⟨hc,ho,hp⟩ := h
    refine ⟨(hμ _ (by simp)).trans hc,ho.congr fun b hb => hμ b ?_,ih hp fun b hb => hμ b ?_⟩
    · simp [hb]
    · simp [hb]

/-- The root of the tree gets another parent. -/
theorem TreeAt.reparent (h : TreeAt μ null q t) (hnd : t.toList.Nodup)
    (hroot : t ≠ .null → μ' (t.ptr null) = { μ (t.ptr null) with parent := x })
    (hμ : ∀ a ∈ t.toList, a ≠ t.ptr null → μ' a = μ a) : TreeAt μ' null x t := by
  cases t with
  | null => trivial
  | node c l a r =>
    obtain ⟨hc,hl,hr⟩ := h
    have hcell : μ' a = { μ a with parent := x } := hroot (fun h => nomatch h)
    rw [hc] at hcell
    have hne : ∀ b, b ∈ l.toList ∨ b ∈ r.toList → b ≠ a := by
      rintro b hb rfl
      rw [Tree.toList_node, List.nodup_append] at hnd
      rcases hb with hb | hb
      · exact hnd.2.2 b hb b List.mem_cons_self rfl
      · exact (List.nodup_cons.mp hnd.2.1).1 hb
    refine ⟨hcell,hl.congr fun b hb => hμ b (by simp [hb]) (hne b (Or.inl hb)),
      hr.congr fun b hb => hμ b (by simp [hb]) (hne b (Or.inr hb))⟩

/-- The position gets another subtree. -/
theorem PathAt.repoint (h : PathAt μ null root x (f :: p)) (hnd : (outer (f :: p)).Nodup)
    (hcell : μ' f.value = f.cell null (top null p) y) (hμ : ∀ a ∈ outer (f :: p), a ≠ f.value → μ' a = μ a) :
    PathAt μ' null root y (f :: p) := by
  obtain ⟨-,ho,hp⟩ := h
  rw [outer_cons, List.nodup_cons, List.mem_append, not_or] at hnd
  refine ⟨hcell,ho.congr fun b hb => hμ b (by simp [hb]) ?_,hp.congr fun b hb => hμ b (by simp [hb]) ?_⟩
  · rintro rfl
    exact hnd.1.1 hb
  · rintro rfl
    exact hnd.1.2 hb

theorem treeAt_plug : TreeAt μ null q (f.plug t) ↔
    μ f.value = f.cell null q (t.ptr null) ∧ TreeAt μ null f.value t ∧ TreeAt μ null f.value f.other := by
  obtain ⟨s,k,v,o⟩ := f
  cases s
  · exact Iff.rfl
  · exact and_congr_right fun _ => and_comm

/-- A position is where the one above it is. -/
theorem positionAt_plug : PositionAt μ null root (f.plug t) p ↔ PositionAt μ null root t (f :: p) := by
  have hperm := perm_plug f t p
  constructor
  · rintro ⟨ht,hp,hnd,hnull,hcell⟩
    obtain ⟨hf,hsub,ho⟩ := treeAt_plug.mp ht
    rw [ptr_plug] at hp
    exact ⟨hsub,⟨hf,ho,hp⟩,hperm.nodup_iff.mp hnd,fun h => hnull (hperm.mem_iff.mpr h),hcell⟩
  · rintro ⟨ht,⟨hf,ho,hp⟩,hnd,hnull,hcell⟩
    refine ⟨treeAt_plug.mpr ⟨hf,ht,ho⟩,by rwa [ptr_plug],hperm.nodup_iff.mpr hnd,fun h => hnull (hperm.mem_iff.mp h),hcell⟩

/-- The root is a cell of the path. -/
theorem PathAt.root_mem (h : PathAt μ null root x (f :: p)) : root ∈ outer (f :: p) := by
  induction p generalizing x f with
  | nil =>
    obtain ⟨-,-,hroot⟩ := h
    obtain rfl : root = f.value := hroot
    exact List.mem_cons_self
  | cons g p ih =>
    have hin := ih h.2.2
    rw [outer_cons, List.mem_cons, List.mem_append]
    exact Or.inr (Or.inr hin)

/-- Where the colour of a subtree is read. -/
theorem TreeAt.color_eq (h : TreeAt μ null q t) (hnull : (μ null).color = .black) : (μ (t.ptr null)).color = t.color := by
  cases t with
  | null => exact hnull
  | node c l a r => rw [Tree.ptr_node, h.1]; rfl

/-- A node and the node that its links lead to. -/
theorem TreeAt.child_mem (h : TreeAt μ null q t) (ha : a ∈ t.toList) (s : Side) (hne : (μ a).child s ≠ null) :
    (μ a).child s ∈ t.toList ∧ (μ ((μ a).child s)).parent = a := by
  induction t generalizing q with
  | null => cases ha
  | node c l b r ihl ihr =>
    obtain ⟨hc,hl,hr⟩ := h
    rw [Tree.toList_node, List.mem_append, List.mem_cons] at ha
    rcases ha with ha | rfl | ha
    · obtain ⟨hmem,hup⟩ := ihl hl ha
      exact ⟨List.mem_append_left _ hmem,hup⟩
    · have hroot : ∀ u, TreeAt μ null a u → u.ptr null ≠ null → u.ptr null ∈ u.toList ∧ (μ (u.ptr null)).parent = a := by
        intro u hu hu'
        cases u with
        | null => exact absurd rfl hu'
        | node k x d y => exact ⟨by simp,by rw [Tree.ptr_node, hu.1]⟩
      rw [hc] at hne ⊢
      cases s with
      | left =>
        obtain ⟨hmem,hup⟩ := hroot l hl hne
        exact ⟨List.mem_append_left _ hmem,hup⟩
      | right =>
        obtain ⟨hmem,hup⟩ := hroot r hr hne
        exact ⟨List.mem_append_right _ (List.mem_cons_of_mem _ hmem),hup⟩
    · obtain ⟨hmem,hup⟩ := ihr hr ha
      exact ⟨List.mem_append_right _ (List.mem_cons_of_mem _ hmem),hup⟩

theorem TreeAt.parent_mem (h : TreeAt μ null q t) (ha : a ∈ t.toList) : ((μ a).parent = q ∧ t.ptr null = a) ∨
    ((μ a).parent ∈ t.toList ∧ ∃ s, (μ (μ a).parent).child s = a) := by
  induction t generalizing q with
  | null => cases ha
  | node c l b r ihl ihr =>
    obtain ⟨hc,hl,hr⟩ := h
    rw [Tree.toList_node, List.mem_append, List.mem_cons] at ha
    rcases ha with ha | rfl | ha
    · apply Or.inr
      rcases ihl hl ha with ⟨hup,hptr⟩ | ⟨hmem,hs⟩
      · rw [hup, hc]
        exact ⟨by simp,.left,hptr⟩
      · exact ⟨List.mem_append_left _ hmem,hs⟩
    · exact Or.inl ⟨by rw [hc],rfl⟩
    · apply Or.inr
      rcases ihr hr ha with ⟨hup,hptr⟩ | ⟨hmem,hs⟩
      · rw [hup, hc]
        exact ⟨by simp,.right,hptr⟩
      · exact ⟨List.mem_append_right _ (List.mem_cons_of_mem _ hmem),hs⟩

/-! ## Renaming the addresses -/

section Rename
variable {σ : A → A}

@[simp] theorem Tree.map_null : (Tree.null : Tree A).map σ = .null := rfl
@[simp] theorem Tree.map_node : (Tree.node c l a r).map σ = .node c (l.map σ) (σ a) (r.map σ) := rfl

@[simp] theorem Tree.toList_map (t : Tree A) : (t.map σ).toList = t.toList.map σ := by
  induction t with
  | null => rfl
  | node c l a r ihl ihr => simp [Tree.map, ihl, ihr]

theorem Tree.ptr_map (hnull : σ null = null) (t : Tree A) : (t.map σ).ptr null = σ (t.ptr null) := by
  cases t with
  | null => exact hnull.symm
  | node => rfl

theorem Tree.map_eq_self (h : ∀ a ∈ t.toList, σ a = a) : t.map σ = t := by
  induction t with
  | null => rfl
  | node c l a r ihl ihr =>
    have hl := ihl fun b hb => h b (by simp [hb])
    have hr := ihr fun b hb => h b (by simp [hb])
    rw [Tree.map_node, hl, hr, h a (by simp)]

theorem Path.map_eq_self (h : ∀ a ∈ outer p, σ a = a) : p.map (Frame.map σ) = p := by
  induction p with
  | nil => rfl
  | cons f p ih =>
    have hp := ih fun b hb => h b (by simp [hb])
    have ho : f.other.map σ = f.other := Tree.map_eq_self fun b hb => h b (by simp [hb])
    rw [List.map_cons, hp, Frame.map, ho, h f.value (by simp)]

theorem outer_map (p : Path A) : outer (p.map (Frame.map σ)) = (outer p).map σ := by
  induction p with
  | nil => rfl
  | cons f p ih => simp [Frame.map, ih]

theorem top_map (hnull : σ null = null) (p : Path A) : top null (p.map (Frame.map σ)) = σ (top null p) := by
  cases p with
  | nil => exact hnull.symm
  | cons => rfl

theorem TreeAt.rename (h : TreeAt μ null q t) (hnull : σ null = null) (hμ : ∀ b ∈ t.toList, μ' (σ b) = (μ b).map σ) :
    TreeAt μ' null (σ q) (t.map σ) := by
  induction t generalizing q with
  | null => trivial
  | node c l a r ihl ihr =>
    obtain ⟨hc,hl,hr⟩ := h
    refine ⟨?_,ihl hl fun b hb => hμ b (by simp [hb]),ihr hr fun b hb => hμ b (by simp [hb])⟩
    rw [hμ a (by simp), hc, Tree.ptr_map hnull, Tree.ptr_map hnull]
    rfl

theorem PathAt.rename (h : PathAt μ null root x p) (hnull : σ null = null) (hμ : ∀ b ∈ outer p, μ' (σ b) = (μ b).map σ) :
    PathAt μ' null (σ root) (σ x) (p.map (Frame.map σ)) := by
  induction p generalizing x with
  | nil => exact congrArg σ h
  | cons f p ih =>
    obtain ⟨hc,ho,hp⟩ := h
    refine ⟨?_,ho.rename hnull fun b hb => hμ b (by simp [hb]),ih hp fun b hb => hμ b (by simp [hb])⟩
    obtain ⟨s,k,v,o⟩ := f
    have hcell := hμ v (by simp)
    simp only [Frame.cell] at hc
    rw [hc] at hcell
    simp only [Frame.map, Frame.cell, Tree.ptr_map hnull, top_map hnull, hcell]
    cases s <;> rfl

/-- The same tree at other addresses. -/
theorem PositionAt.rename (h : PositionAt μ null root t p) (hσ : Function.Injective σ) (hnull : σ null = null)
    (hμ : ∀ b ∈ t.toList ++ outer p, μ' (σ b) = (μ b).map σ) (hcell : μ' null = ⟨null,null,null,.black⟩) :
    PositionAt μ' null (σ root) (t.map σ) (p.map (Frame.map σ)) := by
  have hlist : (t.map σ).toList ++ outer (p.map (Frame.map σ)) = (t.toList ++ outer p).map σ := by
    rw [Tree.toList_map, outer_map, List.map_append]
  refine ⟨?_,?_,?_,?_,hcell⟩
  · rw [top_map hnull]
    exact h.tree.rename hnull fun b hb => hμ b (List.mem_append_left _ hb)
  · rw [Tree.ptr_map hnull]
    exact h.path.rename hnull fun b hb => hμ b (List.mem_append_right _ hb)
  · rw [hlist]
    exact (List.nodup_map_iff hσ).mpr h.nodup
  · rw [hlist, ← hnull, List.mem_map_of_injective hσ]
    exact h.null_notMem

end Rename

end Lemmas

end LogStats
