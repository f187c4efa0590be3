import LogStats.Containers.RbInsertion
import Mathlib.Logic.Equiv.Basic

/-! # The swap of two nodes of dig_rb_tree.c

Before a node with two children goes out it changes places with the smallest node on its
right. All links of the tree come to be those that it had, with the two addresses exchanged.
-/
namespace LogStats

namespace RbMemory
variable {V : Type*} {m m₀ : RbMemory V} {S : List ℕ}

theorem write_cell (a : ℕ) : m.write a (m.cell a) = m := by
  have hnode : Function.update m.node a ⟨m.cell a,(m.node a).value⟩ = m.node := Function.update_eq_self a m.node
  rw [write, hnode]

theorem write_write (a : ℕ) (n n' : Cell ℕ) : (m.write a n).write a n' = m.write a n' := by
  simp [write]

section Pointers
variable {p child old new a b : ℕ}

/-- What `change_parent_ptr` does to the cell of the parent. -/
def replaceChild (n : Cell ℕ) (old new : ℕ) : Cell ℕ :=
  { n with left := if n.left = old then new else n.left, right := if n.right = old then new else n.right }

theorem changeParentPtr_eq (hp : p ≠ rbtreeNull) (h : (m.cell p).left = old ∨ (m.cell p).right = old) :
    m.changeParentPtr p old new = some (m.write p (replaceChild (m.cell p) old new)) := by
  have hassert : (m.cell p).left = old ∨ (m.cell p).right = old ∨ (m.cell p).left = new ∨ (m.cell p).right = new := by
    rcases h with h | h
    · exact Or.inl h
    · exact Or.inr (Or.inl h)
  rw [changeParentPtr, if_neg hp, if_pos hassert]
  by_cases hl : (m.cell p).left = old <;> by_cases hr : (m.cell p).right = old
  · simp [hl, hr, setChild, Cell.setChild, cell_write_self, write_write, replaceChild]
  · simp [hl, hr, setChild, Cell.setChild, cell_write_self, replaceChild]
  · simp [hl, hr, setChild, Cell.setChild, replaceChild]
  · exact absurd h (not_or.mpr ⟨hl,hr⟩)

theorem changeParentPtr_root (h : m.root = old) : m.changeParentPtr rbtreeNull old new = some { m with root := new } := by
  rw [changeParentPtr, if_pos rfl, if_pos h]

theorem changeChildPtr_null : m.changeChildPtr rbtreeNull old new = some m := by rw [changeChildPtr, if_pos rfl]

theorem changeChildPtr_eq (hc : child ≠ rbtreeNull) (h : (m.cell child).parent = old ∨ (m.cell child).parent = new) :
    m.changeChildPtr child old new = some (m.setParent child new) := by
  rw [changeChildPtr, if_neg hc, if_pos h]
  by_cases hold : (m.cell child).parent = old
  · rw [if_pos hold]
  · have hnew := h.resolve_left hold
    rw [if_neg hold, setParent, ← hnew, write_cell]

theorem changeChildPtr_done (h : child ≠ rbtreeNull → (m.cell child).parent = new) (hne : new ≠ old) :
    m.changeChildPtr child old new = some m := by
  by_cases hc : child = rbtreeNull
  · rw [hc, changeChildPtr_null]
  · rw [changeChildPtr, if_neg hc, h hc, if_pos (Or.inr rfl), if_neg hne]

end Pointers

/-- What the swap relies on: the nodes `T` are linked both ways, and `w` is somewhere below
`v` on its right, without a left child. -/
structure Exchange (m : RbMemory V) (T : List ℕ) (v w : ℕ) : Prop where
  v_mem : v ∈ T
  w_mem : w ∈ T
  null_notMem : rbtreeNull ∉ T
  child_mem : ∀ a ∈ T, ∀ s, (m.cell a).child s ≠ rbtreeNull →
    (m.cell a).child s ∈ T ∧ (m.cell ((m.cell a).child s)).parent = a
  parent_mem : ∀ a ∈ T, ((m.cell a).parent = rbtreeNull ∧ m.root = a) ∨
    ((m.cell a).parent ∈ T ∧ ∃ s, (m.cell (m.cell a).parent).child s = a)
  root_parent : (m.cell m.root).parent = rbtreeNull
  v_ne_w : v ≠ w
  left_v : (m.cell v).left ≠ rbtreeNull ∧ (m.cell v).left ≠ w
  right_v : (m.cell v).right ≠ rbtreeNull
  left_w : (m.cell w).left = rbtreeNull
  parent_v : (m.cell v).parent ≠ v ∧ (m.cell v).parent ≠ w
  parent_w : (m.cell w).parent ≠ w ∧ (m.cell w).parent ≠ (m.cell v).parent ∧ (m.cell w).parent ≠ rbtreeNull

namespace Exchange
variable {T : List ℕ} {v w a b x : ℕ} {s : Side}

theorem swap_null (h : m.Exchange T v w) : Equiv.swap v w rbtreeNull = rbtreeNull :=
  Equiv.swap_apply_of_ne_of_ne (fun heq => h.null_notMem (heq ▸ h.v_mem)) (fun heq => h.null_notMem (heq ▸ h.w_mem))

theorem ne_null (h : m.Exchange T v w) (ha : a ∈ T) : a ≠ rbtreeNull := fun heq => h.null_notMem (heq ▸ ha)

/-- A node is the child of its parent, and only of that. -/
theorem parent_eq (h : m.Exchange T v w) (ha : a ∈ T) (hb : b ∈ T) (hs : (m.cell a).child s = b) :
    (m.cell b).parent = a := by
  have hup := (h.child_mem a ha s (by rw [hs]; exact h.ne_null hb)).2
  rwa [hs] at hup

theorem child_eq (h : m.Exchange T v w) (ha : a ∈ T) (hb : (m.cell a).parent = b) (hne : b ≠ rbtreeNull) :
    ∃ s, (m.cell b).child s = a := by
  rcases h.parent_mem a ha with ⟨hnull,-⟩ | ⟨-,hs⟩
  · exact absurd (hb.symm.trans hnull) hne
  · rwa [hb] at hs

theorem adjacent (h : m.Exchange T v w) : (m.cell v).right = w ↔ (m.cell w).parent = v := by
  constructor
  · exact fun hr => h.parent_eq (s := .right) h.v_mem h.w_mem hr
  · intro hup
    obtain ⟨s,hs⟩ := h.child_eq h.w_mem hup (h.ne_null h.v_mem)
    cases s with
    | left => exact absurd hs h.left_v.2
    | right => exact hs

/-- The colours stay where they are. -/
theorem colors (hne : v ≠ w) (b : ℕ) : ((m.setColor v (m.cell w).color).setColor w (m.cell v).color).cell b =
    { m.cell b with color := (m.cell (Equiv.swap v w b)).color } := by
  by_cases hw : b = w
  · rw [hw, setColor, cell_write_self, setColor, cell_write_of_ne hne.symm, Equiv.swap_apply_right]
  · rw [setColor, cell_write_of_ne hw]
    by_cases hv : b = v
    · rw [hv, setColor, cell_write_self, Equiv.swap_apply_left]
    · rw [setColor, cell_write_of_ne hv, Equiv.swap_apply_of_ne_of_ne hv hw]

theorem child_v (h : m.Exchange T v w) (hb : b ∈ T) (hs : (m.cell b).child s = v) : b = (m.cell v).parent :=
  (h.parent_eq hb h.v_mem hs).symm

theorem child_w (h : m.Exchange T v w) (hb : b ∈ T) (hs : (m.cell b).child s = w) : b = (m.cell w).parent :=
  (h.parent_eq hb h.w_mem hs).symm

theorem root_eq (h : m.Exchange T v w) : Equiv.swap v w m.root = if (m.cell v).parent = rbtreeNull then w else m.root := by
  have hw : m.root ≠ w := fun heq => h.parent_w.2.2 (heq ▸ h.root_parent)
  by_cases hnull : (m.cell v).parent = rbtreeNull
  · rcases h.parent_mem v h.v_mem with ⟨-,hroot⟩ | ⟨hmem,-⟩
    · rw [hroot, if_pos hnull, Equiv.swap_apply_left]
    · exact absurd hnull (h.ne_null hmem)
  · have hv : m.root ≠ v := fun heq => hnull (heq ▸ h.root_parent)
    rw [if_neg hnull, Equiv.swap_apply_of_ne_of_ne hv hw]

theorem replaceChild_of_ne {n : Cell ℕ} {old new : ℕ} (hl : n.left ≠ old) (hr : n.right ≠ old) : replaceChild n old new = n := by
  rw [replaceChild, if_neg hl, if_neg hr]

/-- The pointer to `v` in its parent. -/
theorem parent_of_v (h : m.Exchange T v w) {m₂ : RbMemory V} {k : ℕ → Color} (hroot : m₂.root = m.root)
    (hcell : ∀ b, m₂.cell b = { m.cell b with color := k b }) (hsub : ∀ a ∈ T, a ∈ S) (hkept : Kept m₀ S m₂) :
    ∃ m₃, m₂.changeParentPtr (m.cell v).parent v w = some m₃ ∧ m₃.root = Equiv.swap v w m.root ∧ Kept m₀ S m₃ ∧
      m₃.cell rbtreeNull = m₂.cell rbtreeNull ∧ ∀ b ∈ T, m₃.cell b = replaceChild (m₂.cell b) v w := by
  have hother : ∀ b ∈ T, b ≠ (m.cell v).parent → replaceChild (m₂.cell b) v w = m₂.cell b := by
    intro b hb hne
    refine replaceChild_of_ne (fun hl => hne ?_) fun hr => hne ?_
    · rw [hcell] at hl
      exact h.child_v (s := .left) hb hl
    · rw [hcell] at hr
      exact h.child_v (s := .right) hb hr
  rcases h.parent_mem v h.v_mem with ⟨hnull,hv⟩ | ⟨hmem,s,hs⟩
  · refine ⟨{ m₂ with root := w },?_,?_,hkept.setRoot w,rfl,fun b hb => (hother b hb ?_).symm⟩
    · rw [hnull]
      exact changeParentPtr_root (hroot.trans hv)
    · rw [h.root_eq, if_pos hnull]
    · rw [hnull]
      exact h.ne_null hb
  · have hchild : (m₂.cell (m.cell v).parent).left = v ∨ (m₂.cell (m.cell v).parent).right = v := by
      rw [hcell]
      cases s with
      | left => exact Or.inl hs
      | right => exact Or.inr hs
    refine ⟨_,changeParentPtr_eq (h.ne_null hmem) hchild,?_,hkept.write (hsub _ hmem) _,
      cell_write_of_ne (h.ne_null hmem).symm,fun b hb => ?_⟩
    · rw [h.root_eq, if_neg (h.ne_null hmem), ← hroot]
      rfl
    · by_cases hb' : b = (m.cell v).parent
      · rw [hb', cell_write_self]
      · rw [cell_write_of_ne hb', hother b hb hb']

/-- The pointers to the two nodes in their parents. -/
theorem parents (h : m.Exchange T v w) {m₂ : RbMemory V} {k : ℕ → Color} (hroot : m₂.root = m.root)
    (hcell : ∀ b, m₂.cell b = { m.cell b with color := k b }) (hsub : ∀ a ∈ T, a ∈ S) (hkept : Kept m₀ S m₂) :
    ∃ m₃ m₄, m₂.changeParentPtr (m.cell v).parent v w = some m₃ ∧
      (m₃.cell v).right = (m.cell v).right ∧ (m₃.cell w).parent = (m.cell w).parent ∧
      (if (m.cell v).right ≠ w then m₃.changeParentPtr (m.cell w).parent w v else some m₃) = some m₄ ∧
      m₄.root = Equiv.swap v w m.root ∧ Kept m₀ S m₄ ∧ m₄.cell rbtreeNull = m₂.cell rbtreeNull ∧ m₄.cell v = m₂.cell v ∧
      ∀ b ∈ T, b ≠ v → m₄.cell b = { m₂.cell b with
        left := Equiv.swap v w (m.cell b).left, right := Equiv.swap v w (m.cell b).right } := by
  obtain ⟨m₃,hrun₃,hroot₃,hkept₃,hnull₃,hcell₃⟩ := h.parent_of_v hroot hcell hsub hkept
  have hv₃ : m₃.cell v = m₂.cell v := by
    rw [hcell₃ v h.v_mem]
    refine replaceChild_of_ne (fun hl => ?_) fun hr => ?_
    · rw [hcell] at hl
      exact h.parent_v.1 (h.child_v (s := .left) h.v_mem hl).symm
    · rw [hcell] at hr
      exact h.parent_v.1 (h.child_v (s := .right) h.v_mem hr).symm
  have hv : (m₃.cell v).right = (m.cell v).right := by rw [hv₃, hcell]
  have hw : (m₃.cell w).parent = (m.cell w).parent := by rw [hcell₃ w h.w_mem, hcell, replaceChild]
  -- a node that is not the parent of `w` has no pointer to it
  have hother : ∀ b ∈ T, b ≠ (m.cell w).parent → m₃.cell b = { m₂.cell b with
      left := Equiv.swap v w (m.cell b).left, right := Equiv.swap v w (m.cell b).right } := by
    intro b hb hne
    have hl : (m.cell b).left ≠ w := fun hl => hne (h.child_w (s := .left) hb hl)
    have hr : (m.cell b).right ≠ w := fun hr => hne (h.child_w (s := .right) hb hr)
    rw [hcell₃ b hb, hcell, replaceChild, Equiv.swap_apply_def, Equiv.swap_apply_def, if_neg hl, if_neg hr]
  by_cases hadj : (m.cell v).right = w
  · refine ⟨m₃,m₃,hrun₃,hv,hw,if_neg (not_not_intro hadj),hroot₃,hkept₃,hnull₃,hv₃,fun b hb hne => hother b hb ?_⟩
    rwa [h.adjacent.mp hadj]
  · have hup : (m.cell w).parent ≠ v := fun heq => hadj (h.adjacent.mpr heq)
    rcases h.parent_mem w h.w_mem with ⟨hnull,-⟩ | ⟨hmem,s,hs⟩
    · exact absurd hnull h.parent_w.2.2
    · have hl : (m.cell (m.cell w).parent).left ≠ v := fun hl => h.parent_w.2.1 (h.child_v (s := .left) hmem hl)
      have hr : (m.cell (m.cell w).parent).right ≠ v := fun hr => h.parent_w.2.1 (h.child_v (s := .right) hmem hr)
      have hcell₃' : m₃.cell (m.cell w).parent = m₂.cell (m.cell w).parent := by
        rw [hcell₃ _ hmem, hcell]
        exact replaceChild_of_ne hl hr
      have hchild : (m₃.cell (m.cell w).parent).left = w ∨ (m₃.cell (m.cell w).parent).right = w := by
        rw [hcell₃', hcell]
        cases s with
        | left => exact Or.inl hs
        | right => exact Or.inr hs
      refine ⟨m₃,_,hrun₃,hv,hw,(if_pos hadj).trans (changeParentPtr_eq (h.ne_null hmem) hchild),hroot₃,
        hkept₃.write (hsub _ hmem) _,?_,?_,fun b hb hne => ?_⟩
      · rw [cell_write_of_ne (h.ne_null hmem).symm, hnull₃]
      · rw [cell_write_of_ne hup.symm, hv₃]
      · by_cases hb' : b = (m.cell w).parent
        · rw [hb', cell_write_self, hcell₃', hcell, replaceChild, Equiv.swap_apply_def, Equiv.swap_apply_def,
            if_neg hl, if_neg hr]
        · rw [cell_write_of_ne hb', hother b hb hb']

/-- A child, or the sentinel, gets another parent. -/
theorem changeChildPtr_spec (hT : rbtreeNull ∉ T) {c : ℕ} (old new : ℕ)
    (hc : c ≠ rbtreeNull → c ∈ T ∧ ((m.cell c).parent = old ∨ (m.cell c).parent = new))
    (hsub : ∀ a ∈ T, a ∈ S) (hkept : Kept m₀ S m) :
    ∃ m', m.changeChildPtr c old new = some m' ∧ m'.root = m.root ∧ Kept m₀ S m' ∧ m'.cell rbtreeNull = m.cell rbtreeNull ∧
      ∀ b ∈ T, m'.cell b = if b = c then { m.cell b with parent := new } else m.cell b := by
  by_cases hnull : c = rbtreeNull
  · refine ⟨m,by rw [hnull, changeChildPtr_null],rfl,hkept,rfl,fun b hb => ?_⟩
    have hb : b ≠ c := fun heq => hT (hnull ▸ heq ▸ hb)
    rw [if_neg hb]
  · obtain ⟨hmem,hold⟩ := hc hnull
    refine ⟨_,changeChildPtr_eq hnull hold,rfl,hkept.write (hsub c hmem) _,cell_write_of_ne (Ne.symm hnull),fun b _ => ?_⟩
    by_cases hb : b = c
    · rw [if_pos hb, hb, setParent, cell_write_self]
    · rw [if_neg hb, setParent, cell_write_of_ne hb]

/-- The pointers to the two nodes in their children. -/
theorem children (h : m.Exchange T v w) {m₄ : RbMemory V} (hup : ∀ b ∈ T, (m₄.cell b).parent = (m.cell b).parent)
    (hsub : ∀ a ∈ T, a ∈ S) (hkept : Kept m₀ S m₄) :
    ∃ m₅ m₆ m₇, m₄.changeChildPtr (m.cell w).right w v = some m₅ ∧ m₅.cell w = m₄.cell w ∧
      m₅.changeChildPtr (m.cell w).right w v = some m₅ ∧ m₅.cell v = m₄.cell v ∧
      m₅.changeChildPtr (m.cell v).left v w = some m₆ ∧ m₆.cell v = m₄.cell v ∧
      (if (m.cell v).right ≠ w then m₆.changeChildPtr (m.cell v).right v w else some m₆) = some m₇ ∧
      m₇.root = m₄.root ∧ Kept m₀ S m₇ ∧ m₇.cell rbtreeNull = m₄.cell rbtreeNull ∧ m₇.cell w = m₄.cell w ∧
      ∀ b ∈ T, b ≠ w → m₇.cell b = { m₄.cell b with parent := Equiv.swap v w (m.cell b).parent } := by
  have hrw : ∀ b ∈ T, b = (m.cell w).right → (m.cell b).parent = w := fun b hb heq =>
    h.parent_eq (s := .right) h.w_mem hb heq.symm
  have hlv : ∀ b ∈ T, b = (m.cell v).left → (m.cell b).parent = v := fun b hb heq =>
    h.parent_eq (s := .left) h.v_mem hb heq.symm
  have hrv : ∀ b ∈ T, b = (m.cell v).right → (m.cell b).parent = v := fun b hb heq =>
    h.parent_eq (s := .right) h.v_mem hb heq.symm
  have hmemr := fun hne => (h.child_mem w h.w_mem .right hne).1
  have hmeml := (h.child_mem v h.v_mem .left h.left_v.1).1
  have hmemr' := (h.child_mem v h.v_mem .right h.right_v).1
  simp only [Cell.child] at hmemr hmeml hmemr'
  obtain ⟨m₅,hrun₅,hroot₅,hkept₅,hnull₅,hcell₅⟩ := changeChildPtr_spec (m := m₄) (c := (m.cell w).right) h.null_notMem w v
    (fun hne => ⟨hmemr hne,Or.inl ((hup _ (hmemr hne)).trans (hrw _ (hmemr hne) rfl))⟩) hsub hkept
  have hdone : m₅.changeChildPtr (m.cell w).right w v = some m₅ := by
    refine changeChildPtr_done (fun hne => ?_) h.v_ne_w
    rw [hcell₅ _ (hmemr hne), if_pos rfl]
  have hl₅ : m₅.cell (m.cell v).left = m₄.cell (m.cell v).left := by
    rw [hcell₅ _ hmeml, if_neg (fun heq => h.v_ne_w ((hlv _ hmeml rfl).symm.trans (hrw _ hmeml heq)))]
  have hr₅ : m₅.cell (m.cell v).right = m₄.cell (m.cell v).right := by
    rw [hcell₅ _ hmemr', if_neg (fun heq => h.v_ne_w ((hrv _ hmemr' rfl).symm.trans (hrw _ hmemr' heq)))]
  have hv₅ : m₅.cell v = m₄.cell v := by rw [hcell₅ v h.v_mem, if_neg (fun heq => h.parent_v.2 (hrw v h.v_mem heq))]
  have hw₅ : m₅.cell w = m₄.cell w := by rw [hcell₅ w h.w_mem, if_neg (fun heq => h.parent_w.1 (hrw w h.w_mem heq))]
  obtain ⟨m₆,hrun₆,hroot₆,hkept₆,hnull₆,hcell₆⟩ := changeChildPtr_spec (m := m₅) (c := (m.cell v).left) h.null_notMem v w
    (fun _ => ⟨hmeml,Or.inl (by rw [hl₅, hup _ hmeml, hlv _ hmeml rfl])⟩) hsub hkept₅
  have hv₆ : m₆.cell v = m₄.cell v := by
    rw [hcell₆ v h.v_mem, if_neg (fun heq => h.parent_v.1 (hlv v h.v_mem heq)), hv₅]
  have hw₆ : m₆.cell w = m₄.cell w := by rw [hcell₆ w h.w_mem, if_neg h.left_v.2.symm, hw₅]
  -- the parents, for what the last step does to the right child of `v`
  have hfinal : ∀ m₇ : RbMemory V, (∀ b ∈ T, b ≠ w → m₇.cell b =
      if b = (m.cell v).right then { m₆.cell b with parent := w } else m₆.cell b) →
      ∀ b ∈ T, b ≠ w → m₇.cell b = { m₄.cell b with parent := Equiv.swap v w (m.cell b).parent } := by
    intro m₇ hcell₇ b hb hne
    rw [hcell₇ b hb hne, hcell₆ b hb, hcell₅ b hb]
    by_cases hpv : (m.cell b).parent = v
    · have hrw' : b ≠ (m.cell w).right := fun heq => h.v_ne_w (hpv.symm.trans (hrw b hb heq))
      obtain ⟨s,hs⟩ := h.child_eq hb hpv (h.ne_null h.v_mem)
      rw [hpv, Equiv.swap_apply_left, if_neg hrw']
      cases s with
      | left =>
        rw [if_pos (show b = (m.cell v).left from hs.symm)]
        split <;> rfl
      | right =>
        rw [if_pos (show b = (m.cell v).right from hs.symm)]
        split <;> rfl
    · have hlv' : b ≠ (m.cell v).left := fun heq => hpv (hlv b hb heq)
      have hrv' : b ≠ (m.cell v).right := fun heq => hpv (hrv b hb heq)
      rw [if_neg hrv', if_neg hlv']
      by_cases hpw : (m.cell b).parent = w
      · obtain ⟨s,hs⟩ := h.child_eq hb hpw (h.ne_null h.w_mem)
        cases s with
        | left => exact absurd (h.left_w.symm.trans hs) (h.ne_null hb).symm
        | right => rw [hpw, Equiv.swap_apply_right, if_pos (show b = (m.cell w).right from hs.symm)]
      · have hrw' : b ≠ (m.cell w).right := fun heq => hpw (hrw b hb heq)
        rw [if_neg hrw', Equiv.swap_apply_of_ne_of_ne hpv hpw, ← hup b hb]
  by_cases hadj : (m.cell v).right = w
  · refine ⟨m₅,m₆,m₆,hrun₅,hw₅,hdone,hv₅,hrun₆,hv₆,if_neg (not_not_intro hadj),hroot₆.trans hroot₅,hkept₆,hnull₆.trans hnull₅,hw₆,
      hfinal m₆ fun b _ hne => ?_⟩
    rw [hadj, if_neg hne]
  · have hold : (m₆.cell (m.cell v).right).parent = v ∨ (m₆.cell (m.cell v).right).parent = w := by
      rw [hcell₆ _ hmemr']
      split
      · exact Or.inr rfl
      · exact Or.inl (by rw [hr₅, hup _ hmemr', hrv _ hmemr' rfl])
    obtain ⟨m₇,hrun₇,hroot₇,hkept₇,hnull₇,hcell₇⟩ := changeChildPtr_spec (m := m₆) (c := (m.cell v).right) h.null_notMem v w
      (fun _ => ⟨hmemr',hold⟩) hsub hkept₆
    refine ⟨m₅,m₆,m₇,hrun₅,hw₅,hdone,hv₅,hrun₆,hv₆,(if_pos hadj).trans hrun₇,hroot₇.trans (hroot₆.trans hroot₅),hkept₇,
      hnull₇.trans (hnull₆.trans hnull₅),?_,hfinal m₇ fun b hb _ => hcell₇ b hb⟩
    rw [hcell₇ w h.w_mem, if_neg (Ne.symm hadj), hw₆]

/-- What is left to do where `w` is the right child of `v`. -/
theorem adjacent_links (h : m.Exchange T v w) {m₇ : RbMemory V}
    (hv : m₇.cell v = ⟨Equiv.swap v w (m.cell v).parent,(m.cell v).left,(m.cell v).right,(m.cell w).color⟩)
    (hw : m₇.cell w = ⟨(m.cell w).parent,rbtreeNull,Equiv.swap v w (m.cell w).right,(m.cell v).color⟩) (hkept : Kept m₀ S m₇)
    (hsub : ∀ a ∈ T, a ∈ S) :
    ∃ m₈, (if (m₇.cell v).right = w then (m₇.setChild v .right v).setParent w w else m₇) = m₈ ∧ m₈.root = m₇.root ∧
      Kept m₀ S m₈ ∧ (∀ b, b ≠ v → b ≠ w → m₈.cell b = m₇.cell b) ∧
      m₈.cell v = { (m.cell v).map (Equiv.swap v w) with color := (m.cell w).color } ∧
      m₈.cell w = { (m.cell w).map (Equiv.swap v w) with color := (m.cell v).color } := by
  have hlv : (m.cell v).left ≠ v := fun heq => h.parent_v.1 (h.child_v (s := .left) h.v_mem heq).symm
  have hrv : (m.cell v).right ≠ v := fun heq => h.parent_v.1 (h.child_v (s := .right) h.v_mem heq).symm
  have hleft : Equiv.swap v w (m.cell v).left = (m.cell v).left := Equiv.swap_apply_of_ne_of_ne hlv h.left_v.2
  by_cases hadj : (m.cell v).right = w
  · refine ⟨_,if_pos (by rw [hv, hadj]),rfl,(hkept.write (hsub v h.v_mem) _).write (hsub w h.w_mem) _,fun b hbv hbw => ?_,?_,?_⟩
    · rw [setParent, cell_write_of_ne hbw, setChild, cell_write_of_ne hbv]
    · rw [setParent, cell_write_of_ne h.v_ne_w, setChild, cell_write_self, hv, Cell.map, hleft, hadj, Equiv.swap_apply_right]
      rfl
    · rw [setParent, cell_write_self, setChild, cell_write_of_ne h.v_ne_w.symm, hw, Cell.map, h.left_w, h.swap_null,
        h.adjacent.mp hadj, Equiv.swap_apply_left]
  · have hpw : (m.cell w).parent ≠ v := fun heq => hadj (h.adjacent.mpr heq)
    refine ⟨m₇,if_neg (by rw [hv]; exact hadj),rfl,hkept,fun _ _ _ => rfl,?_,?_⟩
    · rw [hv, Cell.map, hleft, Equiv.swap_apply_of_ne_of_ne hrv hadj]
    · rw [hw, Cell.map, h.left_w, h.swap_null, Equiv.swap_apply_of_ne_of_ne hpw h.parent_w.1]

/-- The two nodes change places. -/
theorem swapNodes_spec (h : m.Exchange T v w) (hsub : ∀ a ∈ T, a ∈ S) (hkept : Kept m₀ S m) :
    ∃ m', m.swapNodes v w = some m' ∧ m'.root = Equiv.swap v w m.root ∧ Kept m₀ S m' ∧
      m'.cell rbtreeNull = m.cell rbtreeNull ∧ ∀ b ∈ T, m'.cell (Equiv.swap v w b) = (m.cell b).map (Equiv.swap v w) := by
  obtain ⟨m₂,hm₂⟩ : ∃ m₂, (m.setColor v (m.cell w).color).setColor w (m.cell v).color = m₂ := ⟨_,rfl⟩
  have hcell₂ : ∀ b, m₂.cell b = { m.cell b with color := (m.cell (Equiv.swap v w b)).color } := fun b =>
    hm₂ ▸ colors h.v_ne_w b
  have hkept₂ : Kept m₀ S m₂ := hm₂ ▸ (hkept.write (hsub v h.v_mem) _).write (hsub w h.w_mem) _
  obtain ⟨m₃,m₄,hrun₃,hright₃,hup₃,hrun₄,hroot₄,hkept₄,hnull₄,hv₄,hcell₄⟩ := h.parents (hm₂ ▸ rfl) hcell₂ hsub hkept₂
  have hw₄ := hcell₄ w h.w_mem h.v_ne_w.symm
  have hwv : (m.cell w).right ≠ v := fun heq => h.parent_v.2 (h.child_v (s := .right) h.w_mem heq).symm
  have hww : (m.cell w).right ≠ w := fun heq => h.parent_w.1 (h.child_w (s := .right) h.w_mem heq).symm
  have hright := Equiv.swap_apply_of_ne_of_ne hwv hww
  have hup₄ : ∀ b ∈ T, (m₄.cell b).parent = (m.cell b).parent := by
    intro b hb
    by_cases hbv : b = v
    · rw [hbv, hv₄, hcell₂]
    · rw [hcell₄ b hb hbv, hcell₂]
  obtain ⟨m₅,m₆,m₇,hrun₅,hw₅,hdone,hv₅,hrun₆,hv₆,hrun₇,hroot₇,hkept₇,hnull₇,hw₇,hcell₇⟩ := h.children hup₄ hsub hkept₄
  have hv₇ := hcell₇ v h.v_mem h.v_ne_w
  rw [hv₄, hcell₂, Equiv.swap_apply_left] at hv₇
  rw [hw₄, hcell₂, h.left_w, h.swap_null, Equiv.swap_apply_right] at hw₇
  obtain ⟨m₈,hm₈,hroot₈,hkept₈,hcell₈,hv₈,hw₈⟩ := h.adjacent_links hv₇ hw₇ hkept₇ hsub
  -- what the code reads on the way
  have hparent₂ : (m₂.cell v).parent = (m.cell v).parent := by rw [hcell₂]
  have hleft₄ : (m₄.cell w).left = rbtreeNull := by rw [hw₄, h.left_w, h.swap_null]
  have hright₄ : (m₄.cell w).right = (m.cell w).right := by rw [hw₄, hright]
  have hright₅ : (m₅.cell w).right = (m.cell w).right := by rw [hw₅, hright₄]
  have hleft₅ : (m₅.cell v).left = (m.cell v).left := by rw [hv₅, hv₄, hcell₂]
  have hright₆ : (m₆.cell v).right = (m.cell v).right := by rw [hv₆, hv₄, hcell₂]
  refine ⟨(m₈.write v ⟨(m₈.cell w).parent,(m₈.cell w).left,(m₈.cell w).right,(m₈.cell v).color⟩).write w
      ⟨(m₈.cell v).parent,(m₈.cell v).left,(m₈.cell v).right,(m₈.cell w).color⟩,?_,?_,
    (hkept₈.write (hsub v h.v_mem) _).write (hsub w h.w_mem) _,?_,fun b hb => ?_⟩
  · by_cases hadj : (m.cell v).right = w
    · obtain rfl : m₃ = m₄ := Option.some.inj ((if_neg (not_not_intro hadj)).symm.trans hrun₄)
      obtain rfl : m₆ = m₇ := Option.some.inj ((if_neg (not_not_intro hadj)).symm.trans hrun₇)
      have hstay₃ : ¬(m₃.cell v).right ≠ w := not_not_intro (hright₃.trans hadj)
      have hstay₆ : ¬(m₆.cell v).right ≠ w := not_not_intro (hright₆.trans hadj)
      simp only [swapNodes, hm₂, hparent₂, hrun₃, Option.bind_eq_bind, Option.bind_some, if_neg hstay₃, hleft₄,
        changeChildPtr_null, hright₄, hrun₅, hright₅, hdone, hleft₅, hrun₆, if_neg hstay₆, hm₈]
    · have hgo₃ : (m₃.cell v).right ≠ w := fun heq => hadj (hright₃.symm.trans heq)
      rw [if_pos hadj] at hrun₄ hrun₇
      simp only [swapNodes, hm₂, hparent₂, hrun₃, Option.bind_eq_bind, Option.bind_some, if_pos hgo₃, hup₃, hrun₄, hleft₄,
        changeChildPtr_null, hright₄, hrun₅, hright₅, hdone, hleft₅, hrun₆, hright₆, if_pos (Ne.intro hadj), hrun₇, hm₈]
  · have hroot : m₈.root = Equiv.swap v w m.root := hroot₈.trans (hroot₇.trans hroot₄)
    exact hroot
  · have hv : rbtreeNull ≠ v := (h.ne_null h.v_mem).symm
    have hw : rbtreeNull ≠ w := (h.ne_null h.w_mem).symm
    rw [cell_write_of_ne hw, cell_write_of_ne hv, hcell₈ _ hv hw, hnull₇, hnull₄, hcell₂, h.swap_null]
  · by_cases hbv : b = v
    · rw [hbv, Equiv.swap_apply_left, cell_write_self, hv₈, hw₈]
      rfl
    · by_cases hbw : b = w
      · rw [hbw, Equiv.swap_apply_right, cell_write_of_ne h.v_ne_w, cell_write_self, hv₈, hw₈]
        rfl
      · rw [Equiv.swap_apply_of_ne_of_ne hbv hbw, cell_write_of_ne hbw, cell_write_of_ne hbv, hcell₈ b hbv hbw,
          hcell₇ b hb hbw, hcell₄ b hb hbv, hcell₂, Equiv.swap_apply_of_ne_of_ne hbv hbw]
        rfl

end Exchange

section Positions
variable {l r' : Tree ℕ} {c c' : Color} {v w : ℕ} {inner path p q : Path ℕ} {t : Tree ℕ}

theorem at_append : At m₀ S m t (p ++ q) ↔ At m₀ S m (zip t p) q := by
  induction p generalizing t with
  | nil => exact Iff.rfl
  | cons f p ih =>
    rw [List.cons_append, zip_cons, ← ih]
    exact at_plug.symm

theorem outer_append (p q : Path ℕ) : outer (p ++ q) = outer p ++ outer q := by
  induction p with
  | nil => rfl
  | cons f p ih => simp [ih]

theorem top_mem (p : Path ℕ) : top rbtreeNull p = rbtreeNull ∨ top rbtreeNull p ∈ outer p := by
  cases p with
  | nil => exact Or.inl rfl
  | cons f p => exact Or.inr List.mem_cons_self

/-- A node with two children and one on its right without a left child can change places. -/
theorem At.exchange (h : At m₀ S m (.node c' .null w r') (inner ++ ⟨.right,c,v,l⟩ :: path)) (hl : l ≠ .null) :
    m.Exchange ((Tree.node c' .null w r').toList ++ outer (inner ++ ⟨.right,c,v,l⟩ :: path)) v w := by
  have hmem := fun a => (perm_zip (.node c' .null w r') (inner ++ ⟨.right,c,v,l⟩ :: path)).mem_iff (a := a)
  have hwhole := at_zip.mpr h
  have htree := hwhole.tree
  have hroot : m.root = (zip (.node c' .null w r') (inner ++ ⟨.right,c,v,l⟩ :: path)).ptr rbtreeNull := hwhole.path
  have hcell := (at_append.mp h).cell_top
  have hnd := h.nodup
  have hnull := h.null_notMem
  simp only [Tree.toList_node, Tree.toList_null, List.nil_append, List.cons_append, outer_append, outer_cons,
    List.nodup_cons, List.nodup_append, List.mem_append, List.mem_cons, not_or] at hnd hnull
  obtain ⟨⟨-,hwi,hwv,hwl,hwp⟩,-,⟨-,⟨⟨hvl,hvp⟩,-⟩,hip⟩,-⟩ := hnd
  obtain ⟨hw,-,hi,hv,hnl,hnp⟩ := hnull
  have hlp := Tree.ptr_mem rbtreeNull hl
  have hup : ∀ a, a ≠ rbtreeNull → a ∉ outer path → top rbtreeNull path ≠ a := by
    rintro a hne hout rfl
    exact (top_mem path).elim hne hout
  have hne : Tree.node c' .null w r' ≠ .null := fun heq => nomatch heq
  have hparent : (m.cell w).parent = top rbtreeNull (inner ++ ⟨.right,c,v,l⟩ :: path) := h.parent_eq hne
  simp only [Frame.cell, Cell.make] at hcell
  refine ⟨by simp [outer_append],by simp,h.null_notMem,fun a ha s hne => ?_,fun a ha => ?_,?_,Ne.symm hwv,?_,?_,?_,?_,?_⟩
  · obtain ⟨hin,hback⟩ := htree.child_mem ((hmem a).mpr ha) s hne
    exact ⟨(hmem _).mp hin,hback⟩
  · rcases htree.parent_mem ((hmem a).mpr ha) with ⟨hnone,hptr⟩ | ⟨hin,hback⟩
    · exact Or.inl ⟨hnone,hroot.trans hptr⟩
    · exact Or.inr ⟨(hmem _).mp hin,hback⟩
  · rw [hroot]
    exact hwhole.parent_eq (zip_ne hne _)
  · rw [hcell]
    exact ⟨fun heq => hnl (heq ▸ hlp),fun heq => hwl (heq ▸ hlp)⟩
  · rw [hcell]
    have hin := Tree.ptr_mem rbtreeNull (zip_ne hne inner)
    exact fun heq => (at_append.mp h).null_notMem (List.mem_append_left _ (heq ▸ hin))
  · rw [h.tree.1]
    rfl
  · rw [hcell]
    exact ⟨hup v (Ne.symm hv) hvp,hup w (Ne.symm hw) hwp⟩
  · rw [hparent, hcell]
    cases inner with
    | nil => exact ⟨Ne.symm hwv,(hup v (Ne.symm hv) hvp).symm,Ne.symm hv⟩
    | cons f q =>
      have hf : f.value ∈ outer (f :: q) := List.mem_cons_self
      have hfnull : f.value ≠ rbtreeNull := fun heq => hi (heq ▸ hf)
      refine ⟨fun heq => hwi (heq ▸ hf),(hup _ hfnull fun hin => ?_).symm,hfnull⟩
      exact hip _ hf _ (Or.inr (Or.inr hin)) rfl

/-- The place of `w`, with `v` there and `w` above. -/
theorem At.swap (h : At m₀ S m (.node c' .null w r') (inner ++ ⟨.right,c,v,l⟩ :: path)) (hl : l ≠ .null) :
    ∃ m', m.swapNodes v w = some m' ∧ At m₀ S m' (.node c' .null v r') (inner ++ ⟨.right,c,w,l⟩ :: path) := by
  have hex := h.exchange hl
  obtain ⟨m',hrun,hroot,hkept,hnull,hcell⟩ := hex.swapNodes_spec h.sub h.toKept
  have hnamed := h.toPositionAt.rename (Equiv.swap v w).injective hex.swap_null hcell (hnull.trans h.null_cell)
  have hnd := h.nodup
  simp only [Tree.toList_node, Tree.toList_null, List.nil_append, List.cons_append, outer_append, outer_cons,
    List.nodup_cons, List.nodup_append, List.mem_append, List.mem_cons, not_or] at hnd
  obtain ⟨⟨hwr,hwi,hwv,hwl,hwp⟩,-,⟨-,⟨⟨hvl,hvp⟩,-⟩,hip⟩,hr⟩ := hnd
  have hfix : ∀ a, a ≠ v → a ≠ w → Equiv.swap v w a = a := fun a => Equiv.swap_apply_of_ne_of_ne
  have hr' : r'.map (Equiv.swap v w) = r' := Tree.map_eq_self fun a ha =>
    hfix a (fun heq => hr a ha v (Or.inr (Or.inl rfl)) heq) fun heq => hwr (heq ▸ ha)
  have hl' : l.map (Equiv.swap v w) = l := Tree.map_eq_self fun a ha =>
    hfix a (fun heq => hvl (heq ▸ ha)) fun heq => hwl (heq ▸ ha)
  have hinner : inner.map (Frame.map (Equiv.swap v w)) = inner := Path.map_eq_self fun a ha =>
    hfix a (hip a ha v (Or.inl rfl)) fun heq => hwi (heq ▸ ha)
  have hpath : path.map (Frame.map (Equiv.swap v w)) = path := Path.map_eq_self fun a ha =>
    hfix a (fun heq => hvp (heq ▸ ha)) fun heq => hwp (heq ▸ ha)
  rw [← hroot, Tree.map_node, Tree.map_null, hr', Equiv.swap_apply_right, List.map_append, List.map_cons, hinner, hpath,
    Frame.map, hl', Equiv.swap_apply_left] at hnamed
  refine ⟨m',hrun,hnamed,hkept,fun a ha => h.sub a ?_⟩
  simp only [Tree.toList_node, Tree.toList_null, List.nil_append, List.cons_append, outer_append, outer_cons, List.mem_append,
    List.mem_cons] at ha ⊢
  tauto

end Positions

end RbMemory

end LogStats
