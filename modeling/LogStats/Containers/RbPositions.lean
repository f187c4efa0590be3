import LogStats.Containers.RbMemory

/-! # Writes and rotations at a position of a tree in memory

A rotation exchanges the two ancestors below which a subtree hangs. What an operation
leaves alone is kept together with the position: the values, and all that is not a node of
the tree.
-/
namespace LogStats

namespace RbMemory
variable {V : Type*} {m m₀ : RbMemory V} {S : List ℕ} {a b : ℕ} {n : Cell ℕ}

theorem cell_write : (m.write a n).cell b = if b = a then n else m.cell b := by
  by_cases h : b = a
  · subst h
    simp [cell, write]
  · simp [cell, write, h]

theorem cell_write_self : (m.write a n).cell a = n := by rw [cell_write, if_pos rfl]

theorem cell_write_of_ne (h : b ≠ a) : (m.write a n).cell b = m.cell b := by rw [cell_write, if_neg h]

theorem node_write_of_ne (h : b ≠ a) : (m.write a n).node b = m.node b := Function.update_of_ne h ..

theorem value_write : ((m.write a n).node b).value = (m.node b).value := by
  by_cases h : b = a
  · subst h
    simp [write]
  · rw [node_write_of_ne h]

/-- The nodes outside `S`, the values and the count are those of `m₀`. -/
structure Kept (m₀ : RbMemory V) (S : List ℕ) (m : RbMemory V) : Prop where
  outside : ∀ a ∉ S, m.node a = m₀.node a
  value_eq : ∀ a, (m.node a).value = (m₀.node a).value
  count_eq : m.count = m₀.count

theorem Kept.refl (m : RbMemory V) (S : List ℕ) : Kept m S m := ⟨fun _ _ => rfl,fun _ => rfl,rfl⟩

theorem Kept.write (h : Kept m₀ S m) (ha : a ∈ S) (n : Cell ℕ) : Kept m₀ S (m.write a n) := by
  refine ⟨fun b hb => ?_,fun b => value_write.trans (h.value_eq b),h.count_eq⟩
  rw [node_write_of_ne (fun heq : b = a => hb (heq ▸ ha)), h.outside b hb]

theorem Kept.setRoot (h : Kept m₀ S m) (r : ℕ) : Kept m₀ S { m with root := r } := ⟨h.outside,h.value_eq,h.count_eq⟩

/-- A position of the tree, in a memory that is otherwise `m₀`. -/
structure At (m₀ : RbMemory V) (S : List ℕ) (m : RbMemory V) (t : Tree ℕ) (p : Path ℕ) : Prop
    extends PositionAt m.cell rbtreeNull m.root t p, Kept m₀ S m where
  sub : ∀ a ∈ t.toList ++ outer p, a ∈ S

section Positions
variable {t l r x z : Tree ℕ} {p : Path ℕ} {f g : Frame ℕ} {c c' : Color} {s : Side} {v w : ℕ}

theorem at_plug : At m₀ S m (f.plug t) p ↔ At m₀ S m t (f :: p) := by
  have hperm := perm_plug f t p
  constructor
  · exact fun h => ⟨positionAt_plug.mp h.toPositionAt,h.toKept,fun a ha => h.sub a (hperm.mem_iff.mpr ha)⟩
  · exact fun h => ⟨positionAt_plug.mpr h.toPositionAt,h.toKept,fun a ha => h.sub a (hperm.mem_iff.mp ha)⟩

theorem at_zip : At m₀ S m (zip t p) [] ↔ At m₀ S m t p := by
  induction p generalizing t with
  | nil => exact Iff.rfl
  | cons f p ih =>
    rw [zip_cons, ih]
    exact at_plug

/-- The links of the lowest ancestor. -/
theorem At.cell_top (h : At m₀ S m t (f :: p)) : m.cell f.value = f.cell rbtreeNull (top rbtreeNull p) (t.ptr rbtreeNull) :=
  h.path.1

theorem At.top_ne (h : At m₀ S m t (f :: p)) : f.value ≠ rbtreeNull := by
  intro hnull
  apply h.null_notMem
  rw [← hnull]
  simp

theorem At.root_ne (h : At m₀ S m (.node c l v r) (f :: p)) : v ≠ m.root := by
  intro hroot
  have hin := h.path.root_mem
  rw [← hroot] at hin
  exact (List.nodup_append.mp h.nodup).2.2 v (by simp) v hin rfl

theorem At.ptr_ne (h : At m₀ S m (.node c l v r) p) : v ≠ rbtreeNull := by
  intro hnull
  apply h.null_notMem
  rw [← hnull]
  simp

theorem At.color_eq (h : At m₀ S m t p) : (m.cell (t.ptr rbtreeNull)).color = t.color :=
  h.tree.color_eq (by rw [h.null_cell])

/-- The root of the subtree gets a colour. -/
theorem At.paint (h : At m₀ S m (.node c l v r) p) (k : Color) : At m₀ S (m.setColor v k) (.node k l v r) p := by
  obtain ⟨⟨⟨hv,hl,hr⟩,hp,hnd,hnull,hcell⟩,hkept,hsub⟩ := h
  have hnd' := hnd
  simp only [Tree.toList_node, List.append_assoc, List.cons_append, List.nodup_append, List.nodup_cons,
    List.mem_append, List.mem_cons, not_or] at hnd'
  have hne : ∀ b, b ∈ l.toList ∨ b ∈ r.toList ∨ b ∈ outer p → b ≠ v := by
    rintro b hb rfl
    rcases hb with hb | hb | hb
    · exact hnd'.2.2 b hb b (Or.inl rfl) rfl
    · exact hnd'.2.1.1.1 hb
    · exact hnd'.2.1.1.2 hb
  have hvS : v ∈ S := hsub v (by simp)
  have hvnull : rbtreeNull ≠ v := by
    rintro rfl
    simp at hnull
  refine ⟨⟨⟨?_,hl.congr fun b hb => cell_write_of_ne (hne b (Or.inl hb)),
    hr.congr fun b hb => cell_write_of_ne (hne b (Or.inr (Or.inl hb)))⟩,
    hp.congr fun b hb => cell_write_of_ne (hne b (Or.inr (Or.inr hb))),hnd,hnull,?_⟩,hkept.write hvS _,hsub⟩
  · rw [setColor, cell_write_self, hv]
  · rw [setColor, cell_write_of_ne hvnull, hcell]

/-- An ancestor gets a colour. -/
theorem At.paintTop (h : At m₀ S m t (⟨s,c,v,x⟩ :: p)) (k : Color) : At m₀ S (m.setColor v k) t (⟨s,k,v,x⟩ :: p) := by
  have hplug := at_plug.mpr h
  apply at_plug.mp
  cases s <;> exact At.paint hplug k

/-- The pointer to `v` in its parent, or in the tree, comes to point to `w`. -/
theorem repoint_spec (hp : PathAt m.cell rbtreeNull m.root v p) (hv : v ∉ outer p) (hvnull : v ≠ rbtreeNull)
    (hnd : (outer p).Nodup) (hnull : rbtreeNull ∉ outer p) (hsub : ∀ a ∈ outer p, a ∈ S) (hkept : Kept m₀ S m) :
    ∃ m', (if top rbtreeNull p ≠ rbtreeNull then
        if v = (m.cell (top rbtreeNull p)).child s then m.setChild (top rbtreeNull p) s w
        else m.setChild (top rbtreeNull p) s.other w
      else { m with root := w }) = m' ∧ PathAt m'.cell rbtreeNull m'.root w p ∧
        (∀ a ∉ outer p, m'.cell a = m.cell a) ∧ Kept m₀ S m' := by
  cases p with
  | nil => exact ⟨_,rfl,rfl,fun _ _ => rfl,hkept.setRoot w⟩
  | cons f p =>
    obtain ⟨k,c,u,o⟩ := f
    have hu : u ≠ rbtreeNull := by
      rintro rfl
      simp at hnull
    have hcell : m.cell u = Cell.make k (top rbtreeNull p) v (o.ptr rbtreeNull) c := hp.1
    have hother : v ≠ o.ptr rbtreeNull := Tree.ne_ptr (fun hin => hv (by simp [hin])) hvnull
    have hset : (if v = (m.cell u).child s then m.setChild u s w else m.setChild u s.other w) = m.setChild u k w := by
      rw [hcell]
      by_cases hs : s = k
      · subst hs
        simp
      · obtain rfl : s = k.other := by cases s <;> cases k <;> simp_all
        simp [hother]
    refine ⟨m.setChild u k w,by rw [top_cons, if_pos hu, hset],hp.repoint hnd ?_ ?_,?_,hkept.write (hsub u (by simp)) _⟩
    · rw [setChild, cell_write_self, hcell]
      simp [Frame.cell]
    · exact fun b _ hb => cell_write_of_ne hb
    · intro b hb
      apply cell_write_of_ne
      rintro rfl
      simp at hb

/-- A subtree gets another parent, if it is one. -/
theorem adopt_spec {q u : ℕ} (hz : TreeAt m.cell rbtreeNull q z) (hnd : z.toList.Nodup) (hnull : rbtreeNull ∉ z.toList)
    (hsub : ∀ a ∈ z.toList, a ∈ S) (hkept : Kept m₀ S m) :
    ∃ m', (if z.ptr rbtreeNull ≠ rbtreeNull then m.setParent (z.ptr rbtreeNull) u else m) = m' ∧
      TreeAt m'.cell rbtreeNull u z ∧ (∀ a ∉ z.toList, m'.cell a = m.cell a) ∧ m'.root = m.root ∧ Kept m₀ S m' := by
  cases z with
  | null => exact ⟨m,if_neg (not_not_intro rfl),trivial,fun _ _ => rfl,rfl,hkept⟩
  | node c l a r =>
    have ha : a ≠ rbtreeNull := by
      rintro rfl
      simp at hnull
    refine ⟨m.setParent a u,if_pos ha,hz.reparent hnd (fun _ => cell_write_self) (fun b _ hb => cell_write_of_ne hb),?_,rfl,
      hkept.write (hsub a (by simp)) _⟩
    intro b hb
    apply cell_write_of_ne
    rintro rfl
    simp at hb

/-- A rotation at `v` exchanges it with its child `w` above the inner subtree. -/
theorem At.rotate (h : At m₀ S m z (⟨s,c',w,x⟩ :: ⟨s.other,c,v,t⟩ :: p)) :
    At m₀ S (m.rotate s v) z (⟨s.other,c,v,t⟩ :: ⟨s,c',w,x⟩ :: p) := by
  obtain ⟨⟨hz,⟨hw,hx,hv,ht,hp⟩,hnd,hnull,hnullcell⟩,hkept,hsub⟩ := h
  simp only [top_cons, Frame.cell] at hz hx ht hp hw hv
  have hperm : (z.toList ++ outer (⟨s.other,c,v,t⟩ :: ⟨s,c',w,x⟩ :: p)).Perm
      (z.toList ++ outer (⟨s,c',w,x⟩ :: ⟨s.other,c,v,t⟩ :: p)) := by
    refine List.perm_iff_count.mpr fun b => ?_
    simp only [outer_cons, List.count_append, List.count_cons]
    omega
  have hnd' := hnd
  have hnull' := hnull
  have hsub' := hsub
  simp only [outer_cons, List.nodup_append, List.nodup_cons, List.mem_append, List.mem_cons, not_or] at hnd'
  simp only [outer_cons, List.mem_append, List.mem_cons, not_or] at hnull'
  simp only [outer_cons, List.mem_append, List.mem_cons] at hsub'
  obtain ⟨hzz,⟨⟨hwx,hwv,hwt,hwp⟩,hxx,⟨⟨hvt,hvp⟩,htt,hpp,htp⟩,hxv⟩,hzw⟩ := hnd'
  obtain ⟨hnz,hnw,hnx,hnv,hnt,hnp⟩ := hnull'
  have hvw : v ≠ w := Ne.symm hwv
  have hvz : v ∉ z.toList := fun hin => hzw v hin v (by simp) rfl
  have hwz : w ∉ z.toList := fun hin => hzw w hin w (by simp) rfl
  have hvx : v ∉ x.toList := fun hin => hxv v hin v (by simp) rfl
  have hzx : ∀ b ∈ x.toList, b ∉ z.toList := fun b hb hin => hzw b hin b (by simp [hb]) rfl
  have hzt : ∀ b ∈ t.toList, b ∉ z.toList := fun b hb hin => hzw b hin b (by simp [hb]) rfl
  have hzp : ∀ b ∈ outer p, b ∉ z.toList := fun b hb hin => hzw b hin b (by simp [hb]) rfl
  have hxp : ∀ b ∈ x.toList, b ∉ outer p := fun b hb hin => hxv b hb b (by simp [hin]) rfl
  have hvz' : v ≠ z.ptr rbtreeNull := by
    intro heq
    cases z with
    | null => exact hnv heq.symm
    | node => exact hvz (heq ▸ by simp)
  -- what the rotation reads
  have hright : (m.cell v).child s.other = w := by rw [hv, Cell.make_child]
  have hinner : (m.cell w).child s = z.ptr rbtreeNull := by rw [hw, Cell.make_child]
  -- the inner subtree goes below `v`
  obtain ⟨m₁,hm₁⟩ : ∃ m₁, m.setChild v s.other (z.ptr rbtreeNull) = m₁ := ⟨_,rfl⟩
  have hcell₁ : ∀ b, b ≠ v → m₁.cell b = m.cell b := fun b hb => hm₁ ▸ cell_write_of_ne hb
  have hkept₁ : Kept m₀ S m₁ := hm₁ ▸ hkept.write (hsub' v (by simp)) _
  obtain ⟨m₂,hm₂,hz₂,hcell₂,hroot₂,hkept₂⟩ := adopt_spec (u := v)
    (hz.congr fun b hb => hcell₁ b fun heq => hvz (heq ▸ hb)) hzz hnz (fun b hb => hsub' b (Or.inl hb)) hkept₁
  have hv₂ : m₂.cell v = Cell.make s.other (top rbtreeNull p) (z.ptr rbtreeNull) (t.ptr rbtreeNull) c := by
    rw [hcell₂ v hvz, ← hm₁, setChild, cell_write_self, hv, Cell.make_setChild]
  -- `w` goes below the parent of `v`
  obtain ⟨m₃,hm₃⟩ : ∃ m₃, m₂.setParent w (top rbtreeNull p) = m₃ := ⟨_,rfl⟩
  have hcell₃ : ∀ b, b ≠ w → m₃.cell b = m₂.cell b := fun b hb => hm₃ ▸ cell_write_of_ne hb
  have hw₃ : m₃.cell w = Cell.make s (top rbtreeNull p) (z.ptr rbtreeNull) (x.ptr rbtreeNull) c' := by
    rw [← hm₃, setParent, cell_write_self, hcell₂ w hwz, hcell₁ w hwv, hw, Cell.make_setParent]
  have hkept₃ : Kept m₀ S m₃ := by
    rw [← hm₃]
    exact hkept₂.write (hsub' w (by simp)) _
  have hroot₃ : m₃.root = m.root := by
    rw [← hm₃, setParent]
    exact hroot₂.trans (hm₁ ▸ rfl)
  have hp₃ : PathAt m₃.cell rbtreeNull m₃.root v p := by
    rw [hroot₃]
    refine hp.congr fun b hb => ?_
    rw [hcell₃ b (fun heq => hwp (heq ▸ hb)), hcell₂ b (hzp b hb), hcell₁ b (fun heq => hvp (heq ▸ hb))]
  obtain ⟨m₄,hm₄,hp₄,hcell₄,hkept₄⟩ := repoint_spec (s := s) (w := w) hp₃ hvp (Ne.symm hnv) hpp hnp
    (fun b hb => hsub' b (by simp [hb])) hkept₃
  have hv₄ : m₄.cell v = m₂.cell v := by rw [hcell₄ v hvp, hcell₃ v hvw]
  -- `v` goes below `w`
  have hrun : m.rotate s v = (m₄.setChild w s v).setParent v w := by
    have hinner₁ : (m₁.cell w).child s = z.ptr rbtreeNull := by rw [hcell₁ w hwv, hinner]
    have hup₂ : (m₂.cell v).parent = top rbtreeNull p := by rw [hv₂, Cell.make_parent]
    have hup₃ : (m₃.cell v).parent = top rbtreeNull p := by rw [hcell₃ v hvw, hup₂]
    simp only [RbMemory.rotate, hright, hinner, hm₁, hinner₁, hm₂, hup₂, hm₃, hup₃, hm₄]
  obtain ⟨m₆,hm₆⟩ : ∃ m₆, (m₄.setChild w s v).setParent v w = m₆ := ⟨_,rfl⟩
  have hcell₆ : ∀ b, b ≠ v → b ≠ w → m₆.cell b = m₄.cell b := fun b hbv hbw =>
    hm₆ ▸ (cell_write_of_ne hbv).trans (cell_write_of_ne hbw)
  have hold : ∀ b, b ∉ z.toList → b ≠ v → b ≠ w → b ∉ outer p → m₆.cell b = m.cell b := fun b hbz hbv hbw hbp => by
    rw [hcell₆ b hbv hbw, hcell₄ b hbp, hcell₃ b hbw, hcell₂ b hbz, hcell₁ b hbv]
  have hw₆ : m₆.cell w = Cell.make s (top rbtreeNull p) v (x.ptr rbtreeNull) c' := by
    rw [← hm₆, setParent, cell_write_of_ne hwv, setChild, cell_write_self, hcell₄ w hwp, hw₃, Cell.make_setChild]
  have hv₆ : m₆.cell v = Cell.make s.other w (z.ptr rbtreeNull) (t.ptr rbtreeNull) c := by
    rw [← hm₆, setParent, cell_write_self, setChild, cell_write_of_ne hvw, hv₄, hv₂, Cell.make_setParent]
  rw [hrun, hm₆]
  refine ⟨⟨?_,⟨hv₆,?_,hw₆,?_,?_⟩,hperm.nodup_iff.mpr hnd,fun hin => hnull (hperm.mem_iff.mp hin),?_⟩,?_,
    fun b hb => hsub b (hperm.mem_iff.mp hb)⟩
  · refine hz₂.congr fun b hb => ?_
    have hbv : b ≠ v := fun heq => hvz (heq ▸ hb)
    have hbw : b ≠ w := fun heq => hwz (heq ▸ hb)
    rw [hcell₆ b hbv hbw, hcell₄ b (fun hin => hzp b hin hb), hcell₃ b hbw]
  · exact ht.congr fun b hb => hold b (hzt b hb) (fun heq => hvt (heq ▸ hb)) (fun heq => hwt (heq ▸ hb))
      (fun hin => htp b hb b hin rfl)
  · exact hx.congr fun b hb => hold b (hzx b hb) (fun heq => hvx (heq ▸ hb)) (fun heq => hwx (heq ▸ hb)) (hxp b hb)
  · have hroot₆ : m₆.root = m₄.root := by rw [← hm₆]; rfl
    rw [hroot₆]
    exact hp₄.congr fun b hb => hcell₆ b (fun heq => hvp (heq ▸ hb)) (fun heq => hwp (heq ▸ hb))
  · rw [hold _ hnz hnv hnw hnp, hnullcell]
  · rw [← hm₆]
    exact (hkept₄.write (hsub' w (by simp)) _).write (hsub' v (by simp)) _

end Positions

end RbMemory

end LogStats
