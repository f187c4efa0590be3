import LogStats.Containers.RbSwap

/-! # Deletion from the nodes of dig_rb_tree.c

The node goes out at a position with one child at most, after a swap with the smallest node
on its right where it has two, and the fix-up climbs from there.
-/
namespace LogStats

namespace RbMemory
variable {V : Type*} {m m₀ : RbMemory V} {S : List ℕ}

section Fixup
variable {t l r x z child inner outerChild : Tree ℕ} {p rest : Path ℕ} {f : Frame ℕ} {c k : Color} {s : Side} {v w i : ℕ}

/-- What the cell of a parent shows of its child and of the sibling. -/
theorem At.cell_sides (h : At m₀ S m child (⟨s,c,v,t⟩ :: rest)) (ht : t ≠ .null) :
    m.sibling (child.ptr rbtreeNull) v = t.ptr rbtreeNull ∧
      ((m.cell v).right = child.ptr rbtreeNull ↔ s = .right) ∧ ((m.cell v).left = child.ptr rbtreeNull ↔ s = .left) := by
  have hcell := h.cell_top
  have hne := h.toOther.other_ne ht
  simp only [Frame.cell] at hcell hne
  cases s <;> simp [sibling, hcell, Cell.make, hne.symm]

/-- What the cell of the sibling shows. -/
theorem At.cell_other (h : At m₀ S m child (⟨s,c,v,(⟨s,k,w,outerChild⟩ : Frame ℕ).plug inner⟩ :: rest)) :
    m.cell w = Cell.make s v (inner.ptr rbtreeNull) (outerChild.ptr rbtreeNull) k ∧
      (m.cell (inner.ptr rbtreeNull)).color = inner.color ∧
      (m.cell (outerChild.ptr rbtreeNull)).color = outerChild.color := by
  have hinner := at_plug.mp h.toOther
  have hcell := hinner.cell_top
  have houter := hinner.toOther.color_eq
  simp only [Frame.cell, top_cons] at hcell houter
  exact ⟨hcell,hinner.color_eq,houter⟩

/-- The sibling goes above the parent, and its outer child becomes black. -/
theorem deleteFixupRotate_spec
    (h : At m₀ S m child (⟨s,c,v,(⟨s,k,w,outerChild⟩ : Frame ℕ).plug inner⟩ :: rest)) (hred : outerChild.color = .red) :
    ∃ m', m.deleteFixupRotate (child.ptr rbtreeNull) v w = some m' ∧
      At m₀ S m' child (⟨s,.black,v,inner⟩ :: ⟨s,c,w,outerChild.paint .black⟩ :: rest) := by
  have houter : outerChild ≠ .null := fun hnull => by
    rw [hnull] at hred
    cases hred
  have h₁ := (at_plug.mp h.toOther).paintTop c
  have h₂ := at_plug.mp ((at_plug.mpr h₁).paintTop .black)
  have h₃ := h₂.paintOther houter .black
  have h₄ := h₃.rotate.ofOther
  have hcolor : (m.cell v).color = c := by rw [h.cell_top, Frame.cell, Cell.make_color]
  have hback : At m₀ S ((m.setColor w c).setColor v .black) child
      (⟨s,.black,v,(⟨s,c,w,outerChild⟩ : Frame ℕ).plug inner⟩ :: rest) := (at_plug.mpr h₂).ofOther
  obtain ⟨-,hright,-⟩ := hback.cell_sides (plug_ne _ _)
  obtain ⟨hw,-,hout⟩ := hback.cell_other
  rw [hred] at hout
  refine ⟨_,?_,h₄⟩
  simp only [deleteFixupRotate, hcolor, hright]
  cases s with
  | left =>
    have hwr : (((m.setColor w c).setColor v .black).cell w).right = outerChild.ptr rbtreeNull := by rw [hw]; rfl
    simp only [reduceCtorEq, ↓reduceIte, hwr, hout, rbtreeRotateLeft]
  | right =>
    have hwl : (((m.setColor w c).setColor v .black).cell w).left = outerChild.ptr rbtreeNull := by rw [hw]; rfl
    simp only [↓reduceIte, hwl, hout, rbtreeRotateRight]

/-- A sibling with a red outer child stays. -/
theorem deleteFixupNephew_outer
    (h : At m₀ S m child (⟨s,c,v,(⟨s,k,w,outerChild⟩ : Frame ℕ).plug inner⟩ :: rest)) (hred : outerChild.color = .red) :
    m.deleteFixupNephew (child.ptr rbtreeNull) v w = (m,w) := by
  obtain ⟨-,hright,hleft⟩ := h.cell_sides (plug_ne _ _)
  obtain ⟨hw,-,hout⟩ := h.cell_other
  rw [hred] at hout
  cases s <;> simp [deleteFixupNephew, hright, hleft, hw, Cell.make, hout]

/-- A sibling with a red inner child only goes below that. -/
theorem deleteFixupNephew_inner
    (h : At m₀ S m child (⟨s,c,v,(⟨s,.black,w,outerChild⟩ : Frame ℕ).plug ((⟨s.other,.red,i,x⟩ : Frame ℕ).plug z)⟩ :: rest))
    (hblack : outerChild.color = .black) :
    ∃ m', m.deleteFixupNephew (child.ptr rbtreeNull) v w = (m',i) ∧
      At m₀ S m' child (⟨s,c,v,(⟨s,.black,i,(⟨s,.red,w,outerChild⟩ : Frame ℕ).plug z⟩ : Frame ℕ).plug x⟩ :: rest) := by
  obtain ⟨-,hright,hleft⟩ := h.cell_sides (plug_ne _ _)
  obtain ⟨hw,hin,hout⟩ := h.cell_other
  rw [hblack] at hout
  have h₁ := (at_plug.mp h.toOther).paintTop .red
  have h₂ := (at_plug.mp h₁).paintTop .black
  have h₃ := At.rotate (s := s.other) (c := .red) (p := ⟨s.other,c,v,child⟩ :: rest) (by simpa using h₂)
  have h₄ := (at_plug.mpr ((at_plug.mpr h₃).ofOther)).ofOther
  rw [Side.other_other] at h₄
  have hsib := (h₄.cell_sides (plug_ne _ _)).1
  have hwcell := h₁.cell_top
  simp only [Frame.cell, top_cons, ptr_plug] at hw hin hwcell hsib
  refine ⟨_,?_,h₄⟩
  cases s with
  | left =>
    have hwl : ((m.setColor w .red).cell w).left = i := by rw [hwcell]; rfl
    have hwl' : (m.cell w).left = i := by rw [hw]; rfl
    have hwr : (m.cell w).right = outerChild.ptr rbtreeNull := by rw [hw]; rfl
    have hwc : (m.cell w).color = .black := by rw [hw]; rfl
    rw [deleteFixupNephew, if_neg (fun hboth => absurd (hright.mp hboth.1) (by decide)),
      if_pos ⟨hleft.mpr rfl,hwc,by rw [hwl', hin]; rfl,by rw [hwr, hout]⟩]
    simp only [hwl]
    exact congrArg (Prod.mk _) hsib
  | right =>
    have hwr : ((m.setColor w .red).cell w).right = i := by rw [hwcell]; rfl
    have hwr' : (m.cell w).right = i := by rw [hw]; rfl
    have hwl : (m.cell w).left = outerChild.ptr rbtreeNull := by rw [hw]; rfl
    have hwc : (m.cell w).color = .black := by rw [hw]; rfl
    rw [deleteFixupNephew, if_pos ⟨hright.mpr rfl,hwc,by rw [hwr', hin]; rfl,by rw [hwl, hout]⟩]
    simp only [hwr]
    exact congrArg (Prod.mk _) hsib

/-- A black sibling, seen from the side of the child. -/
theorem black_sibling {o : Tree ℕ} {n : ℕ} (s : Side) (ho : Balanced o .black (n + 1)) :
    ∃ w inner outerChild c₁ c₂, o = (⟨s,.black,w,outerChild⟩ : Frame ℕ).plug inner ∧ Balanced inner c₁ n ∧
      Balanced outerChild c₂ n := by
  obtain ⟨l,w,r,c₁,c₂,rfl,hl,hr⟩ := ho.black_succ
  cases s with
  | left => exact ⟨w,l,r,c₁,c₂,rfl,hl,hr⟩
  | right => exact ⟨w,r,l,c₂,c₁,rfl,hr,hl⟩

/-- A red nephew next to the child. -/
theorem red_nephew {t : Tree ℕ} {n : ℕ} (s : Side) (ht : Balanced t .red n) :
    ∃ i x z, t = (⟨s,.red,i,x⟩ : Frame ℕ).plug z := by
  obtain ⟨l,i,r,rfl,-,-⟩ := ht.red_node
  cases s with
  | left => exact ⟨i,r,l,rfl⟩
  | right => exact ⟨i,l,r,rfl⟩

/-- Both nephews are black, as the code reads them. -/
theorem At.nephews (h : At m₀ S m child (⟨s,c,v,(⟨s,k,w,outerChild⟩ : Frame ℕ).plug inner⟩ :: rest)) :
    (m.cell w).color = k ∧ ((m.cell (m.cell w).left).color = .black ∧ (m.cell (m.cell w).right).color = .black ↔
      inner.color = .black ∧ outerChild.color = .black) := by
  obtain ⟨hw,hin,hout⟩ := h.cell_other
  cases s with
  | left => simp [hw, Cell.make, hin, hout]
  | right => simp [hw, Cell.make, hin, hout, and_comm]

/-- What is short of a black node gets it from a red parent, or from a rotation. -/
theorem deleteFixupFinish_spec {o : Tree ℕ} {n : ℕ} (h : At m₀ S m child (⟨s,c,v,o⟩ :: rest)) (ho : Balanced o .black (n + 1))
    (hred : c = .black → ¬(o.leftColor = .black ∧ o.rightColor = .black)) :
    ∃ m' t, m.deleteFixupFinish (child.ptr rbtreeNull) v (o.ptr rbtreeNull) = some m' ∧
      LogStats.rbtreeDeleteFinish child ⟨s,c,v,o⟩ rest = some t ∧ At m₀ S m' t [] := by
  obtain ⟨w,inner,outerChild,c₁,c₂,rfl,hin,hout⟩ := black_sibling s ho
  have hw : w ≠ rbtreeNull := (at_plug.mp h.toOther).top_ne
  have hcolor : (m.cell v).color = c := by rw [h.cell_top, Frame.cell, Cell.make_color]
  obtain ⟨hwc,hkids⟩ := h.nephews
  rw [hin.color_eq, hout.color_eq] at hkids
  have hinc := hin.color_eq
  have houtc := hout.color_eq
  rw [deleteFixupFinish, ptr_plug, hcolor, hwc]
  cases c₂ with
  | red =>
    -- the outer nephew is red: it becomes the black node that was missing
    obtain ⟨m',hrun,h'⟩ := deleteFixupRotate_spec h houtc
    refine ⟨m',zip child (⟨s,.black,v,inner⟩ :: ⟨s,c,w,outerChild.paint .black⟩ :: rest),?_,?_,at_zip.mpr h'⟩
    · have hnot : ¬((m.cell (m.cell w).left).color = .black ∧ (m.cell (m.cell w).right).color = .black) :=
        fun hall => by simpa using (hkids.mp hall).2
      rw [if_neg (fun hall => hnot hall.2.2), if_neg hw, deleteFixupNephew_outer h houtc]
      exact hrun
    · cases s <;> simp [Frame.plug, rbtreeDeleteFinish, houtc, LogStats.rbtreeRotateLeft, LogStats.rbtreeRotateRight]
  | black =>
    cases c₁ with
    | red =>
      -- only the inner nephew is red: it goes above the sibling first
      obtain ⟨i,x,z,rfl⟩ := red_nephew s.other hin
      obtain ⟨m₁,hrun₁,h₁⟩ := deleteFixupNephew_inner h houtc
      have hcolor₁ : ((⟨s,.red,w,outerChild⟩ : Frame ℕ).plug z).color = .red := by cases s <;> rfl
      obtain ⟨m',hrun,h'⟩ := deleteFixupRotate_spec h₁ hcolor₁
      refine ⟨m',zip child (⟨s,.black,v,x⟩ :: ⟨s,c,i,((⟨s,.red,w,outerChild⟩ : Frame ℕ).plug z).paint .black⟩ :: rest),?_,?_,at_zip.mpr h'⟩
      · have hnot : ¬((m.cell (m.cell w).left).color = .black ∧ (m.cell (m.cell w).right).color = .black) :=
          fun hall => by simpa using (hkids.mp hall).1
        rw [if_neg (fun hall => hnot hall.2.2), if_neg hw, hrun₁]
        exact hrun
      · cases s <;> simp [Frame.plug, rbtreeDeleteFinish, houtc, LogStats.rbtreeRotateLeft, LogStats.rbtreeRotateRight]
    | black =>
      -- both are black, so that the parent is red
      have hc : c = .red := by
        cases c with
        | red => rfl
        | black => exact absurd (by cases s <;> exact ⟨by assumption,by assumption⟩) (hred rfl)
      subst hc
      have h₁ := (at_plug.mpr ((at_plug.mp h.toOther).paintTop .red)).ofOther.paintTop .black
      refine ⟨_,_,?_,?_,at_zip.mpr h₁⟩
      · rw [if_pos ⟨rfl,rfl,hkids.mpr ⟨rfl,rfl⟩⟩, if_pos hw]
      · cases s <;> simp [Frame.plug, rbtreeDeleteFinish, hinc, houtc]

/-- A red sibling, seen from the side of the child. -/
theorem red_sibling {o : Tree ℕ} {n : ℕ} (s : Side) (ho : Balanced o .red n) :
    ∃ w inner outerChild, o = (⟨s,.red,w,outerChild⟩ : Frame ℕ).plug inner ∧ Balanced inner .black n ∧
      Balanced outerChild .black n := by
  obtain ⟨l,w,r,rfl,hl,hr⟩ := ho.red_node
  cases s with
  | left => exact ⟨w,l,r,rfl,hl,hr⟩
  | right => exact ⟨w,r,l,rfl,hr,hl⟩

/-- The rotation is towards the side of the child. -/
theorem At.rotateAt_eq (h : At m₀ S m child (⟨s,c,v,t⟩ :: rest)) (ht : t ≠ .null) :
    m.rotateAt (child.ptr rbtreeNull) v = m.rotate s v := by
  obtain ⟨-,hright,-⟩ := h.cell_sides ht
  cases s <;> simp [rotateAt, hright, rbtreeRotateLeft, rbtreeRotateRight]

/-- The loop ends at a black sibling, unless it and all around it are black. -/
theorem deleteFixup_exit (h : At m₀ S m child (⟨s,c,v,(⟨s,.black,w,outerChild⟩ : Frame ℕ).plug inner⟩ :: rest))
    (hne : c = .black → ¬(inner.color = .black ∧ outerChild.color = .black)) (fuel : ℕ) :
    m.rbtreeDeleteFixup (fuel + 1) (child.ptr rbtreeNull) v = m.deleteFixupFinish (child.ptr rbtreeNull) v w := by
  have hsib := (h.cell_sides (plug_ne _ _)).1
  have hcolor : (m.cell v).color = c := by rw [h.cell_top, Frame.cell, Cell.make_color]
  obtain ⟨hwc,hkids⟩ := h.nephews
  rw [ptr_plug] at hsib
  have hstay : ¬((m.cell v).color = .black ∧ (m.cell w).color = .black ∧ (m.cell (m.cell w).left).color = .black ∧
      (m.cell (m.cell w).right).color = .black) := fun hall => hne (hcolor.symm.trans hall.1) (hkids.mp hall.2.2)
  have hwred : (m.cell w).color ≠ .red := by
    rw [hwc]
    decide
  simp only [rbtreeDeleteFixup, deleteFixupLoop, hsib, if_neg h.top_ne, if_neg hwred, if_neg hstay]

/-- A red sibling goes above the parent, and the loop ends at the new one. -/
theorem deleteFixup_red (h : At m₀ S m child (⟨s,.black,v,(⟨s,.red,w,outerChild⟩ : Frame ℕ).plug inner⟩ :: rest))
    (hin : inner ≠ .null) (fuel : ℕ) :
    ∃ m', m.rbtreeDeleteFixup (fuel + 1) (child.ptr rbtreeNull) v =
        m'.deleteFixupFinish (child.ptr rbtreeNull) v (inner.ptr rbtreeNull) ∧
      At m₀ S m' child (⟨s,.red,v,inner⟩ :: ⟨s,.black,w,outerChild⟩ :: rest) := by
  have hsib := (h.cell_sides (plug_ne _ _)).1
  have hwc := h.nephews.1
  have h₁ := h.paintTop .red
  have h₂ := (at_plug.mp h₁.toOther).paintTop .black
  have hrot := (at_plug.mpr h₂).ofOther.rotateAt_eq (plug_ne _ _)
  have h₃ := h₂.rotate.ofOther
  have hsib₃ := (h₃.cell_sides hin).1
  have hcolor₃ : ((rotate s ((m.setColor v .red).setColor w .black) v).cell v).color = .red := by
    rw [h₃.cell_top, Frame.cell, Cell.make_color]
  rw [ptr_plug] at hsib
  refine ⟨_,?_,h₃⟩
  simp only [rbtreeDeleteFixup, deleteFixupLoop, hsib, if_neg h.top_ne, hwc, ↓reduceIte, hrot, hsib₃, hcolor₃,
    reduceCtorEq, false_and]

/-- Where all is black the sibling becomes red, and the loop goes on at the parent. -/
theorem deleteFixup_up (h : At m₀ S m child (⟨s,.black,v,(⟨s,.black,w,outerChild⟩ : Frame ℕ).plug inner⟩ :: rest))
    (hin : inner.color = .black) (hout : outerChild.color = .black) (fuel : ℕ) :
    ∃ m', m.rbtreeDeleteFixup (fuel + 1) (child.ptr rbtreeNull) v = m'.rbtreeDeleteFixup fuel v (top rbtreeNull rest) ∧
      At m₀ S m' ((⟨s,.black,v,(⟨s,.red,w,outerChild⟩ : Frame ℕ).plug inner⟩ : Frame ℕ).plug child) rest := by
  have hsib := (h.cell_sides (plug_ne _ _)).1
  have hcolor : (m.cell v).color = .black := by rw [h.cell_top, Frame.cell, Cell.make_color]
  have hw : w ≠ rbtreeNull := (at_plug.mp h.toOther).top_ne
  obtain ⟨hwc,hkids⟩ := h.nephews
  have hblack := hkids.mpr ⟨hin,hout⟩
  have h₁ := (at_plug.mpr ((at_plug.mp h.toOther).paintTop .red)).ofOther
  have hparent : ((m.setColor w .red).cell v).parent = top rbtreeNull rest := by
    rw [h₁.cell_top, Frame.cell, Cell.make_parent]
  rw [ptr_plug] at hsib
  refine ⟨m.setColor w .red,?_,at_plug.mpr h₁⟩
  simp only [rbtreeDeleteFixup, deleteFixupLoop, hsib, if_neg h.top_ne, hwc, reduceCtorEq, ↓reduceIte, hcolor, hblack,
    and_self, hw, ne_eq, not_false_eq_true, hparent]

/-- The fix-up does to the nodes what the one on trees does to the path. -/
theorem rbtreeDeleteFixup_spec {n fuel : ℕ} {path : Path ℕ} (h : At m₀ S m child path) (hchild : Balanced child .black n)
    (hfit : HoleFits path .black (n + 1)) (hfuel : path.length < fuel) :
    ∃ m' t, m.rbtreeDeleteFixup fuel (child.ptr rbtreeNull) (top rbtreeNull path) = some m' ∧
      LogStats.rbtreeDeleteFixup child path = some t ∧ At m₀ S m' t [] := by
  obtain ⟨fuel,rfl⟩ : ∃ k, fuel = k + 1 := ⟨fuel - 1,by omega⟩
  induction path generalizing m child n fuel with
  | nil => exact ⟨m,child,by simp [rbtreeDeleteFixup, deleteFixupLoop],rfl,h⟩
  | cons p rest ih =>
    have hrest := hfit.tail
    rw [top_cons]
    cases hfit with
    | @red s v o _ _ ho _ =>
      obtain ⟨w,inner,outerChild,c₁,c₂,rfl,-,-⟩ := black_sibling s ho
      obtain ⟨m',t,hrun,ht,h'⟩ := deleteFixupFinish_spec h ho (fun h => nomatch h)
      rw [ptr_plug] at hrun
      refine ⟨m',t,(deleteFixup_exit h (fun h => nomatch h) fuel).trans hrun,?_,h'⟩
      rw [← ht]
      cases s <;> simp [LogStats.rbtreeDeleteFixup, Frame.plug]
    | @black s v o _ _ c' _ ho _ =>
      cases c' with
      | red =>
        obtain ⟨w,inner,outerChild,rfl,hin,hout⟩ := red_sibling s ho
        have hne : inner ≠ .null := fun hnull => by
          rw [hnull] at hin
          cases hin
        obtain ⟨m₁,hrun₁,h₁⟩ := deleteFixup_red h hne fuel
        obtain ⟨m',t,hrun,ht,h'⟩ := deleteFixupFinish_spec h₁ hin (fun h => nomatch h)
        refine ⟨m',t,hrun₁.trans hrun,?_,h'⟩
        rw [← ht]
        cases s <;> rfl
      | black =>
        obtain ⟨w,inner,outerChild,c₁,c₂,rfl,hin,hout⟩ := black_sibling s ho
        by_cases hkids : inner.color = .black ∧ outerChild.color = .black
        · obtain ⟨m₁,hrun₁,h₁⟩ := deleteFixup_up h hkids.1 hkids.2 fuel
          have hsub : Balanced ((⟨s,.black,v,(⟨s,.red,w,outerChild⟩ : Frame ℕ).plug inner⟩ : Frame ℕ).plug child) .black (n + 1) := by
            obtain rfl : c₁ = .black := hin.color_eq.symm.trans hkids.1
            obtain rfl : c₂ = .black := hout.color_eq.symm.trans hkids.2
            have hsib : Balanced ((⟨s,.red,w,outerChild⟩ : Frame ℕ).plug inner) .red n := by
              cases s with
              | left => exact .red hin hout
              | right => exact .red hout hin
            exact Balanced.plug_black rfl hchild hsib
          obtain ⟨fuel,rfl⟩ : ∃ k, fuel = k + 1 := ⟨fuel - 1,by simp at hfuel; omega⟩
          obtain ⟨m',t,hrun,ht,h'⟩ := ih h₁ hsub hrest fuel (by simp at hfuel; omega)
          rw [ptr_plug] at hrun
          refine ⟨m',t,hrun₁.trans hrun,?_,h'⟩
          rw [← ht]
          cases s <;> simp [LogStats.rbtreeDeleteFixup, Frame.plug, hkids]
        · have hstay : ((⟨s,.black,w,outerChild⟩ : Frame ℕ).plug inner).leftColor = .black ∧
              ((⟨s,.black,w,outerChild⟩ : Frame ℕ).plug inner).rightColor = .black ↔
                inner.color = .black ∧ outerChild.color = .black := by
            cases s
            · exact Iff.rfl
            · exact and_comm
          obtain ⟨m',t,hrun,ht,h'⟩ := deleteFixupFinish_spec h ho (fun _ hboth => hkids (hstay.mp hboth))
          rw [ptr_plug] at hrun
          refine ⟨m',t,(deleteFixup_exit h (fun _ => hkids) fuel).trans hrun,?_,h'⟩
          rw [← ht]
          cases s with
          | left => exact if_neg fun hall => hkids (hstay.mp hall.2)
          | right => exact if_neg fun hall => hkids (hstay.mp hall.2)

/-! ## Unlinking -/

/-- The only child of the node takes its place. -/
theorem relink_spec {u : Tree ℕ} (hv : TreeAt m.cell rbtreeNull v u) (hp : PathAt m.cell rbtreeNull m.root v p)
    (hnd : (v :: (u.toList ++ outer p)).Nodup) (hnull : rbtreeNull ∉ v :: (u.toList ++ outer p))
    (hcell : m.cell rbtreeNull = ⟨rbtreeNull,rbtreeNull,rbtreeNull,.black⟩) (hsub : ∀ a ∈ u.toList ++ outer p, a ∈ S)
    (hkept : Kept m₀ S m) :
    ∃ m₁ m₂, m.changeParentPtr (top rbtreeNull p) v (u.ptr rbtreeNull) = some m₁ ∧ m₁.cell v = m.cell v ∧
      m₁.changeChildPtr (u.ptr rbtreeNull) v (top rbtreeNull p) = some m₂ ∧ m₂.cell v = m.cell v ∧ At m₀ S m₂ u p := by
  have hnd' := hnd
  have hnull' := hnull
  simp only [List.nodup_cons, List.mem_append, not_or, List.nodup_append] at hnd'
  simp only [List.mem_cons, List.mem_append, not_or] at hnull'
  obtain ⟨⟨hvu,hvp⟩,hu,hpp,hup⟩ := hnd'
  obtain ⟨hnv,hnu,hnp⟩ := hnull'
  -- the pointer in the parent
  obtain ⟨m₁,hrun₁,hp₁,hcell₁,hkept₁⟩ : ∃ m₁, m.changeParentPtr (top rbtreeNull p) v (u.ptr rbtreeNull) = some m₁ ∧
      PathAt m₁.cell rbtreeNull m₁.root (u.ptr rbtreeNull) p ∧ (∀ a ∉ outer p, m₁.cell a = m.cell a) ∧ Kept m₀ S m₁ := by
    cases p with
    | nil => exact ⟨_,changeParentPtr_root hp,rfl,fun _ _ => rfl,hkept.setRoot _⟩
    | cons f q =>
      obtain ⟨k,c,a,o⟩ := f
      have ha : a ≠ rbtreeNull := fun heq => hnp (heq ▸ List.mem_cons_self)
      have hcella : m.cell a = Cell.make k (top rbtreeNull q) v (o.ptr rbtreeNull) c := hp.1
      have hother : o.ptr rbtreeNull ≠ v := (Tree.ne_ptr (fun hin => hvp (by simp [hin])) (Ne.symm hnv)).symm
      have hreplace : replaceChild (m.cell a) v (u.ptr rbtreeNull) =
          Cell.make k (top rbtreeNull q) (u.ptr rbtreeNull) (o.ptr rbtreeNull) c := by
        rw [hcella]
        cases k <;> simp [replaceChild, Cell.make, hother]
      have hchild : (m.cell a).left = v ∨ (m.cell a).right = v := by
        rw [hcella]
        cases k
        · exact Or.inl rfl
        · exact Or.inr rfl
      refine ⟨_,changeParentPtr_eq ha hchild,hp.repoint hpp (cell_write_self.trans hreplace) fun b _ hb => cell_write_of_ne hb,
        fun b hb => cell_write_of_ne fun heq => hb (heq ▸ List.mem_cons_self),hkept.write (hsub a (by simp)) _⟩
  have hin : ∀ b ∈ u.toList, b ∉ outer p := fun b hb hout => hup b hb b hout rfl
  have hu₁ : TreeAt m₁.cell rbtreeNull v u := hv.congr fun b hb => hcell₁ b (hin b hb)
  -- the pointer in the child
  obtain ⟨m₂,hrun₂,htree₂,hcell₂,hroot₂,hkept₂⟩ : ∃ m₂, m₁.changeChildPtr (u.ptr rbtreeNull) v (top rbtreeNull p) = some m₂ ∧
      TreeAt m₂.cell rbtreeNull (top rbtreeNull p) u ∧ (∀ a ∉ u.toList, m₂.cell a = m₁.cell a) ∧ m₂.root = m₁.root ∧
      Kept m₀ S m₂ := by
    cases u with
    | null => exact ⟨m₁,changeChildPtr_null,trivial,fun _ _ => rfl,rfl,hkept₁⟩
    | node c l a r =>
      have ha : a ≠ rbtreeNull := fun heq => hnu (by simp [heq])
      refine ⟨_,changeChildPtr_eq ha (Or.inl (by rw [Tree.ptr_node, hu₁.1])),
        hu₁.reparent hu (fun _ => cell_write_self) (fun b _ hb => cell_write_of_ne hb),?_,rfl,hkept₁.write (hsub a (by simp)) _⟩
      intro b hb
      apply cell_write_of_ne
      rintro rfl
      simp at hb
  refine ⟨m₁,m₂,hrun₁,hcell₁ v hvp,hrun₂,(hcell₂ v hvu).trans (hcell₁ v hvp),⟨htree₂,?_,hnd.of_cons,?_,?_⟩,hkept₂,hsub⟩
  · rw [hroot₂]
    exact hp₁.congr fun b hb => hcell₂ b fun hin' => hin b hin' hb
  · exact fun hmem => hnull (List.mem_cons_of_mem _ hmem)
  · rw [hcell₂ _ hnu, hcell₁ _ hnp, hcell]

/-- A node with one child at most goes out of the tree. -/
theorem unlinkNode_spec {n fuel : ℕ} (h : At m₀ S m (.node c l v r) p) (hone : l = .null ∨ r = .null)
    (hbal : Balanced (.node c l v r) c n) (hfit : HoleFits p c n) (hfuel : p.length < fuel) :
    ∃ m' t, m.unlinkNode fuel v = some m' ∧ LogStats.rbtreeUnlink c l r p = some t ∧ At m₀ S m' t [] := by
  have hvcell : m.cell v = ⟨top rbtreeNull p,l.ptr rbtreeNull,r.ptr rbtreeNull,c⟩ := h.tree.1
  obtain ⟨u,hu⟩ : ∃ u, (if l.isNull then r else l) = u := ⟨_,rfl⟩
  have hptr : (if l.ptr rbtreeNull ≠ rbtreeNull then l.ptr rbtreeNull else r.ptr rbtreeNull) = u.ptr rbtreeNull := by
    rw [← hu]
    cases l with
    | null => simp [Tree.isNull]
    | node k x a y =>
      have ha : a ≠ rbtreeNull := fun heq => h.null_notMem (by simp [heq])
      simp [Tree.isNull, ha]
  have hperm : (v :: (u.toList ++ outer p)).Perm ((Tree.node c l v r).toList ++ outer p) := by
    rw [← hu]
    rcases hone with rfl | rfl
    · simp [Tree.isNull]
    · cases l with
      | null => simp [Tree.isNull]
      | node k x a y =>
        have hmid : ((Tree.node k x a y).toList ++ v :: outer p).Perm (v :: ((Tree.node k x a y).toList ++ outer p)) :=
          List.perm_middle
        simpa [Tree.isNull] using hmid.symm
  have hvu : TreeAt m.cell rbtreeNull v u := by
    rw [← hu]
    split
    · exact h.tree.2.2
    · exact h.tree.2.1
  have hnullside : l.ptr rbtreeNull = rbtreeNull ∨ r.ptr rbtreeNull = rbtreeNull := by
    rcases hone with rfl | rfl
    · exact Or.inl rfl
    · exact Or.inr rfl
  obtain ⟨m₁,m₂,hrun₁,hcell₁,hrun₂,hcell₂,h₂⟩ := relink_spec hvu h.path (hperm.nodup_iff.mpr h.nodup)
    (fun hin => h.null_notMem (hperm.mem_iff.mp hin)) h.null_cell
    (fun a ha => h.sub a (hperm.mem_iff.mp (List.mem_cons_of_mem _ ha))) h.toKept
  have hparent : (m.cell v).parent = top rbtreeNull p := by rw [hvcell]
  have hparent₁ : (m₁.cell v).parent = top rbtreeNull p := by rw [hcell₁, hparent]
  have hparent₂ : (m₂.cell v).parent = top rbtreeNull p := by rw [hcell₂, hparent]
  have hcolor₂ : (m₂.cell v).color = c := by rw [hcell₂, hvcell]
  have hrun : m.unlinkNode fuel v = if c = .red then some m₂
      else if u.color = .red then some (if u.ptr rbtreeNull ≠ rbtreeNull then m₂.setColor (u.ptr rbtreeNull) .black else m₂)
      else m₂.rbtreeDeleteFixup fuel (u.ptr rbtreeNull) (top rbtreeNull p) := by
    have hleft : (m.cell v).left = l.ptr rbtreeNull := by rw [hvcell]
    have hright : (m.cell v).right = r.ptr rbtreeNull := by rw [hvcell]
    simp only [unlinkNode, hleft, hright, if_pos hnullside, hptr, hparent, hrun₁, hparent₁, hrun₂, Option.bind_eq_bind,
      Option.bind_some, hcolor₂, h₂.color_eq, hparent₂]
  rw [hrun, LogStats.rbtreeUnlink, hu]
  by_cases hc : c = .red
  · exact ⟨m₂,zip u p,if_pos hc,if_pos hc,at_zip.mpr h₂⟩
  · rw [if_neg hc, if_neg hc]
    by_cases hred : u.color = .red
    · cases u with
      | null => cases hred
      | node k x a y =>
        have ha : a ≠ rbtreeNull := h₂.ptr_ne
        exact ⟨_,_,by rw [if_pos hred, Tree.ptr_node, if_pos ha],if_pos hred,at_zip.mpr (h₂.paint .black)⟩
    · rw [if_neg hred, if_neg hred]
      cases hbal with
      | red hl hr => exact absurd rfl hc
      | @black _ _ _ c₁ c₂ n hl hr =>
        have hbu : ∃ k, Balanced u k n := by
          rw [← hu]
          split
          · exact ⟨_,hr⟩
          · exact ⟨_,hl⟩
        obtain ⟨k,hbu⟩ := hbu
        cases k with
        | red => exact absurd hbu.color_eq hred
        | black => exact rbtreeDeleteFixup_spec h₂ hbu hfit hfuel

end Fixup

/-! ## Search -/

section Search
variable {cmp : V → V → ℤ} {key : V} {t l r : Tree ℕ} {p path : Path ℕ} {c : Color} {v w fuel : ℕ}

theorem findLessEqualWalk_spec (h : At m₀ S m t p) (hfuel : t.toList.length < fuel) (result : Option ℕ) :
    m.findLessEqualWalk cmp key fuel (t.ptr rbtreeNull) result =
      some (LogStats.rbtreeFindLessEqual (fun a => cmp key (m.node a).value) t result) := by
  induction t generalizing p fuel result with
  | null =>
    obtain ⟨fuel,rfl⟩ : ∃ n, fuel = n + 1 := ⟨fuel - 1,by omega⟩
    simp [findLessEqualWalk, LogStats.rbtreeFindLessEqual]
  | node c l a r ihl ihr =>
    obtain ⟨fuel,rfl⟩ : ∃ n, fuel = n + 1 := ⟨fuel - 1,by omega⟩
    have ha : a ≠ rbtreeNull := h.ptr_ne
    have hcell : m.cell a = ⟨top rbtreeNull p,l.ptr rbtreeNull,r.ptr rbtreeNull,c⟩ := h.tree.1
    simp only [Tree.toList_node, List.length_append, List.length_cons] at hfuel
    have hl := ihl (at_plug.mp h : At m₀ S m l (⟨.left,c,a,r⟩ :: p)) (by omega : l.toList.length < fuel) result
    have hr := ihr (at_plug.mp h : At m₀ S m r (⟨.right,c,a,l⟩ :: p)) (by omega : r.toList.length < fuel) (some a)
    simp only [findLessEqualWalk, Tree.ptr_node, if_pos ha, hcell, hl, hr, LogStats.rbtreeFindLessEqual]
    split
    · rfl
    · split
      · rfl
      · rfl

/-- The search in memory is the one in the tree. -/
theorem rbtreeSearch_spec (h : m.Valid cmp t) (hfuel : m.count < fuel) :
    m.rbtreeSearch cmp fuel key = some (LogStats.rbtreeSearch (fun a => cmp key (m.node a).value) ⟨t,m.count⟩) := by
  have hroot : t.ptr rbtreeNull = m.root := h.linked.path.symm
  have hlength : t.toList.length < fuel := by
    rw [← h.count_eq]
    exact hfuel
  have hwalk : m.findLessEqualWalk cmp key fuel (t.ptr rbtreeNull) none =
      some (LogStats.rbtreeFindLessEqual (fun a => cmp key (m.node a).value) t none) :=
    findLessEqualWalk_spec h.start hlength none
  rw [hroot] at hwalk
  rw [rbtreeSearch, rbtreeFindLessEqual, hwalk, LogStats.rbtreeSearch, Option.map_some]
  cases LogStats.rbtreeFindLessEqual (fun a => cmp key (m.node a).value) t none with
  | mk found result => cases found <;> rfl

theorem smallestWalk_spec (h : At m₀ S m (.node c l w r) p) (hfuel : l.toList.length < fuel) (q : Path ℕ) :
    m.smallestWalk fuel w = some (rbtreeSmallest c l w r q).2.1 := by
  induction l generalizing c w r p fuel q with
  | null =>
    obtain ⟨fuel,rfl⟩ : ∃ n, fuel = n + 1 := ⟨fuel - 1,by omega⟩
    have hleft : (m.cell w).left = rbtreeNull := by rw [h.tree.1]; rfl
    simp [smallestWalk, hleft, rbtreeSmallest]
  | node k x a y ihx _ =>
    obtain ⟨fuel,rfl⟩ : ∃ n, fuel = n + 1 := ⟨fuel - 1,by omega⟩
    have hl : At m₀ S m (.node k x a y) (⟨.left,c,w,r⟩ :: p) := at_plug.mp h
    have hleft : (m.cell w).left = a := by rw [h.tree.1]; rfl
    simp only [Tree.toList_node, List.length_append, List.length_cons] at hfuel
    rw [smallestWalk, hleft, if_pos hl.ptr_ne]
    exact ihx hl (by omega) _

/-- The swap where it is needed, and the node out of the tree. -/
theorem deleteNode_spec {n : ℕ} (h : At m₀ S m (.node c l v r) path) (hbal : Balanced (.node c l v r) c n)
    (hfit : HoleFits path c n) (hfuel : ((Tree.node c l v r).toList ++ outer path).length < fuel) :
    ∃ m' root, ((if (m.cell v).left ≠ rbtreeNull ∧ (m.cell v).right ≠ rbtreeNull then
          (m.smallestWalk fuel (m.cell v).right).bind (m.swapNodes v)
        else some m).bind fun m => m.unlinkNode fuel v) = some m' ∧ At m₀ S m' root [] ∧
      ∀ (f : ℕ → ℤ) (t₀ : RbTree ℕ), locate f t₀.root [] = (.node c l v r,path) →
        LogStats.rbtreeDelete f t₀ = some (⟨root,t₀.count - 1⟩,some v) := by
  have hcell : m.cell v = ⟨top rbtreeNull path,l.ptr rbtreeNull,r.ptr rbtreeNull,c⟩ := h.tree.1
  have hplen := length_le_outer path
  simp only [Tree.toList_node, List.length_append, List.length_cons] at hfuel
  by_cases hone : l = .null ∨ r = .null
  · have hstay : ¬((m.cell v).left ≠ rbtreeNull ∧ (m.cell v).right ≠ rbtreeNull) := by
      rw [hcell]
      rcases hone with rfl | rfl
      · exact fun hboth => hboth.1 rfl
      · exact fun hboth => hboth.2 rfl
    obtain ⟨m',root,hrun,hroot,hat⟩ := unlinkNode_spec h hone hbal hfit (by omega : path.length < fuel)
    refine ⟨m',root,by rw [if_neg hstay]; exact hrun,hat,fun f t₀ hloc => ?_⟩
    rcases hone with rfl | rfl
    · simp [LogStats.rbtreeDelete, hloc, hroot]
    · cases l <;> simp [LogStats.rbtreeDelete, hloc, hroot]
  · rw [not_or] at hone
    cases l with
    | null => exact absurd rfl hone.1
    | node lc ll lv lr =>
      cases r with
      | null => exact absurd rfl hone.2
      | node rc rl rv rr =>
        have hright : At m₀ S m (.node rc rl rv rr) (⟨.right,c,v,.node lc ll lv lr⟩ :: path) := at_plug.mp h
        have hleft : At m₀ S m (.node lc ll lv lr) (⟨.left,c,v,.node rc rl rv rr⟩ :: path) := at_plug.mp h
        have hboth : (m.cell v).left ≠ rbtreeNull ∧ (m.cell v).right ≠ rbtreeNull := by
          rw [hcell]
          exact ⟨hleft.ptr_ne,hright.ptr_ne⟩
        obtain ⟨c₁,n₁,hr,hfit₁⟩ := hfit.right hbal
        obtain rfl : rc = c₁ := hr.color_eq
        obtain ⟨c',v',r',inner,n₂,hsm,hnode,hinner,hzip,-⟩ := smallest_spec []
          (⟨.right,c,(rbtreeSmallest rc rl rv rr []).2.1,.node lc ll lv lr⟩ :: path) hr (hfit₁.revalue _)
        rw [hsm] at hinner
        rw [zip_nil] at hzip
        simp only [Tree.toList_node, List.length_append, List.length_cons] at hfuel
        have hwalk := smallestWalk_spec hright (by omega : rl.toList.length < fuel) []
        rw [hsm] at hwalk
        have hcell' : (m.cell v).right = rv := by rw [hcell]; rfl
        have hsmall : At m₀ S m (.node c' .null v' r') (inner ++ ⟨.right,c,v,.node lc ll lv lr⟩ :: path) :=
          at_append.mpr (hzip ▸ hright)
        obtain ⟨m₁,hswap,h₁⟩ := hsmall.swap hone.1
        have hlen : (inner ++ ⟨.right,c,v',.node lc ll lv lr⟩ :: path).length < fuel := by
          have hperm := (perm_zip (.node c' .null v' r') inner).length_eq
          rw [hzip] at hperm
          have hilen := length_le_outer inner
          simp only [Tree.toList_node, Tree.toList_null, List.nil_append, List.length_append, List.length_cons] at hperm ⊢
          omega
        obtain ⟨m',root,hrun,hroot,hat⟩ := unlinkNode_spec h₁ (Or.inl rfl) (hnode.revalue v) hinner hlen
        refine ⟨m',root,?_,hat,fun f t₀ hloc => by simp [LogStats.rbtreeDelete, hloc, hsm, hroot]⟩
        rw [if_pos hboth, hcell', hwalk, Option.bind_some, hswap]
        exact hrun

/-- The node that went out is written last. -/
theorem At.forget (h : At m₀ S m t []) (hout : v ∉ t.toList) (hv : v ≠ rbtreeNull) (hS : v ∈ S) (n : Cell ℕ) :
    At m₀ S (m.write v n) t [] := by
  refine ⟨⟨h.tree.congr fun a ha => cell_write_of_ne fun heq => hout (heq ▸ ha),h.path,h.nodup,h.null_notMem,?_⟩,
    h.toKept.write hS n,h.sub⟩
  rw [cell_write_of_ne hv.symm, h.null_cell]

/-- Deletion leaves everything as it is where no node matches, or takes out the node that
does, in as many turns of each loop as there are nodes and one. -/
theorem rbtreeDelete_correct (hcmp : Comparison cmp) (h : m.Valid cmp t) (hfuel : m.count < fuel) :
    ((∀ a ∈ t.toList, cmp key (m.node a).value ≠ 0) → rbtreeDelete cmp fuel m key = some (m,none)) ∧
    ∀ v ∈ t.toList, cmp key (m.node v).value = 0 →
      ∃ m' t' xs ys, rbtreeDelete cmp fuel m key = some (m',some v) ∧ m'.Valid cmp t' ∧
        t.toList = xs ++ v :: ys ∧ t'.toList = xs ++ ys ∧ m.count = m'.count + 1 ∧
        (∀ a, (m'.node a).value = (m.node a).value) ∧ (∀ a ∉ t.toList, m'.node a = m.node a) ∧
        m'.cell v = ⟨rbtreeNull,rbtreeNull,rbtreeNull,.black⟩ ∧ m'.node rbtreeNull = m.node rbtreeNull := by
  obtain ⟨n,hbal⟩ := h.balanced
  have hcut := hcmp.cut h.ordered key
  have hsearch : m.rbtreeSearch cmp fuel key =
      some (LogStats.rbtreeSearch (fun a => cmp key (m.node a).value) ⟨t,m.count⟩) := rbtreeSearch_spec h hfuel
  refine ⟨fun hne => ?_,fun v hv hzero => ?_⟩
  · rw [(rbtreeSearch_none_iff (t := ⟨t,m.count⟩) hcut).mpr hne] at hsearch
    rw [rbtreeDelete, hsearch]
  · obtain ⟨u,hu⟩ : ∃ u, LogStats.rbtreeSearch (fun a => cmp key (m.node a).value) ⟨t,m.count⟩ = some u := by
      refine Option.ne_none_iff_exists'.mp fun hnone => ?_
      exact (rbtreeSearch_none_iff (t := ⟨t,m.count⟩) hcut).mp hnone v hv hzero
    obtain ⟨hmem,hcmpu⟩ := rbtreeSearch_some hu
    obtain rfl : v = u := h.unique hcmp hv hmem hzero hcmpu
    obtain ⟨xs,ys,t',hdel,hsplit,hlist,hvalid⟩ := rbtreeDelete_present ⟨⟨n,hbal⟩,h.count_eq⟩ (t := ⟨t,m.count⟩) hcut hu
    rw [hu] at hsearch
    rw [rbtreeSearch_eq_locate] at hu
    obtain ⟨c,n',hpos,hfit⟩ := locate_balanced (fun a => cmp key (m.node a).value) hbal HoleFits.root
    have hzip := zip_locate (fun a => cmp key (m.node a).value) t []
    cases hloc : locate (fun a => cmp key (m.node a).value) t [] with
    | mk sub path =>
      rw [hloc] at hu hpos hfit hzip
      cases sub with
      | null => cases hu
      | node k l w r =>
        obtain rfl : w = v := Option.some.inj hu
        obtain rfl : k = c := hpos.color_eq
        rw [zip_nil] at hzip
        have hstart : At { m with count := m.count - 1 } t.toList { m with count := m.count - 1 } t [] :=
          ⟨h.linked,Kept.refl _ _,fun a ha => by simpa using ha⟩
        have hat : At { m with count := m.count - 1 } t.toList { m with count := m.count - 1 } (.node k l w r) path :=
          at_zip.mp (by rw [hzip]; exact hstart)
        have hlen := (perm_zip (.node k l w r) path).length_eq
        rw [hzip, ← h.count_eq] at hlen
        obtain ⟨m',root,hrun,hat',hfun⟩ := deleteNode_spec hat hpos hfit (hlen ▸ hfuel)
        have hsame := hfun (fun a => cmp key (m.node a).value) ⟨t,m.count⟩ hloc
        obtain rfl : t' = ⟨root,m.count - 1⟩ := congrArg Prod.fst (Option.some.inj (hdel.symm.trans hsame))
        change t.toList = xs ++ w :: ys at hsplit
        change root.toList = xs ++ ys at hlist
        have hnd : (xs ++ w :: ys).Nodup := by
          have hnd := h.linked.nodup
          rwa [outer_nil, List.append_nil, hsplit] at hnd
        have hout : w ∉ root.toList := by
          rw [hlist]
          exact (List.nodup_cons.mp (List.nodup_middle.mp hnd)).1
        have hfinal := hat'.forget hout hat.ptr_ne hv ⟨rbtreeNull,rbtreeNull,rbtreeNull,.black⟩
        have hcount : m.count = (m.count - 1) + 1 := by
          have hpos : 0 < t.toList.length := List.length_pos_of_mem hv
          rw [h.count_eq]
          omega
        refine ⟨_,root,xs,ys,?_,⟨hfinal.toPositionAt,hvalid.balanced,?_,?_⟩,hsplit,hlist,?_,hfinal.value_eq,hfinal.outside,
          cell_write_self,hfinal.outside _ fun hin => h.linked.null_notMem (by simpa using hin)⟩
        · rw [rbtreeDelete, hsearch]
          exact congrArg (Option.map _) hrun
        · have hsub : (xs ++ ys).Sublist (xs ++ w :: ys) := List.Sublist.append_left (List.sublist_cons_self w ys) xs
          rw [hlist]
          simp only [hfinal.value_eq]
          exact (hsplit ▸ h.ordered).sublist hsub
        · rw [hfinal.count_eq]
          exact hvalid.count_eq
        · rw [hfinal.count_eq]
          exact hcount

end Search

/-- Three black nodes, the middle one above the others. -/
def threeNodes : RbMemory ℤ where
  node a := match a with
    | 1 => ⟨⟨2,0,0,.black⟩,10⟩
    | 2 => ⟨⟨0,1,3,.black⟩,20⟩
    | 3 => ⟨⟨2,0,0,.black⟩,30⟩
    | _ => ⟨⟨0,0,0,.black⟩,0⟩
  root := 2
  count := 3

theorem threeNodes_valid : threeNodes.Valid (fun x y => x - y)
    (.node .black (.node .black .null 1 .null) 2 (.node .black .null 3 .null)) where
  linked := ⟨⟨rfl,⟨rfl,trivial,trivial⟩,rfl,trivial,trivial⟩,rfl,by decide,by decide,rfl⟩
  balanced := ⟨2,.black (.black .null .null) (.black .null .null)⟩
  ordered := by decide
  count_eq := rfl

/-- The root goes out after a swap with its right child. -/
theorem rbtreeDelete_correct_root : ∃ m' t', rbtreeDelete (fun x y => x - y) 4 threeNodes 20 = some (m',some 2) ∧
    m'.Valid (fun x y => x - y) t' ∧ m'.count = 2 := by
  obtain ⟨m',t',-,-,hrun,hvalid,-,-,hcount,-⟩ :=
    (@rbtreeDelete_correct ℤ threeNodes (fun x y => x - y) 20 _ 4 comparison_sub threeNodes_valid (by decide)).2 2
      (by decide) (by decide)
  exact ⟨m',t',hrun,hvalid,Nat.succ_injective hcount.symm⟩

end RbMemory

end LogStats
