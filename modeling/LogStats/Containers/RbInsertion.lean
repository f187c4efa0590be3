import LogStats.Containers.RbPositions
import Mathlib.Data.List.Pairwise

/-! # Insertion into the nodes of dig_rb_tree.c

The loops of `rbtree_insert` are followed at the position of the current node, where they do
to the pointers what the insertion into a tree of addresses does to its path.
-/
namespace LogStats

namespace RbMemory
variable {V : Type*} {m m₀ : RbMemory V} {S : List ℕ}

section Insertion
variable {t l r x y : Tree ℕ} {p : Path ℕ} {f g : Frame ℕ} {c : Color} {s : Side} {v w : ℕ}

/-- The same node, seen from its other child. -/
theorem plug_other : (⟨s.other,c,v,t⟩ : Frame ℕ).plug x = (⟨s,c,v,x⟩ : Frame ℕ).plug t := by
  cases s <;> rfl

theorem At.toOther (h : At m₀ S m t (⟨s,c,v,x⟩ :: p)) : At m₀ S m x (⟨s.other,c,v,t⟩ :: p) := by
  rw [← at_plug, plug_other]
  exact at_plug.mpr h

theorem At.ofOther (h : At m₀ S m t (⟨s.other,c,v,x⟩ :: p)) : At m₀ S m x (⟨s,c,v,t⟩ :: p) := by
  simpa using h.toOther

theorem At.paintOther (h : At m₀ S m t (⟨s,c,v,x⟩ :: p)) (hx : x ≠ .null) (k : Color) :
    At m₀ S (m.setColor (x.ptr rbtreeNull) k) t (⟨s,c,v,x.paint k⟩ :: p) := by
  cases x with
  | null => exact absurd rfl hx
  | node c' l' v' r' =>
    exact (h.toOther.paint k).ofOther

theorem At.paintRoot (h : At m₀ S m t []) (ht : t ≠ .null) (k : Color) : At m₀ S (m.setColor m.root k) (t.paint k) [] := by
  cases t with
  | null => exact absurd rfl ht
  | node c l v r =>
    have hroot : m.root = v := h.path
    rw [hroot]
    exact h.paint k

/-- What the parent pointers above a node are. -/
theorem At.parent_eq (h : At m₀ S m t p) (ht : t ≠ .null) : (m.cell (t.ptr rbtreeNull)).parent = top rbtreeNull p := by
  cases t with
  | null => exact absurd rfl ht
  | node c l v r => rw [Tree.ptr_node, h.tree.1]

theorem At.cell_grand (h : At m₀ S m t (f :: g :: p)) :
    m.cell g.value = g.cell rbtreeNull (top rbtreeNull p) f.value := (h.path.2.2).1

theorem At.other_ne (h : At m₀ S m t (f :: p)) (ht : t ≠ .null) : f.other.ptr rbtreeNull ≠ t.ptr rbtreeNull := by
  have hmem := Tree.ptr_mem rbtreeNull ht
  intro heq
  by_cases ho : f.other = .null
  · rw [ho, Tree.ptr_null] at heq
    exact h.null_notMem (heq ▸ List.mem_append_left _ hmem)
  · have hin := Tree.ptr_mem rbtreeNull ho
    rw [heq] at hin
    refine (List.nodup_append.mp h.nodup).2.2 _ hmem _ ?_ rfl
    rw [outer_cons, List.mem_cons, List.mem_append]
    exact Or.inr (Or.inl hin)

/-- On which side of its parent a position is. -/
theorem At.child_eq (h : At m₀ S m t (f :: p)) (ht : t ≠ .null) :
    t.ptr rbtreeNull = (m.cell f.value).child s ↔ s = f.side := by
  have hne := h.other_ne ht
  rw [h.cell_top, Frame.cell]
  by_cases hs : s = f.side
  · subst hs
    simp
  · obtain rfl : s = f.side.other := by cases s <;> cases hf : f.side <;> simp_all
    simp [hne.symm]

/-- A black parent ends the loop. -/
theorem insertFixup_exit (h : At m₀ S m t (f :: p)) (ht : t ≠ .null) (hf : f.color = .black) (fuel : ℕ) :
    ∃ m', rbtreeInsertFixup (fuel + 1) m (t.ptr rbtreeNull) = some m' ∧
      At m₀ S m' ((zip t (f :: p)).paint .black) [] := by
  have hcolor : (m.cell (m.cell (t.ptr rbtreeNull)).parent).color = .black := by
    rw [h.parent_eq ht, top_cons, h.cell_top, Frame.cell, Cell.make_color, hf]
  refine ⟨m.setColor m.root .black,?_,(at_zip.mpr h).paintRoot (zip_ne ht _) .black⟩
  rw [rbtreeInsertFixup, if_neg]
  rintro ⟨-,hred⟩
  rw [hcolor] at hred
  cases hred

/-- A red node below a red parent, and the loop that goes on. -/
theorem insertFixup_turn (h : At m₀ S m t (f :: g :: p)) (ht : t ≠ .null) (hf : f.color = .red) (fuel : ℕ) :
    rbtreeInsertFixup (fuel + 1) m (t.ptr rbtreeNull) =
      rbtreeInsertFixup fuel (insertFixupTurn g.side m (t.ptr rbtreeNull)).1
        (insertFixupTurn g.side m (t.ptr rbtreeNull)).2 := by
  have hparent := h.parent_eq ht
  have hroot : t.ptr rbtreeNull ≠ m.root := by
    cases t with
    | null => exact absurd rfl ht
    | node c l v r => exact h.root_ne
  have hcolor : (m.cell f.value).color = .red := by rw [h.cell_top, Frame.cell, Cell.make_color, hf]
  have hgrand : (m.cell f.value).parent = g.value := by rw [h.cell_top, Frame.cell, Cell.make_parent, top_cons]
  have hne := plug_ne f t
  have hside : (if f.value = (m.cell g.value).left then Side.left else Side.right) = g.side := by
    have hchild := (at_plug.mpr h).child_eq (s := .left) hne
    rw [ptr_plug] at hchild
    have hleft : (m.cell g.value).child .left = (m.cell g.value).left := rfl
    rw [hleft] at hchild
    by_cases hs : g.side = .left
    · rw [if_pos (hchild.mpr hs.symm), hs]
    · rw [if_neg (fun heq => hs (hchild.mp heq).symm)]
      cases hg : g.side <;> simp_all
  rw [rbtreeInsertFixup, if_pos ⟨hroot,by rw [hparent, top_cons, hcolor]⟩]
  simp only [hparent, top_cons, hgrand, hside]

/-- With a red uncle the loop goes on at the grandparent. -/
theorem insertFixupTurn_red (h : At m₀ S m t (f :: g :: p)) (ht : t ≠ .null) (hg : g.other.color = .red) :
    ∃ m', insertFixupTurn g.side m (t.ptr rbtreeNull) = (m',g.value) ∧
      At m₀ S m' ((⟨g.side,.red,g.value,g.other.paint .black⟩ : Frame ℕ).plug (({ f with color := .black } : Frame ℕ).plug t)) p := by
  have hparent := h.parent_eq ht
  have hgrand : (m.cell f.value).parent = g.value := by rw [h.cell_top, Frame.cell, Cell.make_parent, top_cons]
  have huncle : (m.cell g.value).child g.side.other = g.other.ptr rbtreeNull := by
    rw [h.cell_grand, Frame.cell, Cell.make_child_other]
  have hother : g.other ≠ .null := fun hnull => by
    rw [hnull] at hg
    cases hg
  have hup := at_plug.mpr h
  have hred : (m.cell (g.other.ptr rbtreeNull)).color = .red := by rw [hup.toOther.color_eq, hg]
  have h₁ := at_plug.mpr (h.paintTop .black)
  have h₂ := h₁.paintOther hother .black
  have h₃ := at_plug.mpr (h₂.paintTop .red)
  refine ⟨_,?_,h₃⟩
  rw [insertFixupTurn]
  simp only [hparent, top_cons, hgrand, huncle, hred, ↓reduceIte]

/-- With a red uncle the loop goes on at the grandparent. -/
theorem insertFixup_up (h : At m₀ S m t (f :: g :: p)) (ht : t ≠ .null) (hf : f.color = .red) (hg : g.other.color = .red)
    (fuel : ℕ) : ∃ m', rbtreeInsertFixup (fuel + 1) m (t.ptr rbtreeNull) = rbtreeInsertFixup fuel m' g.value ∧
      At m₀ S m' ((⟨g.side,.red,g.value,g.other.paint .black⟩ : Frame ℕ).plug (({ f with color := .black } : Frame ℕ).plug t)) p := by
  obtain ⟨m',hturn,h'⟩ := insertFixupTurn_red h ht hg
  have hrun := insertFixup_turn h ht hf fuel
  rw [hturn] at hrun
  exact ⟨m',hrun,h'⟩

/-- The node, its red parent and its grandparent on one line. -/
theorem repaintRotate_spec (h : At m₀ S m t (⟨s,.red,v,x⟩ :: ⟨s,c,w,y⟩ :: p)) (ht : t ≠ .null) :
    At m₀ S (m.repaintRotate s (t.ptr rbtreeNull)) t (⟨s,.black,v,(⟨s,.red,w,y⟩ : Frame ℕ).plug x⟩ :: p) := by
  have h₁ := h.paintTop .black
  have h₂ := at_plug.mp ((at_plug.mpr h₁).paintTop .red)
  have h₃ := h₂.toOther
  have h₄ := At.rotate (s := s.other) (by simpa using h₃)
  have h₅ := (at_plug.mpr h₄).toOther
  have hparent := h.parent_eq ht
  have hparent₁ := h₁.parent_eq ht
  have hgrand₁ := h₁.cell_top
  have hparent₂ := h₂.parent_eq ht
  have hgrand₂ := h₂.cell_top
  simp only [top_cons, Frame.cell] at hparent hparent₁ hgrand₁ hparent₂ hgrand₂
  simp only [repaintRotate, hparent, hparent₁, hgrand₁, hparent₂, hgrand₂, Cell.make_parent]
  simpa using h₅

section Black
variable {u : ℕ} {gc : Color} {z o : Tree ℕ}

/-- What a turn with a black uncle reads. -/
theorem insertFixupTurn_eq (h : At m₀ S m t (f :: ⟨s,gc,w,y⟩ :: p)) (ht : t ≠ .null) (hy : y.color = .black) :
    insertFixupTurn s m (t.ptr rbtreeNull) =
      if f.side = s then (m.repaintRotate s (t.ptr rbtreeNull),t.ptr rbtreeNull)
      else ((m.rotate s f.value).repaintRotate s f.value,f.value) := by
  have hparent := h.parent_eq ht
  have hgrand : (m.cell f.value).parent = w := by rw [h.cell_top, Frame.cell, Cell.make_parent, top_cons]
  have huncle : (m.cell w).child s.other = y.ptr rbtreeNull := by
    have hcell := h.cell_grand
    simp only [Frame.cell] at hcell
    rw [hcell, Cell.make_child_other]
  have hblack : (m.cell (y.ptr rbtreeNull)).color ≠ .red := by
    have hcolor := (at_plug.mpr h).toOther.color_eq
    rw [hcolor, hy]
    decide
  have hchild := h.child_eq (s := s.other) ht
  rw [top_cons] at hparent
  by_cases hline : f.side = s
  · have hne : t.ptr rbtreeNull ≠ (m.cell f.value).child s.other := fun heq => by
      rw [hchild, hline] at heq
      exact Side.other_ne s heq
    simp only [insertFixupTurn, hparent, hgrand, huncle, hblack, hne, hline, ↓reduceIte]
  · have heq : t.ptr rbtreeNull = (m.cell f.value).child s.other := by
      rw [hchild]
      cases s <;> cases hf : f.side <;> simp_all
    simp only [insertFixupTurn, hparent, hgrand, huncle, hblack, hline, ↓reduceIte, if_pos heq]

/-- An inner node goes above its parent first. -/
theorem insertFixupTurn_inner (h : At m₀ S m ((⟨s,.red,v,o⟩ : Frame ℕ).plug z) (⟨s.other,.red,u,x⟩ :: ⟨s,gc,w,y⟩ :: p)) :
    At m₀ S ((m.rotate s u).repaintRotate s u) ((⟨s.other,.red,u,x⟩ : Frame ℕ).plug z)
      (⟨s,.black,v,(⟨s,.red,w,y⟩ : Frame ℕ).plug o⟩ :: p) := by
  have h₁ := at_plug.mpr (At.rotate (at_plug.mp h))
  have h₂ := repaintRotate_spec h₁ (plug_ne _ _)
  rwa [ptr_plug] at h₂

/-- With a black uncle the node is on a line with its parent at last, which is black then. -/
theorem insertFixupTurn_black (h : At m₀ S m (.node .red l v r) (f :: g :: p)) (hf : f.color = .red)
    (hg : g.other.color = .black) :
    ∃ m' u k, u ≠ .null ∧ k.color = .black ∧ insertFixupTurn g.side m v = (m',u.ptr rbtreeNull) ∧
      At m₀ S m' u (k :: p) ∧ k.plug u = rbtreeInsertRotate (.node .red l v r) f g := by
  obtain ⟨s,gc,w,y⟩ := g
  obtain ⟨fs,fc,u,x⟩ := f
  obtain rfl : fc = .red := hf
  have ht : Tree.node .red l v r ≠ .null := fun h => nomatch h
  have hturn := insertFixupTurn_eq h ht hg
  rw [Tree.ptr_node] at hturn
  by_cases hline : fs = s
  · subst hline
    have hspec := repaintRotate_spec h ht
    rw [Tree.ptr_node] at hspec
    rw [if_pos rfl] at hturn
    refine ⟨m.repaintRotate fs v,.node .red l v r,⟨fs,.black,u,(⟨fs,.red,w,y⟩ : Frame ℕ).plug x⟩,ht,rfl,hturn,hspec,?_⟩
    cases fs <;> simp [Frame.plug, rbtreeInsertRotate, LogStats.rbtreeRotateRight, LogStats.rbtreeRotateLeft]
  · rw [if_neg hline] at hturn
    cases s with
    | left =>
      obtain rfl : fs = .right := by cases fs <;> simp_all
      refine ⟨(m.rotate .left u).repaintRotate .left u,(⟨.right,.red,u,x⟩ : Frame ℕ).plug l,⟨.left,.black,v,(⟨.left,.red,w,y⟩ : Frame ℕ).plug r⟩,plug_ne _ _,rfl,hturn,
        insertFixupTurn_inner h,?_⟩
      simp [Frame.plug, rbtreeInsertRotate, LogStats.rbtreeRotateRight, LogStats.rbtreeRotateLeft]
    | right =>
      obtain rfl : fs = .left := by cases fs <;> simp_all
      refine ⟨(m.rotate .right u).repaintRotate .right u,(⟨.left,.red,u,x⟩ : Frame ℕ).plug r,⟨.right,.black,v,(⟨.right,.red,w,y⟩ : Frame ℕ).plug l⟩,plug_ne _ _,rfl,hturn,
        insertFixupTurn_inner h,?_⟩
      simp [Frame.plug, rbtreeInsertRotate, LogStats.rbtreeRotateRight, LogStats.rbtreeRotateLeft]

end Black

/-- The loop ends, with what the fix-up of a tree of addresses gives. -/
theorem rbtreeInsertFixup_spec {n fuel : ℕ} (h : At m₀ S m (.node .red l v r) p) (hfit : HoleFits p .black n)
    (hfuel : p.length < fuel) : ∃ m', rbtreeInsertFixup fuel m v = some m' ∧
      At m₀ S m' (LogStats.rbtreeInsertFixup l v r p) [] := by
  obtain ⟨fuel,rfl⟩ : ∃ k, fuel = k + 1 := ⟨fuel - 1,by omega⟩
  have ht : ∀ l v r, Tree.node .red l v r ≠ (.null : Tree ℕ) := fun _ _ _ h => nomatch h
  fun_induction LogStats.rbtreeInsertFixup l v r p generalizing m n fuel with
  | case1 l v r =>
    have hroot : m.root = v := h.path
    refine ⟨m.setColor m.root .black,?_,h.paintRoot (ht l v r) .black⟩
    rw [rbtreeInsertFixup, if_neg (fun hne => hne.1 hroot.symm)]
  | case2 l v r p =>
    exact insertFixup_exit h (ht l v r) hfit.last_black fuel
  | case3 l v r p g rest hblack => exact insertFixup_exit h (ht l v r) hblack fuel
  | case4 l v r p g rest hblack hred parent uncle =>
    rename_i hside ih
    have hpred : p.color = .red := Color.eq_red hblack
    obtain ⟨-,-,hrest⟩ := (hfit.under_red hpred).2.2.of_red_hole
    obtain ⟨m',hrun,h'⟩ := insertFixup_up h (ht l v r) hpred hred fuel
    rw [hside] at h'
    obtain ⟨fuel,rfl⟩ : ∃ k, fuel = k + 1 := ⟨fuel - 1,by simp at hfuel; omega⟩
    obtain ⟨m'',hloop,hfinal⟩ := ih h' hrest fuel (by simp at hfuel; omega)
    exact ⟨m'',hrun.trans hloop,hfinal⟩
  | case5 l v r p g rest hblack hred parent uncle =>
    rename_i hside ih
    have hpred : p.color = .red := Color.eq_red hblack
    obtain ⟨-,-,hrest⟩ := (hfit.under_red hpred).2.2.of_red_hole
    obtain ⟨m',hrun,h'⟩ := insertFixup_up h (ht l v r) hpred hred fuel
    rw [hside] at h'
    obtain ⟨fuel,rfl⟩ : ∃ k, fuel = k + 1 := ⟨fuel - 1,by simp at hfuel; omega⟩
    obtain ⟨m'',hloop,hfinal⟩ := ih h' hrest fuel (by simp at hfuel; omega)
    exact ⟨m'',hrun.trans hloop,hfinal⟩
  | case6 l v r p g rest hblack hred =>
    have hpred : p.color = .red := Color.eq_red hblack
    obtain ⟨m',u,k,hu,hk,hturn,h',hplug⟩ := insertFixupTurn_black h hpred (Color.eq_black hred)
    have hrun := insertFixup_turn h (ht l v r) hpred fuel
    rw [Tree.ptr_node, hturn] at hrun
    obtain ⟨fuel,rfl⟩ : ∃ k, fuel = k + 1 := ⟨fuel - 1,by simp at hfuel; omega⟩
    obtain ⟨m'',hloop,hfinal⟩ := insertFixup_exit h' hu hk fuel
    rw [zip_cons, hplug] at hfinal
    exact ⟨m'',hrun.trans hloop,hfinal⟩

/-! ## The walk to the place of a key -/

/-- The side that a comparison chose is that of the position. -/
def ChoseSide (p : Path ℕ) (r : ℤ) : Prop := ∀ f q, p = f :: q → (r < 0 ↔ f.side = .left)

theorem insertWalk_spec {cmp : V → V → ℤ} {value : V} {fuel : ℕ} {k : ℤ} (h : At m₀ S m t p) (hk : ChoseSide p k)
    (hfuel : t.toList.length < fuel) :
    (∃ c l a r q, locate (fun a => cmp value (m.node a).value) t p = (.node c l a r,q) ∧
      insertWalk cmp m value fuel (t.ptr rbtreeNull) (top rbtreeNull p) k = some (.inl a)) ∨
    ∃ q k', locate (fun a => cmp value (m.node a).value) t p = (.null,q) ∧ ChoseSide q k' ∧
      insertWalk cmp m value fuel (t.ptr rbtreeNull) (top rbtreeNull p) k = some (.inr (top rbtreeNull q,k')) := by
  induction t generalizing p fuel k with
  | null =>
    obtain ⟨fuel,rfl⟩ : ∃ n, fuel = n + 1 := ⟨fuel - 1,by omega⟩
    exact Or.inr ⟨p,k,rfl,hk,by simp [insertWalk]⟩
  | node c l a r ihl ihr =>
    obtain ⟨fuel,rfl⟩ : ∃ n, fuel = n + 1 := ⟨fuel - 1,by omega⟩
    have ha : a ≠ rbtreeNull := h.ptr_ne
    have hcell : m.cell a = ⟨top rbtreeNull p,l.ptr rbtreeNull,r.ptr rbtreeNull,c⟩ := h.tree.1
    simp only [Tree.toList_node, List.length_append, List.length_cons] at hfuel
    by_cases hzero : cmp value (m.node a).value = 0
    · refine Or.inl ⟨c,l,a,r,p,?_,?_⟩
      · rw [locate, if_pos hzero]
      · rw [insertWalk, Tree.ptr_node, if_pos ha]
        exact if_pos hzero
    · by_cases hneg : cmp value (m.node a).value < 0
      · have hside : ChoseSide (⟨.left,c,a,r⟩ :: p) (cmp value (m.node a).value) := by
          rintro f q heq
          obtain ⟨rfl,-⟩ := List.cons.inj heq
          simpa using hneg
        have hl := ihl (at_plug.mp h : At m₀ S m l (⟨.left,c,a,r⟩ :: p)) hside (by omega : l.toList.length < fuel)
        simpa only [insertWalk, Tree.ptr_node, locate, if_pos ha, if_neg hzero, if_pos hneg, hcell, top_cons] using hl
      · have hside : ChoseSide (⟨.right,c,a,l⟩ :: p) (cmp value (m.node a).value) := by
          rintro f q heq
          obtain ⟨rfl,-⟩ := List.cons.inj heq
          simpa using hneg
        have hr := ihr (at_plug.mp h : At m₀ S m r (⟨.right,c,a,l⟩ :: p)) hside (by omega : r.toList.length < fuel)
        simpa only [insertWalk, Tree.ptr_node, locate, if_pos ha, if_neg hzero, if_neg hneg, hcell, top_cons] using hr

/-- The new node hangs where the walk ended. -/
theorem link_spec {data : ℕ} {k : ℤ} (h : At m₀ S m .null p) (hk : ChoseSide p k) (hdata : data ∉ S)
    (hnull : data ≠ rbtreeNull) : At { m₀ with count := m₀.count + 1 } (data :: S)
      ((m.initNode data (top rbtreeNull p)).linkNode (top rbtreeNull p) k data) (.node .red .null data .null) p := by
  obtain ⟨⟨-,hp,hnd,hnotnull,hnullcell⟩,hkept,hsub⟩ := h
  simp only [Tree.toList_null, List.nil_append] at hnd hnotnull hsub
  have hnew : data ∉ outer p := fun hin => hdata (hsub data hin)
  have hcell₁ : ∀ b, b ≠ data → (m.initNode data (top rbtreeNull p)).cell b = m.cell b := fun b hb => cell_write_of_ne hb
  have hdata₁ : (m.initNode data (top rbtreeNull p)).cell data = ⟨top rbtreeNull p,rbtreeNull,rbtreeNull,.red⟩ :=
    cell_write_self
  have hkept₁ : Kept { m₀ with count := m₀.count + 1 } (data :: S) (m.initNode data (top rbtreeNull p)) := by
    have hwide : Kept m₀ (data :: S) m := ⟨fun a ha => hkept.outside a fun hin => ha (List.mem_cons_of_mem _ hin),
      hkept.value_eq,hkept.count_eq⟩
    have hwrite := hwide.write (a := data) List.mem_cons_self ⟨top rbtreeNull p,rbtreeNull,rbtreeNull,.red⟩
    exact ⟨hwrite.outside,hwrite.value_eq,congrArg (· + 1) hkept.count_eq⟩
  have hp₁ : PathAt (m.initNode data (top rbtreeNull p)).cell rbtreeNull (m.initNode data (top rbtreeNull p)).root
      rbtreeNull p := hp.congr fun b hb => hcell₁ b fun heq => hnew (heq ▸ hb)
  have hlist : ((Tree.node .red .null data .null).toList ++ outer p).Nodup :=
    List.nodup_cons.mpr ⟨hnew,hnd⟩
  have hnot : rbtreeNull ∉ (Tree.node .red .null data .null).toList ++ outer p := by
    rw [Tree.toList_node, Tree.toList_null, List.nil_append, List.cons_append, List.mem_cons, not_or]
    exact ⟨hnull.symm,hnotnull⟩
  have hin : ∀ a ∈ (Tree.node .red .null data .null).toList ++ outer p, a ∈ data :: S := by
    intro a ha
    rcases List.mem_cons.mp ha with rfl | ha
    · exact List.mem_cons_self
    · exact List.mem_cons_of_mem _ (hsub a ha)
  have hnull₁ := (hcell₁ _ hnull.symm).trans hnullcell
  generalize m.initNode data (top rbtreeNull p) = m₁ at hcell₁ hdata₁ hkept₁ hp₁ hnull₁
  rw [linkNode]
  cases p with
  | nil =>
    rw [if_neg (not_not_intro top_nil)]
    exact ⟨⟨⟨hdata₁,trivial,trivial⟩,rfl,hlist,hnot,hnull₁⟩,hkept₁.setRoot data,hin⟩
  | cons f q =>
    have hf : f.value ≠ rbtreeNull := fun heq => hnotnull (heq ▸ List.mem_cons_self)
    have hfd : data ≠ f.value := fun heq => hnew (heq ▸ List.mem_cons_self)
    have hset : (if k < 0 then m₁.setChild f.value .left data else m₁.setChild f.value .right data) =
        m₁.setChild f.value f.side data := by
      have hside := hk f q rfl
      cases hs : f.side <;> simp_all
    rw [top_cons, if_pos hf, hset]
    refine ⟨⟨⟨?_,trivial,trivial⟩,hp₁.repoint hnd ?_ ?_,hlist,hnot,?_⟩,hkept₁.write ?_ _,hin⟩
    · rw [setChild, cell_write_of_ne hfd, hdata₁]
      rfl
    · rw [setChild, cell_write_self, hp₁.1, Frame.cell, Cell.make_setChild]
      rfl
    · exact fun b _ hb => cell_write_of_ne hb
    · rw [setChild, cell_write_of_ne hf.symm, hnull₁]
    · exact List.mem_cons_of_mem _ (hsub _ List.mem_cons_self)

end Insertion

/-! ## Valid trees -/

/-- A comparison of three outcomes, as `cmp` is to be. -/
structure Comparison (cmp : V → V → ℤ) : Prop where
  swap : ∀ x y, cmp x y < 0 ↔ 0 < cmp y x
  trans : ∀ x y z, cmp x y ≤ 0 → cmp y z ≤ 0 → cmp x z ≤ 0

namespace Comparison
variable {cmp : V → V → ℤ} {x y z : V}

theorem lt_trans (h : Comparison cmp) (hxy : cmp x y < 0) (hyz : cmp y z < 0) : cmp x z < 0 := by
  by_contra hge
  have hzx : cmp z x ≤ 0 := by
    by_contra hpos
    exact hge ((h.swap x z).mpr (by omega))
  have hyx := h.trans y z x hyz.le hzx
  have hpos := (h.swap x y).mp hxy
  omega

/-- A key cuts an ordered list where it compares. -/
theorem cut (h : Comparison cmp) {α : Type*} {value : α → V} {xs : List α}
    (hxs : xs.Pairwise fun a b => cmp (value a) (value b) < 0) (key : V) : Cut (fun a => cmp key (value a)) xs := by
  refine hxs.imp fun {a b} hab => ⟨fun hka => h.lt_trans hka hab,fun hbk => ?_⟩
  exact (h.swap _ _).mp (h.lt_trans hab ((h.swap _ _).mpr hbk))

end Comparison

/-- The red-black invariants of a tree in memory: its links, its colours, its order and its
count. -/
structure Valid (cmp : V → V → ℤ) (m : RbMemory V) (t : Tree ℕ) : Prop where
  linked : PositionAt m.cell rbtreeNull m.root t []
  balanced : ∃ n, Balanced t .black n
  ordered : t.toList.Pairwise fun a b => cmp (m.node a).value (m.node b).value < 0
  count_eq : m.count = t.toList.length

theorem Valid.start {cmp : V → V → ℤ} {t : Tree ℕ} (h : m.Valid cmp t) : At m t.toList m t [] :=
  ⟨h.linked,Kept.refl m _,fun a ha => by simpa using ha⟩

theorem length_le_outer (p : Path ℕ) : p.length ≤ (outer p).length := by
  induction p with
  | nil => exact le_rfl
  | cons f p ih =>
    simp only [outer_cons, List.length_cons, List.length_append]
    omega

theorem pairwise_or {α : Type*} {R : α → α → Prop} {xs : List α} (h : xs.Pairwise R) {a b : α} (ha : a ∈ xs) (hb : b ∈ xs)
    (hne : a ≠ b) : R a b ∨ R b a := by
  have hsymm : Std.Symm fun a b => a ≠ b → R a b ∨ R b a := ⟨fun a b hab hba => (hab hba.symm).symm⟩
  have hor : xs.Pairwise fun a b => a ≠ b → R a b ∨ R b a := h.imp fun hab _ => Or.inl hab
  exact hor.forall_of_forall (fun a _ hself => absurd rfl hself) ha hb hne

section Correct
variable {cmp : V → V → ℤ} {t : Tree ℕ} {key : V} {a b : ℕ}

/-- At most one node compares equal. -/
theorem Valid.unique (h : m.Valid cmp t) (hcmp : Comparison cmp) (ha : a ∈ t.toList) (hb : b ∈ t.toList)
    (hka : cmp key (m.node a).value = 0) (hkb : cmp key (m.node b).value = 0) : a = b := by
  have hsame : ∀ x y, cmp key x = 0 → cmp key y = 0 → ¬cmp x y < 0 := by
    intro x y hx hy hlt
    have hxk : ¬0 < cmp y key := fun hpos => by
      have hneg := (hcmp.swap key y).mpr hpos
      omega
    have hle := hcmp.trans y key x (by omega) hx.le
    have hpos := (hcmp.swap x y).mp hlt
    omega
  by_contra hne
  rcases pairwise_or h.ordered ha hb hne with hlt | hlt
  · exact hsame _ _ hka hkb hlt
  · exact hsame _ _ hkb hka hlt

/-- Insertion finds a node with an equal key and leaves everything as it is, or puts the new
node at the place of its key, in as many turns as there are nodes and one. -/
theorem rbtreeInsert_correct (hcmp : Comparison cmp) (h : m.Valid cmp t) {data fuel : ℕ}
    (hdata : data ∉ t.toList) (hnull : data ≠ rbtreeNull) (hfuel : m.count < fuel) :
    (∀ a ∈ t.toList, cmp (m.node data).value (m.node a).value = 0 → rbtreeInsert cmp fuel m data = some (m,a)) ∧
    ((∀ a ∈ t.toList, cmp (m.node data).value (m.node a).value ≠ 0) →
      ∃ m' t' xs ys, rbtreeInsert cmp fuel m data = some (m',data) ∧ m'.Valid cmp t' ∧
        t.toList = xs ++ ys ∧ t'.toList = xs ++ data :: ys ∧ m'.count = m.count + 1 ∧
        (∀ a, (m'.node a).value = (m.node a).value) ∧ (∀ a ∉ t'.toList, m'.node a = m.node a) ∧
        m'.node rbtreeNull = m.node rbtreeNull) := by
  obtain ⟨n,hbal⟩ := h.balanced
  have hcut := hcmp.cut h.ordered (m.node data).value
  have hlength : t.toList.length < fuel := by
    rw [← h.count_eq]
    exact hfuel
  have hside : ChoseSide [] 0 := fun f q heq => nomatch heq
  have hwalk := @insertWalk_spec V m m t.toList t [] cmp (m.node data).value fuel 0 h.start hside hlength
  have hroot : t.ptr rbtreeNull = m.root := h.linked.path.symm
  rw [hroot, top_nil] at hwalk
  refine ⟨fun a ha hzero => ?_,fun hne => ?_⟩
  · rcases hwalk with ⟨c,l,b,r,q,hloc,hrun⟩ | ⟨q,k,hloc,-,-⟩
    · have hb : cmp (m.node data).value (m.node b).value = 0 := locate_value _ t [] (congrArg Prod.fst hloc)
      have hmem : b ∈ t.toList := by
        have hzip := zip_locate (fun a => cmp (m.node data).value (m.node a).value) t []
        rw [hloc, zip_nil] at hzip
        rw [← hzip, toList_zip]
        simp
      obtain rfl := h.unique hcmp ha hmem hzero hb
      rw [rbtreeInsert, hrun]
    · exact absurd hzero ((locate_null_iff _ t hcut).mp (congrArg Prod.fst hloc) a ha)
  · rcases hwalk with ⟨c,l,b,r,q,hloc,-⟩ | ⟨q,k,hloc,hside,hrun⟩
    · have hnone := (locate_null_iff _ t hcut).mpr hne
      rw [hloc] at hnone
      cases hnone
    · have hzip := zip_locate (fun a => cmp (m.node data).value (m.node a).value) t []
      obtain ⟨c,n',hpos,hfit⟩ := locate_balanced (fun a => cmp (m.node data).value (m.node a).value) hbal HoleFits.root
      obtain ⟨xs,ys,t',hins,hsplit,hlist,hxs,hys,hvalid⟩ :=
        rbtreeInsert_absent ⟨⟨n,hbal⟩,h.count_eq⟩ (t := ⟨t,m.count⟩) hcut hne data
      rw [hloc] at hzip hpos hfit
      rw [zip_nil] at hzip
      cases hpos
      have hat : At m t.toList m .null q := at_zip.mp (by rw [hzip]; exact h.start)
      have hlen : q.length ≤ m.count := by
        have hperm := (perm_zip .null q).length_eq
        rw [hzip, Tree.toList_null, List.nil_append, ← h.count_eq] at hperm
        rw [hperm]
        exact length_le_outer q
      obtain ⟨m',hfix,hat'⟩ := rbtreeInsertFixup_spec (link_spec hat hside hdata hnull) hfit (by omega : q.length < fuel)
      have ht' : t'.root = LogStats.rbtreeInsertFixup .null data .null q := by
        have hins' := congrArg (fun res => res.1.root) hins
        simp only [LogStats.rbtreeInsert, hloc] at hins'
        exact hins'.symm
      rw [← ht'] at hat'
      change t.toList = xs ++ ys at hsplit
      change t'.root.toList = xs ++ data :: ys at hlist
      have horder := h.ordered
      refine ⟨m',t'.root,xs,ys,?_,⟨hat'.toPositionAt,hvalid.balanced,?_,?_⟩,hsplit,hlist,hat'.count_eq,hat'.value_eq,?_,?_⟩
      · rw [rbtreeInsert, hrun]
        simp only [hfix, Option.map_some]
      · rw [hsplit] at horder
        simp only [hat'.value_eq, hlist]
        exact pairwise_insert horder (fun _ _ _ _ hab => hab) (fun a ha => (hcmp.swap _ _).mpr (hxs a ha)) hys
      · have hlen' := congrArg List.length hsplit
        rw [hat'.count_eq, hlist, List.length_append, List.length_cons]
        rw [h.count_eq.symm, List.length_append] at hlen'
        simp only
        omega
      · intro a ha
        refine hat'.outside a fun hin => ha ?_
        rw [hlist, List.mem_append, List.mem_cons]
        rcases List.mem_cons.mp hin with rfl | hin
        · exact Or.inr (Or.inl rfl)
        · rw [hsplit, List.mem_append] at hin
          exact hin.imp_right Or.inr
      · apply hat'.outside _
        intro hin
        rcases List.mem_cons.mp hin with heq | hin
        · exact hnull heq.symm
        · exact h.linked.null_notMem (by simpa using hin)

end Correct

/-- A black node with a red one on its right, and a node that is new. -/
def twoNodes : RbMemory ℤ where
  node a := match a with
    | 1 => ⟨⟨0,0,2,.black⟩,10⟩
    | 2 => ⟨⟨1,0,0,.red⟩,20⟩
    | 3 => ⟨⟨0,0,0,.black⟩,30⟩
    | _ => ⟨⟨0,0,0,.black⟩,0⟩
  root := 1
  count := 2

theorem comparison_sub : Comparison fun x y : ℤ => x - y := ⟨fun x y => by omega,fun x y z => by omega⟩

theorem twoNodes_valid : twoNodes.Valid (fun x y => x - y) (.node .black .null 1 (.node .red .null 2 .null)) where
  linked := ⟨⟨rfl,trivial,rfl,trivial,trivial⟩,rfl,by decide,by decide,rfl⟩
  balanced := ⟨1,.black .null (.red .null .null)⟩
  ordered := by decide
  count_eq := rfl

/-- The third node in a row makes the tree turn. -/
theorem rbtreeInsert_correct_third : ∃ m' t', rbtreeInsert (fun x y => x - y) 3 twoNodes 3 = some (m',3) ∧
    m'.Valid (fun x y => x - y) t' ∧ m'.count = 3 := by
  obtain ⟨m',t',-,-,hrun,hvalid,-,-,hcount,-⟩ :=
    (@rbtreeInsert_correct ℤ twoNodes _ _ comparison_sub twoNodes_valid 3 3 (by decide) (by decide) (by decide)).2 (by decide)
  exact ⟨m',t',hrun,hvalid,hcount⟩

end RbMemory

end LogStats
