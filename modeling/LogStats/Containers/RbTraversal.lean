import LogStats.Containers.RbDeletion
import LogStats.Library.TreeOrder

/-! # The traversal loops and the floor search of dig_rb_tree.c

A walk towards a side meets the elements of the tree in their order. From a node it goes on
to the first element that the position of the node has ahead.
-/
namespace LogStats

namespace RbMemory
variable {V : Type*} {m m₀ : RbMemory V} {S : List ℕ} {cmp : V → V → ℤ} {t l r : Tree ℕ} {p : Path ℕ} {c : Color}
  {a b fuel : ℕ} {s : Side}

/-- The invariants of a search tree in memory: its links and its order. -/
structure SearchTree (cmp : V → V → ℤ) (m : RbMemory V) (t : Tree ℕ) : Prop where
  linked : PositionAt m.cell rbtreeNull m.root t []
  ordered : t.toList.Pairwise fun a b => cmp (m.node a).value (m.node b).value < 0

/-- A red-black tree is a search tree. -/
theorem Valid.searchTree (h : m.Valid cmp t) : m.SearchTree cmp t := ⟨h.linked,h.ordered⟩

namespace SearchTree

theorem start (h : m.SearchTree cmp t) : At m t.toList m t [] :=
  ⟨h.linked,Kept.refl m _,fun a ha => by simpa using ha⟩

theorem nodup (h : m.SearchTree cmp t) : t.toList.Nodup := by
  have hnd := h.linked.nodup
  rwa [outer_nil, List.append_nil] at hnd

theorem null_notMem (h : m.SearchTree cmp t) : rbtreeNull ∉ t.toList := by
  have hnull := h.linked.null_notMem
  rwa [outer_nil, List.append_nil] at hnull

/-- Every node is at a position. -/
theorem at_node (h : m.SearchTree cmp t) (ha : a ∈ t.toList) :
    ∃ c l r q, zip (.node c l a r) q = t ∧ At m t.toList m (.node c l a r) q := by
  obtain ⟨c,l,r,q,hq⟩ := exists_zip ha []
  rw [zip_nil] at hq
  refine ⟨c,l,r,q,hq,at_zip.mp ?_⟩
  rw [hq]
  exact h.start

end SearchTree

/-! ## Steps of a walk -/

theorem At.child_cell (h : At m₀ S m (.node c l a r) p) (s : Side) :
    (m.cell a).child s = ((Tree.node c l a r).child s).ptr rbtreeNull := by
  rw [h.tree.1]
  cases s <;> rfl

theorem At.down (h : At m₀ S m (.node c l a r) p) (s : Side) :
    At m₀ S m ((Tree.node c l a r).child s) (Frame.above s c l a r :: p) := by
  apply at_plug.mp
  rwa [plug_above]

/-- The end of a subtree on one side is where a walk to the other side starts in it. -/
theorem endWalk_spec (h : At m₀ S m (.node c l a r) p) (hfuel : (Tree.node c l a r).toList.length ≤ fuel) :
    m.endWalk s fuel a = (s.other.walk (Tree.node c l a r).toList).head? := by
  induction fuel generalizing c l a r p with
  | zero => simp at hfuel
  | succ fuel ih =>
    have hlt := @length_child_lt ℕ c l r a s
    have hdown := h.down s
    rw [endWalk, h.child_cell s, walk_node, Side.other_other]
    cases hchild : (Tree.node c l a r).child s with
    | null => simp
    | node k x b y =>
      rw [hchild] at hlt hdown
      have hb : b ≠ rbtreeNull := hdown.ptr_ne
      rw [Tree.ptr_node, if_pos hb, ih hdown (by omega), List.head?_append]
      cases hhead : (s.other.walk (Tree.node k x b y).toList).head? with
      | some e => rfl
      | none =>
        have hempty := Side.walk_eq_nil.mp (List.head?_eq_none_iff.mp hhead)
        simp at hempty

/-- The climb ends at the first ancestor that is ahead. -/
theorem climb_spec (h : At m₀ S m t p) (ht : t ≠ .null) (hfuel : p.length < fuel) :
    m.climb s fuel (t.ptr rbtreeNull) (top rbtreeNull p) = some ((ahead s p).headD rbtreeNull) := by
  induction p generalizing t fuel with
  | nil =>
    obtain ⟨fuel,rfl⟩ : ∃ n, fuel = n + 1 := ⟨fuel - 1,by omega⟩
    simp [climb, ahead]
  | cons f p ih =>
    obtain ⟨fuel,rfl⟩ : ∃ n, fuel = n + 1 := ⟨fuel - 1,by omega⟩
    have hcell := h.cell_top
    rw [climb, top_cons, hcell]
    by_cases hside : f.side = s
    · have hplug := ih (at_plug.mpr h) (plug_ne f t) (by simpa using hfuel : p.length < fuel)
      rw [ptr_plug] at hplug
      have hnode : t.ptr rbtreeNull = (f.cell rbtreeNull (top rbtreeNull p) (t.ptr rbtreeNull)).child s := by
        rw [Frame.cell, hside, Cell.make_child]
      rw [if_pos ⟨h.top_ne,hnode⟩, ahead, if_pos hside]
      rw [Frame.cell, Cell.make_parent]
      exact hplug
    · have hother : f.side = s.other := by
        revert hside
        cases f.side <;> cases s <;> simp
      have hne : t.ptr rbtreeNull ≠ f.other.ptr rbtreeNull := by
        have hin := Tree.ptr_mem rbtreeNull ht
        apply Tree.ne_ptr
        · intro hmem
          exact (List.nodup_append.mp h.nodup).2.2 _ hin _ (by simp [hmem]) rfl
        · intro hnull
          exact h.null_notMem (hnull ▸ List.mem_append_left _ hin)
      have hnode : t.ptr rbtreeNull ≠ (f.cell rbtreeNull (top rbtreeNull p) (t.ptr rbtreeNull)).child s := by
        have hfar := @Cell.make_child_other ℕ s.other (top rbtreeNull p) (t.ptr rbtreeNull) (f.other.ptr rbtreeNull) f.color
        rw [Side.other_other] at hfar
        rw [Frame.cell, hother, hfar]
        exact hne
      rw [if_neg (fun hboth => hnode hboth.2), ahead, if_neg hside, List.headD_cons]

/-- The neighbour of a node is the first element ahead of it. -/
theorem neighbour_spec (h : At m₀ S m (.node c l a r) p) (hfuel : ((Tree.node c l a r).toList ++ outer p).length ≤ fuel) :
    m.neighbour s fuel a = some ((s.walk ((Tree.node c l a r).child s).toList ++ ahead s p).headD rbtreeNull) := by
  have hlt := @length_child_lt ℕ c l r a s
  have hdown := h.down s
  have hparent : (m.cell a).parent = top rbtreeNull p := by rw [h.tree.1]
  have houter := length_le_outer p
  rw [List.length_append] at hfuel
  rw [neighbour, h.child_cell s]
  cases hchild : (Tree.node c l a r).child s with
  | null =>
    rw [Tree.ptr_null, if_neg (not_not_intro rfl), hparent, Tree.toList_null, Side.walk_nil, List.nil_append]
    apply climb_spec h
    · simp
    · have hnode : 0 < (Tree.node c l a r).toList.length := by simp
      omega
  | node k x b y =>
    rw [hchild] at hlt hdown
    have hb : b ≠ rbtreeNull := hdown.ptr_ne
    have hwalk := @endWalk_spec V m m₀ S x y _ k b fuel s.other hdown (by omega)
    rw [Side.other_other] at hwalk
    rw [Tree.ptr_node, if_pos hb, hwalk]
    cases hlist : s.walk (Tree.node k x b y).toList with
    | nil =>
      have hempty := Side.walk_eq_nil.mp hlist
      simp at hempty
    | cons e es => rfl

namespace SearchTree

/-- Where the walk over the tree splits at a node, the neighbour is what follows. -/
theorem neighbour_eq (h : m.SearchTree cmp t) (hfuel : t.toList.length < fuel) {xs ys : List ℕ}
    (hsplit : s.walk t.toList = xs ++ a :: ys) : m.neighbour s fuel a = some (ys.headD rbtreeNull) := by
  have ha : a ∈ t.toList := by
    rw [← @Side.mem_walk ℕ s, hsplit]
    simp
  obtain ⟨c,l,r,q,hzip,hat⟩ := h.at_node ha
  have hlength := (perm_zip (.node c l a r) q).length_eq
  rw [hzip] at hlength
  rw [neighbour_spec hat (by omega)]
  have hwalk := walk_zip s (.node c l a r) q
  rw [hzip, walk_node, hsplit, List.append_assoc, List.cons_append, ← List.append_assoc] at hwalk
  have hnd : (xs ++ a :: ys).Nodup := by
    rw [← hsplit]
    exact Side.nodup_walk.mpr h.nodup
  have hleft : a ∉ xs := fun hin => (List.nodup_append.mp hnd).2.2 a hin a List.mem_cons_self rfl
  have hright : a ∉ ys := (List.nodup_cons.mp (List.nodup_append.mp hnd).2.1).1
  obtain ⟨-,-,hys⟩ := (List.append_cons_inj_of_notMem hleft hright).mp hwalk
  rw [hys]

/-- The walk starts at the end of the other side. -/
theorem end_eq (h : m.SearchTree cmp t) (hfuel : t.toList.length < fuel) (s : Side) :
    m.endWalk s.other fuel m.root = some ((s.walk t.toList).headD rbtreeNull) := by
  have hroot : m.root = t.ptr rbtreeNull := h.linked.path
  rw [hroot]
  cases t with
  | null =>
    obtain ⟨fuel,rfl⟩ : ∃ n, fuel = n + 1 := ⟨fuel - 1,by omega⟩
    have hcell : (m.cell rbtreeNull).child s.other = rbtreeNull := by
      rw [h.linked.null_cell]
      cases s <;> rfl
    simp [endWalk, hcell]
  | node c l a r =>
    rw [Tree.ptr_node, endWalk_spec h.start (by omega), Side.other_other]
    cases hlist : s.walk (Tree.node c l a r).toList with
    | nil =>
      have hempty := Side.walk_eq_nil.mp hlist
      simp at hempty
    | cons e es => rfl

/-- The loop from a node on sees what the walk has from there. -/
theorem nodesFrom_eq (h : m.SearchTree cmp t) (hfuel : t.toList.length < fuel) {xs ys : List ℕ}
    (hsplit : s.walk t.toList = xs ++ ys) {n : ℕ} (hn : ys.length < n) :
    nodesFrom (m.neighbour s fuel) n (ys.headD rbtreeNull) = some ys := by
  induction ys generalizing xs n with
  | nil =>
    obtain ⟨n,rfl⟩ : ∃ k, n = k + 1 := ⟨n - 1,by omega⟩
    simp [nodesFrom]
  | cons a ys ih =>
    obtain ⟨n,rfl⟩ : ∃ k, n = k + 1 := ⟨n - 1,by omega⟩
    have ha : a ≠ rbtreeNull := by
      rintro rfl
      apply h.null_notMem
      rw [← @Side.mem_walk ℕ s, hsplit]
      simp
    have hrest : s.walk t.toList = (xs ++ [a]) ++ ys := by
      rw [hsplit]
      simp
    rw [List.headD_cons, nodesFrom, if_pos ha, h.neighbour_eq hfuel hsplit, Option.bind_some,
      ih hrest (by simpa using hn), Option.map_some]

/-- A loop over the whole tree. -/
theorem loop_eq (h : m.SearchTree cmp t) (hfuel : t.toList.length < fuel) (s : Side) :
    (m.endWalk s.other fuel m.root).bind (nodesFrom (m.neighbour s fuel) fuel) = some (s.walk t.toList) := by
  rw [h.end_eq hfuel s, Option.bind_some]
  apply h.nodesFrom_eq hfuel (List.nil_append _).symm
  rwa [Side.length_walk]

/-- Back from the neighbour. -/
theorem neighbour_back (h : m.SearchTree cmp t) (hfuel : t.toList.length < fuel) (ha : a ∈ t.toList)
    (hb : m.neighbour s fuel a = some b) (hne : b ≠ rbtreeNull) : m.neighbour s.other fuel b = some a := by
  obtain ⟨xs,ys,hsplit⟩ := List.append_of_mem (Side.mem_walk.mpr ha : a ∈ s.walk t.toList)
  rw [h.neighbour_eq hfuel hsplit] at hb
  cases ys with
  | nil => exact absurd (Option.some.inj hb).symm hne
  | cons e ys =>
    obtain rfl : e = b := Option.some.inj hb
    have hback : s.other.walk t.toList = ys.reverse ++ e :: (a :: xs.reverse) := by
      rw [Side.walk_other, hsplit]
      simp
    rw [h.neighbour_eq hfuel hback, List.headD_cons]

end SearchTree

/-- `RBTREE_FOR` meets every node once, in increasing order, and stops; the loop back meets
them in reverse, and `rbtree_previous` takes back `rbtree_next`. -/
theorem rbtreeFor_correct (h : m.SearchTree cmp t) (hfuel : t.toList.length < fuel) :
    (∃ nodes, m.rbtreeFor fuel = some nodes ∧ m.rbtreeForBack fuel = some nodes.reverse ∧ nodes.Nodup ∧
      (∀ a, a ∈ nodes ↔ a ∈ t.toList) ∧ nodes.Pairwise fun a b => cmp (m.node a).value (m.node b).value < 0) ∧
    ∀ n ∈ t.toList, ∃ next, m.rbtreeNext fuel n = some next ∧
      (next ≠ rbtreeNull → next ∈ t.toList ∧ m.rbtreePrevious fuel next = some n) := by
  refine ⟨⟨t.toList,h.loop_eq hfuel .right,h.loop_eq hfuel .left,h.nodup,fun _ => Iff.rfl,h.ordered⟩,?_⟩
  intro n hn
  obtain ⟨xs,ys,hsplit⟩ := List.append_of_mem hn
  have hnext := @SearchTree.neighbour_eq V m cmp t n fuel .right h hfuel xs ys hsplit
  refine ⟨_,hnext,fun hne => ⟨?_,h.neighbour_back hfuel hn hnext hne⟩⟩
  cases ys with
  | nil => exact absurd rfl hne
  | cons e ys =>
    rw [hsplit]
    simp

theorem rbtreeFor_correct_two : (∃ nodes, twoNodes.rbtreeFor 3 = some nodes ∧ twoNodes.rbtreeForBack 3 = some nodes.reverse ∧
      nodes.Nodup ∧ (∀ a, a ∈ nodes ↔ a ∈ [1,2]) ∧
      nodes.Pairwise fun a b => (twoNodes.node a).value - (twoNodes.node b).value < 0) ∧
    ∀ n ∈ [1,2], ∃ next, twoNodes.rbtreeNext 3 n = some next ∧
      (next ≠ rbtreeNull → next ∈ [1,2] ∧ twoNodes.rbtreePrevious 3 next = some n) :=
  @rbtreeFor_correct ℤ twoNodes (fun x y => x - y) _ 3 twoNodes_valid.searchTree (by decide)

/-! ## The floor search -/

/-- The search down a tree ends at the node that matches or at the last one below the key. -/
theorem findLessEqual_floor {f : ℕ → ℤ} (hcut : Cut f t.toList) (result : Option ℕ) :
    (∃ a ∈ t.toList, f a = 0 ∧ LogStats.rbtreeFindLessEqual f t result = (true,some a)) ∨
    ((∀ a ∈ t.toList, f a ≠ 0) ∧
      LogStats.rbtreeFindLessEqual f t result = (false,(floor f t.toList).or result)) := by
  induction t generalizing result with
  | null => exact Or.inr ⟨by simp,rfl⟩
  | node c l v r ihl ihr =>
    rw [Tree.toList_node] at hcut ⊢
    obtain ⟨hl,hvr,hlv⟩ := List.pairwise_append.mp hcut
    obtain ⟨hv,hr⟩ := List.pairwise_cons.mp hvr
    rw [LogStats.rbtreeFindLessEqual]
    by_cases hzero : f v = 0
    · rw [if_pos hzero]
      exact Or.inl ⟨v,by simp,hzero,rfl⟩
    · rw [if_neg hzero]
      by_cases hneg : f v < 0
      · -- nothing from `v` on is below the key
        rw [if_pos hneg]
        have hbelow : ∀ a ∈ v :: r.toList, f a < 0 := by
          intro a ha
          rcases List.mem_cons.mp ha with rfl | ha
          · exact hneg
          · exact (hv a ha).1 hneg
        have hnone : floor f (v :: r.toList) = none := floor_eq_none.mpr fun a ha => (hbelow a ha).le
        rcases ihl hl result with ⟨a,ha,hfa,hrun⟩ | ⟨hne,hrun⟩
        · exact Or.inl ⟨a,List.mem_append_left _ ha,hfa,hrun⟩
        · refine Or.inr ⟨fun a ha => ?_,?_⟩
          · rcases List.mem_append.mp ha with ha | ha
            · exact hne a ha
            · exact (hbelow a ha).ne
          · rw [hrun, floor_append, hnone, Option.none_or]
      · -- `v` is the floor of what comes up to it
        rw [if_neg hneg]
        have hpos : 0 < f v := by omega
        have habove : ∀ a ∈ l.toList, 0 < f a := fun a ha => (hlv a ha v List.mem_cons_self).2 hpos
        rcases ihr hr (some v) with ⟨a,ha,hfa,hrun⟩ | ⟨hne,hrun⟩
        · exact Or.inl ⟨a,List.mem_append_right _ (List.mem_cons_of_mem _ ha),hfa,hrun⟩
        · refine Or.inr ⟨fun a ha => ?_,?_⟩
          · rcases List.mem_append.mp ha with ha | ha
            · exact (habove a ha).ne'
            · rcases List.mem_cons.mp ha with rfl | ha
              · exact hzero
              · exact hne a ha
          · have hone : floor f [v] = some v := by simp [floor, hpos]
            have hsplit : l.toList ++ v :: r.toList = (l.toList ++ [v]) ++ r.toList := by simp
            rw [hrun, hsplit, floor_append, floor_append, hone]
            cases floor f r.toList <;> rfl

/-- What `rbtree_find_less_equal` returns: the node whose key matches, or else the node of the
greatest key below, or NULL if every key is above. -/
theorem rbtreeFindLessEqual_correct (hcmp : Comparison cmp) (h : m.SearchTree cmp t) (key : V)
    (hfuel : t.toList.length < fuel) :
    ∃ found result, m.rbtreeFindLessEqual cmp fuel key = some (found,result) ∧
      m.rbtreeSearch cmp fuel key = some (if found then result else none) ∧
      (found = true → ∃ a ∈ t.toList, result = some a ∧ cmp key (m.node a).value = 0) ∧
      (found = false → (∀ a ∈ t.toList, cmp key (m.node a).value ≠ 0) ∧
        (result = none → ∀ a ∈ t.toList, cmp key (m.node a).value < 0) ∧
        ∀ a, result = some a → a ∈ t.toList ∧ 0 < cmp key (m.node a).value ∧
          ∀ b ∈ t.toList, 0 < cmp key (m.node b).value → b = a ∨ cmp (m.node b).value (m.node a).value < 0) := by
  have hcut := hcmp.cut h.ordered key
  have hroot : m.root = t.ptr rbtreeNull := h.linked.path
  have hwalk := @findLessEqualWalk_spec V m m t.toList cmp key t [] fuel h.start hfuel none
  rw [← hroot] at hwalk
  rcases findLessEqual_floor hcut none with ⟨a,ha,hzero,hrun⟩ | ⟨hne,hrun⟩
  · rw [hrun] at hwalk
    refine ⟨true,some a,hwalk,?_,fun _ => ⟨a,ha,rfl,hzero⟩,by simp⟩
    rw [rbtreeSearch, rbtreeFindLessEqual, hwalk]
    rfl
  · rw [hrun, Option.or_none] at hwalk
    refine ⟨false,_,hwalk,?_,by simp,fun _ => ⟨hne,fun hnone a ha => ?_,fun a ha => ?_⟩⟩
    · rw [rbtreeSearch, rbtreeFindLessEqual, hwalk]
      rfl
    · have hle := floor_eq_none.mp hnone a ha
      exact lt_of_le_of_ne hle (hne a ha)
    · obtain ⟨hin,hpos⟩ := floor_mem ha
      exact ⟨hin,hpos,fun b hb hbpos => floor_last h.ordered ha hb hbpos⟩

theorem rbtreeFindLessEqual_correct_two : ∃ found result,
    twoNodes.rbtreeFindLessEqual (fun x y => x - y) 3 15 = some (found,result) ∧ found = false := by
  obtain ⟨found,result,hrun,-,hfound,-⟩ :=
    @rbtreeFindLessEqual_correct ℤ twoNodes (fun x y => x - y) _ 3 comparison_sub twoNodes_valid.searchTree 15 (by decide)
  refine ⟨found,result,hrun,?_⟩
  cases found with
  | false => rfl
  | true =>
    obtain ⟨a,ha,-,hzero⟩ := hfound rfl
    revert a
    decide

end RbMemory

end LogStats
