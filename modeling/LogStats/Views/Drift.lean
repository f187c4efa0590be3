import LogStats.Views.Memsize

/-! # View trees whose count is off

`view_tree_create` leaves `count` as malloc returned it, and the other operations move it
with the number of nodes, so that what it is off by stays. The loop of
`view_tree_set_memsize` then stops too early or too late: it may evict every view, or
trim one of several.
-/
namespace LogStats

namespace ViewTree

/-- The tree with its count off by `d`. -/
def shift (t : ViewTree) (d : ℤ) : ViewTree := { t with count := t.count + d }

section Facts
variable {t t' : ViewTree} {cells : List ℕ} {d : ℤ}

@[simp] theorem shift_zero (t : ViewTree) : t.shift 0 = t := by simp [shift]
@[simp] theorem shift_count (t : ViewTree) (d : ℤ) : (t.shift d).count = t.count + d := rfl
@[simp] theorem shift_rbtree (t : ViewTree) (d : ℤ) : (t.shift d).rbtree = t.rbtree := rfl
@[simp] theorem shift_lrulist (t : ViewTree) (d : ℤ) : (t.shift d).lrulist = t.lrulist := rfl
@[simp] theorem shift_nodes (t : ViewTree) (d : ℤ) : (t.shift d).nodes = t.nodes := rfl
@[simp] theorem shift_stats (t : ViewTree) (d : ℤ) : (t.shift d).stats = t.stats := rfl
@[simp] theorem shift_nodeBrk (t : ViewTree) (d : ℤ) : (t.shift d).nodeBrk = t.nodeBrk := rfl
@[simp] theorem shift_statsBrk (t : ViewTree) (d : ℤ) : (t.shift d).statsBrk = t.statsBrk := rfl

@[simp] theorem viewTreeFind_shift (t : ViewTree) (d : ℤ) (name : CString) :
    viewTreeFind (t.shift d) name = viewTreeFind t name := rfl

@[simp] theorem viewTreeGetSize_shift (t : ViewTree) (d : ℤ) : viewTreeGetSize (t.shift d) = viewTreeGetSize t := rfl

theorem viewTreeInsert_shift (malloc : Bool) (t : ViewTree) (d : ℤ) (name : CString) (vs : ℕ) :
    viewTreeInsert malloc (t.shift d) name vs = (viewTreeInsert malloc t name vs).map (shift · d) := by
  have hcount : t.count + d + 1 = t.count + 1 + d := by omega
  unfold viewTreeInsert viewTreeInsertResult
  split
  · rfl
  · dsimp only [shift_rbtree, shift_nodes, shift_nodeBrk]
    split
    · rfl
    · simp [Option.map_bind, shift, hcount]

theorem viewTreeDelete_shift (t : ViewTree) (d : ℤ) (name : CString) :
    viewTreeDelete (t.shift d) name = (viewTreeDelete t name).map (shift · d) := by
  have hcount : t.count + d - 1 = t.count - 1 + d := by omega
  simp only [viewTreeDelete, Option.bind_eq_bind, Option.map_bind, Function.comp_def, shift_rbtree, shift_nodes]
  congr 1
  funext key
  congr 1
  funext p
  rcases p with ⟨rbtree,_ | vtnode⟩
  · rfl
  · simp [Option.map_bind, shift, hcount]

/-- Creation leaves the count off by what malloc returned. -/
theorem viewTreeCreate_shift (memory : ViewTreeMemory) :
    ∃ t : ViewTree, t.Wf [] ∧ viewTreeCreate memory = t.shift memory.count := by
  refine ⟨viewTreeCreate { memory with count := 0 },.create _ rfl,?_⟩
  simp [viewTreeCreate, shift]

/-- If the loop ends, what is left is well-formed but for the count. -/
theorem viewTreeEvictLoop_shift {expectSize : UInt64} {fuel : ℕ} (h : t.Wf cells)
    (hr : viewTreeEvictLoop expectSize fuel (t.shift d) = some t') :
    ∃ u kept, t' = u.shift d ∧ Survives t u kept ∧ SameStats t u := by
  induction fuel generalizing t cells with
  | zero => cases hr
  | succ fuel ih =>
    simp only [viewTreeEvictLoop, viewTreeGetSize_shift, h.getSize, Option.bind_eq_bind, Option.bind_some] at hr
    split at hr
    · rcases cells.eq_nil_or_concat with rfl | ⟨cs,c,rfl⟩
      · simp [lruListRemoveTail_nil h.lru.chain] at hr
      · rw [List.concat_eq_append] at h
        obtain ⟨lru,t₁,hrun,h0,hdel,hsur,hsame⟩ := h.evicted
        have hdel' := viewTreeDelete_shift { t with lrulist := lru } d (t.nodes (t.lrulist.dataOf c)).name
        rw [hdel] at hdel'
        simp only [shift_lrulist, hrun, if_neg h0, shift_nodes] at hr
        change (viewTreeDelete ({ t with lrulist := lru }.shift d) _).bind _ = _ at hr
        rw [hdel', Option.map_some, Option.bind_some] at hr
        obtain ⟨u,kept,rfl,hsur',hsame'⟩ := ih hsur.wf hr
        exact ⟨u,kept,rfl,hsur.trans hsur',hsame.trans hsur hsur' hsame'⟩
    · obtain rfl := Option.some_inj.mp hr
      exact ⟨t,cells,rfl,.refl h,fun _ _ => rfl⟩

/-- If `view_tree_set_memsize` returns, it has touched one record at most, of which it has
trimmed the two trees. -/
theorem viewTreeSetMemsize_shift {expectSize : UInt64} (h : t.Wf cells)
    (hr : viewTreeSetMemsize (t.shift d) expectSize = some t') :
    ∃ u kept, t' = u.shift d ∧ Survives t u kept ∧ ∀ a ∈ u.rbtree.elems, ∃ vs nameTree ipTree,
      t.stats (t.nodes a).vs = some vs ∧
        u.stats (t.nodes a).vs = some { vs with nameTree := nameTree, ipTree := ipTree } := by
  obtain ⟨t₁,hloop,hr⟩ := Option.bind_eq_some_iff.mp hr
  obtain ⟨u,kept,rfl,hsur,hsame⟩ := viewTreeEvictLoop_shift h hloop
  have hkept : ∀ a ∈ u.rbtree.elems, ∃ vs, t.stats (t.nodes a).vs = some vs ∧ u.stats (t.nodes a).vs = some vs := by
    intro a ha
    obtain ⟨vs,hvs,-⟩ := h.live a (hsur.elems_sub.subset ha)
    exact ⟨vs,hvs,(hsame a ha).trans hvs⟩
  have hplain : ∃ u' kept, u.shift d = u'.shift d ∧ Survives t u' kept ∧ ∀ a ∈ u'.rbtree.elems, ∃ vs nameTree ipTree,
      t.stats (t.nodes a).vs = some vs ∧
        u'.stats (t.nodes a).vs = some { vs with nameTree := nameTree, ipTree := ipTree } := by
    refine ⟨u,kept,rfl,hsur,fun a ha => ?_⟩
    obtain ⟨vs,hvs,hvs'⟩ := hkept a ha
    exact ⟨vs,vs.nameTree,vs.ipTree,hvs,hvs'⟩
  split at hr
  · split at hr
    · obtain rfl := Option.some_inj.mp hr
      exact hplain
    · rename_i vtnode hlast
      have hmem : vtnode ∈ u.rbtree.elems := List.mem_of_getLast? hlast
      obtain ⟨vs,hvs,hr⟩ := Option.bind_eq_some_iff.mp hr
      obtain ⟨vs',hset,hr⟩ := Option.bind_eq_some_iff.mp hr
      obtain rfl := Option.some_inj.mp hr
      obtain ⟨vs₁,hvs₁,nameCells,ipCells,hvwf⟩ := hsur.wf.live vtnode hmem
      obtain rfl : vs = vs₁ := Option.some_inj.mp (hvs.symm.trans hvs₁)
      obtain ⟨vs₂,nameKept,ipKept,hset₂,hname,hip,-,-,-,hvs'⟩ := viewStatsSetMemsize_spec hvwf expectSize
      obtain rfl : vs' = vs₂ := Option.some_inj.mp (hset.symm.trans hset₂)
      have hsound : vs'.Sound := ⟨nameKept,ipKept,hname.wf,hip.wf⟩
      refine ⟨_,kept,?_,hsur.trimmed hmem hsound,fun a ha => ?_⟩
      · rw [shift_nodes, hsur.nodes_eq]
        rfl
      · obtain ⟨vs₃,hvs₃,hsame₃⟩ := hkept a ha
        by_cases he : (t.nodes a).vs = (t.nodes vtnode).vs
        · rw [hsur.nodes_eq, ← he, hsame₃] at hvs₁
          obtain rfl := Option.some_inj.mp hvs₁
          refine ⟨vs₃,vs'.nameTree,vs'.ipTree,hvs₃,?_⟩
          rw [← hvs', he]
          exact Function.update_self _ _ _
        · exact ⟨vs₃,vs₃.nameTree,vs₃.ipTree,hvs₃,(Function.update_of_ne he _ _).trans hsame₃⟩
  · obtain rfl := Option.some_inj.mp hr
    exact hplain

end Facts

end ViewTree

end LogStats
