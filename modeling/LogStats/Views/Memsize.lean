import LogStats.Views.Invariant

/-! # What view_tree_set_memsize leaves of the views

Views leave from the tail of the LRU list for as long as the tree is over the limit and
another one is left. The last one is then trimmed to the limit of the whole tree, which
leaves no room for its own node.
-/
namespace LogStats

open NameTree

namespace ViewTree

/-- What stays of `t` when `kept` are left of the LRU list. The records of the others are freed. -/
structure Survives (t t' : ViewTree) (kept : List ℕ) : Prop where
  wf : t'.Wf kept
  nodes_eq : t'.nodes = t.nodes
  dataOf_eq : t'.lrulist.dataOf = t.lrulist.dataOf
  elems_sub : t'.rbtree.elems.Sublist t.rbtree.elems
  freed : ∀ a ∈ t.rbtree.elems, a ∉ t'.rbtree.elems → t'.stats (t.nodes a).vs = none
  none_stays : ∀ addr, t.stats addr = none → t'.stats addr = none

/-- The records of the nodes that stay are those they had. -/
def SameStats (t t' : ViewTree) : Prop := ∀ a ∈ t'.rbtree.elems, t'.stats (t.nodes a).vs = t.stats (t.nodes a).vs

section Evict
variable {t t' : ViewTree} {cells kept : List ℕ}

theorem Survives.refl (h : t.Wf cells) : Survives t t cells :=
  ⟨h,rfl,rfl,List.Sublist.refl _,fun _ ha hna => absurd ha hna,fun _ h0 => h0⟩

theorem Survives.trans {t'' : ViewTree} {kept' : List ℕ} (h : Survives t t' kept) (h' : Survives t' t'' kept') :
    Survives t t'' kept' where
  wf := h'.wf
  nodes_eq := h'.nodes_eq.trans h.nodes_eq
  dataOf_eq := h'.dataOf_eq.trans h.dataOf_eq
  elems_sub := h'.elems_sub.trans h.elems_sub
  freed := by
    intro a ha hna
    by_cases ha' : a ∈ t'.rbtree.elems
    · have hfreed := h'.freed a ha' hna
      rwa [h.nodes_eq] at hfreed
    · exact h'.none_stays _ (h.freed a ha ha')
  none_stays addr h0 := h'.none_stays addr (h.none_stays addr h0)

theorem SameStats.trans {t'' : ViewTree} (hs : SameStats t t') (h : Survives t t' kept) {kept' : List ℕ}
    (h' : Survives t' t'' kept') (hs' : SameStats t' t'') : SameStats t t'' := by
  intro a ha
  have hstep := hs' a ha
  rw [h.nodes_eq] at hstep
  exact hstep.trans (hs a (h'.elems_sub.subset ha))

/-- Replacing the record of a node that stays. -/
theorem Survives.trimmed (h : Survives t t' kept) {a : ℕ} (ha : a ∈ t'.rbtree.elems) {v : ViewStats} (hv : v.Sound) :
    Survives t { t' with stats := Function.update t'.stats (t.nodes a).vs (some v) } kept where
  wf := h.wf.recorded_one _ hv
  nodes_eq := h.nodes_eq
  dataOf_eq := h.dataOf_eq
  elems_sub := h.elems_sub
  freed := by
    intro b hb hnb
    have hne : (t.nodes b).vs ≠ (t.nodes a).vs := by
      intro he
      have hlive := h.freed b hb hnb
      obtain ⟨vs,hvs,-⟩ := h.wf.live a ha
      rw [h.nodes_eq, ← he, hlive] at hvs
      cases hvs
    exact (Function.update_of_ne hne _ _).trans (h.freed b hb hnb)
  none_stays := by
    intro addr h0
    have hne : addr ≠ (t.nodes a).vs := by
      rintro rfl
      obtain ⟨vs,hvs,-⟩ := h.wf.live a ha
      rw [h.nodes_eq, h.none_stays _ h0] at hvs
      cases hvs
    exact (Function.update_of_ne hne _ _).trans (h.none_stays addr h0)

theorem Survives.sizeAt_eq (h : Survives t t' kept) (hs : SameStats t t') {cs : List ℕ} (hcs : cs <+: kept) :
    t'.sizeAt cs = t.sizeAt cs := by
  have hsize : ∀ c ∈ cs, viewTreeNodeSize t' (t'.lrulist.dataOf c) = viewTreeNodeSize t (t.lrulist.dataOf c) := by
    intro c hc
    have ha := h.wf.dataOf_mem (hcs.subset hc)
    rw [viewTreeNodeSize, viewTreeNodeSize, h.nodes_eq, hs _ ha, h.dataOf_eq]
  simp only [sizeAt, List.map_congr_left (fun c hc => congrArg (Option.getD · 0) (hsize c hc))]

/-- One round of the loop: the node at the tail leaves both structures. -/
theorem Wf.evicted {c : ℕ} (h : t.Wf (cells ++ [c])) :
    ∃ lru t', lruListRemoveTail t.lrulist = (lru,t.lrulist.dataOf c) ∧ t.lrulist.dataOf c ≠ 0 ∧
      viewTreeDelete { t with lrulist := lru } (t.nodes (t.lrulist.dataOf c)).name = some t' ∧
      Survives t t' cells ∧ SameStats t t' := by
  have hc : c ∈ cells ++ [c] := by simp
  have ha := h.dataOf_mem hc
  obtain ⟨lru,hrun,hrep,hdataOf⟩ := lruListRemoveTail_spec h.lru
  obtain ⟨xs,ys,rbtree,hdel,hsplit,hsplit',hvalid⟩ := rbtreeDelete_present h.valid (h.cut _) (h.search_of_mem ha)
  obtain ⟨vs,hvs,-⟩ := h.live _ ha
  let t' : ViewTree := { t with rbtree := rbtree, lrulist := lru, count := t.count - 1,
                                stats := Function.update t.stats (t.nodes (t.lrulist.dataOf c)).vs none }
  have hperm : t.rbtree.elems.Perm (t.lrulist.dataOf c :: rbtree.elems) := by
    rw [hsplit, hsplit']
    exact List.perm_middle
  have hsub : rbtree.elems.Sublist t.rbtree.elems := by
    rw [hsplit, hsplit']
    exact List.Sublist.append_left (List.sublist_cons_self _ ys) xs
  have hgone : t.lrulist.dataOf c ∉ rbtree.elems := (List.nodup_cons.mp (hperm.nodup_iff.mp h.elems_nodup)).1
  have hstats : ∀ a ∈ rbtree.elems, t'.stats (t.nodes a).vs = t.stats (t.nodes a).vs := by
    intro a hae
    refine Function.update_of_ne (fun he => hgone ?_) _ _
    exact h.own a (hsub.subset hae) _ ha he ▸ hae
  have hfreed : ∀ a ∈ t.rbtree.elems, a ∉ rbtree.elems → t'.stats (t.nodes a).vs = none := by
    intro a hae hna
    obtain rfl : a = t.lrulist.dataOf c := (List.mem_cons.mp (hperm.mem_iff.mp hae)).resolve_right hna
    exact Function.update_self _ _ _
  have hnone : ∀ addr, t.stats addr = none → t'.stats addr = none := by
    intro addr h0
    by_cases he : addr = (t.nodes (t.lrulist.dataOf c)).vs
    · rw [he]
      exact Function.update_self _ _ _
    · exact (Function.update_of_ne he _ _).trans h0
  refine ⟨lru,t',hrun,(h.node_lt _ ha).1.ne',?_,⟨?_,rfl,hdataOf,hsub,hfreed,hnone⟩,hstats⟩
  · simp only [viewTreeDelete, viewTreeKey_short (h.short _ ha), Option.bind_eq_bind, Option.bind_some, hdel, hvs]
    rfl
  · constructor
    · exact hvalid
    · exact h.sorted.sublist hsub
    · exact fun a hae => h.short a (hsub.subset hae)
    · exact hrep
    · change (cells.map lru.dataOf).Perm rbtree.elems
      rw [hdataOf]
      have hmap := h.carried.trans hperm
      rw [List.map_append, List.map_singleton] at hmap
      exact ((List.perm_append_singleton _ _).symm.trans hmap).cons_inv
    · intro c' hc'
      change (t.nodes (lru.dataOf c')).ptr = c'
      rw [hdataOf]
      exact h.ptr c' (List.mem_append_left _ hc')
    · change t.count - 1 = rbtree.elems.length
      have hlen := hperm.length_eq
      rw [List.length_cons] at hlen
      rw [h.count_eq]
      omega
    · intro a hae
      obtain ⟨vs',hvs',hsound⟩ := h.live a (hsub.subset hae)
      exact ⟨vs',(hstats a hae).trans hvs',hsound⟩
    · exact fun a hae b hbe => h.own a (hsub.subset hae) b (hsub.subset hbe)
    · exact fun a hae => h.node_lt a (hsub.subset hae)
    · exact fun a hae => h.vs_lt a (hsub.subset hae)
    · exact h.brk_pos

theorem viewTreeEvictLoop_spec (h : t.Wf cells) (expectSize : UInt64) {fuel : ℕ} (hfuel : cells.length < fuel) :
    ∃ t' kept, viewTreeEvictLoop expectSize fuel t = some t' ∧ Survives t t' kept ∧ SameStats t t' ∧
      Trimmed (fun cs => expectSize < t.sizeAt cs) 1 cells kept := by
  induction fuel generalizing t cells with
  | zero => exact absurd hfuel (Nat.not_lt_zero _)
  | succ fuel ih =>
    have hcount : t.count = cells.length := by rw [h.count_eq, h.length_eq]
    by_cases hover : expectSize < t.sizeAt cells ∧ 1 < t.count
    · rcases cells.eq_nil_or_concat with rfl | ⟨cs,c,rfl⟩
      · rw [List.length_nil] at hcount
        omega
      · rw [List.concat_eq_append] at h hfuel hcount hover ⊢
        obtain ⟨lru,t₁,hrun,h0,hdel,hsur,hsame⟩ := h.evicted
        rw [List.length_append, List.length_singleton] at hfuel
        obtain ⟨t',kept,hloop,hsur',hsame',htrim⟩ := ih hsur.wf (by omega)
        refine ⟨t',kept,?_,hsur.trans hsur',hsame.trans hsur hsur' hsame',?_⟩
        · simp only [viewTreeEvictLoop, h.getSize, Option.bind_eq_bind, Option.bind_some, if_pos hover, hrun, if_neg h0,
            hdel]
          exact hloop
        · refine .drop hover.1 (by omega) (htrim.congr (fun cs' hcs' => ?_))
          rw [hsur.sizeAt_eq hsame hcs']
    · refine ⟨t,cells,?_,.refl h,fun _ _ => rfl,.stop (fun ho => ?_)⟩
      · simp only [viewTreeEvictLoop, h.getSize, Option.bind_eq_bind, Option.bind_some, if_neg hover]
      · have hle : ¬1 < t.count := fun hlt => hover ⟨ho,hlt⟩
        omega

/-- `view_tree_set_memsize` of a well-formed tree returns. Only the record of a view that
is left alone is touched. -/
theorem viewTreeSetMemsize_cases (h : t.Wf cells) (expectSize : UInt64) :
    ∃ t' kept, viewTreeSetMemsize t expectSize = some t' ∧ Survives t t' kept ∧
      Trimmed (fun cs => expectSize < t.sizeAt cs) 1 cells kept ∧
      ((kept.length ≠ 1 ∧ SameStats t t') ∨ ∃ c vs vs', kept = [c] ∧ t'.rbtree.elems = [t.lrulist.dataOf c] ∧
        t.stats (t.nodes (t.lrulist.dataOf c)).vs = some vs ∧ viewStatsSetMemsize vs expectSize = some vs' ∧
        t'.stats (t.nodes (t.lrulist.dataOf c)).vs = some vs') := by
  have hfuel : cells.length < t.lrulist.count.toNat + 1 := by
    rw [h.lru.count_eq, Int.toNat_natCast]
    exact Nat.lt_succ_self _
  obtain ⟨t₁,kept,hloop,hsur,hsame,htrim⟩ := viewTreeEvictLoop_spec h expectSize hfuel
  have hcount : t₁.count = kept.length := by rw [hsur.wf.count_eq, hsur.wf.length_eq]
  by_cases hone : kept.length = 1
  · obtain ⟨c,rfl⟩ := List.length_eq_one_iff.mp hone
    have helems : t₁.rbtree.elems = [t.lrulist.dataOf c] := by
      have hperm := hsur.wf.carried
      rw [hsur.dataOf_eq] at hperm
      exact List.perm_singleton.mp hperm.symm
    have hmem : t.lrulist.dataOf c ∈ t₁.rbtree.elems := by simp [helems]
    obtain ⟨vs,hvs,hsound⟩ := hsur.wf.live _ hmem
    rw [hsur.nodes_eq] at hvs
    obtain ⟨nameCells,ipCells,hvwf⟩ := hsound
    obtain ⟨vs',nameKept,ipKept,hset,hname,hip,-⟩ := viewStatsSetMemsize_spec hvwf expectSize
    let t' : ViewTree := { t₁ with stats := Function.update t₁.stats (t.nodes (t.lrulist.dataOf c)).vs (some vs') }
    have htrimmed := hsur.trimmed hmem (v := vs') ⟨nameKept,ipKept,hname.wf,hip.wf⟩
    refine ⟨t',[c],?_,htrimmed,htrim,Or.inr ⟨c,vs,vs',rfl,helems,?_,hset,?_⟩⟩
    · have hcount1 : t₁.count = 1 := by simpa using hcount
      have hlast : viewTreeTheOnlyOne t₁ = some (t.lrulist.dataOf c) := by simp [viewTreeTheOnlyOne, helems]
      simp only [viewTreeSetMemsize, hloop, Option.bind_eq_bind, Option.bind_some, if_pos hcount1, hlast, hsur.nodes_eq,
        hvs, hset, t']
    · exact (hsame _ hmem).symm.trans hvs
    · exact Function.update_self _ _ _
  · refine ⟨t₁,kept,?_,hsur,htrim,Or.inl ⟨hone,hsame⟩⟩
    have hcount1 : ¬t₁.count = 1 := by omega
    simp only [viewTreeSetMemsize, hloop, Option.bind_eq_bind, Option.bind_some, if_neg hcount1]

/-- The view at the head of the list is never evicted. -/
theorem head_kept {limit : UInt64} {c : ℕ} {rest : List ℕ}
    (h : Trimmed (fun cs => limit < t.sizeAt cs) 1 (c :: rest) kept) : ∃ rest', kept = c :: rest' := by
  have hne := h.length_pos Nat.one_pos (List.cons_ne_nil c rest)
  obtain ⟨d,rest',rfl⟩ := List.exists_cons_of_ne_nil hne
  obtain ⟨rfl,-⟩ := List.cons_prefix_cons.mp h.initial
  exact ⟨rest',rfl⟩

end Evict

end ViewTree

end LogStats
