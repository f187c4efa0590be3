import LogStats.Keeper.Count
import LogStats.Views.Limit

/-! # Views are evicted in LRU order

`log_handle` holds the address of a record while `view_tree_set_memsize` frees others. The
view of the record was put at the head of the LRU list before, and the loop stops at it.
-/
namespace LogStats

namespace ViewTree

/-- A node of this name has the record at `addr`, and it was not freed. -/
def InUse (t : ViewTree) (name : CString) (addr : ℕ) : Prop :=
  ∃ a ∈ t.rbtree.elems, (t.nodes a).name = name ∧ (t.nodes a).vs = addr ∧ (t.stats addr).isSome

/-- What `view_tree_set_memsize` keeps: the longest part of the LRU list that is within
the limit, and the head in any case. -/
structure EvictsLru (t t' : ViewTree) (cells kept : List ℕ) (expectSize : UInt64) : Prop where
  survives : Survives t t' kept
  shortest : Trimmed (fun cs => expectSize < t.sizeAt cs) 1 cells kept
  same : 2 ≤ kept.length → SameStats t t'
  head : kept.head? = cells.head?

section Evict
variable {t t' : ViewTree}

theorem Wf.evictsLru {c : ℕ} {rest : List ℕ} (h : t.Wf (c :: rest)) (expectSize : UInt64) :
    ∃ t' rest', viewTreeSetMemsize t expectSize = some t' ∧ EvictsLru t t' (c :: rest) (c :: rest') expectSize := by
  obtain ⟨t',kept,hset,hsur,htrim,hcase⟩ := viewTreeSetMemsize_cases h expectSize
  obtain ⟨rest',rfl⟩ := head_kept htrim
  refine ⟨t',rest',hset,hsur,htrim,fun hlen => ?_,rfl⟩
  rcases hcase with ⟨-,hsame⟩ | ⟨d,vs,vs',hone,-⟩
  · exact hsame
  · rw [hone, List.length_singleton] at hlen
    omega

theorem Survives.inUse {c : ℕ} {rest : List ℕ} (hsur : Survives t t' (c :: rest)) :
    t'.InUse (t.nodes (t.lrulist.dataOf c)).name (t.nodes (t.lrulist.dataOf c)).vs := by
  have ha := hsur.wf.dataOf_mem (List.mem_cons_self : c ∈ c :: rest)
  obtain ⟨vs,hvs,-⟩ := hsur.wf.live _ ha
  rw [hsur.dataOf_eq] at ha hvs
  refine ⟨_,ha,by rw [hsur.nodes_eq],by rw [hsur.nodes_eq],?_⟩
  rw [← hsur.nodes_eq, hvs, Option.isSome_some]

end Evict

end ViewTree

open ViewTree

/-- The sizes that the limit is compared with are those of the tree once a part of the
LRU list is gone. -/
theorem eviction_lru (t : ViewTree) (cells : List ℕ) (h : t.Wf cells) :
    (∀ u cs, Survives t u cs → SameStats t u → viewTreeGetSize u = some (t.sizeAt cs)) ∧
      (cells ≠ [] → ∀ expectSize, ∃ t' kept, viewTreeSetMemsize t expectSize = some t' ∧ t'.Wf kept ∧
        EvictsLru t t' cells kept expectSize) ∧
      ∀ alloc view views addr, logHandleView alloc t view = some (views,some addr) →
        ∀ limit, ∃ views', logHandleRecycle limit views = some views' ∧ views'.InUse view addr := by
  refine ⟨?_,?_,?_⟩
  · intro u cs hsur hsame
    rw [hsur.wf.getSize, hsur.sizeAt_eq hsame (List.prefix_refl cs)]
  · intro hne expectSize
    obtain ⟨c,rest,rfl⟩ := List.exists_cons_of_ne_nil hne
    obtain ⟨t',rest',hset,hev⟩ := h.evictsLru expectSize
    exact ⟨t',_,hset,hev.survives.wf,hev⟩
  · intro alloc view views addr hview limit
    rcases logHandleView_cases h hview with ⟨hno,-⟩ | ⟨addr',c,rest,he,hwf,rfl,rfl,-,-⟩
    · cases hno
    · obtain rfl := Option.some_inj.mp he
      by_cases hover : limit < views.sizeAt (c :: rest)
      · obtain ⟨t',rest',hset,hev⟩ := hwf.evictsLru limit
        refine ⟨t',?_,hev.survives.inUse⟩
        simp only [logHandleRecycle, hwf.getSize, Option.bind_eq_bind, Option.bind_some, if_pos hover, hset]
      · refine ⟨views,?_,(Survives.refl hwf).inUse⟩
        simp only [logHandleRecycle, hwf.getSize, Option.bind_eq_bind, Option.bind_some, if_neg hover]

/-- One call of `log_handle` for each view. -/
def logViews (views : List CString) : Option HouseKeeper :=
  views.foldlM (fun keeper view => logHandle ⟨true,true,.succeed,.succeed,staleRecord⟩ keeper
    ⟨view,text "w.",text "10.0.0.1",text "A",text "NOERROR"⟩) (houseKeeperCreate (staleViews 0))

theorem logViews_wf {views : List CString} {keeper : HouseKeeper} (h : logViews views = some keeper) :
    ∃ cells, keeper.views.Wf cells := by
  suffices hgen : ∀ start : HouseKeeper, (∃ cells, start.views.Wf cells) →
      views.foldlM (fun keeper view => logHandle ⟨true,true,.succeed,.succeed,staleRecord⟩ keeper
        ⟨view,text "w.",text "10.0.0.1",text "A",text "NOERROR"⟩) start = some keeper →
      ∃ cells, keeper.views.Wf cells from hgen _ ⟨[],.create (staleViews 0) rfl⟩ h
  clear h
  induction views with
  | nil =>
    intro start hwf hr
    obtain rfl := Option.some_inj.mp hr
    exact hwf
  | cons view views ih =>
    rintro start ⟨cells,hwf⟩ hr
    obtain ⟨next,hnext,hr⟩ := Option.bind_eq_some_iff.mp (List.foldlM_cons.symm.trans hr)
    obtain ⟨⟨cells',hoff⟩,-,-⟩ := logHandle_cases (offBy_zero.mpr hwf) hnext
    exact ih next ⟨cells',offBy_zero.mp hoff⟩ hr

/-- Of three views the one that was logged first goes where the limit has room for two. -/
theorem eviction_lru_small : ∃ t cells t', t.Wf cells ∧ cells.length = 3 ∧ viewTreeSetMemsize t 700000 = some t' ∧
    t'.rbtree.elems.map (fun a => (t'.nodes a).name) = [letters 2,letters 3] ∧
    (∀ u cs, Survives t u cs → SameStats t u → viewTreeGetSize u = some (t.sizeAt cs)) ∧
      (cells ≠ [] → ∀ expectSize, ∃ t' kept, viewTreeSetMemsize t expectSize = some t' ∧ t'.Wf kept ∧
        EvictsLru t t' cells kept expectSize) ∧
      ∀ alloc view views addr, logHandleView alloc t view = some (views,some addr) →
        ∀ limit, ∃ views', logHandleRecycle limit views = some views' ∧ views'.InUse view addr := by
  have hrun : (logViews [letters 1,letters 2,letters 3]).bind (fun keeper =>
      (viewTreeSetMemsize keeper.views 700000).map fun t' => (keeper.views.rbtree.elems.length,
        t'.rbtree.elems.map fun a => (t'.nodes a).name)) = some (3,[letters 2,letters 3]) := by decide +kernel
  obtain ⟨keeper,hkeeper,hrun⟩ := Option.bind_eq_some_iff.mp hrun
  obtain ⟨t',hset,hlists⟩ := Option.map_eq_some_iff.mp hrun
  obtain ⟨hthree,htwo⟩ := Prod.mk.inj hlists
  obtain ⟨cells,hwf⟩ := logViews_wf hkeeper
  exact ⟨keeper.views,cells,t',hwf,hwf.length_eq ▸ hthree,hset,htwo,eviction_lru keeper.views cells hwf⟩

end LogStats
