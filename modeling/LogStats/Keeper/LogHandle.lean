import LogStats.Keeper.HouseKeeper
import LogStats.Views.Ledger

/-! # log_handle keeps the ledger

The view that a record is for is at the head of the LRU list before the recycling. In a
tree with the right count it stays; in one with a wrong count it may be evicted, and the
record then goes into memory that was freed, which is undefined. Where the call returns
it has added one record to the ledger.
-/
namespace LogStats

open ViewTree

/-- What is left of the tree after a recycling that returned, with the count off by `d`. -/
def ViewTree.OffBy (t : ViewTree) (d : ℤ) (cells : List ℕ) : Prop := ∃ u : ViewTree, u.Wf cells ∧ t = u.shift d

section View
variable {t t' : ViewTree} {cells : List ℕ} {alloc : LogAlloc} {view : CString} {r : Option ℕ} {d : ℤ}

theorem logHandleView_cases (h : t.Wf cells) (hr : logHandleView alloc t view = some (t',r)) :
    (r = none ∧ t' = t ∧ t.ledger view = none ∧ (alloc.stats = true → maxViewLength < view.strlen)) ∨
      ∃ addr c rest, r = some addr ∧ t'.Wf (c :: rest) ∧ (t'.nodes (t'.lrulist.dataOf c)).name = view ∧
        (t'.nodes (t'.lrulist.dataOf c)).vs = addr ∧
        t'.ledger = Function.update t.ledger view (some ((t.ledger view).getD .zero)) ∧
        (t.ledger view = none → view.strlen < maxViewLength) := by
  obtain ⟨found,hfind,hr⟩ := Option.bind_eq_some_iff.mp hr
  rcases h.find_cases hfind with ⟨a,rfl,ha,rfl⟩ | ⟨rfl,hne⟩
  · obtain ⟨vs,hvs,-⟩ := h.live a ha
    have hledger : t.ledger (t.nodes a).name = some vs.counters := by rw [h.ledger_of_mem ha, hvs, Option.map_some]
    obtain ⟨lru,rest,hmove,-,hdata,hwf⟩ := h.moved ha
    simp only [hmove, Option.bind_eq_bind, Option.bind_some, Option.some_inj, Prod.mk.injEq] at hr
    obtain ⟨rfl,rfl⟩ := hr
    have hnode : lru.dataOf (t.nodes a).ptr = a := by rw [hdata, (h.ptr_mem ha).2]
    refine Or.inr ⟨_,_,rest,rfl,hwf,?_,?_,?_,?_⟩
    · change (t.nodes (lru.dataOf _)).name = _
      rw [hnode]
    · change (t.nodes (lru.dataOf _)).vs = _
      rw [hnode]
    · rw [hledger, Option.getD_some, ← hledger, Function.update_eq_self]
      rfl
    · rw [hledger]
      exact fun he => by cases he
  · have hledger : t.ledger view = none := ledger_none hne
    obtain ⟨created,hcreate,hr⟩ := Option.bind_eq_some_iff.mp hr
    rcases viewStatsCreate_cases hcreate with ⟨rfl,hlong⟩ | ⟨vs,rfl,hfresh,hshort⟩
    · obtain ⟨rfl,rfl⟩ := Prod.mk.inj (Option.some_inj.mp hr)
      exact Or.inl ⟨rfl,rfl,hledger,hlong⟩
    · obtain ⟨t₁,hins,hr⟩ := Option.bind_eq_some_iff.mp hr
      obtain ⟨rfl,rfl⟩ := Prod.mk.inj (Option.some_inj.mp hr)
      have hnode : alloc.node = true := by
        by_contra hno
        simp [viewTreeInsert, viewTreeInsertResult, hno] at hins
      rw [hnode] at hins
      have hlen : view.strlen < statsNodeMaxSize := by
        rw [maxViewLength] at hshort
        rw [statsNodeMaxSize]
        omega
      obtain ⟨t₂,hins₂,hperm,hself,hold,hstats,hwf,hdata⟩ := h.inserted hfresh.sound hlen hne
      obtain rfl : t₁ = t₂ := Option.some_inj.mp (hins.symm.trans hins₂)
      refine Or.inr ⟨_,_,cells,rfl,hwf,?_,?_,?_,fun _ => hshort⟩
      · rw [hdata, hself]
      · rw [hdata, hself]
      · rw [hledger, Option.getD_none, ← hfresh.counters_eq]
        exact h.ledger_inserted hwf hperm hself hold (fun b hb => (h.vs_lt b hb).ne) hstats

theorem logHandleView_shift (alloc : LogAlloc) (t : ViewTree) (d : ℤ) (view : CString) :
    logHandleView alloc (t.shift d) view = (logHandleView alloc t view).map fun p => (p.1.shift d,p.2) := by
  simp only [logHandleView, viewTreeFind_shift, Option.bind_eq_bind, Option.map_bind, Function.comp_def]
  congr 1
  funext found
  cases found with
  | some vtnode => simp [Option.map_bind, shift]
  | none =>
    simp only [Option.map_bind, Function.comp_def]
    congr 1
    funext created
    cases created with
    | none => rfl
    | some vs =>
      have hins := viewTreeInsert_shift alloc.node
        { t with stats := Function.update t.stats t.statsBrk (some vs), statsBrk := t.statsBrk + 1 } d view t.statsBrk
      simp only [shift_stats, shift_statsBrk, Option.map_bind, Function.comp_def, Option.map_some]
      exact (congrArg (Option.bind · _) hins).trans (by simp [Option.bind_map])

end View

section Record
variable {vs vs' : ViewStats} {alloc : LogAlloc} {r : LogRecord}

theorem logHandleRecord_cases (h : vs.Sound) (hr : logHandleRecord alloc vs r = some vs') :
    vs'.Sound ∧ ∃ (i : Fin 7) (j : Fin 12), rcodeIndex r.rcode = some i.val ∧ rtypeIndex r.rtype = some j.val ∧
      vs'.counters = vs.counters.log i j := by
  obtain ⟨vs₁,hname,hr⟩ := Option.bind_eq_some_iff.mp hr
  obtain ⟨vs₂,hip,hr⟩ := Option.bind_eq_some_iff.mp hr
  obtain ⟨j,hj,hr⟩ := Option.bind_eq_some_iff.mp hr
  obtain ⟨i,hi,hr⟩ := Option.bind_eq_some_iff.mp hr
  obtain rfl := Option.some_inj.mp hr
  obtain ⟨hsound₁,he₁⟩ := viewStatsInsertName_cases h hname
  obtain ⟨hsound₂,he₂⟩ := viewStatsInsertIp_cases hsound₁ hip
  have hcounters : vs₂.counters = vs.counters := by
    rw [he₂, he₁]
    rfl
  rw [viewStatsRtypeIncrement_lt _ (rtypeIndex_lt hj), viewStatsRcodeIncrement_lt _ (rcodeIndex_lt hi)]
  obtain ⟨nameCells,ipCells,hwf⟩ := hsound₂
  refine ⟨⟨nameCells,ipCells,hwf.nameTree,hwf.ipTree⟩,⟨i,rcodeIndex_lt hi⟩,⟨j,rtypeIndex_lt hj⟩,hi,hj,?_⟩
  rw [← hcounters]
  rfl

end Record

/-! ## A whole call -/

/-- The call goes over the memory limit and recycles. -/
def LogRecycles (alloc : LogAlloc) (keeper : HouseKeeper) (r : LogRecord) : Prop :=
  ∃ found ∈ logHandleView alloc keeper.views r.view, found.2.isSome ∧
    ∃ size ∈ viewTreeGetSize found.1, keeper.memUplimit < size

instance (alloc : LogAlloc) (keeper : HouseKeeper) (r : LogRecord) : Decidable (LogRecycles alloc keeper r) :=
  inferInstanceAs (Decidable (∃ found ∈ logHandleView alloc keeper.views r.view, _))

def HouseKeeper.ledger (keeper : HouseKeeper) : Ledger := keeper.views.ledger

/-- What one call of `log_handle` does to the ledger. -/
inductive LogOutcome (alloc : LogAlloc) (r : LogRecord) (recycles : Prop) (l l' : Ledger) : Prop where
  /-- A view without a record is refused one. -/
  | refused (new : l r.view = none) (long : alloc.stats = true → maxViewLength < r.view.strlen) (same : l' = l)
  | counted (rcode : Fin 7) (rtype : Fin 12) (hrcode : rcodeIndex r.rcode = some rcode.val)
      (hrtype : rtypeIndex r.rtype = some rtype.val) (short : l r.view = none → r.view.strlen < maxViewLength)
      (self : l' r.view = l.log r.view rcode rtype r.view) (others : (l.log r.view rcode rtype).Forgets l')
      (all : ¬recycles → l' = l.log r.view rcode rtype)

section Handle
variable {keeper keeper' : HouseKeeper} {cells : List ℕ} {alloc : LogAlloc} {r : LogRecord} {d : ℤ}

/-- The recycling in a tree with any count. -/
theorem logHandleRecycle_shift {t t' : ViewTree} {limit : UInt64} (h : t.Wf cells)
    (hr : logHandleRecycle limit (t.shift d) = some t') : ∃ u kept, t' = u.shift d ∧ Survives t u kept ∧
      t.ledger.Forgets u.ledger ∧ (t.sizeAt cells ≤ limit → u = t) := by
  simp only [logHandleRecycle, viewTreeGetSize_shift, h.getSize, Option.bind_eq_bind, Option.bind_some] at hr
  split at hr
  · rename_i hover
    obtain ⟨u,kept,rfl,hsur,hforgets⟩ := viewTreeSetMemsize_forgets h hr
    exact ⟨u,kept,rfl,hsur,hforgets,fun hle => absurd hover (UInt64.not_lt.mpr hle)⟩
  · obtain rfl := Option.some_inj.mp hr
    exact ⟨t,cells,rfl,.refl h,.refl _,fun _ => rfl⟩

/-- The record is written to a view that survived the recycling, or else to freed memory. -/
theorem logHandleRecord_recycled {t u : ViewTree} {kept : List ℕ} {a : ℕ} {vs vs' : ViewStats}
    (hsur : Survives t u kept) (ha : a ∈ t.rbtree.elems) (hvs : u.stats (t.nodes a).vs = some vs)
    (hr : logHandleRecord alloc vs r = some vs') :
    ViewTree.Wf { u with stats := Function.update u.stats (t.nodes a).vs (some vs') } kept ∧
      u.ledger (t.nodes a).name = some vs.counters ∧
      ViewTree.ledger { u with stats := Function.update u.stats (t.nodes a).vs (some vs') } =
        Function.update u.ledger (t.nodes a).name (some vs'.counters) ∧
      ∃ (i : Fin 7) (j : Fin 12), rcodeIndex r.rcode = some i.val ∧ rtypeIndex r.rtype = some j.val ∧
        vs'.counters = vs.counters.log i j := by
  have hau : a ∈ u.rbtree.elems := by
    by_contra hna
    rw [hsur.freed a ha hna] at hvs
    cases hvs
  have hnode : t.nodes a = u.nodes a := by rw [hsur.nodes_eq]
  rw [hnode] at hvs ⊢
  obtain ⟨vs₁,hvs₁,hsound⟩ := hsur.wf.live a hau
  obtain rfl : vs = vs₁ := Option.some_inj.mp (hvs.symm.trans hvs₁)
  obtain ⟨hsound',hcounters⟩ := logHandleRecord_cases hsound hr
  refine ⟨hsur.wf.recorded_one _ hsound',?_,hsur.wf.ledger_recorded hau hsound',hcounters⟩
  rw [hsur.wf.ledger_of_mem hau, hvs, Option.map_some]

theorem logHandle_cases (h : keeper.views.OffBy d cells) (hr : logHandle alloc keeper r = some keeper') :
    (∃ cells', keeper'.views.OffBy d cells') ∧ keeper'.memUplimit = keeper.memUplimit ∧
      LogOutcome alloc r (LogRecycles alloc keeper r) keeper.ledger keeper'.ledger := by
  obtain ⟨t,hwf,hviews⟩ := h
  have hledger : keeper.ledger = t.ledger := by rw [HouseKeeper.ledger, hviews, ledger_shift]
  obtain ⟨⟨views,found⟩,hview,hr⟩ := Option.bind_eq_some_iff.mp hr
  have hshift := hview
  rw [hviews, logHandleView_shift] at hshift
  obtain ⟨⟨t₁,r₁⟩,hview₁,he⟩ := Option.map_eq_some_iff.mp hshift
  obtain ⟨rfl,rfl⟩ := Prod.mk.inj he
  rcases logHandleView_cases hwf hview₁ with ⟨rfl,rfl,hnone,hlong⟩ | ⟨addr,c,rest,rfl,hwf₁,hname,rfl,hledger₁,hshort⟩
  · obtain rfl := Option.some_inj.mp hr
    exact ⟨⟨cells,t₁,hwf,rfl⟩,rfl,.refused (by rw [hledger]; exact hnone) hlong hledger.symm⟩
  · obtain ⟨views₂,hrecycle,hr⟩ := Option.bind_eq_some_iff.mp hr
    obtain ⟨vs,hvs,hr⟩ := Option.bind_eq_some_iff.mp hr
    obtain ⟨vs',hrecord,hr⟩ := Option.bind_eq_some_iff.mp hr
    have hkeeper := (Option.some_inj.mp hr).symm
    obtain ⟨t₂,kept,rfl,hsur,hforgets,hsame⟩ := logHandleRecycle_shift hwf₁ hrecycle
    obtain ⟨hwf₂,hold,hnew,i,j,hi,hj,hcounters⟩ :=
      logHandleRecord_recycled hsur (hwf₁.dataOf_mem List.mem_cons_self) hvs hrecord
    rw [hname] at hold hnew
    have hledger' : keeper'.ledger = Function.update t₂.ledger r.view (some vs'.counters) := by
      rw [hkeeper]
      exact hnew
    have hgot : (t.ledger r.view).getD .zero = vs.counters := by
      have hback := hforgets.of_some hold
      rw [hledger₁, Function.update_self] at hback
      exact Option.some_inj.mp hback
    have hlog : keeper.ledger.log r.view i j = Function.update t₁.ledger r.view (some vs'.counters) := by
      rw [hledger, Ledger.log, hgot, hledger₁, Function.update_idem, hcounters]
    refine ⟨⟨kept,_,hwf₂,by rw [hkeeper]; rfl⟩,by rw [hkeeper],.counted i j hi hj ?_ ?_ ?_ ?_⟩
    · rw [hledger]
      exact hshort
    · rw [hlog, hledger', Function.update_self, Function.update_self]
    · intro name
      rw [hlog, hledger']
      by_cases hn : name = r.view
      · rw [hn, Function.update_self, Function.update_self]
        exact Or.inl rfl
      · rw [Function.update_of_ne hn, Function.update_of_ne hn]
        exact hforgets name
    · intro hno
      have hle : t₁.sizeAt (c :: rest) ≤ keeper.memUplimit := by
        rw [← UInt64.not_lt]
        exact fun hover => hno ⟨_,hview,rfl,_,hwf₁.getSize,hover⟩
      rw [hlog, hledger', hsame hle]

end Handle

end LogStats
