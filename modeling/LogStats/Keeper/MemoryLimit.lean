import LogStats.Keeper.Rates
import LogStats.Views.Bytes

/-! # The memory limit over whole runs

`log_handle` compares the size with the limit before it adds the name and the address, and
gives the views up from the tail of the LRU list. Between two calls the tree is over the
limit by the overhead of the last view and two nodes at most, if `count` was zero when
`view_tree_create` left it as it was. All of this is about the size that the program
computes; the pools have grown by more than the nodes in use, and the allocator adds its own.
-/
namespace LogStats

open NameTree ViewTree

/-- Neither the name nor the address ends in the last byte of its field. -/
def LogRecord.Admissible (r : LogRecord) : Prop := LogStats.Admissible r.domain ∧ LogStats.Admissible r.ip

/-- Names that fit are logged, and every new tree has its count zeroed. -/
def KeeperOp.Regular : KeeperOp → Prop
  | .log _ r => r.Admissible
  | .flush memory => memory.count = 0
  | .recycle _ => True
  | .tick => True

/-- What a call may leave over the limit. -/
def logOverhead : ℕ := loneOverhead + 2 * nodeOverhead

/-- What holds of the keeper between two calls. -/
structure HouseKeeper.Limited (keeper : HouseKeeper) (limit : UInt64) : Prop where
  uplimit : keeper.memUplimit = limit
  wf : ∃ cells, keeper.views.Wf cells
  fitting : keeper.views.Fitting
  bytes_le : keeper.views.bytes ≤ limit.toNat + logOverhead

section Handle
variable {t t' : ViewTree} {cells : List ℕ} {alloc : LogAlloc} {r : LogRecord} {limit : UInt64} {view : CString}

theorem ViewTree.Fitting.create (memory : ViewTreeMemory) : (viewTreeCreate memory).Fitting :=
  fun a ha => absurd ha (by simp [viewTreeCreate])

theorem viewTreeCreate_bytes (memory : ViewTreeMemory) : (viewTreeCreate memory).bytes = 24 := by
  simp [viewTreeCreate, ViewTree.bytes, sizeofViewTree, lruListCreate]

/-- Looking a view up adds an empty one at most, and none if it is there. -/
theorem logHandleView_bytes {found : Option ℕ} (h : t.Wf cells) (hr : logHandleView alloc t view = some (t',found)) :
    t'.bytes ≤ t.bytes + viewBytes ∧ (t.ledger view ≠ none → t'.bytes = t.bytes) ∧ (t.Fitting → t'.Fitting) := by
  obtain ⟨node,hfind,hr⟩ := Option.bind_eq_some_iff.mp hr
  rcases h.find_cases hfind with ⟨a,rfl,ha,rfl⟩ | ⟨rfl,hne⟩
  · obtain ⟨lru,rest,hmove,hperm,-,hwf⟩ := h.moved ha
    simp only [hmove, Option.bind_eq_bind, Option.bind_some, Option.some_inj, Prod.mk.injEq] at hr
    obtain ⟨rfl,rfl⟩ := hr
    have hcount : lru.count = t.lrulist.count := by
      have hnew := hwf.lru.count_eq
      rw [← hperm.length_eq, ← h.lru.count_eq] at hnew
      exact hnew
    have hsame : ViewTree.bytes { t with lrulist := lru } = t.bytes := by
      simp only [ViewTree.bytes, hcount]
      rfl
    exact ⟨hsame.trans_le (Nat.le_add_right _ _),fun _ => hsame,id⟩
  · obtain ⟨created,hcreate,hr⟩ := Option.bind_eq_some_iff.mp hr
    rcases viewStatsCreate_cases hcreate with ⟨rfl,-⟩ | ⟨vs,rfl,hfresh,hshort⟩
    · obtain ⟨rfl,rfl⟩ := Prod.mk.inj (Option.some_inj.mp hr)
      exact ⟨Nat.le_add_right _ _,fun _ => rfl,id⟩
    · obtain ⟨t₁,hins,hr⟩ := Option.bind_eq_some_iff.mp hr
      obtain ⟨rfl,rfl⟩ := Prod.mk.inj (Option.some_inj.mp hr)
      have hnode : alloc.node = true := by
        by_contra hno
        simp [viewTreeInsert, viewTreeInsertResult, hno] at hins
      rw [hnode] at hins
      have hlen : view.strlen < statsNodeMaxSize := by
        rw [maxViewLength] at hshort
        rw [statsNodeMaxSize]
        omega
      obtain ⟨t₂,hins₂,hperm,hself,hold,hstats,hwf,-⟩ := h.inserted hfresh.sound hlen hne
      obtain rfl : t₁ = t₂ := Option.some_inj.mp (hins.symm.trans hins₂)
      obtain ⟨hvsFit,hvsBytes⟩ := viewStatsCreate_bytes hcreate
      have hnew : t₁.stats (t₁.nodes t.nodeBrk).vs = some vs := by
        rw [hself, hstats]
        exact Function.update_self _ _ _
      have hsame : ∀ a ∈ t.rbtree.elems, t₁.stats (t₁.nodes a).vs = t.stats (t.nodes a).vs := by
        intro a ha
        rw [hold a ha, hstats]
        exact Function.update_of_ne (h.vs_lt a ha).ne _ _
      refine ⟨?_,fun hledger => absurd (ledger_none hne) hledger,fun hfit a ha vs₁ hvs₁ => ?_⟩
      · have hsum := (hperm.map t₁.nodeBytes).sum_eq
        have hrest : t.rbtree.elems.map t₁.nodeBytes = t.rbtree.elems.map t.nodeBytes :=
          List.map_congr_left fun a ha => by rw [ViewTree.nodeBytes, ViewTree.nodeBytes, hsame a ha]
        rw [List.map_cons, List.sum_cons, hrest, nodeBytes_of_some hnew, hvsBytes] at hsum
        rw [ViewTree.bytes, ViewTree.bytes, hsum, hwf.lru.count_eq, h.lru.count_eq, viewBytes]
        simp only [Int.toNat_natCast, List.length_cons, Nat.mul_succ]
        omega
      · rcases List.mem_cons.mp (hperm.mem_iff.mp ha) with rfl | ha
        · exact Option.some_inj.mp (hnew.symm.trans hvs₁) ▸ hvsFit
        · exact hfit a ha vs₁ ((hsame a ha).symm.trans hvs₁)

theorem logHandleRecycle_bytes (h : t.Wf cells) (hfit : t.Fitting) (hne : cells ≠ []) (hsmall : t.bytes < 2 ^ 32)
    (hroom : emptyRecord ≤ limit.toNat) (hr : logHandleRecycle limit t = some t') :
    t'.Fitting ∧ t'.bytes ≤ limit.toNat + loneOverhead := by
  obtain ⟨size,hsize,hr⟩ := Option.bind_eq_some_iff.mp hr
  obtain rfl := Option.some_inj.mp (h.getSize.symm.trans hsize)
  split at hr
  · obtain ⟨hfit',-,hbound⟩ := viewTreeSetMemsize_bytes h hfit hsmall hr
    exact ⟨hfit',hbound hne hroom⟩
  · rename_i hwithin
    obtain rfl := Option.some_inj.mp hr
    rw [h.bytes_eq] at hsmall
    rw [UInt64.not_lt, UInt64.le_iff_toNat_le, h.sizeAt_of_small (List.prefix_refl cells) hsmall, ← h.bytes_eq] at hwithin
    exact ⟨hfit,by omega⟩

theorem logHandleRecord_bytes {vs vs' : ViewStats} (h : vs.Sound) (hr : logHandleRecord alloc vs r = some vs') :
    vs'.bytes ≤ vs.bytes + 2 * nodeOverhead ∧ (vs.AllFit → r.Admissible → vs'.AllFit) := by
  obtain ⟨vs₁,hname,hr⟩ := Option.bind_eq_some_iff.mp hr
  obtain ⟨vs₂,hip,hr⟩ := Option.bind_eq_some_iff.mp hr
  obtain ⟨j,hj,hr⟩ := Option.bind_eq_some_iff.mp hr
  obtain ⟨i,hi,hr⟩ := Option.bind_eq_some_iff.mp hr
  obtain rfl := Option.some_inj.mp hr
  obtain ⟨hle₁,hfit₁⟩ := viewStatsInsertName_bytes h hname
  obtain ⟨hle₂,hfit₂⟩ := viewStatsInsertIp_bytes (viewStatsInsertName_cases h hname).1 hip
  rw [viewStatsRtypeIncrement_lt _ (rtypeIndex_lt hj), viewStatsRcodeIncrement_lt _ (rcodeIndex_lt hi)]
  refine ⟨?_,fun hfit hadm => hfit₂ (hfit₁ hfit hadm.1) hadm.2⟩
  change vs₂.bytes ≤ _
  omega

end Handle

section Steps
variable {keeper keeper' : HouseKeeper} {alloc : LogAlloc} {r : LogRecord} {op : KeeperOp} {limit : UInt64}

theorem HouseKeeper.Limited.log (h : keeper.Limited limit) (hroom : emptyRecord ≤ limit.toNat) (hlow : limit.toNat < 2 ^ 30)
    (hadm : r.Admissible) (hr : logHandle alloc keeper r = some keeper') : keeper'.Limited limit := by
  obtain ⟨cells,hwf⟩ := h.wf
  have hbytes := h.bytes_le
  have hoff : keeper.views.OffBy 0 cells := ⟨_,hwf,(shift_zero _).symm⟩
  obtain ⟨⟨cells',u,hu,hviews⟩,huplimit,-⟩ := logHandle_cases hoff hr
  rw [shift_zero] at hviews
  suffices hkept : keeper'.views.Fitting ∧ keeper'.views.bytes ≤ limit.toNat + logOverhead from
    ⟨huplimit.trans h.uplimit,⟨cells',hviews ▸ hu⟩,hkept.1,hkept.2⟩
  obtain ⟨⟨views,found⟩,hview,hr⟩ := Option.bind_eq_some_iff.mp hr
  obtain ⟨hle₁,-,hfit₁⟩ := logHandleView_bytes hwf hview
  have hsmall : views.bytes < 2 ^ 32 := by
    simp only [logOverhead, nodeOverhead, loneOverhead, viewBytes, statsNodeMaxSize, sizeofRbnode, sizeofNodeValue,
      sizeofLruNode] at hbytes hle₁
    omega
  rcases logHandleView_cases hwf hview with ⟨rfl,rfl,-⟩ | ⟨addr,c,rest,rfl,hwf₁,-,haddr,-⟩
  · obtain rfl := Option.some_inj.mp hr
    exact ⟨h.fitting,hbytes⟩
  · obtain ⟨views₂,hrecycle,hr⟩ := Option.bind_eq_some_iff.mp hr
    obtain ⟨vs,hvs,hr⟩ := Option.bind_eq_some_iff.mp hr
    obtain ⟨vs',hrecord,hr⟩ := Option.bind_eq_some_iff.mp hr
    obtain rfl := Option.some_inj.mp hr
    rw [h.uplimit] at hrecycle
    obtain ⟨hfit₂,hle₂⟩ := logHandleRecycle_bytes hwf₁ (hfit₁ h.fitting) (List.cons_ne_nil c rest) hsmall hroom hrecycle
    obtain ⟨u₂,kept,rfl,hsur,-⟩ := logHandleRecycle_shift (d := 0) hwf₁ ((shift_zero views).symm ▸ hrecycle)
    rw [shift_zero] at hvs hfit₂ hle₂ hviews ⊢
    -- the view was put at the head of the list, which the recycling keeps
    have hmem : views.lrulist.dataOf c ∈ u₂.rbtree.elems := by
      by_contra hna
      have hfreed := hsur.freed _ (hwf₁.dataOf_mem List.mem_cons_self) hna
      rw [haddr, hvs] at hfreed
      cases hfreed
    rw [← hsur.nodes_eq] at haddr
    rw [← haddr] at hvs ⊢
    obtain ⟨vs₁,hvs₁,hsound⟩ := hsur.wf.live _ hmem
    obtain rfl : vs = vs₁ := Option.some_inj.mp (hvs.symm.trans hvs₁)
    obtain ⟨hle₃,hfit₃⟩ := logHandleRecord_bytes hsound hrecord
    have hle₄ := hsur.wf.bytes_recorded hmem hvs hle₃
    refine ⟨hsur.wf.fitting_recorded hfit₂ hmem (hfit₃ (hfit₂ _ hmem vs hvs) hadm),hle₄.trans ?_⟩
    rw [logOverhead]
    omega

/-- A round of the clock changes no tree of a record. -/
theorem qpsThreadRound_bytes {d : ℤ} {cells : List ℕ} (h : keeper.views.OffBy d cells)
    (hr : qpsThreadRound keeper = some keeper') :
    keeper'.views.bytes = keeper.views.bytes ∧ (keeper.views.Fitting → keeper'.views.Fitting) := by
  obtain ⟨t,hwf,hviews⟩ := h
  have helems : keeper.views.rbtree = t.rbtree := by rw [hviews, shift_rbtree]
  have hnodes : keeper.views.nodes = t.nodes := by rw [hviews, shift_nodes]
  have hstats : keeper.views.stats = t.stats := by rw [hviews, shift_stats]
  have hnodup : (t.rbtree.elems.map fun a => (t.nodes a).vs).Nodup :=
    (List.nodup_map_iff_inj_on hwf.elems_nodup).mpr (fun a ha b hb he => hwf.own a ha b hb he)
  have hlive : ∀ a ∈ t.rbtree.elems, ∃ vs, t.stats (t.nodes a).vs = some vs := by
    intro a ha
    obtain ⟨vs,hvs,-⟩ := hwf.live a ha
    exact ⟨vs,hvs⟩
  obtain ⟨stats,hrun,hmem,-⟩ := qpsThreadLoop_spec hnodup hlive
  obtain ⟨stats₁,hloop,hr⟩ := Option.bind_eq_some_iff.mp hr
  rw [helems, hnodes, hstats] at hloop
  obtain rfl : stats = stats₁ := Option.some_inj.mp (hrun.symm.trans hloop)
  obtain rfl := Option.some_inj.mp hr
  have hrecord : ∀ a ∈ t.rbtree.elems, ∃ vs vs', t.stats (t.nodes a).vs = some vs ∧ stats (t.nodes a).vs = some vs' ∧
      (vs.AllFit → vs'.AllFit) ∧ vs'.bytes = vs.bytes := by
    intro a ha
    obtain ⟨vs,hvs,-⟩ := hwf.live a ha
    have hnew := hmem a ha
    rw [hvs] at hnew
    split at hnew
    · exact ⟨vs,vs,hvs,hnew,id,rfl⟩
    · exact ⟨vs,qpsThreadRecord vs,hvs,hnew,id,rfl⟩
  rw [hviews]
  constructor
  · have hnode : ∀ a ∈ t.rbtree.elems, ViewTree.nodeBytes { t.shift d with stats := stats } a = t.nodeBytes a := by
      intro a ha
      obtain ⟨vs,vs',hvs,hvs',-,hbytes⟩ := hrecord a ha
      rw [nodeBytes_of_some hvs, ← hbytes]
      exact nodeBytes_of_some hvs'
    change (t.rbtree.elems.map (ViewTree.nodeBytes { t.shift d with stats := stats })).sum + _ + _ = _
    rw [List.map_congr_left hnode]
    rfl
  · intro hfit a ha vs₁ hvs₁
    obtain ⟨vs,vs',hvs,hvs',hkeeps,-⟩ := hrecord a ha
    exact Option.some_inj.mp (hvs'.symm.trans hvs₁) ▸ hkeeps (hfit a ha vs hvs)

theorem HouseKeeper.Limited.tick (h : keeper.Limited limit) (hr : qpsThreadRound keeper = some keeper') :
    keeper'.Limited limit := by
  obtain ⟨cells,hwf⟩ := h.wf
  have hoff : keeper.views.OffBy 0 cells := ⟨_,hwf,(shift_zero _).symm⟩
  obtain ⟨hbytes,hfit⟩ := qpsThreadRound_bytes hoff hr
  obtain ⟨stats,hrun,hwf',-⟩ := qpsThreadRound_cases hwf (shift_zero keeper.views).symm
  obtain rfl := Option.some_inj.mp (hrun.symm.trans hr)
  exact ⟨h.uplimit,⟨cells,hwf'⟩,hfit h.fitting,hbytes.trans_le h.bytes_le⟩

/-- Every step keeps the limit. -/
theorem keeperStep_limited (h : keeper.Limited limit) (hroom : emptyRecord ≤ limit.toNat) (hlow : limit.toNat < 2 ^ 30)
    (hreg : op.Regular) (hr : keeperStep keeper op = some keeper') : keeper'.Limited limit := by
  cases op with
  | log alloc r => exact h.log hroom hlow hreg hr
  | flush memory =>
    obtain rfl := Option.some_inj.mp hr
    refine ⟨h.uplimit,⟨[],.create memory hreg⟩,.create memory,?_⟩
    have hbytes : (houseKeeperClearStats memory keeper).views.bytes = 24 := viewTreeCreate_bytes memory
    rw [emptyRecord] at hroom
    omega
  | recycle expectSize =>
    obtain ⟨cells,hwf⟩ := h.wf
    obtain ⟨views,hset,rfl⟩ := Option.map_eq_some_iff.mp hr
    have hbytes := h.bytes_le
    have hsmall : keeper.views.bytes < 2 ^ 32 := by
      simp only [logOverhead, nodeOverhead, loneOverhead, sizeofRbnode, sizeofNodeValue, sizeofLruNode] at hbytes
      omega
    obtain ⟨hfit,hle,-⟩ := viewTreeSetMemsize_bytes hwf h.fitting hsmall hset
    obtain ⟨views₁,kept,hset₁,hsur,-⟩ := viewTreeSetMemsize_cases hwf expectSize
    obtain rfl : views = views₁ := Option.some_inj.mp (hset.symm.trans hset₁)
    exact ⟨h.uplimit,⟨kept,hsur.wf⟩,hfit,hle.trans hbytes⟩
  | tick => exact h.tick hr

end Steps

/-! ## Every run -/

/-- From the creation on the size that `view_tree_get_size` computes is at most 400 bytes over
the limit between two calls, it is computed without wrapping, and there are never more than 32
views. -/
theorem memory_bounded (memory : ViewTreeMemory) (ops : List KeeperOp) (keeper : HouseKeeper) (hcount : memory.count = 0)
    (hops : ∀ op ∈ ops, op.Regular) (hrun : run keeperStep (houseKeeperCreate memory) ops = some keeper) :
    keeper.views.bytes ≤ 10 * 1024 * 1024 + 400 ∧ viewTreeGetSize keeper.views = some (UInt64.ofNat keeper.views.bytes) ∧
      keeper.views.rbtree.elems.length ≤ 32 := by
  have hempty : emptyRecord = 320704 := rfl
  have hinit : (houseKeeperCreate memory).Limited 10485760 := by
    refine ⟨rfl,⟨[],.create memory hcount⟩,.create memory,?_⟩
    exact (viewTreeCreate_bytes memory).trans_le (by decide)
  have hok : Along keeperStep (fun _ op => op.Regular) (houseKeeperCreate memory) ops := .of_forall hops
  have hlimited : keeper.Limited 10485760 :=
    run_induction (P := fun _ k => HouseKeeper.Limited k 10485760) hinit
      (fun _ k op k' hk hreg hr => keeperStep_limited hk (by decide) (by decide) hreg hr) hok hrun
  obtain ⟨cells,hwf⟩ := hlimited.wf
  have hbytes : keeper.views.bytes ≤ 10486160 := hlimited.bytes_le
  refine ⟨hbytes,?_,?_⟩
  · have hsmall := hwf.sizeAt_of_small (List.prefix_refl cells) (hwf.bytes_eq ▸ lt_of_le_of_lt hbytes (by decide))
    rw [hwf.getSize, hwf.bytes_eq, ← hsmall, UInt64.ofNat_toNat]
  · have hviews := hwf.views_le
    rw [viewBytes, hempty, statsNodeMaxSize, sizeofLruNode] at hviews
    omega

/-- One call for each of `n` views. -/
def viewCalls (n : ℕ) : List KeeperOp := (List.range n).map fun i =>
  .log plentyOfMemory ⟨letters (i + 1),text "w.",text "10.0.0.1",text "A",text "NOERROR"⟩

/-- The last of 33 views takes the tree over the limit, and the first one goes. -/
theorem memory_bounded_33 : ∃ keeper, run keeperStep (houseKeeperCreate (staleViews 0)) (viewCalls 33) = some keeper ∧
    keeper.views.rbtree.elems.length = 32 ∧ keeper.views.bytes ≤ 10 * 1024 * 1024 + 400 ∧
    viewTreeGetSize keeper.views = some (UInt64.ofNat keeper.views.bytes) ∧ keeper.views.rbtree.elems.length ≤ 32 := by
  have hlength : (run keeperStep (houseKeeperCreate (staleViews 0)) (viewCalls 33)).map
      (fun keeper => keeper.views.rbtree.elems.length) = some 32 := by decide +kernel
  obtain ⟨keeper,hrun,hlength⟩ := Option.map_eq_some_iff.mp hlength
  have hreg : ∀ op ∈ viewCalls 33, op.Regular := by
    intro op hop
    obtain ⟨i,-,rfl⟩ := List.mem_map.mp hop
    exact (by decide : Admissible (text "w.") ∧ Admissible (text "10.0.0.1"))
  exact ⟨keeper,hrun,hlength,memory_bounded (staleViews 0) (viewCalls 33) keeper rfl hreg hrun⟩

end LogStats
