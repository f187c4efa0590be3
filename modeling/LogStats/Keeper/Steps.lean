import LogStats.Keeper.LogHandle

/-! # The steps of the keeper on its ledger

Flushing forgets every name, a recycling some, and a round of the clock sets the rates of
every record. The tree stays well-formed but for its count, which only a flush moves
against the number of nodes.
-/
namespace LogStats

open ViewTree

/-- What a round of `qps_thread` does to the numbers of a record. -/
def Counters.tick (c : Counters) : Counters :=
  { c with
    qps := (absoluteDiff c.lastCount c.count).toNat / 10
    lastCount := c.count
    successRate := if c.count = 0 then 1
      else (absoluteDiff (c.rcode rcodeServfail) c.count).toNat / c.count.toNat }

/-- The record of the empty name is passed over. -/
def Ledger.tick (l : Ledger) : Ledger := fun name => if name.strlen = 0 then l name else (l name).map Counters.tick

def LedgerStep (keeper : HouseKeeper) : KeeperOp → Ledger → Ledger → Prop
  | .log alloc r, l, l' => LogOutcome alloc r (LogRecycles alloc keeper r) l l'
  | .flush _, _, l' => l' = Ledger.empty
  | .recycle _, l, l' => l.Forgets l'
  | .tick, l, l' => l' = l.tick

/-- What the count is off by after an operation. -/
def KeeperOp.drift (d : ℤ) : KeeperOp → ℤ
  | .flush memory => memory.count
  | _ => d

/-! ## A round of the clock -/

/-- The loop of `qps_thread` over the nodes `l`. -/
def qpsThreadLoop (nodes : ℕ → ViewTreeNode) (l : List ℕ) (stats : ℕ → Option ViewStats) :
    Option (ℕ → Option ViewStats) :=
  l.foldlM (fun (stats : ℕ → Option ViewStats) tnode =>
    if (nodes tnode).name.strlen = 0 then some stats
    else (stats (nodes tnode).vs).map fun vs =>
      Function.update stats (nodes tnode).vs (some (qpsThreadRecord vs))) stats

theorem ViewStats.Sound.tick {vs : ViewStats} (h : vs.Sound) : (qpsThreadRecord vs).Sound := by
  obtain ⟨nameCells,ipCells,hwf⟩ := h
  exact ⟨nameCells,ipCells,hwf.nameTree,hwf.ipTree⟩

section Round
variable {nodes : ℕ → ViewTreeNode} {l : List ℕ} {stats : ℕ → Option ViewStats}

/-- The records are those of different nodes, so that each is set once. -/
theorem qpsThreadLoop_spec (hnodup : (l.map fun a => (nodes a).vs).Nodup)
    (hlive : ∀ a ∈ l, ∃ vs, stats (nodes a).vs = some vs) : ∃ stats', qpsThreadLoop nodes l stats = some stats' ∧
      (∀ a ∈ l, stats' (nodes a).vs =
        if (nodes a).name.strlen = 0 then stats (nodes a).vs else (stats (nodes a).vs).map qpsThreadRecord) ∧
      ∀ addr, (∀ a ∈ l, (nodes a).vs ≠ addr) → stats' addr = stats addr := by
  induction l generalizing stats with
  | nil => exact ⟨stats,rfl,fun a ha => absurd ha List.not_mem_nil,fun _ _ => rfl⟩
  | cons a l ih =>
    rw [List.map_cons, List.nodup_cons] at hnodup
    obtain ⟨hfirst,hnodup⟩ := hnodup
    have hother : ∀ b ∈ l, (nodes b).vs ≠ (nodes a).vs := fun b hb he => hfirst (List.mem_map.mpr ⟨b,hb,he⟩)
    obtain ⟨vs,hvs⟩ := hlive a List.mem_cons_self
    let stats₁ := if (nodes a).name.strlen = 0 then stats
      else Function.update stats (nodes a).vs (some (qpsThreadRecord vs))
    have hself : stats₁ (nodes a).vs =
        if (nodes a).name.strlen = 0 then stats (nodes a).vs else (stats (nodes a).vs).map qpsThreadRecord := by
      by_cases hz : (nodes a).name.strlen = 0
      · simp only [stats₁, if_pos hz]
      · simp only [stats₁, if_neg hz, Function.update_self, hvs, Option.map_some]
    have hrest : ∀ addr, addr ≠ (nodes a).vs → stats₁ addr = stats addr := by
      intro addr hne
      by_cases hz : (nodes a).name.strlen = 0
      · simp only [stats₁, if_pos hz]
      · simp only [stats₁, if_neg hz, Function.update_of_ne hne]
    have hstep : qpsThreadLoop nodes (a :: l) stats = qpsThreadLoop nodes l stats₁ := by
      by_cases hz : (nodes a).name.strlen = 0
      · simp only [qpsThreadLoop, List.foldlM_cons, if_pos hz, stats₁, Option.bind_eq_bind, Option.bind_some]
      · simp only [qpsThreadLoop, List.foldlM_cons, if_neg hz, stats₁, hvs, Option.map_some, Option.bind_eq_bind,
          Option.bind_some]
    have hlive₁ : ∀ b ∈ l, ∃ vs, stats₁ (nodes b).vs = some vs := fun b hb => by
      rw [hrest _ (hother b hb)]
      exact hlive b (List.mem_cons_of_mem a hb)
    obtain ⟨stats',hrun,hmem,hout⟩ := ih hnodup hlive₁
    refine ⟨stats',hstep.trans hrun,fun b hb => ?_,fun addr haddr => ?_⟩
    · rcases List.mem_cons.mp hb with rfl | hb
      · rw [hout _ hother, hself]
      · rw [hmem b hb, hrest _ (hother b hb)]
    · rw [hout addr (fun b hb => haddr b (List.mem_cons_of_mem a hb)), hrest addr (haddr a List.mem_cons_self).symm]

end Round

section Steps
variable {keeper keeper' : HouseKeeper} {cells : List ℕ} {op : KeeperOp} {d : ℤ}

theorem qpsThreadRound_cases {t : ViewTree} (h : t.Wf cells) (hviews : keeper.views = t.shift d) :
    ∃ stats, qpsThreadRound keeper = some { keeper with views := { keeper.views with stats := stats } } ∧
      ViewTree.Wf { t with stats := stats } cells ∧ ViewTree.ledger { t with stats := stats } = t.ledger.tick := by
  have hnodup : (t.rbtree.elems.map fun a => (t.nodes a).vs).Nodup :=
    (List.nodup_map_iff_inj_on h.elems_nodup).mpr (fun a ha b hb he => h.own a ha b hb he)
  have hlive : ∀ a ∈ t.rbtree.elems, ∃ vs, t.stats (t.nodes a).vs = some vs := fun a ha => by
    obtain ⟨vs,hvs,-⟩ := h.live a ha
    exact ⟨vs,hvs⟩
  obtain ⟨stats,hrun,hmem,-⟩ := qpsThreadLoop_spec hnodup hlive
  have hwf : ViewTree.Wf { t with stats := stats } cells := by
    apply h.recorded
    intro a ha
    obtain ⟨vs,hvs,hsound⟩ := h.live a ha
    rw [hmem a ha, hvs]
    split
    · exact ⟨vs,rfl,hsound⟩
    · exact ⟨_,rfl,hsound.tick⟩
  refine ⟨stats,?_,hwf,funext fun name => ?_⟩
  · have hloop : qpsThreadRound keeper = (qpsThreadLoop keeper.views.nodes keeper.views.rbtree.elems
        keeper.views.stats).map fun stats => { keeper with views := { keeper.views with stats := stats } } := by
      rw [qpsThreadRound, qpsThreadLoop, Option.bind_eq_bind]
      exact (Option.map_eq_bind).symm
    rw [hloop, hviews]
    exact congrArg _ hrun
  · rcases h.name_cases name with ⟨a,ha,rfl,vs,-,hvs,-,hl⟩ | ⟨hne,-,hl⟩
    · rw [Ledger.tick, hl]
      apply (hwf.ledger_of_mem ha).trans
      change (stats (t.nodes a).vs).map _ = _
      rw [hmem a ha, hvs]
      split <;> rfl
    · rw [Ledger.tick, hl]
      have hnone : ViewTree.ledger { t with stats := stats } name = none := ledger_none hne
      rw [hnone]
      split <;> rfl

/-- Every step of the keeper is a step of its ledger. -/
theorem keeperStep_cases (h : keeper.views.OffBy d cells) (hr : keeperStep keeper op = some keeper') :
    (∃ cells', keeper'.views.OffBy (op.drift d) cells') ∧ keeper'.memUplimit = keeper.memUplimit ∧
      LedgerStep keeper op keeper.ledger keeper'.ledger := by
  cases op with
  | log alloc r => exact logHandle_cases h hr
  | flush memory =>
    obtain rfl := Option.some_inj.mp hr
    obtain ⟨t,hwf,hcreate⟩ := viewTreeCreate_shift memory
    exact ⟨⟨[],t,hwf,hcreate⟩,rfl,ledger_create memory⟩
  | recycle expectSize =>
    obtain ⟨t,hwf,hviews⟩ := h
    obtain ⟨views,hset,rfl⟩ := Option.map_eq_some_iff.mp hr
    rw [hviews] at hset
    obtain ⟨u,kept,rfl,hsur,hforgets⟩ := viewTreeSetMemsize_forgets hwf hset
    refine ⟨⟨kept,u,hsur.wf,rfl⟩,rfl,?_⟩
    rw [HouseKeeper.ledger, hviews]
    exact hforgets
  | tick =>
    obtain ⟨t,hwf,hviews⟩ := h
    obtain ⟨stats,hrun,hwf',hledger⟩ := qpsThreadRound_cases hwf hviews
    obtain rfl := Option.some_inj.mp (hrun.symm.trans hr)
    refine ⟨⟨cells,_,hwf',by rw [hviews]; rfl⟩,rfl,?_⟩
    rw [LedgerStep, HouseKeeper.ledger, HouseKeeper.ledger, hviews]
    exact hledger

end Steps

end LogStats
