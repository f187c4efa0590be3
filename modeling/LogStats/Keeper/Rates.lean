import LogStats.Keeper.Steps
import LogStats.Library.Run
import LogStats.Views.Limit

/-! # The rates that qps_thread sets

The rates come from `count`, which no function changes after `view_stats_create` has set
it to 0. Next to the keeper, a tally of the calls of `log_handle` for each name says what
they should be.
-/
namespace LogStats

open ViewTree

/-- What was logged for a view: since the last round of the clock, and since the view is there. -/
structure Tally where
  calls : ℕ
  total : ℕ
  servfail : ℕ

namespace Tally

def zero : Tally := ⟨0,0,0⟩

def log (t : Tally) (rcode : CString) : Tally :=
  ⟨t.calls + 1,t.total + 1,if rcodeIndex rcode = some rcodeServfail.val then t.servfail + 1 else t.servfail⟩

def tick (t : Tally) : Tally := { t with calls := 0 }

end Tally

/-- A view that is not there starts with an empty tally. -/
def KeeperOp.tally (l : Ledger) (tally : CString → Tally) : KeeperOp → CString → Tally
  | .log _ r => Function.update tally r.view ((if (l r.view).isSome then tally r.view else .zero).log r.rcode)
  | .tick => fun name => (tally name).tick
  | _ => tally

/-- The keeper and the tallies of all names. -/
structure Tallied where
  keeper : HouseKeeper
  tally : CString → Tally

def talliedStep (s : Tallied) (op : KeeperOp) : Option Tallied :=
  (keeperStep s.keeper op).map fun keeper => ⟨keeper,op.tally s.keeper.ledger s.tally⟩

def talliedCreate (memory : ViewTreeMemory) : Tallied := ⟨houseKeeperCreate memory,fun _ => .zero⟩

/-- The rates of a record are those of a tally. -/
def ViewStats.RatesRight (vs : ViewStats) (t : Tally) : Prop :=
  vs.qps = t.calls / 10 ∧ vs.successRate = if t.total = 0 then 1 else ((t.total : ℚ) - t.servfail) / t.total

/-! ## Rates never move -/

/-- The numbers from which the rates are computed are still 0. -/
structure Counters.Idle (c : Counters) : Prop where
  qps : c.qps = 0
  successRate : c.successRate = 1
  count : c.count = 0
  lastCount : c.lastCount = 0

theorem Counters.Idle.zero : Counters.zero.Idle := ⟨rfl,rfl,rfl,rfl⟩

theorem Counters.Idle.log {c : Counters} (h : c.Idle) (i : Fin 7) (j : Fin 12) : (c.log i j).Idle :=
  ⟨h.qps,h.successRate,h.count,h.lastCount⟩

theorem Counters.Idle.tick {c : Counters} (h : c.Idle) : c.tick.Idle where
  qps := by simp [Counters.tick, h.count, h.lastCount, absoluteDiff]
  successRate := by simp [Counters.tick, h.count]
  count := h.count
  lastCount := h.count

/-- What the tally of a name has to do with the numbers of its record. -/
structure Counters.Follows (c : Counters) (t : Tally) : Prop where
  idle : c.Idle
  servfail : c.rcode rcodeServfail = UInt32.ofNat t.servfail
  servfail_le : t.servfail ≤ t.total

theorem Counters.Follows.zero : Counters.zero.Follows .zero := ⟨.zero,rfl,le_rfl⟩

theorem Counters.Follows.log {c : Counters} {t : Tally} (h : c.Follows t) {rcode : CString} {i : Fin 7}
    (hi : rcodeIndex rcode = some i.val) (j : Fin 12) : (c.log i j).Follows (t.log rcode) := by
  have hservfail := h.servfail_le
  refine ⟨h.idle.log i j,?_,?_⟩
  · by_cases hs : i = rcodeServfail
    · subst hs
      have hadd : UInt32.ofNat (t.servfail + 1) = UInt32.ofNat t.servfail + 1 := UInt32.ofNat_add _ _
      simp only [Counters.log, Function.update_self, Tally.log, if_pos hi, h.servfail, hadd]
    · have hne : ¬rcodeIndex rcode = some rcodeServfail.val := by
        rw [hi, Option.some_inj]
        exact fun he => hs (Fin.ext he)
      simp only [Counters.log, Function.update_of_ne (Ne.symm hs), Tally.log, if_neg hne, h.servfail]
  · simp only [Tally.log]
    split <;> omega

theorem Counters.Follows.of_tick {c : Counters} {t : Tally} (h : c.Follows t) : c.tick.Follows t :=
  ⟨h.idle.tick,h.servfail,h.servfail_le⟩

theorem Counters.Follows.tick {c : Counters} {t : Tally} (h : c.Follows t) : c.Follows t.tick :=
  ⟨h.idle,h.servfail,h.servfail_le⟩

/-- The rates that never move are right where nothing was to be counted. -/
theorem Counters.Follows.ratesRight_iff {vs : ViewStats} {t : Tally} (h : vs.counters.Follows t) :
    vs.RatesRight t ↔ t.calls = 0 ∧ t.servfail = 0 := by
  have hqps : vs.qps = 0 := h.idle.qps
  have hrate : vs.successRate = 1 := h.idle.successRate
  rw [ViewStats.RatesRight, hqps, hrate]
  refine and_congr ?_ ?_
  · constructor
    · intro he
      have hzero : (t.calls : ℚ) = 0 := by linarith
      exact_mod_cast hzero
    · intro he
      rw [he]
      norm_num
  · by_cases htotal : t.total = 0
    · have hle := h.servfail_le
      rw [if_pos htotal]
      exact iff_of_true rfl (by omega)
    · have hne : (t.total : ℚ) ≠ 0 := by exact_mod_cast htotal
      rw [if_neg htotal, eq_div_iff hne, one_mul]
      constructor
      · intro he
        have hzero : (t.servfail : ℚ) = 0 := by linarith
        exact_mod_cast hzero
      · intro he
        rw [he, Nat.cast_zero, sub_zero]

/-! ## Tallies over runs -/

/-- Every record follows the tally of its name. -/
def Ledger.Follows (l : Ledger) (tally : CString → Tally) : Prop := ∀ name c, l name = some c → c.Follows (tally name)

section Runs
variable {l l' : Ledger} {tally : CString → Tally} {keeper : HouseKeeper} {op : KeeperOp}

theorem Ledger.Follows.forgets (h : l.Follows tally) (hf : l.Forgets l') : l'.Follows tally :=
  fun name c hc => h name c (hf.of_some hc)

theorem Ledger.Follows.logged (h : l.Follows tally) {alloc : LogAlloc} {r : LogRecord} {recycles : Prop}
    (hstep : LogOutcome alloc r recycles l l') : l'.Follows ((KeeperOp.log alloc r).tally l tally) := by
  cases hstep with
  | refused hnew _ hsame =>
    subst hsame
    intro name c hc
    have hne : name ≠ r.view := by
      rintro rfl
      rw [hnew] at hc
      cases hc
    rw [KeeperOp.tally, Function.update_of_ne hne]
    exact h name c hc
  | counted i j hi hj _ _ hothers _ =>
    refine Ledger.Follows.forgets (fun name c hc => ?_) hothers
    by_cases hn : name = r.view
    · subst hn
      rw [Ledger.log_self, Option.some_inj] at hc
      rw [← hc, KeeperOp.tally, Function.update_self]
      cases hold : l r.view with
      | none => exact Counters.Follows.zero.log hi j
      | some c₀ => exact (h r.view c₀ hold).log hi j
    · rw [Ledger.log_other l hn] at hc
      rw [KeeperOp.tally, Function.update_of_ne hn]
      exact h name c hc

/-- A round of the clock, before its tallies start again. -/
theorem Ledger.Follows.ticked (h : l.Follows tally) : l.tick.Follows tally := by
  intro name c hc
  rw [Ledger.tick] at hc
  split at hc
  · exact h name c hc
  · obtain ⟨c₀,hc₀,rfl⟩ := Option.map_eq_some_iff.mp hc
    exact (h name c₀ hc₀).of_tick

theorem LedgerStep.follows (h : l.Follows tally) (hstep : LedgerStep keeper op l l') :
    l'.Follows (op.tally l tally) := by
  cases op with
  | log alloc r => exact h.logged hstep
  | flush memory =>
    rw [show l' = Ledger.empty from hstep]
    exact fun name c hc => by cases hc
  | recycle expectSize => exact h.forgets hstep
  | tick =>
    rw [show l' = l.tick from hstep]
    exact fun name c hc => (h.ticked name c hc).tick

theorem tallied_follows {memory : ViewTreeMemory} {ops : List KeeperOp} {s : Tallied}
    (hrun : run talliedStep (talliedCreate memory) ops = some s) :
    (∃ d cells, s.keeper.views.OffBy d cells) ∧ s.keeper.ledger.Follows s.tally := by
  refine run_induction (P := fun _ s => (∃ d cells, s.keeper.views.OffBy d cells) ∧ s.keeper.ledger.Follows s.tally)
    ?_ ?_ .true hrun
  · obtain ⟨t,hwf,hcreate⟩ := viewTreeCreate_shift memory
    refine ⟨⟨_,[],t,hwf,hcreate⟩,fun name c hc => ?_⟩
    rw [show (talliedCreate memory).keeper.ledger = Ledger.empty from ledger_create memory] at hc
    cases hc
  · rintro - s op s' ⟨⟨d,cells,hoff⟩,hfollows⟩ - hstep
    obtain ⟨keeper,hkeeper,rfl⟩ := Option.map_eq_some_iff.mp hstep
    obtain ⟨⟨cells',hoff'⟩,-,hledger⟩ := keeperStep_cases hoff hkeeper
    exact ⟨⟨_,cells',hoff'⟩,hledger.follows hfollows⟩

/-- Every run of the keeper is one with tallies. -/
theorem tallied_of_run {memory : ViewTreeMemory} {ops : List KeeperOp}
    (hrun : run keeperStep (houseKeeperCreate memory) ops = some keeper) :
    ∃ tally, run talliedStep (talliedCreate memory) ops = some ⟨keeper,tally⟩ := by
  have hmap : (run talliedStep (talliedCreate memory) ops).map Tallied.keeper =
      run keeperStep (houseKeeperCreate memory) ops :=
    run_map (fun s op => by simp [talliedStep, Function.comp_def]) (talliedCreate memory) ops
  rw [hrun] at hmap
  obtain ⟨s,hs,rfl⟩ := Option.map_eq_some_iff.mp hmap
  exact ⟨s.tally,hs⟩

/-- A round of the clock sets the rates of the records after the tallies before it. -/
theorem rates_follow {memory : ViewTreeMemory} {ops : List KeeperOp} {keeper' : HouseKeeper}
    (hrun : run talliedStep (talliedCreate memory) ops = some ⟨keeper,tally⟩)
    (htick : keeperStep keeper .tick = some keeper') {name : CString} {vs : ViewStats}
    (hvs : keeper'.views.record name = some vs) : vs.counters.Follows (tally name) := by
  obtain ⟨⟨d,cells,hoff⟩,hfollows⟩ := tallied_follows hrun
  obtain ⟨-,-,hstep⟩ := keeperStep_cases hoff htick
  have hledger : keeper'.ledger name = some vs.counters := by
    rw [HouseKeeper.ledger, ViewTree.ledger, hvs, Option.map_some]
  rw [show keeper'.ledger = keeper.ledger.tick from hstep] at hledger
  exact hfollows.ticked name _ hledger

end Runs

/-- At every round of the clock in every run, the rates of a view are right if and only if
nothing was logged for it since the round before and none of its records is a SERVFAIL. -/
theorem rates_right_iff (memory : ViewTreeMemory) (ops : List KeeperOp) (keeper keeper' : HouseKeeper)
    (hrun : run keeperStep (houseKeeperCreate memory) ops = some keeper)
    (htick : keeperStep keeper .tick = some keeper') :
    ∃ tally, run talliedStep (talliedCreate memory) ops = some ⟨keeper,tally⟩ ∧
      ∀ name vs, keeper'.views.record name = some vs →
        (vs.RatesRight (tally name) ↔ (tally name).calls = 0 ∧ (tally name).servfail = 0) ∧
          vs.rcode rcodeServfail = UInt32.ofNat (tally name).servfail := by
  obtain ⟨tally,htally⟩ := tallied_of_run hrun
  refine ⟨tally,htally,fun name vs hvs => ?_⟩
  have hfollows := rates_follow htally htick hvs
  exact ⟨hfollows.ratesRight_iff,hfollows.servfail⟩

/-! ## One call -/

def plentyOfMemory : LogAlloc := ⟨true,true,.succeed,.succeed,staleRecord⟩

/-- A call of `log_handle` for the view `v`. -/
def oneCall : KeeperOp := .log plentyOfMemory ⟨text "v",text "w.",text "10.0.0.1",text "A",text "NOERROR"⟩

theorem rates_right_small : ∃ keeper keeper', keeperStep keeper .tick = some keeper' ∧
    ∃ tally, run talliedStep (talliedCreate (staleViews 0)) [oneCall] = some ⟨keeper,tally⟩ ∧
      ∀ name vs, keeper'.views.record name = some vs →
        (vs.RatesRight (tally name) ↔ (tally name).calls = 0 ∧ (tally name).servfail = 0) ∧
          vs.rcode rcodeServfail = UInt32.ofNat (tally name).servfail := by
  obtain ⟨keeper,hrun⟩ := Option.isSome_iff_exists.mp
    (by decide +kernel : (run keeperStep (houseKeeperCreate (staleViews 0)) [oneCall]).isSome = true)
  have htick : ((run keeperStep (houseKeeperCreate (staleViews 0)) [oneCall]).bind
      fun keeper => keeperStep keeper .tick).isSome = true := by decide +kernel
  rw [hrun, Option.bind_some] at htick
  obtain ⟨keeper',htick⟩ := Option.isSome_iff_exists.mp htick
  exact ⟨keeper,keeper',htick,rates_right_iff _ _ keeper keeper' hrun htick⟩

/-- One call in the ten seconds before a round, and the queries per second stay 0. -/
theorem rates_right_fails : ∃ keeper keeper' tally vs,
    run talliedStep (talliedCreate (staleViews 0)) [oneCall] = some ⟨keeper,tally⟩ ∧
      keeperStep keeper .tick = some keeper' ∧ keeper'.views.record (text "v") = some vs ∧
      (tally (text "v")).calls = 1 ∧ vs.qps = 0 ∧ ¬vs.RatesRight (tally (text "v")) := by
  have hrun : ((run talliedStep (talliedCreate (staleViews 0)) [oneCall]).bind fun s =>
      (keeperStep s.keeper .tick).bind fun keeper => (keeper.views.record (text "v")).map fun _ =>
        (s.tally (text "v")).calls) = some 1 := by decide +kernel
  obtain ⟨⟨keeper,tally⟩,hs,hrun⟩ := Option.bind_eq_some_iff.mp hrun
  obtain ⟨keeper',htick,hrun⟩ := Option.bind_eq_some_iff.mp hrun
  obtain ⟨vs,hvs,hcalls⟩ := Option.map_eq_some_iff.mp hrun
  have hfollows := rates_follow hs htick hvs
  refine ⟨keeper,keeper',tally,vs,hs,htick,hvs,hcalls,hfollows.idle.qps,fun hright => ?_⟩
  have hzero := (hfollows.ratesRight_iff.mp hright).1
  exact absurd (hzero.symm.trans hcalls) (by decide)

end LogStats
