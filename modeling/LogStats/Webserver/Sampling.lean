import LogStats.Views.ViewStats

/-! # The points of a long range of records, db_handler.py

A range with more records than `MAX_POINTS` is thinned out: every so many records one is
picked, up to the one before the last, and of these as many are kept as may be returned. The
rates are of any type here, as nothing is computed with them.
-/
namespace LogStats

variable {F α β : Type*}

def maxPoints : ℕ := 1500

/-- `range(0, stop, step)` -/
def rangeBy (stop step : ℕ) : List ℕ := List.range' 0 ((stop + step - 1) / step) step

/-- What `_get_value` and `_get_nic_rate` do with the rows that they are given; an index that
is out of range is `none`. -/
def downSample (point : α → β) (records : List α) : Option (List β) :=
  let recordLen := records.length
  if recordLen ≤ maxPoints then some (records.map point)
  else
    let step := recordLen / maxPoints
    ((rangeBy (recordLen - 1) step).mapM fun i => (records[i]?).map point).map fun li => li.take maxPoints

/-- A row of `qps_history` or `success_rate_history`. -/
structure ValueRow (F : Type*) where
  view : CString
  timestamp : ℕ
  value : F

/-- A row of `nic_rate_history`. -/
structure NicRow (F : Type*) where
  ethn : CString
  timestamp : ℕ
  rxRate : F
  txRate : F

def valueRecords (rows : List (ValueRow F)) (view : CString) (vDate vEnd : ℕ) : List (ValueRow F) :=
  rows.filter fun row => row.view = view ∧ vDate ≤ row.timestamp ∧ row.timestamp < vEnd

def nicRecords (rows : List (NicRow F)) (ethn : CString) (vDate vEnd : ℕ) : List (NicRow F) :=
  rows.filter fun row => row.ethn = ethn ∧ vDate ≤ row.timestamp ∧ row.timestamp < vEnd

def ValueRow.point (item : ValueRow F) : ℕ × F := (item.timestamp,item.value)

def NicRow.point (item : NicRow F) : ℕ × F × F := (item.timestamp,item.rxRate,item.txRate)

/-- `_get_value` -/
def getValue (rows : List (ValueRow F)) (view : CString) (vDate vEnd : ℕ) : Option (List (ℕ × F)) :=
  downSample ValueRow.point (valueRecords rows view vDate vEnd)

/-- `_get_nic_rate` -/
def getNicRate (rows : List (NicRow F)) (ethn : CString) (vDate vEnd : ℕ) : Option (List (ℕ × F × F)) :=
  downSample NicRow.point (nicRecords rows ethn vDate vEnd)

/-- Points at equal distances in a list, from its first element on. -/
structure Sampled (points all : List β) (step : ℕ) : Prop where
  ne_nil : points ≠ []
  length_le : points.length ≤ maxPoints
  sublist : points.Sublist all
  spaced : ∀ k < points.length, points[k]? = all[k * step]?

/-- Fewer than `2 * step` elements come after the last point. -/
def ReachesEnd (points all : List β) (step : ℕ) : Prop := all.length - ((points.length - 1) * step + 1) < 2 * step

instance (points all : List β) (step : ℕ) : Decidable (ReachesEnd points all step) := inferInstanceAs (Decidable (_ < _))

/-! ## Picking by index -/

/-- Elements that are read at equal distances make up a sublist. -/
theorem mapM_range' {xs : List β} {step : ℕ} (hstep : 0 < step) (n s : ℕ) (h : ∀ k < n, s + k * step < xs.length) :
    ∃ ys, (List.range' s n step).mapM (fun i => xs[i]?) = some ys ∧ ys.length = n ∧ ys.Sublist (xs.drop s) ∧
      ∀ k < n, ys[k]? = xs[s + k * step]? := by
  induction n generalizing s with
  | zero => exact ⟨[],rfl,rfl,List.nil_sublist _,fun k hk => absurd hk (Nat.not_lt_zero k)⟩
  | succ n ih =>
    have hs : s < xs.length := by
      have hfirst := h 0 (Nat.succ_pos n)
      omega
    have hget : xs[s]? = some xs[s] := List.getElem?_eq_getElem hs
    obtain ⟨ys,hrun,hlen,hsub,hat⟩ := ih (s + step) fun k hk => by
      have hnext := h (k + 1) (by omega)
      rw [Nat.succ_mul] at hnext
      omega
    refine ⟨xs[s] :: ys,?_,by rw [List.length_cons, hlen],?_,fun k hk => ?_⟩
    · rw [List.range'_succ, List.mapM_cons, hget, hrun]
      rfl
    · rw [List.drop_eq_getElem_cons hs]
      apply List.Sublist.cons_cons
      apply hsub.trans
      rw [show s + step = s + 1 + (step - 1) by omega, ← List.drop_drop]
      exact List.drop_sublist _ _
    · cases k with
      | zero => simp [hget]
      | succ k =>
        rw [List.getElem?_cons_succ, hat k (by omega), Nat.succ_mul]
        congr 1
        omega

/-! ## Thinning out -/

section Thinning
variable {n : ℕ}

theorem step_pos (h : maxPoints < n) : 0 < n / maxPoints := Nat.div_pos h.le (by decide)

/-- The loop picks as many records as may be returned, or more. -/
theorem maxPoints_le_picked (h : maxPoints < n) : maxPoints ≤ (n - 1 + n / maxPoints - 1) / (n / maxPoints) := by
  have hpos := step_pos h
  have hdiv := Nat.div_add_mod n maxPoints
  rw [Nat.le_div_iff_mul_le hpos]
  generalize n / maxPoints = q at hdiv hpos ⊢
  simp only [maxPoints] at h hdiv ⊢
  rcases Nat.lt_or_ge 1 q with hq | hq
  · omega
  · obtain rfl : q = 1 := by omega
    omega

/-- No index is out of range. -/
theorem picked_lt {step k : ℕ} (hpos : 0 < step) (hn : 0 < n) (hk : k < (n - 1 + step - 1) / step) : k * step < n := by
  have hsucc : (k + 1) * step ≤ n - 1 + step - 1 := (Nat.le_div_iff_mul_le hpos).mp hk
  rw [Nat.succ_mul] at hsucc
  omega

/-- How far the last point that is returned is from the end. -/
theorem reachesEnd_iff (h : maxPoints < n) :
    n - (1499 * (n / maxPoints) + 1) < 2 * (n / maxPoints) ↔ n % maxPoints ≤ n / maxPoints := by
  have hpos := step_pos h
  have hdiv := Nat.div_add_mod n maxPoints
  generalize n / maxPoints = q at hdiv hpos ⊢
  simp only [maxPoints] at hdiv ⊢
  omega

/-- The points of a long range, and where they reach its end. -/
theorem downSample_spec (point : α → β) {records : List α} (hlong : maxPoints < records.length) :
    ∃ points, downSample point records = some points ∧ points.length = maxPoints ∧
      Sampled points (records.map point) (records.length / maxPoints) ∧
      (ReachesEnd points (records.map point) (records.length / maxPoints) ↔
        records.length % maxPoints ≤ records.length / maxPoints) := by
  have hpos := step_pos hlong
  have hmany := maxPoints_le_picked hlong
  have hiff := reachesEnd_iff hlong
  rw [downSample, if_neg (by omega)]
  obtain ⟨step,hstep⟩ : ∃ step, records.length / maxPoints = step := ⟨_,rfl⟩
  rw [hstep] at hpos hmany hiff ⊢
  have hrange : ∀ k < (records.length - 1 + step - 1) / step, 0 + k * step < (records.map point).length := by
    intro k hk
    rw [Nat.zero_add, List.length_map]
    exact picked_lt hpos (by omega) hk
  obtain ⟨ys,hrun,hlen,hsub,hat⟩ := mapM_range' hpos _ 0 hrange
  have htake : (ys.take maxPoints).length = maxPoints := by
    rw [List.length_take, hlen]
    exact Nat.min_eq_left hmany
  refine ⟨ys.take maxPoints,?_,htake,⟨?_,htake.le,(List.take_sublist _ _).trans hsub,?_⟩,?_⟩
  · simp only [rangeBy, ← List.getElem?_map, hrun, Option.map_some]
  · intro hnil
    rw [hnil] at htake
    cases htake
  · intro k hk
    rw [htake] at hk
    rw [List.getElem?_take_of_lt hk, hat k (by omega), Nat.zero_add]
  · rw [ReachesEnd, htake, List.length_map]
    exact hiff

/-- Both queries thin out a long range to points at equal distances, and reach its end if and
only if what is left over of the division by `MAX_POINTS` is at most the step. -/
theorem thinning_reachesEnd_iff :
    (∀ (rows : List (ValueRow F)) (view : CString) (vDate vEnd : ℕ),
      let records := valueRecords rows view vDate vEnd
      let step := records.length / maxPoints
      maxPoints < records.length → ∃ points, getValue rows view vDate vEnd = some points ∧
        Sampled points (records.map ValueRow.point) step ∧
        (ReachesEnd points (records.map ValueRow.point) step ↔ records.length % maxPoints ≤ step)) ∧
    ∀ (rows : List (NicRow F)) (ethn : CString) (vDate vEnd : ℕ),
      let records := nicRecords rows ethn vDate vEnd
      let step := records.length / maxPoints
      maxPoints < records.length → ∃ points, getNicRate rows ethn vDate vEnd = some points ∧
        Sampled points (records.map NicRow.point) step ∧
        (ReachesEnd points (records.map NicRow.point) step ↔ records.length % maxPoints ≤ step) := by
  constructor
  · intro rows view vDate vEnd records step hlong
    obtain ⟨points,hrun,-,hsampled,hend⟩ := downSample_spec ValueRow.point hlong
    exact ⟨points,hrun,hsampled,hend⟩
  · intro rows ethn vDate vEnd records step hlong
    obtain ⟨points,hrun,-,hsampled,hend⟩ := downSample_spec NicRow.point hlong
    exact ⟨points,hrun,hsampled,hend⟩

/-- One record a minute. -/
def minutes (n : ℕ) : List (ValueRow ℕ) := (List.range n).map fun i => ⟨text "v",i,i⟩

theorem valueRecords_minutes (n : ℕ) : valueRecords (minutes n) ((text "v")) 0 n = minutes n := by
  apply List.filter_eq_self.mpr
  intro row hrow
  obtain ⟨i,hi,rfl⟩ := List.mem_map.mp hrow
  simpa using hi

theorem length_minutes (n : ℕ) : (minutes n).length = n := by simp [minutes]

theorem thinning_reachesEnd_3001 : ∃ points, getValue (minutes 3001) ((text "v")) 0 3001 = some points ∧
    ReachesEnd points ((minutes 3001).map ValueRow.point) 2 := by
  have hrecords := valueRecords_minutes 3001
  have hlength : (valueRecords (minutes 3001) ((text "v")) 0 3001).length = 3001 := by rw [hrecords, length_minutes]
  obtain ⟨points,hrun,-,hend⟩ := (@thinning_reachesEnd_iff ℕ).1 (minutes 3001) ((text "v")) 0 3001 (by rw [hlength]; decide)
  refine ⟨points,hrun,?_⟩
  rw [hlength, hrecords] at hend
  exact hend.mpr (by decide)

/-- Of 2999 records the last 1499 are cut off. -/
theorem thinning_cuts_tail : ∃ points, getValue (minutes 2999) ((text "v")) 0 2999 = some points ∧
    points.length = 1500 ∧ ¬ReachesEnd points ((minutes 2999).map ValueRow.point) 1 := by
  have hrecords := valueRecords_minutes 2999
  have hlength := length_minutes 2999
  obtain ⟨points,hrun,hlen,-,hend⟩ := downSample_spec ValueRow.point (by rw [hlength]; decide : maxPoints < (minutes 2999).length)
  refine ⟨points,by rw [getValue, hrecords, hrun],hlen,?_⟩
  rw [hlength] at hend
  exact fun hreach => absurd (hend.mp hreach) (by decide)

end Thinning

end LogStats
