import LogStats.Views.Limit

/-! # Increments of a cell that is not there

The checks of `view_stats_rcode_increment` and `view_stats_rtype_increment` let the index one behind the array
pass. Behind `rcode` comes `rtype`, and behind `rtype` four bytes of padding.
-/
namespace LogStats

/-- The 32-bit words of memory from `rcode` on; `behind` starts with the padding. -/
def counterWords (vs : ViewStats) (behind : ℕ → UInt32) (i : ℕ) : UInt32 :=
  if h : i < 7 then vs.rcode ⟨i,h⟩ else if h : i - 7 < 12 then vs.rtype ⟨i - 7,h⟩ else behind (i - 19)

def incrementWord (words : ℕ → UInt32) (i : ℕ) : ℕ → UInt32 := Function.update words i (words i + 1)

/-- `view_stats_rcode_increment`, whose array starts at the first of these words. -/
def rcodeIncrementWords (words : ℕ → UInt32) (rcode : ℤ) : ℕ → UInt32 :=
  if 7 < rcode ∨ rcode < 0 then words else incrementWord words rcode.toNat

/-- `view_stats_rtype_increment`, whose array starts at the eighth. -/
def rtypeIncrementWords (words : ℕ → UInt32) (rtype : ℤ) : ℕ → UInt32 :=
  if 12 < rtype ∨ rtype < 0 then words else incrementWord words (7 + rtype.toNat)

/-- One more in the cell of this index, if there is one. -/
def ownIncrement {n : ℕ} (cells : Fin n → UInt32) (index : ℤ) : Fin n → UInt32 :=
  if h : 0 ≤ index ∧ index.toNat < n then Function.update cells ⟨index.toNat,h.2⟩ (cells ⟨index.toNat,h.2⟩ + 1)
  else cells

section Increments
variable {vs : ViewStats} {index : ℤ} {behind : ℕ → UInt32}

theorem uint32_add_one_ne (a : UInt32) : a + 1 ≠ a := by
  intro heq
  have hnat : (a.toNat + 1) % 2 ^ 32 = a.toNat := congrArg UInt32.toNat heq
  have ha := a.toNat_lt
  omega

theorem incrementWord_ne (words : ℕ → UInt32) (i : ℕ) : incrementWord words i ≠ words := by
  intro heq
  have hcell := congrFun heq i
  rw [incrementWord, Function.update_self] at hcell
  exact uint32_add_one_ne _ hcell

/-! ## The record and its words -/

theorem counterWords_rcode (i : Fin 7) : counterWords vs behind i = vs.rcode i := by
  rw [counterWords, dif_pos i.isLt]

theorem counterWords_rtype (j : Fin 12) : counterWords vs behind (7 + j) = vs.rtype j := by
  have hj := j.isLt
  have hsub : 7 + j.val - 7 = j.val := by omega
  rw [counterWords, dif_neg (by omega), dif_pos (by omega)]
  congr

theorem counterWords_behind (k : ℕ) : counterWords vs behind (19 + k) = behind k := by
  rw [counterWords, dif_neg (by omega), dif_neg (by omega), Nat.add_sub_cancel_left]

/-- Every word is one of `rcode`, one of `rtype` or behind them. -/
theorem word_cases {p : ℕ → Prop} (hrcode : ∀ i : Fin 7, p i) (hrtype : ∀ j : Fin 12, p (7 + j))
    (hbehind : ∀ k, p (19 + k)) (i : ℕ) : p i := by
  by_cases hi : i < 7
  · exact hrcode ⟨i,hi⟩
  · by_cases hj : i < 19
    · have hp := hrtype ⟨i - 7,by omega⟩
      have hindex : 7 + (i - 7) = i := by omega
      exact hindex ▸ hp
    · have hindex : 19 + (i - 19) = i := by omega
      exact hindex ▸ hbehind (i - 19)

theorem incrementWord_rcode (i : Fin 7) : incrementWord (counterWords vs behind) i =
    counterWords { vs with rcode := Function.update vs.rcode i (vs.rcode i + 1) } behind := by
  funext k
  unfold incrementWord
  induction k using word_cases with
  | hrcode k =>
    rw [counterWords_rcode, counterWords_rcode]
    by_cases hk : k = i
    · subst hk
      simp only [Function.update_self]
    · have hval : k.val ≠ i.val := fun heq => hk (Fin.ext heq)
      simp only [Function.update_of_ne hk, Function.update_of_ne hval, counterWords_rcode]
  | hrtype j => rw [Function.update_of_ne (by omega), counterWords_rtype, counterWords_rtype]
  | hbehind k => rw [Function.update_of_ne (by omega), counterWords_behind, counterWords_behind]

theorem incrementWord_rtype (j : Fin 12) : incrementWord (counterWords vs behind) (7 + j) =
    counterWords { vs with rtype := Function.update vs.rtype j (vs.rtype j + 1) } behind := by
  funext k
  unfold incrementWord
  induction k using word_cases with
  | hrcode i => rw [Function.update_of_ne (by omega), counterWords_rcode, counterWords_rcode]
  | hrtype k =>
    rw [counterWords_rtype, counterWords_rtype]
    by_cases hk : k = j
    · subst hk
      simp only [Function.update_self]
    · have hval : 7 + k.val ≠ 7 + j.val := fun heq => hk (Fin.ext (Nat.add_left_cancel heq))
      simp only [Function.update_of_ne hk, Function.update_of_ne hval, counterWords_rtype]
  | hbehind k => rw [Function.update_of_ne (by omega), counterWords_behind, counterWords_behind]

/-- What the function does to the words is what it does to the record. -/
theorem rcodeIncrementWords_eq (vs : ViewStats) (behind : ℕ → UInt32) (index : ℤ) :
    rcodeIncrementWords (counterWords vs behind) index = counterWords (viewStatsRcodeIncrement vs index) behind := by
  unfold rcodeIncrementWords viewStatsRcodeIncrement
  split
  · rfl
  · split
    · rename_i _ h
      exact incrementWord_rcode ⟨index.toNat,h⟩
    · have hseven : index.toNat = 7 + (0 : Fin 12) := by
        change _ = 7
        omega
      rw [hseven, incrementWord_rtype]

/-- The word behind the record's last counter is the padding. -/
theorem rtypeIncrementWords_eq (vs : ViewStats) (behind : ℕ → UInt32) (index : ℤ) :
    rtypeIncrementWords (counterWords vs behind) index =
      if index = 12 then incrementWord (counterWords vs behind) 19
      else counterWords (viewStatsRtypeIncrement vs index) behind := by
  unfold rtypeIncrementWords viewStatsRtypeIncrement
  by_cases hout : 12 < index ∨ index < 0
  · rw [if_pos hout, if_pos hout, if_neg (by omega)]
  · rw [if_neg hout, if_neg hout]
    by_cases htwelve : index = 12
    · subst htwelve
      rfl
    · rw [if_neg htwelve, dif_pos (by omega)]
      exact incrementWord_rtype ⟨index.toNat,by omega⟩

/-! ## Own cells -/

theorem ownIncrement_none {n : ℕ} (cells : Fin n → UInt32) (h : ¬(0 ≤ index ∧ index.toNat < n)) :
    ownIncrement cells index = cells := dif_neg h

/-- Away from the index that the check should have refused, only the own cell changes. -/
theorem viewStatsRcodeIncrement_own (h : index ≠ 7) :
    viewStatsRcodeIncrement vs index = { vs with rcode := ownIncrement vs.rcode index } := by
  unfold viewStatsRcodeIncrement
  by_cases hout : 7 < index ∨ index < 0
  · rw [if_pos hout, ownIncrement_none _ (by omega)]
  · have hin : 0 ≤ index ∧ index.toNat < 7 := by omega
    rw [if_neg hout, dif_pos hin.2, ownIncrement, dif_pos hin]

theorem viewStatsRtypeIncrement_own (vs : ViewStats) (index : ℤ) :
    viewStatsRtypeIncrement vs index = { vs with rtype := ownIncrement vs.rtype index } := by
  unfold viewStatsRtypeIncrement
  by_cases hin : 0 ≤ index ∧ index.toNat < 12
  · rw [if_neg (by omega), dif_pos hin.2, ownIncrement, dif_pos hin]
  · rw [ownIncrement_none _ hin]
    split
    · rfl
    · rw [dif_neg (by omega)]

theorem viewStatsRcodeIncrement_seven_rtype (vs : ViewStats) :
    (viewStatsRcodeIncrement vs 7).rtype ≠ vs.rtype := by
  intro heq
  have hcell := congrFun heq 0
  change Function.update vs.rtype 0 (vs.rtype 0 + 1) 0 = vs.rtype 0 at hcell
  rw [Function.update_self] at hcell
  exact uint32_add_one_ne _ hcell

/-- The increments touch only their own cell if and only if the index is not the number of cells: for `rcode`
the counter of another array changes, for `rtype` no field does, but the memory behind the last one. -/
theorem increments_own_cell_iff (vs : ViewStats) (behind : ℕ → UInt32) (index : ℤ) :
    (viewStatsRcodeIncrement vs index = { vs with rcode := ownIncrement vs.rcode index } ↔ index ≠ 7) ∧
    ((viewStatsRcodeIncrement vs index).rtype = vs.rtype ↔ index ≠ 7) ∧
    viewStatsRtypeIncrement vs index = { vs with rtype := ownIncrement vs.rtype index } ∧
    (rtypeIncrementWords (counterWords vs behind) index =
      counterWords { vs with rtype := ownIncrement vs.rtype index } behind ↔ index ≠ 12) := by
  refine ⟨⟨?_,viewStatsRcodeIncrement_own⟩,⟨?_,?_⟩,viewStatsRtypeIncrement_own vs index,?_⟩
  · rintro hown rfl
    exact viewStatsRcodeIncrement_seven_rtype vs (congrArg ViewStats.rtype hown)
  · rintro hrtype rfl
    exact viewStatsRcodeIncrement_seven_rtype vs hrtype
  · intro h
    rw [viewStatsRcodeIncrement_own h]
  · rw [rtypeIncrementWords_eq, ← viewStatsRtypeIncrement_own]
    by_cases htwelve : index = 12
    · subst htwelve
      exact iff_of_false (incrementWord_ne _ _) (fun hne => hne rfl)
    · rw [if_neg htwelve]
      exact iff_of_true rfl htwelve

/-- In a new record the index 7 counts an A record. -/
theorem rcodeIncrement_moves_rtype : ∃ vs, viewStatsCreate true staleRecord (text "v") = some (some vs) ∧
    viewStatsRcodeIncrement vs 7 ≠ { vs with rcode := ownIncrement vs.rcode 7 } ∧
    vs.rtype 0 = 0 ∧ (viewStatsRcodeIncrement vs 7).rtype 0 = 1 := by
  obtain ⟨tree,htree,-⟩ := nameTreeCreate_wf staleMemory
  have hcreate : viewStatsCreate true staleRecord (text "v") =
      some (some ⟨text "v",tree,tree,0,1,0,0,fun _ => 0,fun _ => 0⟩) := by
    have hlen : (text "v").strlen = 1 := by decide
    simp [viewStatsCreate, staleRecord, htree, hlen, maxViewLength]
  refine ⟨_,hcreate,?_,rfl,rfl⟩
  intro hown
  exact viewStatsRcodeIncrement_seven_rtype _ (congrArg ViewStats.rtype hown)

end Increments

end LogStats
