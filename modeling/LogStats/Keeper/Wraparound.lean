import LogStats.Keeper.HouseKeeper
import LogStats.Library.Wrapping
import Mathlib.Tactic.Linarith

/-! # Differences of a counter that wraps

`absolute_diff` goes through UINT32_MAX when the second value is the smaller one. The way from there to 0 is
one more increment, which is left out: after a wrap the difference is too small by one.
-/
namespace LogStats

section Wraparound
variable {last k : UInt32}

theorem absoluteDiff_add (last k : UInt32) :
    absoluteDiff last (last + k) = if last.toNat + k.toNat < 2 ^ 32 then k else k - 1 := by
  have hsum : (last + k).toNat = (last.toNat + k.toNat) % 2 ^ 32 := UInt32.toNat_add last k
  have hlast := last.toNat_lt
  have hk := k.toNat_lt
  unfold absoluteDiff
  by_cases hfit : last.toNat + k.toNat < 2 ^ 32
  · have hge : last + k ≥ last := by
      change last.toNat ≤ (last + k).toNat
      omega
    rw [if_pos hge, if_pos hfit, UInt32.add_comm, UInt32.add_sub_cancel]
  · have hlt : ¬last + k ≥ last := by
      change ¬last.toNat ≤ (last + k).toNat
      omega
    rw [if_neg hlt, if_neg hfit]
    -- UINT32_MAX is -1
    have hmax : (4294967295 : UInt32) = -1 := rfl
    rw [hmax, ← UInt32.add_assoc, UInt32.sub_add_cancel, UInt32.add_comm, ← UInt32.sub_eq_add_neg]

theorem sub_one_ne (k : UInt32) : k - 1 ≠ k := by
  intro heq
  have hzero : k - 1 + 1 = k + 1 := congrArg (· + 1) heq
  rw [UInt32.sub_add_cancel] at hzero
  have hnat : k.toNat = (k.toNat + 1) % 2 ^ 32 := congrArg UInt32.toNat hzero
  have hk := k.toNat_lt
  omega

theorem absoluteDiff_eq_iff : absoluteDiff last (last + k) = k ↔ last.toNat + k.toNat < 2 ^ 32 := by
  rw [absoluteDiff_add]
  by_cases hfit : last.toNat + k.toNat < 2 ^ 32
  · rw [if_pos hfit]
    exact iff_of_true rfl hfit
  · rw [if_neg hfit]
    exact iff_of_false (sub_one_ne k) hfit

/-- A counter was incremented `k` times since the last tick: the difference is `k`, and the rate that of
`k` increments, if and only if the counter did not wrap. The rate is the rational that the code
rounds to a float. -/
theorem qpsThread_delta_iff (vs : ViewStats) (last k : UInt32) :
    (absoluteDiff last ((· + 1)^[k.toNat] last) = k ↔ last.toNat + k.toNat < 2 ^ 32) ∧
    ((qpsThreadRecord { vs with lastCount := last, count := (· + 1)^[k.toNat] last }).qps = k.toNat / 10 ↔
      last.toNat + k.toNat < 2 ^ 32) := by
  have hcount : (· + 1)^[k.toNat] last = last + k := by rw [iterate_succ_eq_add, UInt32.ofNat_toNat]
  rw [hcount]
  refine ⟨absoluteDiff_eq_iff,?_⟩
  rw [← absoluteDiff_eq_iff]
  change ((absoluteDiff last (last + k)).toNat : ℚ) / 10 = k.toNat / 10 ↔ _
  constructor
  · intro hrate
    have hcast : ((absoluteDiff last (last + k)).toNat : ℚ) = k.toNat := by linarith
    exact UInt32.toNat_inj.mp (by exact_mod_cast hcast)
  · intro hdiff
    rw [hdiff]

/-- One record after 2^32 - 1 others. -/
theorem qpsThread_delta_wraps : ¬∀ last k : UInt32, absoluteDiff last (last + k) = k :=
  fun h => absurd (h 4294967295 1) (by decide)

end Wraparound

end LogStats
