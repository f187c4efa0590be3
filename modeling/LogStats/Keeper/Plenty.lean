import LogStats.Keeper.Accounts
import LogStats.Keeper.MemoryLimit
import Mathlib.Data.Finset.Card

/-! # As long as the limit is far away

Calls of `log_handle` take a bounded number of bytes each. Until the bytes of the calls since
the last flush may reach the limit nothing is recycled, whatever `count` was left at, and the
ledger keeps every call.
-/
namespace LogStats

open NameTree ViewTree

/-- What calls of `log_handle` take at most: a new view each for different names, two nodes for each call. -/
def bytesFor (rs : List LogRecord) : ℕ :=
  24 + (rs.map LogRecord.view).toFinset.card * viewBytes + rs.length * (2 * nodeOverhead)

/-- The calls stay below the limit. -/
def Few (rs : List LogRecord) : Prop := bytesFor rs ≤ 10 * 1024 * 1024

instance (rs : List LogRecord) : Decidable (Few rs) := inferInstanceAs (Decidable (_ ≤ _))

/-- The keeper has all of these calls in its ledger. -/
structure HouseKeeper.Records (keeper : HouseKeeper) (rs : List LogRecord) : Prop where
  off : ∃ d cells, keeper.views.OffBy d cells
  uplimit : keeper.memUplimit = 10 * 1024 * 1024
  keeps : keeper.ledger.Keeps rs
  bytes_le : keeper.views.bytes ≤ bytesFor rs

section Plenty
variable {keeper keeper' : HouseKeeper} {rs : List LogRecord} {r : LogRecord} {alloc : LogAlloc}

theorem bytesFor_old (h : r.view ∈ rs.map LogRecord.view) : bytesFor (rs ++ [r]) = bytesFor rs + 2 * nodeOverhead := by
  have hsame : ((rs ++ [r]).map LogRecord.view).toFinset = (rs.map LogRecord.view).toFinset := by
    rw [List.map_append, List.map_singleton, List.toFinset_append, Finset.union_eq_left]
    intro name hname
    rw [List.mem_toFinset, List.mem_singleton] at hname
    exact List.mem_toFinset.mpr (hname ▸ h)
  rw [bytesFor, bytesFor, hsame, List.length_append, List.length_singleton, Nat.succ_mul]
  omega

theorem bytesFor_new (h : r.view ∉ rs.map LogRecord.view) :
    bytesFor (rs ++ [r]) = bytesFor rs + viewBytes + 2 * nodeOverhead := by
  have hcard : ((rs ++ [r]).map LogRecord.view).toFinset.card = (rs.map LogRecord.view).toFinset.card + 1 := by
    have hnot : r.view ∉ (rs.map LogRecord.view).toFinset := fun hmem => h (List.mem_toFinset.mp hmem)
    rw [← Finset.card_insert_of_notMem hnot, List.map_append, List.map_singleton, List.toFinset_append,
      Finset.insert_eq, Finset.union_comm]
    rfl
  rw [bytesFor, bytesFor, hcard, List.length_append, List.length_singleton, Nat.succ_mul, Nat.succ_mul]
  omega

theorem bytesFor_le : bytesFor rs ≤ bytesFor (rs ++ [r]) := by
  by_cases h : r.view ∈ rs.map LogRecord.view
  · rw [bytesFor_old h]
    exact Nat.le_add_right _ _
  · rw [bytesFor_new h, Nat.add_assoc]
    exact Nat.le_add_right _ _

/-- Even if each has a view of its own, 32 calls are few. -/
theorem few_of_length (h : rs.length ≤ 32) : Few rs := by
  have hcard : (rs.map LogRecord.view).toFinset.card ≤ 32 := by
    refine (List.toFinset_card_le _).trans ?_
    rwa [List.length_map]
  have hviews := Nat.mul_le_mul_right viewBytes hcard
  have hcalls := Nat.mul_le_mul_right (2 * nodeOverhead) h
  have hsum : 24 + 32 * viewBytes + 32 * (2 * nodeOverhead) ≤ 10 * 1024 * 1024 := by decide
  rw [Few, bytesFor]
  omega

theorem HouseKeeper.Records.create (memory : ViewTreeMemory) : (houseKeeperCreate memory).Records [] where
  off := by
    obtain ⟨t,hwf,hcreate⟩ := viewTreeCreate_shift memory
    exact ⟨memory.count,[],t,hwf,hcreate⟩
  uplimit := rfl
  keeps := by
    rw [show (houseKeeperCreate memory).ledger = Ledger.empty from ledger_create memory]
    exact .empty
  bytes_le := (viewTreeCreate_bytes memory).le

theorem HouseKeeper.Records.flush (h : keeper.Records rs) (memory : ViewTreeMemory) :
    (houseKeeperClearStats memory keeper).Records [] := by
  have hcreate := HouseKeeper.Records.create memory
  exact ⟨hcreate.off,h.uplimit,hcreate.keeps,hcreate.bytes_le⟩

/-- A call for which there is room is recorded and nothing is given up for it. -/
theorem HouseKeeper.Records.log (h : keeper.Records rs) (hstats : alloc.stats = true) (hfew : Few (rs ++ [r]))
    (hr : logHandle alloc keeper r = some keeper') : keeper'.Records (rs ++ [r]) := by
  obtain ⟨d,cells,hoff⟩ := h.off
  obtain ⟨hoff',huplimit,hout⟩ := logHandle_cases hoff hr
  obtain ⟨t,hwf,hviews⟩ := hoff
  have hledger : keeper.ledger = t.ledger := by rw [HouseKeeper.ledger, hviews, ledger_shift]
  have hbytes : t.bytes ≤ bytesFor rs := by
    have hle := h.bytes_le
    rwa [hviews] at hle
  obtain ⟨⟨views,found⟩,hview,hr⟩ := Option.bind_eq_some_iff.mp hr
  have hshift := hview
  rw [hviews, logHandleView_shift] at hshift
  obtain ⟨⟨t₁,r₁⟩,hview₁,he⟩ := Option.map_eq_some_iff.mp hshift
  obtain ⟨rfl,rfl⟩ := Prod.mk.inj he
  obtain ⟨hnew,hold,-⟩ := logHandleView_bytes hwf hview₁
  rcases logHandleView_cases hwf hview₁ with ⟨rfl,rfl,-⟩ | ⟨addr,c,rest,rfl,hwf₁,-,haddr,-,hshort⟩
  · have hno : ¬LogRecycles alloc keeper r := by
      rintro ⟨found,hfound,hsome,-⟩
      obtain rfl := Option.some_inj.mp (hview.symm.trans hfound)
      cases hsome
    obtain rfl := Option.some_inj.mp hr
    refine ⟨⟨d,hoff'⟩,h.uplimit,h.keeps.logged hstats hout hno,?_⟩
    exact hbytes.trans bytesFor_le
  · have hroom : t₁.bytes + 2 * nodeOverhead ≤ bytesFor (rs ++ [r]) := by
      by_cases hmem : r.view ∈ rs.map LogRecord.view
      · obtain ⟨q,hq,hqview⟩ := List.mem_map.mp hmem
        have hthere : t.ledger r.view ≠ none := by
          intro hnone
          rw [← hledger, h.keeps.missing] at hnone
          rcases hnone with hnone | hlong
          · exact hnone q hq hqview
          · have hnone' := (h.keeps.missing r.view).mpr (Or.inr hlong)
            have hlen := hshort (hledger ▸ hnone')
            omega
        rw [bytesFor_old hmem, hold hthere]
        omega
      · rw [bytesFor_new hmem]
        omega
    rw [Few] at hfew
    have hsize : (t₁.sizeAt (c :: rest)).toNat = t₁.bytes := by
      rw [hwf₁.sizeAt_of_small (List.prefix_refl _) (by rw [← hwf₁.bytes_eq]; omega), ← hwf₁.bytes_eq]
    have hwithin : ¬keeper.memUplimit < t₁.sizeAt (c :: rest) := by
      rw [h.uplimit, UInt64.not_lt, UInt64.le_iff_toNat_le, hsize]
      change t₁.bytes ≤ 10 * 1024 * 1024
      omega
    have hno : ¬LogRecycles alloc keeper r := by
      rintro ⟨found,hfound,-,size,hgot,hover⟩
      obtain rfl := Option.some_inj.mp (hview.symm.trans hfound)
      rw [viewTreeGetSize_shift, hwf₁.getSize] at hgot
      exact hwithin (Option.some_inj.mp hgot ▸ hover)
    refine ⟨⟨d,hoff'⟩,huplimit.trans h.uplimit,h.keeps.logged hstats hout hno,?_⟩
    obtain ⟨views₂,hrecycle,hr⟩ := Option.bind_eq_some_iff.mp hr
    obtain ⟨vs,hvs,hr⟩ := Option.bind_eq_some_iff.mp hr
    obtain ⟨vs',hrecord,hr⟩ := Option.bind_eq_some_iff.mp hr
    obtain rfl := Option.some_inj.mp hr
    have hsame : logHandleRecycle keeper.memUplimit (t₁.shift d) = some (t₁.shift d) := by
      simp only [logHandleRecycle, viewTreeGetSize_shift, hwf₁.getSize, Option.bind_eq_bind, Option.bind_some, if_neg hwithin]
    obtain rfl := Option.some_inj.mp (hsame.symm.trans hrecycle)
    have hmem := hwf₁.dataOf_mem (List.mem_cons_self : c ∈ c :: rest)
    rw [← haddr] at hvs ⊢
    obtain ⟨vs₁,hvs₁,hsound⟩ := hwf₁.live _ hmem
    obtain rfl : vs = vs₁ := Option.some_inj.mp (hvs.symm.trans hvs₁)
    exact (hwf₁.bytes_recorded hmem hvs (logHandleRecord_bytes hsound hrecord).1).trans hroom

end Plenty

end LogStats
