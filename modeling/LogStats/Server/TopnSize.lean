import LogStats.Server.Commands
import LogStats.Containers.HeapBounds
import LogStats.NameTree.Counting
import LogStats.Library.Bits

/-! # The sizes of a top-N reply

`_view_stats_result` once more, with its integers as they are in C: the smaller of two
ints becomes a size_t, which bounds the loop and is what malloc is asked for. Every
access to the copy of the heap and to the two arrays is checked.
-/
namespace LogStats

/-- `min` of log_view_stats.c. -/
def minInt32 (a b : Int32) : Int32 := if a < b then a else b

/-- An int that is stored as a size_t. -/
def sizeOfInt (i : Int32) : UInt64 := UInt64.ofInt i.toInt

/-- `topn` of `socket_thread`. -/
def StatsRequest.topnOrAll (request : StatsRequest) : Int32 := if request.topn = 0 then 1000 else request.topn

/-- `pdata` and `pcount`, each with as many entries as its memory holds. -/
structure ReplyArrays where
  pdata : ℕ → CString
  pcount : ℕ → ℤ

/-- `n_name`, and what malloc is asked for, in bytes. -/
structure ReplySizes where
  nName : UInt64
  pdata : UInt64
  pcount : UInt64

def replySizes (topn : Int32) (copyHeap : Heap ℕ) : ReplySizes :=
  let nName := sizeOfInt (minInt32 topn (Int32.ofNat copyHeap.len))
  ⟨nName,8 * nName,4 * nName⟩

/-- The loop that fills the arrays, with `turns` of its turns to go. -/
def fillReply (t : NameTree) (copyHeap : Heap ℕ) (sizes : ReplySizes) : ℕ → ℕ → ReplyArrays → Option ReplyArrays
  | 0, _, arrays => some arrays
  | turns + 1, i, arrays =>
    (readEntry copyHeap.len copyHeap.heap i).bind fun nv =>
      (writeEntry (sizes.pdata.toNat / 8) arrays.pdata i (t.nameOf nv)).bind fun pdata =>
        (writeEntry (sizes.pcount.toNat / 4) arrays.pcount i (t.mem nv).count.toInt32.toInt).bind fun pcount =>
          fillReply t copyHeap sizes turns (i + 1) ⟨pdata,pcount⟩

/-- `_view_stats_result`: `none` is an access out of bounds. -/
def viewStatsResultChecked (memory : ℕ → ℕ) (arrays : ReplyArrays) (t : NameTree) (key : String) (topn : Int32) :
    Option StatsReply :=
  (sortLoopChecked elemCompare t.mem t.heap.len t.heap.len (heapCopy memory t.heap).heap).bind fun sorted =>
    let copyHeap := { t.heap with heap := sorted }
    let sizes := replySizes topn copyHeap
    (fillReply t copyHeap sizes sizes.nName.toNat 0 arrays).map fun arrays =>
      ⟨key,entries arrays.pdata sizes.nName.toNat,entries arrays.pcount sizes.nName.toNat⟩

/-! ## Integers -/

theorem toInt_minInt32 (a b : Int32) : (minInt32 a b).toInt = min a.toInt b.toInt := toInt_smaller a b

theorem toNat_sizeOfInt {i : Int32} : ((sizeOfInt i).toNat : ℤ) = i.toInt % 2 ^ 64 := by
  have hrange := Int.emod_nonneg i.toInt (show (2 : ℤ) ^ 64 ≠ 0 by decide)
  have hlt := Int.emod_lt_of_pos i.toInt (show (0 : ℤ) < 2 ^ 64 by decide)
  simp only [sizeOfInt, UInt64.ofInt, UInt64.toNat_ofNat']
  omega

theorem toInt_topnOrAll (request : StatsRequest) : request.topnOrAll.toInt = request.entries := by
  unfold StatsRequest.topnOrAll StatsRequest.entries
  split <;> rfl

/-! ## The loop -/

section Fill
variable {t : NameTree} {copyHeap : Heap ℕ} {sizes : ReplySizes}

/-- The loop reads no entry from `len` on, since that read is refused. -/
theorem fillReply_none {turns i : ℕ} (arrays : ReplyArrays) (h : copyHeap.len < i + turns)
    (hi : i ≤ copyHeap.len) : fillReply t copyHeap sizes turns i arrays = none := by
  induction turns generalizing i arrays with
  | zero => omega
  | succ turns ih =>
    rw [fillReply]
    by_cases hlt : i < copyHeap.len
    · rw [readEntry_some hlt, Option.bind_some]
      rcases writeEntry (sizes.pdata.toNat / 8) arrays.pdata i (t.nameOf (copyHeap.heap i)) with _ | pdata
      · rfl
      rcases writeEntry (sizes.pcount.toNat / 4) arrays.pcount i
          (t.mem (copyHeap.heap i)).count.toInt32.toInt with _ | pcount
      · rfl
      exact ih ⟨pdata,pcount⟩ (by omega) hlt
    · rw [readEntry, if_neg hlt]
      rfl

/-- Within the bounds every turn stores the name and the count of one entry. -/
theorem fillReply_some {turns i : ℕ} (arrays : ReplyArrays) (h : i + turns ≤ copyHeap.len)
    (hdata : i + turns ≤ sizes.pdata.toNat / 8) (hcount : i + turns ≤ sizes.pcount.toNat / 4) :
    ∃ out, fillReply t copyHeap sizes turns i arrays = some out ∧
      (∀ k < i, out.pdata k = arrays.pdata k ∧ out.pcount k = arrays.pcount k) ∧
      ∀ k, i ≤ k → k < i + turns → out.pdata k = t.nameOf (copyHeap.heap k) ∧
        out.pcount k = (t.mem (copyHeap.heap k)).count.toInt32.toInt := by
  induction turns generalizing i arrays with
  | zero => exact ⟨arrays,rfl,fun k _ => ⟨rfl,rfl⟩,fun k hk hlt => absurd hlt (by omega)⟩
  | succ turns ih =>
    rw [fillReply, readEntry_some (by omega), Option.bind_some, writeEntry_some (by omega), Option.bind_some,
      writeEntry_some (by omega), Option.bind_some]
    obtain ⟨out,hout,hold,hnew⟩ := ih (i := i + 1) ⟨Function.update arrays.pdata i (t.nameOf (copyHeap.heap i)),
      Function.update arrays.pcount i (t.mem (copyHeap.heap i)).count.toInt32.toInt⟩ (by omega) (by omega) (by omega)
    refine ⟨out,hout,?_,?_⟩
    · intro k hk
      obtain ⟨hd,hc⟩ := hold k (by omega)
      rw [hd, hc]
      exact ⟨Function.update_of_ne hk.ne _ _,Function.update_of_ne hk.ne _ _⟩
    · intro k hk hlt
      by_cases hki : k = i
      · subst hki
        obtain ⟨hd,hc⟩ := hold k (by omega)
        rw [hd, hc]
        exact ⟨Function.update_self _ _ _,Function.update_self _ _ _⟩
      · exact hnew k (by omega) (by omega)

end Fill

theorem take_entries {α : Type*} (arr : ℕ → α) {n len : ℕ} (h : n ≤ len) : (entries arr len).take n = entries arr n := by
  rw [entries, ← List.map_take, List.take_range, min_eq_left h, entries]

/-! ## The whole function -/

section Reply
variable {memory : ℕ → ℕ} {t : NameTree} {topn : Int32}

theorem toInt_len (hlen : t.heap.len < 2 ^ 31) : (Int32.ofNat t.heap.len).toInt = t.heap.len := by
  rw [← Int32.ofInt_eq_ofNat, Int32.toInt_ofInt_of_le (by omega) (by omega)]

/-- Where `topn` is not negative, the sizes are those of the entries there are. -/
theorem replySizes_nonneg (hlen : t.heap.len < 2 ^ 31) (h : 0 ≤ topn.toInt) (copyHeap : Heap ℕ)
    (hcopy : copyHeap.len = t.heap.len) : ((replySizes topn copyHeap).nName.toNat : ℤ) = min topn.toInt t.heap.len ∧
      (replySizes topn copyHeap).pdata.toNat = 8 * (replySizes topn copyHeap).nName.toNat ∧
      (replySizes topn copyHeap).pcount.toNat = 4 * (replySizes topn copyHeap).nName.toNat := by
  have hmin : (minInt32 topn (Int32.ofNat copyHeap.len)).toInt = min topn.toInt t.heap.len := by
    rw [toInt_minInt32, hcopy, toInt_len hlen]
  have hname : ((replySizes topn copyHeap).nName.toNat : ℤ) = min topn.toInt t.heap.len := by
    rw [replySizes, toNat_sizeOfInt, hmin]
    omega
  have hsmall : (replySizes topn copyHeap).nName.toNat < 2 ^ 31 := by omega
  refine ⟨hname,?_,?_⟩
  · change (8 * (replySizes topn copyHeap).nName).toNat = _
    rw [UInt64.toNat_mul, Nat.mod_eq_of_lt]
    · rfl
    · change 8 * (replySizes topn copyHeap).nName.toNat < 2 ^ 64
      omega
  · change (4 * (replySizes topn copyHeap).nName).toNat = _
    rw [UInt64.toNat_mul, Nat.mod_eq_of_lt]
    · rfl
    · change 4 * (replySizes topn copyHeap).nName.toNat < 2 ^ 64
      omega

/-- A negative number becomes one that no heap has entries for. -/
theorem replySizes_neg (hlen : t.heap.len < 2 ^ 31) (h : topn.toInt < 0) (copyHeap : Heap ℕ)
    (hcopy : copyHeap.len = t.heap.len) : ((replySizes topn copyHeap).nName.toNat : ℤ) = 2 ^ 64 + topn.toInt := by
  have hmin : (minInt32 topn (Int32.ofNat copyHeap.len)).toInt = topn.toInt := by
    rw [toInt_minInt32, hcopy, toInt_len hlen]
    omega
  rw [replySizes, toNat_sizeOfInt, hmin]
  have := topn.le_toInt
  omega

/-- With its accesses checked the function is the same one; a negative number makes it read too far. -/
theorem viewStatsResultChecked_eq (hlen : t.heap.len < 2 ^ 31) (arrays : ReplyArrays) (key : String) :
    viewStatsResultChecked memory arrays t key topn = viewStatsResult memory t key topn.toInt := by
  let copyHeap := heapSort elemCompare t.mem (heapCopy memory t.heap)
  have hrun : viewStatsResultChecked memory arrays t key topn =
      (fillReply t copyHeap (replySizes topn copyHeap) (replySizes topn copyHeap).nName.toNat 0 arrays).map
        fun arrays => ⟨key,entries arrays.pdata (replySizes topn copyHeap).nName.toNat,
          entries arrays.pcount (replySizes topn copyHeap).nName.toNat⟩ := by
    rw [viewStatsResultChecked, sortLoopChecked_eq _ _ le_rfl]
    rfl
  rw [hrun]
  by_cases hneg : topn.toInt < 0
  · have hsize := replySizes_neg hlen hneg copyHeap rfl
    have hlow := topn.le_toInt
    have hfar : copyHeap.len < 0 + (replySizes topn copyHeap).nName.toNat := by
      change t.heap.len < _
      omega
    rw [fillReply_none arrays hfar (Nat.zero_le _), viewStatsResult, if_pos (by omega), Option.map_none]
  · obtain ⟨hname,hdata,hcount⟩ := replySizes_nonneg hlen (not_lt.mp hneg) copyHeap rfl
    have hle : 0 + (replySizes topn copyHeap).nName.toNat ≤ copyHeap.len := by
      change _ ≤ t.heap.len
      omega
    have hroom : 0 + (replySizes topn copyHeap).nName.toNat ≤ (replySizes topn copyHeap).pdata.toNat / 8 ∧
        0 + (replySizes topn copyHeap).nName.toNat ≤ (replySizes topn copyHeap).pcount.toNat / 4 := by omega
    obtain ⟨out,hfill,-,hnew⟩ := fillReply_some (t := t) arrays hle hroom.1 hroom.2
    have hk : (min topn.toInt copyHeap.len).toNat = (replySizes topn copyHeap).nName.toNat := by
      change (min topn.toInt t.heap.len).toNat = _
      omega
    have hnodes : topNodes memory t topn.toInt = entries copyHeap.heap (replySizes topn copyHeap).nName.toNat := by
      rw [topNodes, ← hk]
      exact take_entries copyHeap.heap (by omega)
    rw [hfill, viewStatsResult, if_neg (by omega), hnodes, Option.map_some]
    have hnames : entries out.pdata (replySizes topn copyHeap).nName.toNat =
        (entries copyHeap.heap (replySizes topn copyHeap).nName.toNat).map t.nameOf := by
      rw [entries, entries, List.map_map]
      exact List.map_congr_left (fun k hk => (hnew k (Nat.zero_le k) (by simpa using hk)).1)
    have hcounts : entries out.pcount (replySizes topn copyHeap).nName.toNat =
        (entries copyHeap.heap (replySizes topn copyHeap).nName.toNat).map
          fun nv => (t.mem nv).count.toInt32.toInt := by
      rw [entries, entries, List.map_map]
      exact List.map_congr_left (fun k hk => (hnew k (Nat.zero_le k) (by simpa using hk)).2)
    rw [hnames, hcounts]

end Reply

/-- A request is answered within the bounds exactly if its number is not negative. -/
theorem topn_in_bounds_iff (memory : ℕ → ℕ) (arrays : ReplyArrays) {t : NameTree} (hlen : t.heap.len < 2 ^ 31)
    (key : String) (request : StatsRequest) :
    let sizes := replySizes request.topnOrAll t.heap
    let k := (max 0 (min request.topnOrAll.toInt t.heap.len)).toNat
    (sizes.pdata.toNat = 8 * k ∧ sizes.pcount.toNat = 4 * k ∧
      ∃ reply, viewStatsResultChecked memory arrays t key request.topnOrAll = some reply ∧
        reply.name.length = k ∧ reply.count.length = k) ↔ 0 ≤ request.topn.toInt := by
  intro sizes k
  have hsign : 0 ≤ request.topn.toInt ↔ 0 ≤ request.topnOrAll.toInt := by
    rw [toInt_topnOrAll, StatsRequest.entries]
    split
    · rename_i h
      rw [h]
      decide
    · rfl
  rw [hsign, viewStatsResultChecked_eq hlen]
  constructor
  · rintro ⟨-,-,reply,hreply,-⟩
    by_contra hneg
    rw [viewStatsResult, if_pos (by omega)] at hreply
    cases hreply
  · intro hnonneg
    obtain ⟨hname,hdata,hcount⟩ := replySizes_nonneg hlen hnonneg t.heap rfl
    have hk : k = sizes.nName.toNat := by
      simp only [k, sizes]
      omega
    have hnodes := topNodes_length memory t request.topnOrAll.toInt
    have hlength : (topNodes memory t request.topnOrAll.toInt).length = k := by
      simp only [k]
      omega
    refine ⟨hk ▸ hdata,hk ▸ hcount,_,if_neg (by omega),?_,?_⟩
    · rw [List.length_map, hlength]
    · rw [List.length_map, hlength]

private theorem two_names : ∃ s, insertRun staleMemory (insertAll [letters 1,letters 2]) = some s ∧
    s.tree.heap.len = 2 := by
  obtain ⟨s,hs⟩ := Option.isSome_iff_exists.mp
    (by decide +kernel : (insertRun staleMemory (insertAll [letters 1,letters 2])).isSome = true)
  have hlen : (insertRun staleMemory (insertAll [letters 1,letters 2])).map (fun s => s.tree.heap.len) = some 2 := by
    decide +kernel
  rw [hs] at hlen
  exact ⟨s,hs,Option.some_inj.mp hlen⟩

/-- Of two names a request for the first five gets both. -/
theorem topn_in_bounds_two : ∃ s, insertRun staleMemory (insertAll [letters 1,letters 2]) = some s ∧
    ∃ reply, viewStatsResultChecked (fun _ => 0) ⟨fun _ => dot,fun _ => 0⟩ s.tree "domaintopn" 5 = some reply ∧
      reply.name.length = 2 := by
  obtain ⟨s,hs,hlen⟩ := two_names
  obtain ⟨-,-,reply,hreply,hname,-⟩ := (topn_in_bounds_iff (fun _ => 0) ⟨fun _ => dot,fun _ => 0⟩
    (show s.tree.heap.len < 2 ^ 31 by omega) "domaintopn" ⟨text "domaintopn",text "v",5⟩).mpr (by decide)
  refine ⟨s,hs,reply,hreply,?_⟩
  rw [hname, hlen]
  decide

/-- A request for the first -1 asks malloc for eight bytes less than 2^64 and reads past the two entries. -/
theorem topn_out_of_bounds : ∃ s, insertRun staleMemory (insertAll [letters 1,letters 2]) = some s ∧
    (replySizes (-1) s.tree.heap).pdata.toNat = 2 ^ 64 - 8 ∧
    viewStatsResultChecked (fun _ => 0) ⟨fun _ => dot,fun _ => 0⟩ s.tree "domaintopn" (-1) = none := by
  obtain ⟨s,hs,hlen⟩ := two_names
  refine ⟨s,hs,?_,?_⟩
  · simp only [replySizes, hlen]
    decide
  · rw [viewStatsResultChecked_eq (by omega)]
    exact if_pos (by simp [hlen])

end LogStats
