import LogStats.NameTree.HeapRuns
import LogStats.Views.Limit

/-! # The size of a record in 32 bits

The sizes of the two trees are 64 bits wide, view_stats_get_size adds them in 32. What it
returns is right as long as the sum of all three is below 2 ^ 32.
-/
namespace LogStats

open NameTree

/-- The three sizes added in the width of those of the trees. -/
def viewStatsFullSize (vs : ViewStats) : UInt64 :=
  sizeofViewStats.toUInt64 + nameTreeGetSize vs.nameTree + nameTreeGetSize vs.ipTree

namespace ViewStats

def withNameCount (vs : ViewStats) (n : UInt32) : ViewStats := { vs with nameTree := { vs.nameTree with count := n } }
def withIpCount (vs : ViewStats) (n : UInt32) : ViewStats := { vs with ipTree := { vs.ipTree with count := n } }

/-- The size is that of the record and its trees, it grows with each node that either tree has,
and a limit is exceeded by it where the record exceeds it. -/
structure Measured (vs : ViewStats) : Prop where
  exact : viewStatsGetSize vs = viewStatsFullSize vs
  names : ∀ n m, n < m → m ≤ vs.nameTree.count → viewStatsGetSize (vs.withNameCount n) < viewStatsGetSize (vs.withNameCount m)
  ips : ∀ n m, n < m → m ≤ vs.ipTree.count → viewStatsGetSize (vs.withIpCount n) < viewStatsGetSize (vs.withIpCount m)
  limit : ∀ expectSize, expectSize < viewStatsGetSize vs ↔ expectSize < viewStatsFullSize vs

/-- What does not depend on the numbers of nodes. -/
def fixedBytes (vs : ViewStats) : ℕ :=
  sizeofViewStats.toNat + (emptySize + (UInt64.ofInt vs.nameTree.lru.count * 24).toNat) +
    (emptySize + (UInt64.ofInt vs.ipTree.lru.count * 24).toNat)

section Sizes
variable {vs : ViewStats}

theorem nameTreeGetSize_toNat (t : NameTree) : (nameTreeGetSize t).toNat =
    (emptySize + (UInt64.ofInt t.lru.count * 24).toNat + 88 * t.count.toNat) % 2 ^ 64 := by
  simp only [nameTreeGetSize, UInt64.toNat_add, UInt64.toNat_mul, UInt32.toNat_toUInt64, UInt64.reduceToNat, emptySize]
  omega

theorem fullSize_toNat (vs : ViewStats) : (viewStatsFullSize vs).toNat =
    (vs.fixedBytes + 88 * vs.nameTree.count.toNat + 88 * vs.ipTree.count.toNat) % 2 ^ 64 := by
  simp only [viewStatsFullSize, UInt64.toNat_add, nameTreeGetSize_toNat, UInt32.toNat_toUInt64, fixedBytes]
  omega

/-- What is lost are the multiples of 2 ^ 32. -/
theorem getSize_toNat (vs : ViewStats) : (viewStatsGetSize vs).toNat = (viewStatsFullSize vs).toNat % 2 ^ 32 := by
  simp only [viewStatsGetSize, viewStatsSize, viewStatsFullSize, UInt32.toNat_toUInt64, UInt32.toNat_add,
    UInt64.toNat_toUInt32, UInt64.toNat_add]
  omega

theorem exact_iff : viewStatsGetSize vs = viewStatsFullSize vs ↔ (viewStatsFullSize vs).toNat < 2 ^ 32 := by
  rw [← UInt64.toNat_inj, getSize_toNat]
  constructor
  · intro heq
    rw [← heq]
    exact Nat.mod_lt _ (by decide)
  · exact Nat.mod_eq_of_lt

theorem withNameCount_toNat (vs : ViewStats) (n : UInt32) : (viewStatsGetSize (vs.withNameCount n)).toNat =
    (vs.fixedBytes + 88 * n.toNat + 88 * vs.ipTree.count.toNat) % 2 ^ 64 % 2 ^ 32 := by
  rw [getSize_toNat, fullSize_toNat]
  rfl

theorem withIpCount_toNat (vs : ViewStats) (n : UInt32) : (viewStatsGetSize (vs.withIpCount n)).toNat =
    (vs.fixedBytes + 88 * vs.nameTree.count.toNat + 88 * n.toNat) % 2 ^ 64 % 2 ^ 32 := by
  rw [getSize_toNat, fullSize_toNat]
  rfl

/-- A size truncated to 32 bits still grows with each node if and only if the 64 bits have not
wrapped on the way. -/
theorem grows_iff {size : UInt32 → UInt64} {K : ℕ} {c : UInt32}
    (hsize : ∀ n, (size n).toNat = (K + 88 * n.toNat) % 2 ^ 64 % 2 ^ 32) (hsmall : (K + 88 * c.toNat) % 2 ^ 64 < 2 ^ 32) :
    (∀ n m, n < m → m ≤ c → size n < size m) ↔ 88 * c.toNat ≤ (K + 88 * c.toNat) % 2 ^ 64 := by
  have hc := c.toNat_lt
  constructor
  · intro h
    by_contra hlt
    -- the node whose bytes take the size over a multiple of 2 ^ 64
    obtain ⟨k,hk⟩ : ∃ k, k = c.toNat - (K + 88 * c.toNat) % 2 ^ 64 / 88 := ⟨_,rfl⟩
    have hn : (UInt32.ofNat (k - 1)).toNat = k - 1 := UInt32.toNat_ofNat_of_lt' (by rw [UInt32.size]; omega)
    have hm : (UInt32.ofNat k).toNat = k := UInt32.toNat_ofNat_of_lt' (by rw [UInt32.size]; omega)
    have hwrap := h (UInt32.ofNat (k - 1)) (UInt32.ofNat k) (by rw [UInt32.lt_iff_toNat_lt, hn, hm]; omega)
      (by rw [UInt32.le_iff_toNat_le, hm]; omega)
    rw [UInt64.lt_iff_toNat_lt, hsize, hsize, hn, hm] at hwrap
    omega
  · intro h n m hnm hmc
    rw [UInt32.lt_iff_toNat_lt] at hnm
    rw [UInt32.le_iff_toNat_le] at hmc
    have hbelow : ∀ k ≤ c.toNat, (K + 88 * k) % 2 ^ 64 = (K + 88 * c.toNat) % 2 ^ 64 - 88 * (c.toNat - k) := by
      intro k hk
      omega
    rw [UInt64.lt_iff_toNat_lt, hsize, hsize, hbelow _ (by omega), hbelow _ hmc]
    omega

theorem fullSize_names : (viewStatsFullSize vs).toNat =
    (vs.fixedBytes + 88 * vs.ipTree.count.toNat + 88 * vs.nameTree.count.toNat) % 2 ^ 64 := by
  rw [fullSize_toNat, Nat.add_right_comm]

theorem names_iff (hsmall : (viewStatsFullSize vs).toNat < 2 ^ 32) :
    (∀ n m, n < m → m ≤ vs.nameTree.count → viewStatsGetSize (vs.withNameCount n) < viewStatsGetSize (vs.withNameCount m)) ↔
      88 * vs.nameTree.count.toNat ≤ (viewStatsFullSize vs).toNat := by
  rw [fullSize_names] at hsmall ⊢
  apply grows_iff _ hsmall
  intro n
  rw [withNameCount_toNat, Nat.add_right_comm]

theorem ips_iff (hsmall : (viewStatsFullSize vs).toNat < 2 ^ 32) :
    (∀ n m, n < m → m ≤ vs.ipTree.count → viewStatsGetSize (vs.withIpCount n) < viewStatsGetSize (vs.withIpCount m)) ↔
      88 * vs.ipTree.count.toNat ≤ (viewStatsFullSize vs).toNat := by
  rw [fullSize_toNat] at hsmall ⊢
  exact grows_iff (withIpCount_toNat vs) hsmall

theorem Measured.of_small (hsmall : (viewStatsFullSize vs).toNat < 2 ^ 32)
    (hnames : 88 * vs.nameTree.count.toNat ≤ (viewStatsFullSize vs).toNat)
    (hips : 88 * vs.ipTree.count.toNat ≤ (viewStatsFullSize vs).toNat) : vs.Measured := by
  have hexact := exact_iff.mpr hsmall
  refine ⟨hexact,(names_iff hsmall).mpr hnames,(ips_iff hsmall).mpr hips,?_⟩
  intro expectSize
  rw [hexact]

end Sizes

section Sound
variable {vs : ViewStats} {nameCells ipCells : List ℕ}

/-- A tree takes more than its nodes, and far less than 2 ^ 64 bytes. -/
theorem sizeAt_bounds {t : NameTree} {cells : List ℕ} (h : t.Wf cells) :
    88 * t.count.toNat ≤ t.sizeAt cells ∧ t.sizeAt cells < 2 ^ 40 := by
  have hlt := h.values_lt
  have hsize := h.size_eq
  rw [nameTreeGetSize_toNat] at hsize
  have hlru : (UInt64.ofInt t.lru.count * 24).toNat = cells.length * 24 := by
    have hcells := h.cells_length_le
    rw [UInt64.toNat_mul, h.lru.count_eq]
    simp only [UInt64.ofInt, UInt64.toNat_ofNat', UInt64.reduceToNat]
    omega
  have hcells := h.cells_length_le
  have hcount := h.count_eq
  rw [hlru, emptySize, Nat.mod_eq_of_lt (by omega)] at hsize
  omega

theorem Wf.fullSize_eq (h : vs.Wf nameCells ipCells) : (viewStatsFullSize vs).toNat = vs.bytesAt nameCells ipCells := by
  have hname := sizeAt_bounds h.nameTree
  have hip := sizeAt_bounds h.ipTree
  simp only [viewStatsFullSize, UInt64.toNat_add, h.nameTree.size_eq, h.ipTree.size_eq, bytesAt, sizeofViewStats,
    UInt32.toNat_toUInt64, UInt32.reduceToNat]
  omega

/-- For a record whose lists and trees belong together nothing else is needed. -/
theorem Wf.measured_iff (h : vs.Wf nameCells ipCells) : vs.Measured ↔ vs.bytesAt nameCells ipCells < 2 ^ 32 := by
  have hname := (sizeAt_bounds h.nameTree).1
  have hip := (sizeAt_bounds h.ipTree).1
  rw [← h.fullSize_eq]
  constructor
  · exact fun hm => exact_iff.mp hm.exact
  · intro hsmall
    apply Measured.of_small hsmall
    · rw [h.fullSize_eq, bytesAt]
      omega
    · rw [h.fullSize_eq, bytesAt]
      omega

end Sound

end ViewStats

open ViewStats

/-- The size is right if and only if it is below 2 ^ 32 and not below what the nodes of a tree
take. A record whose lists and trees belong together only needs the first. -/
theorem viewStatsGetSize_measured_iff (vs : ViewStats) :
    (vs.Measured ↔ (viewStatsFullSize vs).toNat < 2 ^ 32 ∧ 88 * vs.nameTree.count.toNat ≤ (viewStatsFullSize vs).toNat ∧
      88 * vs.ipTree.count.toNat ≤ (viewStatsFullSize vs).toNat) ∧
    ∀ nameCells ipCells, vs.Wf nameCells ipCells → (vs.Measured ↔ vs.bytesAt nameCells ipCells < 2 ^ 32) := by
  refine ⟨⟨fun h => ?_,?_⟩,fun _ _ h => h.measured_iff⟩
  · have hsmall := exact_iff.mp h.exact
    exact ⟨hsmall,(names_iff hsmall).mp h.names,(ips_iff hsmall).mp h.ips⟩
  · rintro ⟨hsmall,hnames,hips⟩
    exact .of_small hsmall hnames hips

/-! ## A view with too many names -/

/-- Names of five bytes, different for different numbers. -/
def fiveName (i : ℕ) : CString where
  bytes := [letter (i / 2560000),letter (i / 64000),letter (i / 1600),letter (i / 40),letter i]
  nulFree := by simp [(letter_spec _).1]

theorem dotted_fiveName (i : ℕ) : dotted (fiveName i) = some (fiveName i ++ dot) := by
  simp [dotted, nameEndWithDot, fiveName, (letter_spec i).2]

theorem fiveName_inj {i j : ℕ} (hi : i < 102400000) (hj : j < 102400000) (h : fiveName i ++ dot = fiveName j ++ dot) :
    i = j := by
  have hb := congrArg CString.bytes (CString.append_right_cancel h)
  simp only [fiveName, List.cons.injEq, and_true] at hb
  obtain ⟨h₄,h₃,h₂,h₁,h₀⟩ := hb
  have hmod := letter_inj h₀
  have hforty := letter_inj h₁
  have hhundreds := letter_inj h₂
  have hthousands := letter_inj h₃
  have hmillions := letter_inj h₄
  omega

/-- Different names each get a node of their own in the tree and one in the list. -/
theorem fiveNames_inserted {n : ℕ} (hn : n ≤ poolLimit) : ∃ s cells,
    insertRun staleMemory (insertAll ((List.range n).map fiveName)) = some s ∧ s.tree.Wf cells ∧
      s.tree.overlong = [] ∧ cells.length = n := by
  obtain ⟨s,hrun,hlog,-⟩ := insertAll_some staleMemory ((List.range n).map fiveName) (by simpa using hn)
    (by simp [fiveName, CString.strlen, maxNameLen])
  have hnames : ((List.range n).map fiveName).filterMap dotted = (List.range n).map (fun i => fiveName i ++ dot) := by
    rw [List.filterMap_map, show dotted ∘ fiveName = fun i => some (fiveName i ++ dot) from funext dotted_fiveName,
      ← List.filterMap_eq_map]
    rfl
  rw [hnames] at hlog
  have hnd : s.log.Nodup := by
    rw [hlog, List.nodup_reverse, List.nodup_map_iff_inj_on List.nodup_range]
    intro i hi j hj he
    have hi := List.mem_range.mp hi
    have hj := List.mem_range.mp hj
    rw [poolLimit] at hn
    exact fiveName_inj (by omega) (by omega) he
  have hfit : ∀ u ∈ s.log, u.strlen < maxNameLen := by
    intro u hu
    rw [hlog, List.mem_reverse, List.mem_map] at hu
    obtain ⟨i,-,rfl⟩ := hu
    exact (by decide : 5 + 1 < maxNameLen)
  have hinv := insertRun_inv hrun
  obtain ⟨cells,hwf⟩ := hinv.wf
  have hall : s.tree.overlong = [] := by
    apply List.filter_eq_nil_iff.mpr
    intro v hv
    by_contra hnf
    obtain ⟨u,hu,hul⟩ := hinv.tallied.overlong ⟨v,hv,by simpa using hnf⟩
    exact (hfit u hu).ne hul
  refine ⟨s,cells,hrun,hwf,hall,?_⟩
  have hperm := (hinv.tallied.names_perm hwf hfit).length_eq
  rw [List.length_map, hnd.dedup, hlog, List.length_reverse, List.length_map, List.length_range] at hperm
  rw [← hperm, hwf.length_eq hall]

/-- A record sees the insertions of its tree of names. -/
theorem viewStatsInsertName_run {vs : ViewStats} {s s' : Logged} {names : List CString} (hs : s.tree = vs.nameTree)
    (h : run insertStep s (insertAll names) = some s') :
    names.foldlM (viewStatsInsertName .succeed) vs = some { vs with nameTree := s'.tree } := by
  induction names generalizing vs s with
  | nil =>
    obtain rfl := Option.some_inj.mp h
    rw [hs]
    rfl
  | cons name names ih =>
    cases hstep : insertStep s ⟨Mallocs.succeed,name⟩ with
    | none =>
      rw [insertAll, List.map_cons, run_cons_none hstep] at h
      cases h
    | some s₁ =>
      rw [insertAll, List.map_cons, run_cons_some hstep] at h
      obtain ⟨⟨tree,r⟩,hins,rfl⟩ := Option.map_eq_some_iff.mp hstep
      rw [hs] at hins
      have hname : viewStatsInsertName .succeed vs name = some { vs with nameTree := tree } := by
        simp [viewStatsInsertName, hins]
      rw [List.foldlM_cons, hname]
      exact @ih { vs with nameTree := tree } _ rfl h

/-- A new view with `n` names in it. -/
theorem viewStats_of_names {n : ℕ} (hn : n ≤ poolLimit) : ∃ vs₀ vs cells,
    viewStatsCreate true staleRecord (letters 1) = some (some vs₀) ∧
    ((List.range n).map fiveName).foldlM (viewStatsInsertName .succeed) vs₀ = some vs ∧
    vs.Wf cells [] ∧ vs.bytesAt cells [] = 320704 + n * 112 := by
  obtain ⟨s,cells,hrun,hwf,hall,hlen⟩ := fiveNames_inserted hn
  obtain ⟨t,ht,hrun⟩ := Option.bind_eq_some_iff.mp hrun
  obtain ⟨t',ht',hfresh,hnone,-⟩ := nameTreeCreate_wf staleMemory
  obtain rfl : t' = t := Option.some_inj.mp (ht'.symm.trans ht)
  let vs₀ : ViewStats := ⟨letters 1,t',t',0,1,0,0,fun _ => 0,fun _ => 0⟩
  have hcreate : viewStatsCreate true staleRecord (letters 1) = some (some vs₀) := by
    have hshort : (letters 1).strlen = 1 := rfl
    simp [viewStatsCreate, staleRecord, ht, hshort, maxViewLength, vs₀]
  have hvs : ViewStats.Wf { vs₀ with nameTree := s.tree } cells [] := ⟨hwf,hfresh⟩
  have hempty : t'.overlong = [] := by rw [overlong, hnone, List.filter_nil]
  refine ⟨vs₀,_,cells,hcreate,viewStatsInsertName_run rfl hrun,hvs,?_⟩
  rw [bytesAt_of_fits hvs ⟨hall,hempty⟩ (List.prefix_refl _) (List.prefix_refl _), hlen, emptySize, List.length_nil]
  omega

/-- A view with 38345059 names is taken for one of 16 bytes, and no limit makes it smaller. -/
theorem viewStatsGetSize_wraps : ∃ vs₀ vs, viewStatsCreate true staleRecord (letters 1) = some (some vs₀) ∧
    ((List.range 38345059).map fiveName).foldlM (viewStatsInsertName .succeed) vs₀ = some vs ∧
    viewStatsGetSize vs = 16 ∧ viewStatsFullSize vs = 4294967312 ∧ viewStatsSetMemsize vs 1048576 = some vs := by
  obtain ⟨vs₀,vs,cells,hcreate,hins,hwf,hbytes⟩ := viewStats_of_names (show 38345059 ≤ poolLimit by decide)
  have hfull : (viewStatsFullSize vs).toNat = 4294967312 := hwf.fullSize_eq.trans hbytes
  have hsize : viewStatsGetSize vs = 16 := UInt64.toNat_inj.mp (by rw [getSize_toNat, hfull]; rfl)
  refine ⟨vs₀,vs,hcreate,hins,hsize,UInt64.toNat_inj.mp hfull,?_⟩
  have hstop : ¬(1048576 : UInt64) < (viewStatsSize (nameTreeGetSize vs.nameTree) (nameTreeGetSize vs.ipTree)).toUInt64 := by
    rw [← viewStatsGetSize, hsize]
    decide
  simp only [viewStatsSetMemsize, setMemsizeRounds, setMemsizeLoop, if_neg hstop, Option.bind_eq_bind, Option.bind_some]

end LogStats
