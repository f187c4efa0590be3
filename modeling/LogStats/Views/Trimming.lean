import LogStats.Library.Trim
import LogStats.NameTree.Recycling
import LogStats.Views.ViewStats

/-! # What view_stats_set_memsize leaves of the two trees

The size of a name tree follows from what its LRU list still has: a node whose name fits
leaves the tree together with its LRU node, one whose name is too long does not. The
loops take LRU nodes off the tail for as long as the record is over the limit.
-/
namespace LogStats

open NameTree

namespace NameTree

/-- The nodes that no eviction takes out of the tree. -/
def overlong (t : NameTree) : List ℕ := t.values.filter (fun v => ¬(t.mem v).Fits)

/-- Those of the LRU nodes that take a node of the tree with them. -/
def fitting (t : NameTree) (cells : List ℕ) : List ℕ := cells.filter (fun c => (t.mem (t.lru.dataOf c)).Fits)

/-- The size of the tree when `cells` are left of the LRU list. -/
def sizeAt (t : NameTree) (cells : List ℕ) : ℕ :=
  emptySize + (t.overlong.length + (t.fitting cells).length) * (sizeofRbnode + sizeofNodeValue) +
    cells.length * sizeofLruNode

/-- What `t'` with the LRU nodes `kept` still has of `t`. -/
structure Remains (t t' : NameTree) (kept : List ℕ) : Prop where
  wf : t'.Wf kept
  recent_eq : t'.recent kept = kept.map t.lru.dataOf
  overlong_eq : t'.overlong = t.overlong
  values_sub : ∀ v ∈ t'.values, v ∈ t.values
  mem_eq : ∀ v ∈ t'.values, t'.mem v = t.mem v

section Facts
variable {t t' : NameTree} {cells kept : List ℕ}

theorem fits_of_overlong (hfit : t.overlong = []) {v : ℕ} (hv : v ∈ t.values) : (t.mem v).Fits := by
  by_contra hnf
  have hmem : v ∈ t.overlong := List.mem_filter.mpr ⟨hv,by simpa using hnf⟩
  rw [hfit] at hmem
  exact List.not_mem_nil hmem

/-- Without names that are too long every LRU node takes a node of the tree with it. -/
theorem Wf.fitting_eq (h : t.Wf cells) (hfit : t.overlong = []) {cs : List ℕ} (hcs : cs <+: cells) :
    t.fitting cs = cs := by
  apply List.filter_eq_self.mpr
  intro c hc
  simpa using fits_of_overlong hfit (h.linked c (hcs.subset hc)).1

theorem Wf.fitting_perm (h : t.Wf cells) :
    ((t.fitting cells).map t.lru.dataOf).Perm (t.values.filter (fun v => (t.mem v).Fits)) := by
  refine (List.perm_ext_iff_of_nodup ?_ (h.values_nodup.filter _)).mpr (fun v => ?_)
  · exact (h.recent_nodup).sublist (List.filter_sublist.map _)
  · simp only [fitting, List.mem_map, List.mem_filter, decide_eq_true_eq]
    constructor
    · rintro ⟨c,⟨hc,hf⟩,rfl⟩
      exact ⟨(h.linked c hc).1,hf⟩
    · rintro ⟨hv,hf⟩
      obtain ⟨hc,hd⟩ := h.listed v hv hf
      exact ⟨(t.mem v).ptr,⟨hc,hd.symm ▸ hf⟩,hd⟩

theorem Wf.cells_length_le (h : t.Wf cells) : cells.length ≤ t.values.length := by
  have hsub : t.recent cells ⊆ t.values := by
    intro v hv
    obtain ⟨c,hc,rfl⟩ := List.mem_map.mp hv
    exact (h.linked c hc).1
  have hle := (List.subperm_of_subset h.recent_nodup hsub).length_le
  rwa [recent, List.length_map] at hle

/-- Without names that are too long the list has a node for each of the tree. -/
theorem Wf.length_eq (h : t.Wf cells) (hfit : t.overlong = []) : cells.length = t.values.length := by
  have hperm := h.fitting_perm.length_eq
  have hall : t.values.filter (fun v => (t.mem v).Fits) = t.values := by
    apply List.filter_eq_self.mpr
    intro v hv
    simpa using fits_of_overlong hfit hv
  rwa [h.fitting_eq hfit (List.prefix_refl cells), List.length_map, hall] at hperm

theorem Wf.size_eq (h : t.Wf cells) : (nameTreeGetSize t).toNat = t.sizeAt cells := by
  have hfit := h.fitting_perm.length_eq
  rw [List.length_map] at hfit
  have hsplit : t.values.length = t.overlong.length + (t.fitting cells).length := by
    rw [hfit, List.length_eq_length_filter_add (fun v => decide ((t.mem v).Fits)), Nat.add_comm, overlong]
    simp only [decide_not]
  have hcells := h.cells_length_le
  have hlt := h.values_lt
  rw [size_toNat (h.count_eq.trans hsplit) h.lru.count_eq (by omega) (by omega), sizeAt]

theorem Remains.refl (h : t.Wf cells) : Remains t t cells where
  wf := h
  recent_eq := rfl
  overlong_eq := rfl
  values_sub _ hv := hv
  mem_eq _ _ := rfl

theorem Remains.dataOf_eq (h : Remains t t' kept) {c : ℕ} (hc : c ∈ kept) : t'.lru.dataOf c = t.lru.dataOf c :=
  List.map_inj_left.mp h.recent_eq c hc

theorem Remains.sizeAt_eq (h : Remains t t' kept) {cs : List ℕ} (hcs : cs <+: kept) :
    t'.sizeAt cs = t.sizeAt cs := by
  have hfit : t'.fitting cs = t.fitting cs := by
    apply List.filter_congr
    intro c hc
    have hck := hcs.subset hc
    rw [h.mem_eq _ (h.wf.linked c hck).1, h.dataOf_eq hck]
  rw [sizeAt, sizeAt, h.overlong_eq, hfit]

theorem Remains.trans {t'' : NameTree} {kept' : List ℕ} (h : Remains t t' kept) (h' : Remains t' t'' kept')
    (hsub : ∀ c ∈ kept', c ∈ kept) : Remains t t'' kept' where
  wf := h'.wf
  recent_eq := h'.recent_eq.trans (List.map_congr_left (fun c hc => h.dataOf_eq (hsub c hc)))
  overlong_eq := h'.overlong_eq.trans h.overlong_eq
  values_sub v hv := h.values_sub v (h'.values_sub v hv)
  mem_eq v hv := (h'.mem_eq v hv).trans (h.mem_eq v (h'.values_sub v hv))

/-- The tree is empty when nothing is left of its LRU list and no node was stuck in it. -/
theorem Remains.values_eq_nil (h : Remains t t' kept) : t'.values = [] ↔ kept = [] ∧ t.overlong = [] := by
  constructor
  · intro hv
    have hnone : ∀ v, v ∉ t'.values := by simp [hv]
    refine ⟨List.eq_nil_iff_forall_not_mem.mpr (fun c hc => hnone _ (h.wf.linked c hc).1),?_⟩
    rw [← h.overlong_eq, overlong, hv, List.filter_nil]
  · rintro ⟨rfl,hover⟩
    apply List.eq_nil_iff_forall_not_mem.mpr
    intro v hv
    by_cases hf : (t'.mem v).Fits
    · exact List.not_mem_nil (h.wf.listed v hv hf).1
    · have hmem : v ∈ t'.overlong := by simp [overlong, hv, hf]
      rw [h.overlong_eq, hover] at hmem
      exact List.not_mem_nil hmem

/-- One eviction. -/
theorem Wf.evicted {c : ℕ} (h : t.Wf (cells ++ [c])) :
    ∃ t', nameTreeEvict t = some (t',true) ∧ Remains t t' cells := by
  rcases nameTreeEvict_cases h with ⟨hnil,-⟩ | ⟨cs,c',t',hcells,hrun,hwf,hv,hrec,hcase⟩
  · exact absurd hnil (by simp)
  · obtain ⟨rfl,hc⟩ := List.append_inj' hcells rfl
    obtain rfl : c = c' := by simpa using hc
    have hmap : t.recent (cells ++ [c]) = cells.map t.lru.dataOf ++ [t.lru.dataOf c] := by simp [recent]
    have hkept : t'.recent cells = cells.map t.lru.dataOf := (List.append_cancel_right (hmap.symm.trans hrec)).symm
    have hrest : t'.overlong = t.overlong ∧ (∀ v ∈ t'.values, v ∈ t.values) ∧
        ∀ v ∈ t'.values, t'.mem v = t.mem v := by
      rcases hcase with ⟨hf,hrem⟩ | ⟨hnf,he⟩
      · obtain ⟨xs,ys,hsplit,hsplit'⟩ := hrem.split
        have hnd := h.values_nodup
        have hperm := hrem.perm
        have hgone : t.lru.dataOf c ∉ t'.values := (List.nodup_cons.mp (hperm.nodup_iff.mp hnd)).1
        have hmem : ∀ v ∈ t'.values, t'.mem v = t.mem v := fun v hv => hrem.mem_eq v (fun he => hgone (he ▸ hv))
        refine ⟨?_,fun v hv => hperm.mem_iff.mpr (List.mem_cons_of_mem _ hv),hmem⟩
        have hsame : t'.overlong = t'.values.filter (fun v => ¬(t.mem v).Fits) :=
          List.filter_congr (fun v hv => by rw [hmem v hv])
        rw [hsame, overlong, hsplit, hsplit', List.filter_append, List.filter_append,
          List.filter_cons_of_neg (by simpa using hf)]
      · rw [he]
        exact ⟨rfl,fun _ hv => hv,fun _ _ => rfl⟩
    exact ⟨t',hrun,hwf,hkept,hrest.1,hrest.2.1,hrest.2.2⟩

end Facts

end NameTree

/-! ## The loops -/

theorem setMemsizeLoop_spec (size : UInt64 → UInt64) (expectSize : UInt64) {fuel : ℕ} {t : NameTree}
    {cells : List ℕ} (h : t.Wf cells) (hfuel : cells.length < fuel) :
    ∃ t' kept, setMemsizeLoop size expectSize fuel t = some t' ∧ t.Remains t' kept ∧
      Trimmed (fun cs => expectSize < size (UInt64.ofNat (t.sizeAt cs))) 0 cells kept := by
  induction fuel generalizing t cells with
  | zero => exact absurd hfuel (Nat.not_lt_zero _)
  | succ fuel ih =>
    have hsize : nameTreeGetSize t = UInt64.ofNat (t.sizeAt cells) := by
      rw [← h.size_eq, UInt64.ofNat_toNat]
    by_cases hover : expectSize < size (nameTreeGetSize t)
    · rcases cells.eq_nil_or_concat with rfl | ⟨cs,c,rfl⟩
      · refine ⟨t,[],?_,.refl h,.stop (fun _ => le_rfl)⟩
        rcases nameTreeEvict_cases h with ⟨-,hrun⟩ | ⟨cs,c,-,hcells,-⟩
        · simp [setMemsizeLoop, hover, hrun]
        · exact absurd hcells (by simp)
      · rw [List.concat_eq_append] at h hfuel hsize ⊢
        obtain ⟨t₁,hrun,hrem⟩ := h.evicted
        rw [List.length_append, List.length_singleton] at hfuel
        obtain ⟨t',kept,hloop,hrem',htrim⟩ := ih hrem.wf (by omega)
        refine ⟨t',kept,?_,hrem.trans hrem' (fun c hc => htrim.initial.subset hc),?_⟩
        · simp only [setMemsizeLoop, if_pos hover, hrun, Option.bind_eq_bind, Option.bind_some, if_true]
          exact hloop
        · refine .drop (hsize ▸ hover) (by simp) (htrim.congr (fun cs' hcs' => ?_))
          rw [hrem.sizeAt_eq hcs']
    · refine ⟨t,cells,by simp [setMemsizeLoop, hover],.refl h,.stop (fun ho => absurd ?_ hover)⟩
      rwa [hsize]

/-- Both trees of a record are well-formed. -/
structure ViewStats.Wf (vs : ViewStats) (nameCells ipCells : List ℕ) : Prop where
  nameTree : vs.nameTree.Wf nameCells
  ipTree : vs.ipTree.Wf ipCells

/-- The size of the record when its trees have these LRU nodes left. -/
def ViewStats.sizeAt (vs : ViewStats) (nameCells ipCells : List ℕ) : UInt64 :=
  (viewStatsSize (UInt64.ofNat (vs.nameTree.sizeAt nameCells)) (UInt64.ofNat (vs.ipTree.sizeAt ipCells))).toUInt64

theorem ViewStats.Wf.size_eq {vs : ViewStats} {nameCells ipCells : List ℕ} (h : vs.Wf nameCells ipCells) :
    viewStatsGetSize vs = vs.sizeAt nameCells ipCells := by
  rw [viewStatsGetSize, ViewStats.sizeAt, ← h.nameTree.size_eq, ← h.ipTree.size_eq, UInt64.ofNat_toNat,
    UInt64.ofNat_toNat]

/-- Names go before addresses, each from the tail of its list and no further than needed. -/
theorem viewStatsSetMemsize_spec {vs : ViewStats} {nameCells ipCells : List ℕ} (h : vs.Wf nameCells ipCells)
    (expectSize : UInt64) : ∃ vs' nameKept ipKept, viewStatsSetMemsize vs expectSize = some vs' ∧
      vs.nameTree.Remains vs'.nameTree nameKept ∧ vs.ipTree.Remains vs'.ipTree ipKept ∧
      Trimmed (fun cs => expectSize < vs.sizeAt cs ipCells) 0 nameCells nameKept ∧
      Trimmed (fun cs => expectSize < vs.sizeAt nameKept cs) 0 ipCells ipKept ∧
      viewStatsGetSize vs' = vs.sizeAt nameKept ipKept ∧
      vs' = { vs with nameTree := vs'.nameTree, ipTree := vs'.ipTree } := by
  have hrounds : ∀ {t : NameTree} {cells : List ℕ}, t.Wf cells → cells.length < setMemsizeRounds t := by
    intro t cells h
    rw [setMemsizeRounds, h.lru.count_eq, Int.toNat_natCast]
    exact Nat.lt_succ_self _
  obtain ⟨nameTree,nameKept,hname,hrem,htrim⟩ := setMemsizeLoop_spec
    (fun size => (viewStatsSize size (nameTreeGetSize vs.ipTree)).toUInt64) expectSize h.nameTree (hrounds h.nameTree)
  obtain ⟨ipTree,ipKept,hip,hrem',htrim'⟩ := setMemsizeLoop_spec
    (fun size => (viewStatsSize (nameTreeGetSize nameTree) size).toUInt64) expectSize h.ipTree (hrounds h.ipTree)
  have hnameSize : nameTreeGetSize nameTree = UInt64.ofNat (vs.nameTree.sizeAt nameKept) := by
    rw [← hrem.sizeAt_eq (List.prefix_refl _), ← hrem.wf.size_eq, UInt64.ofNat_toNat]
  have hipSize : nameTreeGetSize vs.ipTree = UInt64.ofNat (vs.ipTree.sizeAt ipCells) := by
    rw [← h.ipTree.size_eq, UInt64.ofNat_toNat]
  refine ⟨{ vs with nameTree := nameTree, ipTree := ipTree },nameKept,ipKept,?_,hrem,hrem',?_,?_,?_,rfl⟩
  · simp only [viewStatsSetMemsize, hname, hip, Option.bind_eq_bind, Option.bind_some]
  · apply htrim.congr
    intro cs _
    rw [ViewStats.sizeAt, hipSize]
  · apply htrim'.congr
    intro cs _
    rw [ViewStats.sizeAt, hnameSize]
  · rw [ViewStats.Wf.size_eq ⟨hrem.wf,hrem'.wf⟩, ViewStats.sizeAt, ViewStats.sizeAt,
      hrem.sizeAt_eq (List.prefix_refl _), hrem'.sizeAt_eq (List.prefix_refl _)]

end LogStats
