import LogStats.Views.Limit

/-! # What view_stats_set_memsize takes out of one view

Where every name fits its field, the tree of the names and the LRU list carry the same
nodes. The nodes that leave are then the end of the list, the names go before the
addresses, and the size of what stays depends on nothing but how many nodes there are.
-/
namespace LogStats

open NameTree

/-- The bytes of a record with so many names and addresses, all of them short enough. -/
def recordBytes (names ips : ℕ) : ℕ :=
  sizeofViewStats.toNat + 2 * emptySize + (names + ips) * (sizeofRbnode + sizeofNodeValue + sizeofLruNode)

namespace NameTree

/-- `t'` is `t` without the end `gone` of its LRU list. The nodes that stay are untouched. -/
structure LosesTail (t t' : NameTree) (cells kept gone : List ℕ) : Prop where
  wf : t'.Wf kept
  fit : t'.overlong = []
  recent_eq : t.recent cells = t'.recent kept ++ gone
  values_perm : t.values.Perm (t'.values ++ gone)
  carried : (t'.recent kept).Perm t'.values
  count_eq : t'.count.toNat = kept.length
  lru_count_eq : t'.lru.count = kept.length
  mem_eq : ∀ v ∈ t'.values, t'.mem v = t.mem v

section Carried
variable {t t' : NameTree} {cells kept : List ℕ}

/-- Without names that are too long the list carries every node of the tree. -/
theorem Wf.carried (h : t.Wf cells) (hfit : t.overlong = []) : (t.recent cells).Perm t.values := by
  have hvalues : t.values.filter (fun v => (t.mem v).Fits) = t.values :=
    List.filter_eq_self.mpr (fun v hv => by simpa using fits_of_overlong hfit hv)
  have hperm := h.fitting_perm
  rwa [h.fitting_eq hfit (List.prefix_refl _), hvalues] at hperm

theorem Remains.losesTail (h : t.Wf cells) (hfit : t.overlong = []) (hrem : t.Remains t' kept)
    (hkept : kept <+: cells) : ∃ gone, t.LosesTail t' cells kept gone := by
  obtain ⟨rest,rfl⟩ := hkept
  have hfit' : t'.overlong = [] := hrem.overlong_eq.trans hfit
  have hcarried := hrem.wf.carried hfit'
  have hlen : kept.length = t'.values.length := by
    rw [← hcarried.length_eq, recent, List.length_map]
  have hrecent : t.recent (kept ++ rest) = t'.recent kept ++ rest.map t.lru.dataOf := by
    rw [hrem.recent_eq, recent, List.map_append]
  refine ⟨rest.map t.lru.dataOf,?_⟩
  constructor
  · exact hrem.wf
  · exact hfit'
  · exact hrecent
  · have hall := (h.carried hfit).symm
    rw [hrecent] at hall
    exact hall.trans (hcarried.append_right _)
  · exact hcarried
  · rw [hrem.wf.count_eq, hlen]
  · exact hrem.wf.lru.count_eq
  · exact hrem.mem_eq

end Carried

end NameTree

section Record
variable {vs : ViewStats} {nameCells ipCells : List ℕ}

theorem bytesAt_eq_recordBytes (h : vs.Wf nameCells ipCells) (hfit : vs.AllFit) {cs ds : List ℕ}
    (hcs : cs <+: nameCells) (hds : ds <+: ipCells) : vs.bytesAt cs ds = recordBytes cs.length ds.length := by
  rw [bytesAt_of_fits h hfit hcs hds, recordBytes]
  rfl

/-- What was trimmed lost nothing, or one element more would be over the limit. -/
theorem recordBytes_next (bytes : ℕ → ℕ) {excess : List ℕ → Prop} {xs kept : List ℕ} {limit : ℕ}
    (h : Trimmed excess 0 xs kept) (hexcess : ∀ cs, cs <+: xs → (excess cs ↔ limit < bytes cs.length))
    (hne : kept ≠ xs) : limit < bytes (kept.length + 1) := by
  rcases h.next with he | ⟨x,hx,hover⟩
  · exact absurd he hne
  · rw [hexcess _ hx, List.length_append, List.length_singleton] at hover
    exact hover

/-- `view_stats_set_memsize` returns with the record within the limit or with two empty
trees. Each tree lost the end of its LRU list, addresses only once there was no name left,
and one node more would have been over the limit. -/
theorem viewStatsSetMemsize_losesTail (h : vs.Wf nameCells ipCells) (hfit : vs.AllFit)
    (hsmall : recordBytes nameCells.length ipCells.length < 2 ^ 32) (expectSize : UInt64) :
    ∃ vs' nameKept ipKept nameGone ipGone, viewStatsSetMemsize vs expectSize = some vs' ∧
      vs.nameTree.LosesTail vs'.nameTree nameCells nameKept nameGone ∧
      vs.ipTree.LosesTail vs'.ipTree ipCells ipKept ipGone ∧
      (viewStatsGetSize vs').toNat = recordBytes nameKept.length ipKept.length ∧
      (viewStatsGetSize vs' ≤ expectSize ∨ (vs'.nameTree.values = [] ∧ vs'.ipTree.values = [])) ∧
      (ipGone ≠ [] → vs'.nameTree.values = []) ∧
      (nameGone ≠ [] → expectSize.toNat < recordBytes (nameKept.length + 1) ipCells.length) ∧
      (ipGone ≠ [] → expectSize.toNat < recordBytes nameKept.length (ipKept.length + 1)) ∧
      vs' = { vs with nameTree := vs'.nameTree, ipTree := vs'.ipTree } := by
  obtain ⟨vs',nameKept,ipKept,hrun,hname,hip,htrim,htrim',hsize,hrest⟩ := viewStatsSetMemsize_spec h expectSize
  obtain ⟨nameGone,hnameTail⟩ := hname.losesTail h.nameTree hfit.1 htrim.initial
  obtain ⟨ipGone,hipTail⟩ := hip.losesTail h.ipTree hfit.2 htrim'.initial
  have hbytes : vs.bytesAt nameCells ipCells < 2 ^ 32 := by
    rw [bytesAt_eq_recordBytes h hfit (List.prefix_refl _) (List.prefix_refl _)]
    exact hsmall
  have hover : ∀ {cs ds : List ℕ}, cs <+: nameCells → ds <+: ipCells →
      (expectSize < vs.sizeAt cs ds ↔ expectSize.toNat < recordBytes cs.length ds.length) := by
    intro cs ds hcs hds
    rw [lt_sizeAt_iff hbytes hcs hds, bytesAt_eq_recordBytes h hfit hcs hds]
  have hnameNil : vs'.nameTree.values = [] ↔ nameKept = [] :=
    hname.values_eq_nil.trans (and_iff_left hfit.1)
  have hipNil : vs'.ipTree.values = [] ↔ ipKept = [] := hip.values_eq_nil.trans (and_iff_left hfit.2)
  have hgone : ∀ {t t' : NameTree} {cells kept gone : List ℕ}, t.LosesTail t' cells kept gone → gone ≠ [] →
      kept ≠ cells := by
    rintro t t' cells kept gone htail hne rfl
    have hlen := congrArg List.length htail.recent_eq
    rw [List.length_append, recent, recent, List.length_map, List.length_map] at hlen
    exact hne (List.eq_nil_of_length_eq_zero (by omega))
  have hipMin : ipGone ≠ [] → expectSize.toNat < recordBytes nameKept.length (ipKept.length + 1) := fun hne =>
    recordBytes_next (recordBytes nameKept.length) htrim' (fun cs hcs => hover htrim.initial hcs) (hgone hipTail hne)
  -- while an address is over the limit, so is the record with all of them
  have hnames : ∀ ds, ds <+: ipCells → expectSize < vs.sizeAt nameKept ds → nameKept = [] := by
    intro ds hds hgt
    have hall : expectSize < vs.sizeAt nameKept ipCells := by
      rw [lt_sizeAt_iff hbytes htrim.initial hds] at hgt
      rw [lt_sizeAt_iff hbytes htrim.initial (List.prefix_refl _)]
      exact hgt.trans_le (Nat.add_le_add_left (sizeAt_mono _ hds) _)
    exact List.eq_nil_of_length_eq_zero (Nat.le_zero.mp (htrim.stops hall))
  refine ⟨vs',nameKept,ipKept,nameGone,ipGone,hrun,hnameTail,hipTail,?_,?_,?_,?_,hipMin,hrest⟩
  · have hle : vs.bytesAt nameKept ipKept ≤ vs.bytesAt nameCells ipCells :=
      Nat.add_le_add (Nat.add_le_add_left (sizeAt_mono _ htrim.initial) _) (sizeAt_mono _ htrim'.initial)
    rw [hsize, sizeAt_toNat, Nat.mod_eq_of_lt (by omega), bytesAt_eq_recordBytes h hfit htrim.initial htrim'.initial]
  · by_cases hle : vs.sizeAt nameKept ipKept ≤ expectSize
    · left
      rwa [hsize]
    · right
      have hgt := UInt64.not_le.mp hle
      rw [hnameNil, hipNil]
      exact ⟨hnames ipKept htrim'.initial hgt,
        List.eq_nil_of_length_eq_zero (Nat.le_zero.mp (htrim'.stops hgt))⟩
  · intro hne
    rw [hnameNil]
    rcases htrim'.next with he | ⟨x,hx,hgt⟩
    · exact absurd he (hgone hipTail hne)
    · exact hnames _ hx hgt
  · intro hne
    exact recordBytes_next (fun n => recordBytes n ipCells.length) htrim
      (fun cs hcs => hover hcs (List.prefix_refl _)) (hgone hnameTail hne)

end Record

/-- A new view with two names and an address in it. -/
def smallRecord : Option ViewStats := do
  let vs ← viewStatsCreate true staleRecord (letters 1)
  let vs ← vs
  let vs ← viewStatsInsertName .succeed vs (letters 2)
  let vs ← viewStatsInsertName .succeed vs (letters 3)
  viewStatsInsertIp .succeed vs (letters 4)

theorem smallRecord_sound {vs : ViewStats} (h : smallRecord = some vs) : vs.Sound := by
  simp only [smallRecord, Option.bind_eq_bind, Option.bind_eq_some_iff] at h
  obtain ⟨r,hr,vs₀,rfl,vs₁,h₁,vs₂,h₂,h⟩ := h
  rcases viewStatsCreate_cases hr with ⟨hno,-⟩ | ⟨v,he,hfresh,-⟩
  · cases hno
  · obtain rfl := Option.some_inj.mp he
    have hs₁ := (viewStatsInsertName_cases hfresh.sound h₁).1
    have hs₂ := (viewStatsInsertName_cases hs₁ h₂).1
    exact (viewStatsInsertIp_cases hs₂ h).1

/-- Room for two of the three nodes. -/
theorem viewStatsSetMemsize_losesTail_small : ∃ vs nameCells ipCells, smallRecord = some vs ∧
    vs.Wf nameCells ipCells ∧ ∃ vs' nameKept ipKept nameGone ipGone, viewStatsSetMemsize vs 320928 = some vs' ∧
      vs.nameTree.LosesTail vs'.nameTree nameCells nameKept nameGone ∧
      vs.ipTree.LosesTail vs'.ipTree ipCells ipKept ipGone ∧
      (viewStatsGetSize vs').toNat = recordBytes nameKept.length ipKept.length ∧
      (viewStatsGetSize vs' ≤ 320928 ∨ (vs'.nameTree.values = [] ∧ vs'.ipTree.values = [])) ∧
      (ipGone ≠ [] → vs'.nameTree.values = []) ∧
      (nameGone ≠ [] → (320928 : UInt64).toNat < recordBytes (nameKept.length + 1) ipCells.length) ∧
      (ipGone ≠ [] → (320928 : UInt64).toNat < recordBytes nameKept.length (ipKept.length + 1)) ∧
      vs' = { vs with nameTree := vs'.nameTree, ipTree := vs'.ipTree } := by
  obtain ⟨vs,hvs⟩ := Option.isSome_iff_exists.mp (by decide +kernel : smallRecord.isSome = true)
  obtain ⟨nameCells,ipCells,hwf⟩ := smallRecord_sound hvs
  have hfacts : smallRecord.map (fun vs => (vs.nameTree.overlong,vs.ipTree.overlong,vs.nameTree.lru.count,
      vs.ipTree.lru.count)) = some ([],[],2,1) := by decide +kernel
  rw [hvs, Option.map_some, Option.some_inj] at hfacts
  simp only [Prod.mk.injEq, hwf.nameTree.lru.count_eq, hwf.ipTree.lru.count_eq] at hfacts
  obtain ⟨hname,hip,hnames,hips⟩ := hfacts
  have hnames' : nameCells.length = 2 := by exact_mod_cast hnames
  have hips' : ipCells.length = 1 := by exact_mod_cast hips
  have hsmall : recordBytes nameCells.length ipCells.length < 2 ^ 32 := by
    rw [hnames', hips']
    decide
  exact ⟨vs,nameCells,ipCells,hvs,hwf,viewStatsSetMemsize_losesTail hwf ⟨hname,hip⟩ hsmall 320928⟩

end LogStats
