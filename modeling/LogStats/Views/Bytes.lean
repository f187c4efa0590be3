import LogStats.Views.Sizes
import Mathlib.Algebra.Order.BigOperators.Group.List

/-! # The bytes of a view tree

The sizes of `view_tree_get_size` are added here without a width, node by node. They are what
the program reckons with and not what it takes up: a pool grows by more than the nodes in use,
and a node of the view tree is larger than its name. A record to which one name and one
address are added grows by two nodes of the trees at most, and a recycling leaves the limit
and the overhead of the last view.
-/
namespace LogStats

open NameTree

/-! ## Records -/

/-- The name does not take up the whole field, so that it has a terminator of its own. -/
def Admissible (name : CString) : Prop := ∀ s, dotted name = some s → s.strlen ≠ maxNameLen

instance (name : CString) : Decidable (Admissible name) :=
  decidable_of_iff (∀ s ∈ (dotted name).toList, s.strlen ≠ maxNameLen) (by simp [Admissible])

/-- A node of the red-black tree, its value and its LRU node. -/
def nodeOverhead : ℕ := sizeofRbnode + sizeofNodeValue + sizeofLruNode

def emptyRecord : ℕ := 176 + 2 * emptySize

/-- An empty view with its nodes. -/
def viewBytes : ℕ := emptyRecord + statsNodeMaxSize + sizeofLruNode

def NameTree.bytes (t : NameTree) : ℕ :=
  emptySize + t.values.length * (sizeofRbnode + sizeofNodeValue) + t.lru.count.toNat * sizeofLruNode

def ViewStats.bytes (vs : ViewStats) : ℕ := sizeofViewStats.toNat + vs.nameTree.bytes + vs.ipTree.bytes

namespace NameTree
variable {t t' : NameTree} {cells cells' : List ℕ} {name : CString} {malloc : Mallocs} {r : ℤ}

theorem Wf.bytes_eq (h : t.Wf cells) : t.bytes = t.sizeAt cells := by
  have hcells := h.cells_length_le
  have hlt := h.values_lt
  rw [← h.size_eq, size_toNat h.count_eq h.lru.count_eq hlt (by omega), bytes, h.lru.count_eq, Int.toNat_natCast]

theorem Wf.bytes_of_fits (h : t.Wf cells) (hfit : t.overlong = []) :
    t.bytes = emptySize + t.values.length * nodeOverhead := by
  rw [h.bytes_eq, sizeAt_of_fits h hfit (List.prefix_refl cells), h.length_eq hfit, nodeOverhead]

theorem overlong_eq_nil (h : ∀ v ∈ t.values, (t.mem v).Fits) : t.overlong = [] :=
  List.filter_eq_nil_iff.mpr fun v hv => by simpa using h v hv

theorem Tracks.fits {s : CString} {v : ℕ} (ht : Tracks t t' s v) (hs : s.strlen ≠ maxNameLen)
    (hfit : t.overlong = []) : ∀ a ∈ t'.values, (t'.mem a).Fits := by
  intro a ha
  by_cases hv : v ∈ t.values
  · obtain ⟨htree,-⟩ := ht.hit hv
    have hat : a ∈ t.values := by rwa [values, htree] at ha
    rw [ht.mem_eq a hat]
    exact fits_of_overlong hfit hat
  · obtain ⟨hperm,-,-,-,hcase⟩ := ht.new hv
    rcases List.mem_cons.mp (hperm.mem_iff.mp ha) with rfl | hat
    · exact hcase.elim (fun h => h.2.1) (fun h => absurd h.1 hs)
    · rw [ht.mem_eq a hat]
      exact fits_of_overlong hfit hat

theorem Tracks.length_le {s : CString} {v : ℕ} (ht : Tracks t t' s v) : t'.values.length ≤ t.values.length + 1 := by
  by_cases hv : v ∈ t.values
  · rw [values, (ht.hit hv).1]
    exact Nat.le_succ _
  · rw [(ht.new hv).1.length_eq, List.length_cons]

/-- A name takes a node at most. -/
theorem nameTreeInsert_bytes (h : t.Wf cells) (hr : nameTreeInsert malloc t name = some (t',r)) :
    t'.bytes ≤ t.bytes + nodeOverhead := by
  rcases nameTreeInsert_cases h hr with ⟨-,href,-,-⟩ | ⟨-,-,s,v,t₁,cells',-,ht,rfl,hwf,hrec⟩
  · rw [bytes, bytes, href.values_eq, href.lru_eq]
    exact Nat.le_add_right _ _
  · have hc := nameTreeCount_counted t₁ v
    have hlen := ht.length_le
    have hcells : cells'.length ≤ cells.length + 1 := by
      have he := congrArg List.length hrec
      have herase := List.length_erase_le (a := v) (l := t.recent cells)
      rw [recent, List.length_map, List.length_cons] at he
      rw [recent, List.length_map] at herase
      rw [he]
      exact Nat.succ_le_succ herase
    rw [bytes, bytes, hc.values_eq, hwf.lru.count_eq, h.lru.count_eq, Int.toNat_natCast, Int.toNat_natCast]
    have hvalues := Nat.mul_le_mul_right (sizeofRbnode + sizeofNodeValue) hlen
    have hlru := Nat.mul_le_mul_right sizeofLruNode hcells
    rw [Nat.succ_mul] at hvalues hlru
    rw [nodeOverhead]
    omega

/-- An admissible name takes no node that cannot be given up again. -/
theorem nameTreeInsert_fits (h : t.Wf cells) (hfit : t.overlong = []) (hname : Admissible name)
    (hr : nameTreeInsert malloc t name = some (t',r)) : t'.overlong = [] := by
  rcases nameTreeInsert_cases h hr with ⟨-,href,-,-⟩ | ⟨-,-,s,v,t₁,cells',hs,ht,rfl,-,-⟩
  · refine overlong_eq_nil fun v hv => ?_
    rw [href.values_eq] at hv
    rw [href.mem_eq v hv]
    exact fits_of_overlong hfit hv
  · have hc := nameTreeCount_counted t₁ v
    refine overlong_eq_nil fun a ha => ?_
    rw [hc.values_eq] at ha
    exact (hc.fits_iff a).mpr (ht.fits (hname s hs) hfit a ha)

end NameTree

section Records
variable {vs vs' : ViewStats} {nameCells ipCells : List ℕ} {malloc : Mallocs} {name : CString}

theorem ViewStats.Wf.bytes_eq (h : vs.Wf nameCells ipCells) : vs.bytes = vs.bytesAt nameCells ipCells := by
  rw [ViewStats.bytes, h.nameTree.bytes_eq, h.ipTree.bytes_eq, ViewStats.bytesAt]

/-- Below 2 ^ 32 bytes `view_stats_get_size` returns them. -/
theorem ViewStats.Wf.size_of_small (h : vs.Wf nameCells ipCells) (hsmall : vs.bytes < 2 ^ 32) :
    (viewStatsGetSize vs).toNat = vs.bytes := by
  rw [h.bytes_eq] at hsmall ⊢
  rw [h.size_eq, sizeAt_toNat, Nat.mod_eq_of_lt hsmall]

theorem emptyRecord_le (vs : ViewStats) : emptyRecord ≤ vs.bytes := by
  simp only [ViewStats.bytes, NameTree.bytes, emptyRecord, sizeofViewStats, UInt32.reduceToNat]
  omega

theorem viewStatsInsertName_bytes (h : vs.Sound) (hr : viewStatsInsertName malloc vs name = some vs') :
    vs'.bytes ≤ vs.bytes + nodeOverhead ∧ (vs.AllFit → Admissible name → vs'.AllFit) := by
  obtain ⟨nameCells,ipCells,hwf⟩ := h
  obtain ⟨⟨nameTree,r⟩,hins,hr⟩ := Option.bind_eq_some_iff.mp hr
  obtain rfl := Option.some_inj.mp hr
  have hle := nameTreeInsert_bytes hwf.nameTree hins
  refine ⟨?_,fun hfit hname => ⟨nameTreeInsert_fits hwf.nameTree hfit.1 hname hins,hfit.2⟩⟩
  simp only [ViewStats.bytes]
  omega

theorem viewStatsInsertIp_bytes (h : vs.Sound) (hr : viewStatsInsertIp malloc vs name = some vs') :
    vs'.bytes ≤ vs.bytes + nodeOverhead ∧ (vs.AllFit → Admissible name → vs'.AllFit) := by
  obtain ⟨nameCells,ipCells,hwf⟩ := h
  obtain ⟨⟨ipTree,r⟩,hins,hr⟩ := Option.bind_eq_some_iff.mp hr
  obtain rfl := Option.some_inj.mp hr
  have hle := nameTreeInsert_bytes hwf.ipTree hins
  refine ⟨?_,fun hfit hname => ⟨hfit.1,nameTreeInsert_fits hwf.ipTree hfit.2 hname hins⟩⟩
  simp only [ViewStats.bytes]
  omega

theorem viewStatsCreate_bytes {m : Bool} {memory : ViewStatsMemory} (h : viewStatsCreate m memory name = some (some vs)) :
    vs.AllFit ∧ vs.bytes = emptyRecord := by
  unfold viewStatsCreate at h
  split at h
  · cases h
  · split at h
    · cases h
    · obtain ⟨nameTree,hname,hnwf,hnil,-⟩ := nameTreeCreate_wf memory.nameTree
      obtain ⟨ipTree,hip,hiwf,hnil',-⟩ := nameTreeCreate_wf memory.ipTree
      simp only [hname, hip, Option.bind_eq_bind, Option.bind_some] at h
      split at h
      · cases h
      · obtain rfl := Option.some_inj.mp (Option.some_inj.mp h)
        have hfit : nameTree.overlong = [] := by rw [overlong, hnil, List.filter_nil]
        have hfit' : ipTree.overlong = [] := by rw [overlong, hnil', List.filter_nil]
        refine ⟨⟨hfit,hfit'⟩,?_⟩
        rw [ViewStats.bytes, hnwf.bytes_of_fits hfit, hiwf.bytes_of_fits hfit', hnil, hnil', List.length_nil, emptyRecord]
        simp only [sizeofViewStats, UInt32.reduceToNat]
        omega

/-- What is trimmed to a limit that an empty record meets is within it, and no larger than before. -/
theorem viewStatsSetMemsize_bytes {limit : UInt64} (h : vs.Wf nameCells ipCells) (hfit : vs.AllFit)
    (hsmall : vs.bytes < 2 ^ 32) (hset : viewStatsSetMemsize vs limit = some vs') :
    vs'.AllFit ∧ vs'.bytes ≤ vs.bytes ∧ (emptyRecord ≤ limit.toNat → vs'.bytes ≤ limit.toNat) := by
  obtain ⟨vs₁,nameKept,ipKept,hset₁,hname,hip,htrim,htrim',hsize,-⟩ := viewStatsSetMemsize_spec h limit
  obtain rfl : vs' = vs₁ := Option.some_inj.mp (hset.symm.trans hset₁)
  have hwf' : vs'.Wf nameKept ipKept := ⟨hname.wf,hip.wf⟩
  have hbytes : vs'.bytes = vs.bytesAt nameKept ipKept := by
    rw [hwf'.bytes_eq, ViewStats.bytesAt, ViewStats.bytesAt, hname.sizeAt_eq (List.prefix_refl _),
      hip.sizeAt_eq (List.prefix_refl _)]
  have hmono : ∀ {cs ds cs' ds' : List ℕ}, cs <+: cs' → ds <+: ds' → vs.bytesAt cs ds ≤ vs.bytesAt cs' ds' :=
    fun hcs hds => Nat.add_le_add (Nat.add_le_add_left (sizeAt_mono _ hcs) _) (sizeAt_mono _ hds)
  rw [h.bytes_eq] at hsmall
  refine ⟨⟨hname.overlong_eq.trans hfit.1,hip.overlong_eq.trans hfit.2⟩,?_,fun hroom => ?_⟩
  · rw [hbytes, h.bytes_eq]
    exact hmono htrim.initial htrim'.initial
  · rw [hbytes]
    by_contra hover
    rw [not_le] at hover
    -- over the limit to the end both lists would have been emptied
    have hipNil : ipKept = [] := by
      have hstop := htrim'.stops ((lt_sizeAt_iff hsmall htrim.initial htrim'.initial).mpr hover)
      exact List.eq_nil_of_length_eq_zero (Nat.le_zero.mp hstop)
    have hnameNil : nameKept = [] := by
      have hall := hover.trans_le (hmono (List.prefix_refl nameKept) htrim'.initial)
      have hstop := htrim.stops ((lt_sizeAt_iff hsmall htrim.initial (List.prefix_refl _)).mpr hall)
      exact List.eq_nil_of_length_eq_zero (Nat.le_zero.mp hstop)
    rw [hipNil, hnameNil, bytesAt_of_fits h hfit List.nil_prefix List.nil_prefix] at hover
    rw [emptyRecord] at hroom
    simp only [List.length_nil] at hover
    omega

end Records

/-! ## Trees -/

namespace ViewTree

/-- What the loop of `view_tree_get_size` adds for a node. -/
def nodeBytes (t : ViewTree) (a : ℕ) : ℕ := statsNodeMaxSize + (t.stats (t.nodes a).vs).elim 0 ViewStats.bytes

/-- What `view_tree_get_size` would return if it could not wrap. -/
def bytes (t : ViewTree) : ℕ :=
  (t.rbtree.elems.map t.nodeBytes).sum + sizeofViewTree.toNat + sizeofLruNode * t.lrulist.count.toNat

/-- The bytes of the tree when `cells` are left of the LRU list. -/
def bytesAt (t : ViewTree) (cells : List ℕ) : ℕ :=
  (cells.map fun c => t.nodeBytes (t.lrulist.dataOf c)).sum + sizeofViewTree.toNat + sizeofLruNode * cells.length

/-- No record of the tree has a name that is too long. -/
def Fitting (t : ViewTree) : Prop := ∀ a ∈ t.rbtree.elems, ∀ vs, t.stats (t.nodes a).vs = some vs → vs.AllFit

section Bytes
variable {t t' : ViewTree} {cells : List ℕ} {limit : UInt64}

theorem nodeBytes_of_some {a : ℕ} {vs : ViewStats} (h : t.stats (t.nodes a).vs = some vs) :
    t.nodeBytes a = statsNodeMaxSize + vs.bytes := by
  rw [nodeBytes, h, Option.elim_some]

theorem Wf.bytes_eq (h : t.Wf cells) : t.bytes = t.bytesAt cells := by
  have hsum := (h.carried.map t.nodeBytes).sum_eq
  rw [List.map_map] at hsum
  rw [bytes, bytesAt, h.lru.count_eq, Int.toNat_natCast, ← hsum]
  rfl

theorem bytesAt_mono {cs ds : List ℕ} (h : cs <+: ds) : t.bytesAt cs ≤ t.bytesAt ds := by
  obtain ⟨rest,rfl⟩ := h
  simp only [bytesAt, List.map_append, List.sum_append, List.length_append, Nat.mul_add]
  omega

/-- A tree takes that much for each of its views. -/
theorem Wf.views_le (h : t.Wf cells) : t.rbtree.elems.length * viewBytes ≤ t.bytes := by
  have hnode : ∀ b ∈ t.rbtree.elems.map t.nodeBytes, statsNodeMaxSize + emptyRecord ≤ b := by
    intro b hb
    obtain ⟨a,ha,rfl⟩ := List.mem_map.mp hb
    obtain ⟨vs,hvs,-⟩ := h.live a ha
    rw [nodeBytes_of_some hvs]
    exact Nat.add_le_add_left (emptyRecord_le vs) _
  have hsum := List.card_nsmul_le_sum _ _ hnode
  rw [List.length_map, Nat.nsmul_eq_mul] at hsum
  rw [bytes, h.lru.count_eq, Int.toNat_natCast, ← h.length_eq, viewBytes]
  simp only [Nat.mul_add, Nat.mul_comm sizeofLruNode] at hsum ⊢
  omega

private theorem toNat_sum {xs : List UInt64} (h : (xs.map UInt64.toNat).sum < 2 ^ 64) :
    xs.sum.toNat = (xs.map UInt64.toNat).sum := by
  induction xs with
  | nil => rfl
  | cons x xs ih =>
    rw [List.map_cons, List.sum_cons] at h ⊢
    rw [List.sum_cons, UInt64.toNat_add, ih (by omega), Nat.mod_eq_of_lt h]

/-- What `view_tree_get_size` returns as long as it is below 2 ^ 32. -/
theorem Wf.sizeAt_of_small (h : t.Wf cells) {cs : List ℕ} (hcs : cs <+: cells) (hsmall : t.bytesAt cs < 2 ^ 32) :
    (t.sizeAt cs).toNat = t.bytesAt cs := by
  have hle : ∀ c ∈ cs, t.nodeBytes (t.lrulist.dataOf c) ≤ t.bytesAt cs := by
    intro c hc
    have hmem := List.le_sum_of_mem (List.mem_map_of_mem (f := fun c => t.nodeBytes (t.lrulist.dataOf c)) hc)
    rw [bytesAt]
    omega
  have hsize : ∀ c ∈ cs, ((viewTreeNodeSize t (t.lrulist.dataOf c)).getD 0).toNat = t.nodeBytes (t.lrulist.dataOf c) := by
    intro c hc
    obtain ⟨vs,hvs,nameCells,ipCells,hwf⟩ := h.live _ (h.dataOf_mem (hcs.subset hc))
    have hnode := hle c hc
    rw [nodeBytes_of_some hvs, statsNodeMaxSize] at hnode ⊢
    have hrecord := hwf.size_of_small (by omega)
    simp only [viewTreeNodeSize, hvs, Option.map_some, Option.getD_some, UInt64.toNat_add, hrecord, UInt64.reduceToNat]
    omega
  have hsum : ((cs.map fun c => (viewTreeNodeSize t (t.lrulist.dataOf c)).getD 0).map UInt64.toNat) =
      cs.map fun c => t.nodeBytes (t.lrulist.dataOf c) := by
    rw [List.map_map]
    exact List.map_congr_left hsize
  have hbound := hsmall
  rw [bytesAt] at hsmall
  have htotal : (cs.map fun c => (viewTreeNodeSize t (t.lrulist.dataOf c)).getD 0).sum.toNat = _ :=
    toNat_sum (by rw [hsum]; omega)
  have hcount : (UInt64.ofInt (cs.length : ℤ)).toNat = cs.length := by
    simp only [UInt64.ofInt, UInt64.toNat_ofNat', sizeofLruNode] at hsmall ⊢
    omega
  rw [hsum] at htotal
  simp only [sizeAt, bytesAt, UInt64.toNat_add, UInt64.toNat_mul, htotal, hcount, UInt64.reduceToNat, sizeofLruNode] at hsmall ⊢
  omega

/-- Writing one record makes the tree larger by as much as the record. -/
theorem Wf.bytes_recorded (h : t.Wf cells) {a k : ℕ} {vs vs' : ViewStats} (ha : a ∈ t.rbtree.elems)
    (hvs : t.stats (t.nodes a).vs = some vs) (hle : vs'.bytes ≤ vs.bytes + k) :
    bytes { t with stats := Function.update t.stats (t.nodes a).vs (some vs') } ≤ t.bytes + k := by
  obtain ⟨xs,ys,hsplit⟩ := List.append_of_mem ha
  have hnd := h.elems_nodup
  rw [hsplit] at hnd
  have hother : ∀ b ∈ xs ++ ys,
      nodeBytes { t with stats := Function.update t.stats (t.nodes a).vs (some vs') } b = t.nodeBytes b := by
    intro b hb
    have hne : b ≠ a := by
      rintro rfl
      exact (List.nodup_cons.mp (List.nodup_middle.mp hnd)).1 hb
    have hbt : b ∈ t.rbtree.elems := by
      rw [hsplit]
      exact (List.Sublist.append_left (List.sublist_cons_self a ys) xs).subset hb
    have haddr : (t.nodes b).vs ≠ (t.nodes a).vs := fun he => hne (h.own b hbt a ha he)
    simp only [nodeBytes, Function.update_of_ne haddr]
  have hself : nodeBytes { t with stats := Function.update t.stats (t.nodes a).vs (some vs') } a ≤ t.nodeBytes a + k := by
    simp only [nodeBytes, Function.update_self, Option.elim_some, hvs]
    omega
  have hxs := List.map_congr_left (fun b hb => hother b (List.mem_append_left ys hb))
  have hys := List.map_congr_left (fun b hb => hother b (List.mem_append_right xs hb))
  simp only [bytes, hsplit, List.map_append, List.map_cons, List.sum_append, List.sum_cons, hxs, hys]
  omega

theorem Wf.fitting_recorded (h : t.Wf cells) (hfit : t.Fitting) {a : ℕ} {vs' : ViewStats} (ha : a ∈ t.rbtree.elems)
    (hvs' : vs'.AllFit) : Fitting { t with stats := Function.update t.stats (t.nodes a).vs (some vs') } := by
  intro b hb vs hvs
  by_cases he : b = a
  · have hself : Function.update t.stats (t.nodes a).vs (some vs') (t.nodes b).vs = some vs := hvs
    rw [he, Function.update_self] at hself
    exact Option.some_inj.mp hself ▸ hvs'
  · have haddr : (t.nodes b).vs ≠ (t.nodes a).vs := fun hn => he (h.own b hb a ha hn)
    exact hfit b hb vs ((Function.update_of_ne haddr _ _).symm.trans hvs)

end Bytes

/-! ## Recycling -/

/-- A recycling frees memory, and leaves the limit and the overhead of the last view at most. -/
theorem viewTreeSetMemsize_bytes {t t' : ViewTree} {cells : List ℕ} {limit : UInt64} (h : t.Wf cells) (hfit : t.Fitting)
    (hsmall : t.bytes < 2 ^ 32) (hset : viewTreeSetMemsize t limit = some t') :
    t'.Fitting ∧ t'.bytes ≤ t.bytes ∧
      (cells ≠ [] → emptyRecord ≤ limit.toNat → t'.bytes ≤ limit.toNat + loneOverhead) := by
  obtain ⟨t₁,kept,hset₁,hsur,htrim,hcase⟩ := viewTreeSetMemsize_cases h limit
  obtain rfl : t' = t₁ := Option.some_inj.mp (hset.symm.trans hset₁)
  have hle : t.bytesAt kept ≤ t.bytes := h.bytes_eq ▸ bytesAt_mono htrim.initial
  rcases hcase with ⟨hlen,hsame⟩ | ⟨c,vs,vs',rfl,helems,hvs,hrecord,hvs'⟩
  · have hbytes : t'.bytes = t.bytesAt kept := by
      have hnode : ∀ c ∈ kept, t'.nodeBytes (t'.lrulist.dataOf c) = t.nodeBytes (t.lrulist.dataOf c) := by
        intro c hc
        have hmem := hsur.wf.dataOf_mem hc
        rw [nodeBytes, nodeBytes, hsur.nodes_eq, hsame _ hmem, hsur.dataOf_eq]
      rw [hsur.wf.bytes_eq, bytesAt, bytesAt, List.map_congr_left hnode]
    refine ⟨fun a ha vs hvs => ?_,hbytes.trans_le hle,fun hne _ => ?_⟩
    · rw [hsur.nodes_eq, hsame a ha] at hvs
      exact hfit a (hsur.elems_sub.subset ha) vs hvs
    · have hwithin : ¬limit < t.sizeAt kept := by
        intro hover
        have hstop := htrim.stops hover
        have hpos := List.length_pos_iff.mpr (htrim.length_pos Nat.one_pos hne)
        omega
      rw [UInt64.not_lt, UInt64.le_iff_toNat_le, h.sizeAt_of_small htrim.initial (by omega)] at hwithin
      rw [hbytes]
      omega
  · have hmem : t.lrulist.dataOf c ∈ t.rbtree.elems := hsur.elems_sub.subset (by simp [helems])
    obtain ⟨vs₁,hvs₁,nameCells,ipCells,hwf⟩ := h.live _ hmem
    obtain rfl : vs = vs₁ := Option.some_inj.mp (hvs.symm.trans hvs₁)
    have hone : t.bytesAt [c] = vs.bytes + loneOverhead := by
      simp only [bytesAt, List.map_singleton, List.sum_singleton, List.length_singleton, nodeBytes_of_some hvs, loneOverhead,
        statsNodeMaxSize, sizeofViewTree, sizeofLruNode, UInt64.reduceToNat]
      omega
    obtain ⟨hfit',hle',hlimit⟩ := viewStatsSetMemsize_bytes hwf (hfit _ hmem vs hvs) (by omega) hrecord
    have hbytes : t'.bytes = vs'.bytes + loneOverhead := by
      have hlone : t'.stats (t'.nodes (t.lrulist.dataOf c)).vs = some vs' := by
        rw [hsur.nodes_eq]
        exact hvs'
      rw [bytes, helems, hsur.wf.lru.count_eq]
      simp only [List.map_singleton, List.sum_singleton, List.length_singleton, nodeBytes_of_some hlone, loneOverhead,
        statsNodeMaxSize, sizeofViewTree, sizeofLruNode, UInt64.reduceToNat]
      omega
    refine ⟨fun a ha vs₂ hvs₂ => ?_,?_,fun _ hroom => ?_⟩
    · rw [helems, List.mem_singleton] at ha
      rw [hsur.nodes_eq, ha, hvs'] at hvs₂
      exact Option.some_inj.mp hvs₂ ▸ hfit'
    · omega
    · have hbound := hlimit hroom
      omega

end ViewTree

end LogStats
