import LogStats.NameTree.Counting
import LogStats.Views.Memsize

/-! # When view_tree_set_memsize enforces the limit

The last view is trimmed until its record alone is within the limit of the whole tree,
so that 176 bytes for its node, its LRU node and the tree itself may be missing.
-/
namespace LogStats

open NameTree

/-- The bytes of the record when its trees have these LRU nodes left. -/
def ViewStats.bytesAt (vs : ViewStats) (nameCells ipCells : List ℕ) : ℕ :=
  sizeofViewStats.toNat + vs.nameTree.sizeAt nameCells + vs.ipTree.sizeAt ipCells

/-- What the tree that holds a single record takes besides it. -/
def loneOverhead : ℕ := 128 + 24 + 24

/-- The bytes of a record whose trees have one node between them. -/
def smallestRecord : ℕ := 176 + 2 * emptySize + (sizeofRbnode + sizeofNodeValue + sizeofLruNode)

theorem smallestRecord_eq : smallestRecord = 176 + 2 * emptySize + 112 := by
  rw [smallestRecord, sizeofRbnode, sizeofNodeValue, sizeofLruNode]

/-- No name or address is too long for its field. -/
def ViewStats.AllFit (vs : ViewStats) : Prop := vs.nameTree.overlong = [] ∧ vs.ipTree.overlong = []

namespace ViewTree

/-- Two views or more are within the limit. -/
def TwoFit (t : ViewTree) (cells : List ℕ) (limit : UInt64) : Prop :=
  ∃ cs, cs <+: cells ∧ 2 ≤ cs.length ∧ t.sizeAt cs ≤ limit

/-- The limit is met, or nothing is left that could be given up. -/
def Enforced (t : ViewTree) (limit : UInt64) : Prop :=
  (∃ size, viewTreeGetSize t = some size ∧ size ≤ limit) ∨
    ∃ a vs, t.rbtree.elems = [a] ∧ t.stats (t.nodes a).vs = some vs ∧ vs.nameTree.values = [] ∧ vs.ipTree.values = []

end ViewTree

/-- The largest remainder of the record that is within the limit leaves the overhead free,
or every remainder with a node in it is over the limit. -/
def ViewStats.LeavesRoom (vs : ViewStats) (nameCells ipCells : List ℕ) (limit : UInt64) : Prop :=
  (∃ nameKept ipKept, Trimmed (fun cs => limit < vs.sizeAt cs ipCells) 0 nameCells nameKept ∧
    Trimmed (fun cs => limit < vs.sizeAt nameKept cs) 0 ipCells ipKept ∧
    (vs.sizeAt nameKept ipKept).toNat + loneOverhead ≤ limit.toNat) ∨
  (vs.AllFit ∧ (∀ cs, cs <+: nameCells → cs ≠ [] → limit < vs.sizeAt cs ipCells) ∧
    ∀ cs, cs <+: ipCells → cs ≠ [] → limit < vs.sizeAt [] cs)

section Sizes
variable {vs : ViewStats} {nameCells ipCells : List ℕ} {limit : UInt64}

theorem sizeAt_toNat (vs : ViewStats) (nameCells ipCells : List ℕ) :
    (vs.sizeAt nameCells ipCells).toNat = vs.bytesAt nameCells ipCells % 2 ^ 32 := by
  simp only [ViewStats.sizeAt, viewStatsSize, UInt32.toNat_toUInt64, UInt32.toNat_add, UInt64.toNat_toUInt32,
    UInt64.toNat_ofNat', ViewStats.bytesAt]
  omega

/-- A list that was trimmed is all there, or the next element would be too many. -/
theorem Trimmed.next {excess : List ℕ → Prop} {xs kept : List ℕ} (h : Trimmed excess 0 xs kept) :
    kept = xs ∨ ∃ x, kept ++ [x] <+: xs ∧ excess (kept ++ [x]) := by
  obtain ⟨rest,rfl⟩ := h.initial
  cases rest with
  | nil => exact Or.inl (List.append_nil kept).symm
  | cons x rest =>
    have hx : kept ++ [x] <+: kept ++ x :: rest := ⟨rest,by simp⟩
    exact Or.inr ⟨x,hx,(h.needed _ (List.prefix_append _ _) hx (by simp)).1⟩

theorem fitting_append (t : NameTree) (cs : List ℕ) (c : ℕ) :
    t.fitting (cs ++ [c]) = t.fitting cs ++ t.fitting [c] := List.filter_append ..

/-- A node more makes a tree larger, by less than the overhead. -/
theorem sizeAt_append (t : NameTree) (cs : List ℕ) (c : ℕ) :
    t.sizeAt cs < t.sizeAt (cs ++ [c]) ∧ t.sizeAt (cs ++ [c]) < t.sizeAt cs + loneOverhead := by
  have hone : (t.fitting [c]).length ≤ 1 := List.length_filter_le _ _
  rw [sizeAt, sizeAt, fitting_append, List.length_append, List.length_append, List.length_singleton, sizeofRbnode,
    sizeofNodeValue, sizeofLruNode, loneOverhead]
  omega

theorem sizeAt_mono (t : NameTree) {cs ds : List ℕ} (h : cs <+: ds) : t.sizeAt cs ≤ t.sizeAt ds := by
  obtain ⟨rest,rfl⟩ := h
  induction rest using List.reverseRecOn with
  | nil => rw [List.append_nil]
  | append_singleton rest x ih =>
    rw [← List.append_assoc]
    exact ih.trans (sizeAt_append t _ x).1.le

/-- Without names that are too long the size of a tree depends on how many nodes it has. -/
theorem sizeAt_of_fits {t : NameTree} {cells cs : List ℕ} (h : t.Wf cells) (hfit : t.overlong = []) (hcs : cs <+: cells) :
    t.sizeAt cs = emptySize + cs.length * (sizeofRbnode + sizeofNodeValue + sizeofLruNode) := by
  rw [sizeAt, h.fitting_eq hfit hcs, hfit, List.length_nil, Nat.zero_add, Nat.mul_add _ (sizeofRbnode + sizeofNodeValue),
    Nat.add_assoc]

theorem bytesAt_of_fits (hwf : vs.Wf nameCells ipCells) (hfit : vs.AllFit) {cs ds : List ℕ} (hcs : cs <+: nameCells)
    (hds : ds <+: ipCells) : vs.bytesAt cs ds = 176 + 2 * emptySize + (cs.length + ds.length) * 112 := by
  rw [ViewStats.bytesAt, sizeAt_of_fits hwf.nameTree hfit.1 hcs, sizeAt_of_fits hwf.ipTree hfit.2 hds]
  simp only [sizeofViewStats, UInt32.reduceToNat, sizeofRbnode, sizeofNodeValue, sizeofLruNode]
  omega

end Sizes

/-! ## One view left -/

section Lone
variable {vs : ViewStats} {nameCells ipCells : List ℕ} {limit : UInt64}

theorem lt_sizeAt_iff (hsmall : vs.bytesAt nameCells ipCells < 2 ^ 32) {cs ds : List ℕ} (hcs : cs <+: nameCells)
    (hds : ds <+: ipCells) : limit < vs.sizeAt cs ds ↔ limit.toNat < vs.bytesAt cs ds := by
  have hle : vs.bytesAt cs ds ≤ vs.bytesAt nameCells ipCells :=
    Nat.add_le_add (Nat.add_le_add_left (sizeAt_mono _ hcs) _) (sizeAt_mono _ hds)
  rw [UInt64.lt_iff_toNat_lt, sizeAt_toNat, Nat.mod_eq_of_lt (by omega)]

/-- Below 2 ^ 32 bytes there is room if the whole record leaves it, or if not even one
node is within the limit. -/
theorem leavesRoom_iff (hwf : vs.Wf nameCells ipCells) (hsmall : vs.bytesAt nameCells ipCells < 2 ^ 32) :
    vs.LeavesRoom nameCells ipCells limit ↔ vs.bytesAt nameCells ipCells + loneOverhead ≤ limit.toNat ∨
      (vs.AllFit ∧ (nameCells = [] ∧ ipCells = [] ∨ limit.toNat < smallestRecord)) := by
  have hrefl := List.prefix_refl nameCells
  have hrefl' := List.prefix_refl ipCells
  constructor
  · rintro (⟨nameKept,ipKept,hname,hip,hroom⟩ | ⟨hfit,hnames,hips⟩)
    · -- had a node been given up, the remainder would be within the limit by less than the overhead
      left
      have hle : vs.bytesAt nameKept ipKept ≤ vs.bytesAt nameCells ipCells :=
        Nat.add_le_add (Nat.add_le_add_left (sizeAt_mono _ hname.initial) _) (sizeAt_mono _ hip.initial)
      rw [sizeAt_toNat, Nat.mod_eq_of_lt (by omega)] at hroom
      have hipall : ipKept = ipCells := by
        rcases hip.next with he | ⟨x,hx,hover⟩
        · exact he
        · rw [lt_sizeAt_iff hsmall hname.initial hx] at hover
          have hstep := (sizeAt_append vs.ipTree ipKept x).2
          simp only [ViewStats.bytesAt] at hover hroom
          omega
      subst hipall
      rcases hname.next with rfl | ⟨x,hx,hover⟩
      · exact hroom
      · rw [lt_sizeAt_iff hsmall hx hrefl'] at hover
        have hstep := (sizeAt_append vs.nameTree nameKept x).2
        simp only [ViewStats.bytesAt] at hover hroom
        omega
    · refine Or.inr ⟨hfit,?_⟩
      have hbytes : ∀ {cs ds : List ℕ}, cs <+: nameCells → ds <+: ipCells →
          vs.bytesAt cs ds = 176 + 2 * emptySize + (cs.length + ds.length) * 112 := fun hcs hds =>
        bytesAt_of_fits hwf hfit hcs hds
      by_cases hips' : ipCells = []
      · subst hips'
        by_cases hnames' : nameCells = []
        · exact Or.inl ⟨hnames',rfl⟩
        · obtain ⟨c,rest,rfl⟩ := List.exists_cons_of_ne_nil hnames'
          have hone : [c] <+: c :: rest := ⟨rest,rfl⟩
          have hover := hnames [c] hone (List.cons_ne_nil c [])
          rw [lt_sizeAt_iff hsmall hone hrefl', hbytes hone hrefl', List.length_singleton, List.length_nil] at hover
          exact Or.inr (by rw [smallestRecord_eq]; omega)
      · obtain ⟨c,rest,rfl⟩ := List.exists_cons_of_ne_nil hips'
        have hone : [c] <+: c :: rest := ⟨rest,rfl⟩
        have hover := hips [c] hone (List.cons_ne_nil c [])
        rw [lt_sizeAt_iff hsmall List.nil_prefix hone, hbytes List.nil_prefix hone, List.length_singleton,
          List.length_nil] at hover
        exact Or.inr (by rw [smallestRecord_eq]; omega)
  · rintro (hroom | ⟨hfit,⟨rfl,rfl⟩ | hlow⟩)
    · have hall : ¬limit < vs.sizeAt nameCells ipCells := by
        rw [lt_sizeAt_iff hsmall hrefl hrefl']
        omega
      refine Or.inl ⟨nameCells,ipCells,.stop (fun ho => absurd ho hall),.stop (fun ho => absurd ho hall),?_⟩
      rwa [sizeAt_toNat, Nat.mod_eq_of_lt hsmall]
    · exact Or.inr ⟨hfit,fun cs hcs hne => absurd (List.prefix_nil.mp hcs) hne,
        fun cs hcs hne => absurd (List.prefix_nil.mp hcs) hne⟩
    · have hover : ∀ {cs ds : List ℕ}, cs <+: nameCells → ds <+: ipCells → 0 < cs.length + ds.length →
          limit < vs.sizeAt cs ds := by
        intro cs ds hcs hds hpos
        rw [lt_sizeAt_iff hsmall hcs hds, bytesAt_of_fits hwf hfit hcs hds]
        rw [smallestRecord_eq] at hlow
        omega
      refine Or.inr ⟨hfit,fun cs hcs hne => ?_,fun cs hcs hne => ?_⟩
      · exact hover hcs hrefl' (Nat.add_pos_left (List.length_pos_iff.mpr hne) _)
      · exact hover List.nil_prefix hcs (Nat.add_pos_right _ (List.length_pos_iff.mpr hne))

theorem lone_size {t : ViewTree} {c : ℕ} (hvs : t.stats (t.nodes (t.lrulist.dataOf c)).vs = some vs) :
    (t.sizeAt [c]).toNat = (viewStatsGetSize vs).toNat + loneOverhead := by
  have hlt : (viewStatsGetSize vs).toNat < 2 ^ 32 := by
    rw [viewStatsGetSize, UInt32.toNat_toUInt64]
    exact UInt32.toNat_lt _
  have hone : UInt64.ofInt (([c].length : ℕ) : ℤ) = 1 := rfl
  simp only [ViewTree.sizeAt, hone, viewTreeNodeSize, List.map_singleton, hvs, Option.map_some, Option.getD_some,
    List.sum_singleton, UInt64.toNat_add, UInt64.toNat_mul, sizeofViewTree, UInt64.reduceToNat, loneOverhead]
  omega

/-- The tree after the last view was trimmed. -/
theorem enforced_lone_iff {t t' : ViewTree} {c : ℕ} {vs' : ViewStats} (hsur : t.Survives t' [c])
    (helems : t'.rbtree.elems = [t.lrulist.dataOf c]) (hwf : vs.Wf nameCells ipCells)
    (hset : viewStatsSetMemsize vs limit = some vs')
    (hvs' : t'.stats (t.nodes (t.lrulist.dataOf c)).vs = some vs') :
    t'.Enforced limit ↔ vs.LeavesRoom nameCells ipCells limit := by
  obtain ⟨vs₂,nameKept,ipKept,hset₂,hname,hip,htrim,htrim',hsize,-⟩ := viewStatsSetMemsize_spec hwf limit
  obtain rfl : vs' = vs₂ := Option.some_inj.mp (hset.symm.trans hset₂)
  have hlone : t'.stats (t'.nodes (t'.lrulist.dataOf c)).vs = some vs' := by
    rw [hsur.nodes_eq, hsur.dataOf_eq]
    exact hvs'
  have hbytes := lone_size hlone
  rw [hsize] at hbytes
  have hroom : (∃ size, viewTreeGetSize t' = some size ∧ size ≤ limit) ↔
      (vs.sizeAt nameKept ipKept).toNat + loneOverhead ≤ limit.toNat := by
    rw [hsur.wf.getSize, ← hbytes]
    simp [UInt64.le_iff_toNat_le]
  have hempty : (∃ a vs, t'.rbtree.elems = [a] ∧ t'.stats (t'.nodes a).vs = some vs ∧ vs.nameTree.values = [] ∧
      vs.ipTree.values = []) ↔ (nameKept = [] ∧ ipKept = []) ∧ vs.AllFit := by
    rw [ViewStats.AllFit, and_and_and_comm, ← hname.values_eq_nil, ← hip.values_eq_nil]
    constructor
    · rintro ⟨a,vs₂,ha,hvs₂,hn,hi⟩
      obtain rfl : t.lrulist.dataOf c = a := by simpa [helems] using ha
      rw [hsur.nodes_eq, hvs'] at hvs₂
      obtain rfl := Option.some_inj.mp hvs₂
      exact ⟨hn,hi⟩
    · rintro ⟨hn,hi⟩
      exact ⟨_,vs',helems,by rw [hsur.nodes_eq]; exact hvs',hn,hi⟩
  have hnil : (nameKept = [] ∧ ipKept = []) ↔ (∀ cs, cs <+: nameCells → cs ≠ [] → limit < vs.sizeAt cs ipCells) ∧
      ∀ cs, cs <+: ipCells → cs ≠ [] → limit < vs.sizeAt [] cs := by
    rw [← htrim.eq_nil_iff]
    constructor
    · rintro ⟨rfl,rfl⟩
      exact ⟨rfl,htrim'.eq_nil_iff.mp rfl⟩
    · rintro ⟨rfl,hall⟩
      exact ⟨rfl,htrim'.eq_nil_iff.mpr hall⟩
  rw [ViewTree.Enforced, hroom, hempty, hnil, and_comm, ViewStats.LeavesRoom]
  refine or_congr ⟨fun hle => ⟨nameKept,ipKept,htrim,htrim',hle⟩,?_⟩ Iff.rfl
  rintro ⟨nk,ik,hnk,hik,hle⟩
  obtain rfl := hnk.unique htrim
  obtain rfl := hik.unique htrim'
  exact hle

end Lone

/-! ## A tree with a single view -/

def staleRecord : ViewStatsMemory := ⟨staleMemory,staleMemory⟩

def staleViews (count : ℤ) : ViewTreeMemory := ⟨count,fun _ => ⟨0,0,0⟩,fun _ => ⟨letters 0,0,0⟩⟩

/-- A view with these names in it, put into an empty tree. -/
def loneView (names : List CString) : Option ViewTree := do
  let vs ← viewStatsCreate true staleRecord (letters 1)
  let vs ← vs
  let vs ← names.foldlM (viewStatsInsertName .succeed) vs
  let t := viewTreeCreate (staleViews 0)
  viewTreeInsert true { t with stats := Function.update t.stats t.statsBrk (some vs), statsBrk := t.statsBrk + 1 }
    (letters 1) t.statsBrk

theorem loneView_wf {names : List CString} {t : ViewTree} (h : loneView names = some t) :
    t.Wf [1] ∧ ∃ vs, t.stats (t.nodes (t.lrulist.dataOf 1)).vs = some vs ∧ vs.Sound := by
  have hsounds : ∀ (names : List CString) (vs vs' : ViewStats), vs.Sound →
      names.foldlM (viewStatsInsertName .succeed) vs = some vs' → vs'.Sound := by
    intro names
    induction names with
    | nil =>
      intro vs vs' hs he
      obtain rfl := Option.some_inj.mp he
      exact hs
    | cons name names ih =>
      intro vs vs' hs he
      obtain ⟨vs₁,h₁,he⟩ := Option.bind_eq_some_iff.mp (List.foldlM_cons.symm.trans he)
      exact ih vs₁ vs' (viewStatsInsertName_cases hs h₁).1 he
  simp only [loneView, Option.bind_eq_bind, Option.bind_eq_some_iff] at h
  obtain ⟨r,hr,vs,rfl,vs',hvs',hins⟩ := h
  rcases viewStatsCreate_cases hr with ⟨hno,-⟩ | ⟨vs₁,he,hfresh,hlen⟩
  · cases hno
  · obtain rfl := Option.some_inj.mp he
    have hsound := hsounds names vs vs' hfresh.sound hvs'
    obtain ⟨t',ht',hperm,hnode,-,hstats,hwf,hdata⟩ := (ViewTree.Wf.create (staleViews 0) rfl).inserted hsound
      (show (letters 1).strlen < statsNodeMaxSize by decide) (by simp [viewTreeCreate])
    obtain rfl : t = t' := Option.some_inj.mp (hins.symm.trans ht')
    refine ⟨hwf,vs',?_,hsound⟩
    rw [show t.lrulist.dataOf 1 = (viewTreeCreate (staleViews 0)).nodeBrk from hdata, hnode, hstats]
    exact Function.update_self _ _ _

/-! ## The limit -/

/-- `view_tree_set_memsize` enforces the limit if and only if two views or more are within
it, or the view at the head of the LRU list leaves room for the overhead of its node. -/
theorem limit_enforced_iff (t : ViewTree) (c : ℕ) (rest nameCells ipCells : List ℕ) (vs : ViewStats)
    (limit : UInt64) (h : t.Wf (c :: rest)) (hvs : t.stats (t.nodes (t.lrulist.dataOf c)).vs = some vs)
    (hwf : vs.Wf nameCells ipCells) :
    ∃ t', viewTreeSetMemsize t limit = some t' ∧
      (t'.Enforced limit ↔ t.TwoFit (c :: rest) limit ∨ vs.LeavesRoom nameCells ipCells limit) ∧
      (vs.bytesAt nameCells ipCells < 2 ^ 32 →
        (t'.Enforced limit ↔ t.TwoFit (c :: rest) limit ∨ vs.bytesAt nameCells ipCells + loneOverhead ≤ limit.toNat ∨
          (vs.AllFit ∧ (nameCells = [] ∧ ipCells = [] ∨ limit.toNat < smallestRecord)))) := by
  obtain ⟨t',kept,hset,hsur,htrim,hcase⟩ := ViewTree.viewTreeSetMemsize_cases h limit
  obtain ⟨rest',rfl⟩ := ViewTree.head_kept htrim
  have hiff : t'.Enforced limit ↔ t.TwoFit (c :: rest) limit ∨ vs.LeavesRoom nameCells ipCells limit := by
    rcases hcase with ⟨hlen,hsame⟩ | ⟨d,vs₁,vs',hone,helems,hvs₁,hset',hvs'⟩
    · have hle : t.sizeAt (c :: rest') ≤ limit := by
        rw [← UInt64.not_lt]
        intro hover
        have hstop := htrim.stops hover
        rw [List.length_cons] at hlen hstop
        omega
      have htwo : t.TwoFit (c :: rest) limit := by
        refine ⟨_,htrim.initial,?_,hle⟩
        rw [List.length_cons] at hlen ⊢
        omega
      refine iff_of_true (Or.inl ⟨_,hsur.wf.getSize,?_⟩) (Or.inl htwo)
      rwa [hsur.sizeAt_eq hsame (List.prefix_refl _)]
    · obtain ⟨rfl,rfl⟩ := List.cons_eq_cons.mp hone
      obtain rfl : vs = vs₁ := Option.some_inj.mp (hvs.symm.trans hvs₁)
      rw [enforced_lone_iff hsur helems hwf hset' hvs', or_iff_right]
      rintro ⟨cs,hcs,hlen,hle⟩
      obtain ⟨d,cs,rfl⟩ := List.exists_cons_of_ne_nil (by rintro rfl; simp at hlen : cs ≠ [])
      obtain ⟨rfl,-⟩ := List.cons_prefix_cons.mp hcs
      have hne : d :: cs ≠ [d] := by
        intro he
        rw [he] at hlen
        simp at hlen
      have hover := (htrim.needed _ ⟨cs,rfl⟩ hcs hne).1
      exact absurd hle (UInt64.not_le.mpr hover)
  refine ⟨t',hset,hiff,fun hsmall => ?_⟩
  rw [hiff, leavesRoom_iff hwf hsmall]

theorem limit_enforced_small : ∃ (t : ViewTree) (vs : ViewStats) (nameCells ipCells : List ℕ),
    t.Wf [1] ∧ vs.Wf nameCells ipCells ∧ ∃ t', viewTreeSetMemsize t 321000 = some t' ∧
      (t'.Enforced 321000 ↔ t.TwoFit [1] 321000 ∨ vs.LeavesRoom nameCells ipCells 321000) ∧
      (vs.bytesAt nameCells ipCells < 2 ^ 32 →
        (t'.Enforced 321000 ↔ t.TwoFit [1] 321000 ∨ vs.bytesAt nameCells ipCells + loneOverhead ≤ 321000 ∨
          (vs.AllFit ∧ (nameCells = [] ∧ ipCells = [] ∨ 321000 < smallestRecord)))) := by
  obtain ⟨t,ht⟩ := Option.isSome_iff_exists.mp (by decide +kernel : (loneView [letters 1]).isSome = true)
  obtain ⟨hwf,vs,hvs,nameCells,ipCells,hsound⟩ := loneView_wf ht
  exact ⟨t,vs,nameCells,ipCells,hwf,hsound,limit_enforced_iff t 1 [] nameCells ipCells vs 321000 hwf hvs hsound⟩

/-- A view with one name is within the limit, and the tree is 76 bytes over it. -/
theorem limit_enforced_fails : ∃ t t', t.Wf [1] ∧ viewTreeSetMemsize t 320916 = some t' ∧ ¬t'.Enforced 320916 := by
  obtain ⟨t,ht⟩ := Option.isSome_iff_exists.mp (by decide +kernel : (loneView [letters 1]).isSome = true)
  obtain ⟨hwf,-⟩ := loneView_wf ht
  have hrun : (loneView [letters 1]).bind (fun t => (viewTreeSetMemsize t 320916).map fun t' =>
      (viewTreeGetSize t',t'.rbtree.elems.map fun a =>
        (t'.stats (t'.nodes a).vs).map fun vs => vs.nameTree.values.length)) = some (some 320992,[some 1]) := by
    decide +kernel
  rw [ht, Option.bind_some] at hrun
  obtain ⟨t',ht',he⟩ := Option.map_eq_some_iff.mp hrun
  obtain ⟨hsize,helems⟩ := Prod.mk.inj he
  refine ⟨t,t',hwf,ht',?_⟩
  rintro (⟨size,hs,hle⟩ | ⟨a,vs,ha,hvs,hvalues,-⟩)
  · obtain rfl := Option.some_inj.mp (hsize.symm.trans hs)
    exact absurd hle (by decide)
  · have hlen := congrArg List.length hvalues
    simp only [ha, List.map_singleton, hvs, Option.map_some, hlen] at helems
    simp at helems

end LogStats
