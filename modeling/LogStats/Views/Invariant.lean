import LogStats.Views.Trimming
import LogStats.Views.ViewTree

/-! # Well-formed view trees

The nodes of the tree are the nodes that the LRU list carries, `count` is their number
and every node has a record of its own whose two trees are well-formed.
-/
namespace LogStats

open NameTree

/-! ## Records -/

def ViewStats.Sound (vs : ViewStats) : Prop := ∃ nameCells ipCells, vs.Wf nameCells ipCells

/-- The record that `view_stats_create` sets up. -/
structure ViewStats.Fresh (vs : ViewStats) : Prop where
  sound : vs.Sound
  qps : vs.qps = 0
  successRate : vs.successRate = 1
  count : vs.count = 0
  lastCount : vs.lastCount = 0
  rcode : ∀ i, vs.rcode i = 0
  rtype : ∀ i, vs.rtype i = 0

section Records
variable {vs vs' : ViewStats} {malloc : Bool} {mallocs : Mallocs} {memory : ViewStatsMemory} {name : CString}

theorem viewStatsCreate_cases {r : Option ViewStats} (h : viewStatsCreate malloc memory name = some r) :
    (r = none ∧ (malloc = true → maxViewLength < name.strlen)) ∨
      ∃ vs, r = some vs ∧ vs.Fresh ∧ name.strlen < maxViewLength := by
  unfold viewStatsCreate at h
  split at h
  · rename_i hlong
    exact Or.inl ⟨(Option.some_inj.mp h).symm,fun _ => hlong⟩
  · split at h
    · rename_i hm
      exact Or.inl ⟨(Option.some_inj.mp h).symm,fun he => absurd (he.symm.trans hm) (by decide)⟩
    · rename_i hlong hm
      obtain ⟨nameTree,hname,hnwf,-⟩ := nameTreeCreate_wf memory.nameTree
      obtain ⟨ipTree,hip,hiwf,-⟩ := nameTreeCreate_wf memory.ipTree
      simp only [hname, hip, Option.bind_eq_bind, Option.bind_some] at h
      split at h
      · cases h
      · rename_i hlen
        exact Or.inr ⟨_,(Option.some_inj.mp h).symm,⟨⟨[],[],hnwf,hiwf⟩,rfl,rfl,rfl,rfl,fun _ => rfl,fun _ => rfl⟩,
          by omega⟩

theorem viewStatsInsertName_cases (h : vs.Sound) (hr : viewStatsInsertName mallocs vs name = some vs') :
    vs'.Sound ∧ vs' = { vs with nameTree := vs'.nameTree } := by
  obtain ⟨nameCells,ipCells,hwf⟩ := h
  obtain ⟨⟨nameTree,r⟩,hins,hr⟩ := Option.bind_eq_some_iff.mp hr
  obtain rfl := Option.some_inj.mp hr
  obtain ⟨cells,hwf'⟩ := nameTreeInsert_wf hwf.nameTree hins
  exact ⟨⟨cells,ipCells,hwf',hwf.ipTree⟩,rfl⟩

theorem viewStatsInsertIp_cases (h : vs.Sound) (hr : viewStatsInsertIp mallocs vs name = some vs') :
    vs'.Sound ∧ vs' = { vs with ipTree := vs'.ipTree } := by
  obtain ⟨nameCells,ipCells,hwf⟩ := h
  obtain ⟨⟨ipTree,r⟩,hins,hr⟩ := Option.bind_eq_some_iff.mp hr
  obtain rfl := Option.some_inj.mp hr
  obtain ⟨cells,hwf'⟩ := nameTreeInsert_wf hwf.ipTree hins
  exact ⟨⟨nameCells,cells,hwf.nameTree,hwf'⟩,rfl⟩

end Records

namespace ViewTree

/-- The tree and the LRU list have the same nodes; `cells` are those of the list from the header on. -/
structure Shape (t : ViewTree) (cells : List ℕ) : Prop where
  valid : t.rbtree.Valid
  sorted : t.rbtree.elems.Pairwise (fun a b => (t.nodes a).name < (t.nodes b).name)
  short : ∀ a ∈ t.rbtree.elems, (t.nodes a).name.strlen < statsNodeMaxSize
  lru : t.lrulist.Represents cells
  carried : (cells.map t.lrulist.dataOf).Perm t.rbtree.elems
  ptr : ∀ c ∈ cells, (t.nodes (t.lrulist.dataOf c)).ptr = c
  node_lt : ∀ a ∈ t.rbtree.elems, 0 < a ∧ a < t.nodeBrk
  brk_pos : 0 < t.nodeBrk

/-- `cells` are the nodes of the LRU list from the header on. -/
structure Wf (t : ViewTree) (cells : List ℕ) : Prop where
  valid : t.rbtree.Valid
  sorted : t.rbtree.elems.Pairwise (fun a b => (t.nodes a).name < (t.nodes b).name)
  short : ∀ a ∈ t.rbtree.elems, (t.nodes a).name.strlen < statsNodeMaxSize
  lru : t.lrulist.Represents cells
  carried : (cells.map t.lrulist.dataOf).Perm t.rbtree.elems
  ptr : ∀ c ∈ cells, (t.nodes (t.lrulist.dataOf c)).ptr = c
  count_eq : t.count = t.rbtree.elems.length
  live : ∀ a ∈ t.rbtree.elems, ∃ vs, t.stats (t.nodes a).vs = some vs ∧ vs.Sound
  own : ∀ a ∈ t.rbtree.elems, ∀ b ∈ t.rbtree.elems, (t.nodes a).vs = (t.nodes b).vs → a = b
  node_lt : ∀ a ∈ t.rbtree.elems, 0 < a ∧ a < t.nodeBrk
  vs_lt : ∀ a ∈ t.rbtree.elems, (t.nodes a).vs < t.statsBrk
  brk_pos : 0 < t.nodeBrk

section Facts
variable {t : ViewTree} {cells : List ℕ}

theorem Wf.shape (h : t.Wf cells) : t.Shape cells :=
  ⟨h.valid,h.sorted,h.short,h.lru,h.carried,h.ptr,h.node_lt,h.brk_pos⟩

theorem Shape.mem_iff (h : t.Shape cells) {a : ℕ} : a ∈ t.rbtree.elems ↔ ∃ c ∈ cells, t.lrulist.dataOf c = a := by
  rw [← h.carried.mem_iff, List.mem_map]

theorem Shape.dataOf_mem (h : t.Shape cells) {c : ℕ} (hc : c ∈ cells) : t.lrulist.dataOf c ∈ t.rbtree.elems :=
  h.mem_iff.mpr ⟨c,hc,rfl⟩

theorem Shape.name_inj (h : t.Shape cells) {a b : ℕ} (ha : a ∈ t.rbtree.elems) (hb : b ∈ t.rbtree.elems)
    (he : (t.nodes a).name = (t.nodes b).name) : a = b := by
  have hnames : (t.rbtree.elems.map fun a => (t.nodes a).name).Nodup := List.pairwise_map.mpr (h.sorted.imp ne_of_lt)
  exact List.inj_on_of_nodup_map hnames ha hb he

theorem Shape.cut (h : t.Shape cells) (name : CString) : Cut (viewCompare t.nodes name) t.rbtree.elems := by
  refine h.sorted.imp (fun {a b} hab => ⟨?_,?_⟩)
  · intro ha
    exact (CString.strcmp_neg _ _).mpr (((CString.strcmp_neg _ _).mp ha).trans hab)
  · intro hb
    exact (CString.strcmp_pos _ _).mpr (hab.trans ((CString.strcmp_pos _ _).mp hb))

theorem viewCompare_eq_zero {nodes : ℕ → ViewTreeNode} {name : CString} {a : ℕ} :
    viewCompare nodes name a = 0 ↔ (nodes a).name = name :=
  (CString.strcmp_eq_zero _ _).trans eq_comm

theorem Shape.search_of_mem (h : t.Shape cells) {a : ℕ} (ha : a ∈ t.rbtree.elems) :
    rbtreeSearch (viewCompare t.nodes (t.nodes a).name) t.rbtree = some a := by
  cases hs : rbtreeSearch (viewCompare t.nodes (t.nodes a).name) t.rbtree with
  | none => exact absurd (viewCompare_eq_zero.mpr rfl) ((rbtreeSearch_none_iff (h.cut _)).mp hs a ha)
  | some b =>
    obtain ⟨hb,h0⟩ := rbtreeSearch_some hs
    exact congrArg some (h.name_inj hb ha (viewCompare_eq_zero.mp h0))

theorem Shape.create (memory : ViewTreeMemory) : (viewTreeCreate memory).Shape [] where
  valid := rbtreeCreate_valid
  sorted := List.Pairwise.nil
  short := by simp [viewTreeCreate]
  lru := lruListCreate_represents memory.lru
  carried := by simp [viewTreeCreate]
  ptr := by simp
  node_lt := by simp [viewTreeCreate]
  brk_pos := Nat.one_pos

/-! The same for trees with their records. -/

theorem Wf.mem_iff (h : t.Wf cells) {a : ℕ} : a ∈ t.rbtree.elems ↔ ∃ c ∈ cells, t.lrulist.dataOf c = a :=
  h.shape.mem_iff

theorem Wf.dataOf_mem (h : t.Wf cells) {c : ℕ} (hc : c ∈ cells) : t.lrulist.dataOf c ∈ t.rbtree.elems :=
  h.shape.dataOf_mem hc

theorem Wf.name_inj (h : t.Wf cells) {a b : ℕ} (ha : a ∈ t.rbtree.elems) (hb : b ∈ t.rbtree.elems)
    (he : (t.nodes a).name = (t.nodes b).name) : a = b :=
  h.shape.name_inj ha hb he

theorem Wf.cut (h : t.Wf cells) (name : CString) : Cut (viewCompare t.nodes name) t.rbtree.elems := h.shape.cut name

theorem Wf.search_of_mem (h : t.Wf cells) {a : ℕ} (ha : a ∈ t.rbtree.elems) :
    rbtreeSearch (viewCompare t.nodes (t.nodes a).name) t.rbtree = some a :=
  h.shape.search_of_mem ha

theorem Wf.ptr_mem (h : t.Wf cells) {a : ℕ} (ha : a ∈ t.rbtree.elems) :
    (t.nodes a).ptr ∈ cells ∧ t.lrulist.dataOf (t.nodes a).ptr = a := by
  obtain ⟨c,hc,rfl⟩ := h.mem_iff.mp ha
  rw [h.ptr c hc]
  exact ⟨hc,rfl⟩

theorem Wf.length_eq (h : t.Wf cells) : t.rbtree.elems.length = cells.length := by
  rw [← h.carried.length_eq, List.length_map]

theorem Wf.dataOf_inj (h : t.Wf cells) {c d : ℕ} (hc : c ∈ cells) (hd : d ∈ cells)
    (he : t.lrulist.dataOf c = t.lrulist.dataOf d) : c = d := by
  rw [← h.ptr c hc, he, h.ptr d hd]

theorem Wf.elems_nodup (h : t.Wf cells) : t.rbtree.elems.Nodup := by
  refine h.carried.nodup_iff.mp ((List.nodup_map_iff_inj_on h.lru.nodup).mpr ?_)
  exact fun c hc d hd he => h.dataOf_inj hc hd he

theorem Wf.create (memory : ViewTreeMemory) (h : memory.count = 0) : (viewTreeCreate memory).Wf [] where
  valid := rbtreeCreate_valid
  sorted := List.Pairwise.nil
  short := by simp [viewTreeCreate]
  lru := lruListCreate_represents memory.lru
  carried := by simp [viewTreeCreate]
  ptr := by simp
  count_eq := h
  live := by simp [viewTreeCreate]
  own := by simp [viewTreeCreate]
  node_lt := by simp [viewTreeCreate]
  vs_lt := by simp [viewTreeCreate]
  brk_pos := Nat.one_pos

/-! ## Looking a view up -/

/-- A search finds the node of the name, whatever the length of the name is. -/
theorem Wf.find_cases (h : t.Wf cells) {name : CString} {r : Option ℕ} (hr : viewTreeFind t name = some r) :
    (∃ a, r = some a ∧ a ∈ t.rbtree.elems ∧ (t.nodes a).name = name) ∨
      (r = none ∧ ∀ a ∈ t.rbtree.elems, (t.nodes a).name ≠ name) := by
  obtain ⟨key,hkey,rfl⟩ := Option.map_eq_some_iff.mp hr
  cases hs : rbtreeSearch (viewCompare t.nodes key) t.rbtree with
  | none =>
    have hne := (rbtreeSearch_none_iff (h.cut key)).mp hs
    refine Or.inr ⟨rfl,fun a ha he => hne a ha (viewCompare_eq_zero.mpr ?_)⟩
    have hshort := h.short a ha
    rw [he] at hshort
    rw [viewTreeKey_short hshort] at hkey
    exact he.trans (Option.some_inj.mp hkey)
  | some a =>
    obtain ⟨ha,h0⟩ := rbtreeSearch_some hs
    have he := viewCompare_eq_zero.mp h0
    refine Or.inl ⟨a,rfl,ha,?_⟩
    rcases Nat.lt_or_ge name.strlen statsNodeMaxSize with hlt | hge
    · rw [viewTreeKey_short hlt] at hkey
      exact he.trans (Option.some_inj.mp hkey).symm
    · have hshort := h.short a ha
      rw [he, viewTreeKey_long hkey hge] at hshort
      exact absurd hshort (lt_irrefl _)

/-! ## The size -/

/-- The size of the tree when `cells` are left of the LRU list. -/
def sizeAt (t : ViewTree) (cells : List ℕ) : UInt64 :=
  (cells.map fun c => (viewTreeNodeSize t (t.lrulist.dataOf c)).getD 0).sum + sizeofViewTree +
    24 * UInt64.ofInt cells.length

private theorem mapM_getD {f : ℕ → Option UInt64} {l : List ℕ} (h : ∀ a ∈ l, (f a).isSome) :
    l.mapM f = some (l.map fun a => (f a).getD 0) := by
  induction l with
  | nil => rfl
  | cons a l ih =>
    obtain ⟨b,hb⟩ := Option.isSome_iff_exists.mp (h a List.mem_cons_self)
    rw [List.mapM_cons, hb, ih (fun c hc => h c (List.mem_cons_of_mem a hc)), List.map_cons, hb]
    rfl

private theorem sum_perm {xs ys : List UInt64} (h : xs.Perm ys) : xs.sum = ys.sum := by
  have : LeftCommutative (fun a b : UInt64 => a + b) :=
    ⟨fun a b c => by rw [← UInt64.add_assoc, ← UInt64.add_assoc, UInt64.add_comm a b]⟩
  exact h.foldr_eq 0

theorem Wf.getSize (h : t.Wf cells) : viewTreeGetSize t = some (t.sizeAt cells) := by
  have hlive : ∀ a ∈ t.rbtree.elems, (viewTreeNodeSize t a).isSome := by
    intro a ha
    obtain ⟨vs,hvs,-⟩ := h.live a ha
    simp [viewTreeNodeSize, hvs]
  have hperm := h.carried.map fun a => (viewTreeNodeSize t a).getD 0
  rw [List.map_map] at hperm
  simp only [viewTreeGetSize, mapM_getD hlive, Option.bind_eq_bind, Option.bind_some, ← sum_perm hperm,
    h.lru.count_eq, sizeAt]
  rfl

/-! ## The head of the LRU list -/

theorem Wf.moved (h : t.Wf cells) {a : ℕ} (ha : a ∈ t.rbtree.elems) :
    ∃ lru rest, lruListMoveToFirst t.lrulist (t.nodes a).ptr = some lru ∧
      cells.Perm ((t.nodes a).ptr :: rest) ∧ lru.dataOf = t.lrulist.dataOf ∧
      { t with lrulist := lru }.Wf ((t.nodes a).ptr :: rest) := by
  obtain ⟨hmem,hdata⟩ := h.ptr_mem ha
  obtain ⟨xs,ys,rfl⟩ := List.append_of_mem hmem
  obtain ⟨lru,hrun,hrep,hdataOf⟩ := lruListMoveToFirst_spec h.lru
  have hperm : (xs ++ (t.nodes a).ptr :: ys).Perm ((t.nodes a).ptr :: (xs ++ ys)) := List.perm_middle
  refine ⟨lru,xs ++ ys,hrun,hperm,hdataOf,?_⟩
  constructor
  · exact h.valid
  · exact h.sorted
  · exact h.short
  · exact hrep
  · change (List.map lru.dataOf _).Perm _
    rw [hdataOf]
    exact (hperm.symm.map _).trans h.carried
  · intro c hc
    change (t.nodes (lru.dataOf c)).ptr = c
    rw [hdataOf]
    exact h.ptr c (hperm.mem_iff.mpr hc)
  · exact h.count_eq
  · exact h.live
  · exact h.own
  · exact h.node_lt
  · exact h.vs_lt
  · exact h.brk_pos

/-- `t'` is `t` with a node for a new name, at the head of the list. -/
structure Inserted (t t' : ViewTree) (cells : List ℕ) (name : CString) (vs : ℕ) : Prop where
  elems : t'.rbtree.elems.Perm (t.nodeBrk :: t.rbtree.elems)
  node : t'.nodes t.nodeBrk = ⟨name,vs,t.lrulist.brk⟩
  nodes : ∀ a ∈ t.rbtree.elems, t'.nodes a = t.nodes a
  shape : t'.Shape (t.lrulist.brk :: cells)
  data : t'.lrulist.dataOf t.lrulist.brk = t.nodeBrk
  same : LruList.SameData t.lrulist t'.lrulist cells
  count_eq : t'.count = t.count + 1
  stats_eq : t'.stats = t.stats
  statsBrk_eq : t'.statsBrk = t.statsBrk

/-- Writing the node in hand does not change how names compare with the nodes in the tree. -/
theorem Shape.compare_new (h : t.Shape cells) (vtnode : ViewTreeNode) (name : CString) :
    ∀ a ∈ t.rbtree.elems, viewCompare (Function.update t.nodes t.nodeBrk vtnode) name a = viewCompare t.nodes name a := by
  intro a ha
  simp [viewCompare, (h.node_lt a ha).2.ne]

theorem Shape.cut_new (h : t.Shape cells) (vtnode : ViewTreeNode) (name : CString) :
    Cut (viewCompare (Function.update t.nodes t.nodeBrk vtnode) name) t.rbtree.elems := by
  apply (h.cut name).imp_of_mem
  intro a b ha hb hab
  rw [h.compare_new vtnode name a ha, h.compare_new vtnode name b hb]
  exact hab

/-- A name between the smaller and the greater ones keeps the order. -/
theorem Shape.sorted_new (h : t.Shape cells) {nodes : ℕ → ViewTreeNode} {xs ys : List ℕ} {a : ℕ}
    (hsplit : t.rbtree.elems = xs ++ ys) (hold : ∀ b ∈ t.rbtree.elems, nodes b = t.nodes b)
    (hxs : ∀ b ∈ xs, (t.nodes b).name < (nodes a).name) (hys : ∀ b ∈ ys, (nodes a).name < (t.nodes b).name) :
    (xs ++ a :: ys).Pairwise fun b c => (nodes b).name < (nodes c).name := by
  have hsorted := h.sorted
  rw [hsplit] at hsorted hold
  apply pairwise_insert hsorted
  · intro b hb c hc hbc
    rw [hold b hb, hold c hc]
    exact hbc
  · intro b hb
    rw [hold b (List.mem_append_left _ hb)]
    exact hxs b hb
  · intro b hb
    rw [hold b (List.mem_append_right _ hb)]
    exact hys b hb

theorem Shape.inserted (h : t.Shape cells) {name : CString} (vs : ℕ) (hname : name.strlen < statsNodeMaxSize)
    (hne : ∀ a ∈ t.rbtree.elems, (t.nodes a).name ≠ name) :
    ∃ t', viewTreeInsert true t name vs = some t' ∧ Inserted t t' cells name vs := by
  have hnew : ∀ a ∈ t.rbtree.elems, a ≠ t.nodeBrk := fun a ha => (h.node_lt a ha).2.ne
  let nodes := Function.update t.nodes t.nodeBrk ⟨name,vs,0⟩
  have hcmp : ∀ a ∈ t.rbtree.elems, viewCompare nodes name a = viewCompare t.nodes name a := h.compare_new _ name
  have hnonzero : ∀ a ∈ t.rbtree.elems, viewCompare nodes name a ≠ 0 := by
    intro a ha h0
    rw [hcmp a ha] at h0
    exact hne a ha (viewCompare_eq_zero.mp h0)
  obtain ⟨xs,ys,rbtree,hins,hsplit,hsplit',hxs,hys,hvalid⟩ :=
    rbtreeInsert_absent h.valid (h.cut_new ⟨name,vs,0⟩ name) hnonzero t.nodeBrk
  obtain ⟨lru,hlru,hrep,hdata,hsame⟩ := lruListInsert_spec h.lru h.brk_pos.ne'
  let nodes' := Function.update nodes t.nodeBrk ⟨name,vs,t.lrulist.brk⟩
  let t' : ViewTree := ⟨rbtree,lru,t.count + 1,nodes',t.stats,t.nodeBrk + 1,t.statsBrk⟩
  have hself : nodes' t.nodeBrk = ⟨name,vs,t.lrulist.brk⟩ := Function.update_self _ _ _
  have hold : ∀ a ∈ t.rbtree.elems, nodes' a = t.nodes a := by
    intro a ha
    simp [nodes', nodes, hnew a ha]
  have hperm : rbtree.elems.Perm (t.nodeBrk :: t.rbtree.elems) := by
    rw [hsplit, hsplit']
    exact List.perm_middle
  have hcases : ∀ a ∈ rbtree.elems, a = t.nodeBrk ∨ a ∈ t.rbtree.elems := fun a ha =>
    List.mem_cons.mp (hperm.mem_iff.mp ha)
  have hcells : ∀ c ∈ cells, lru.dataOf c = t.lrulist.dataOf c := hsame
  refine ⟨t',?_,hperm,hself,hold,?_,hdata,hsame,rfl,rfl,rfl⟩
  · have hlong : ¬(true = false ∨ statsNodeMaxSize ≤ name.strlen) := by simpa using hname
    simp only [viewTreeInsert, viewTreeInsertResult, if_neg hlong]
    have hins' : rbtreeInsert (viewCompare (Function.update t.nodes t.nodeBrk ⟨name,vs,0⟩) name) t.rbtree t.nodeBrk =
        (rbtree,t.nodeBrk) := hins
    simp [hins', hlru, h.brk_pos.ne', t', nodes', nodes]
  · constructor
    · exact hvalid
    · change rbtree.elems.Pairwise (fun a b => (nodes' a).name < (nodes' b).name)
      rw [hsplit']
      apply h.sorted_new hsplit hold
      · intro a ha
        have hp := hxs a ha
        rw [hcmp a (hsplit ▸ List.mem_append_left _ ha)] at hp
        rw [hself]
        exact (CString.strcmp_pos _ _).mp hp
      · intro a ha
        have hn := hys a ha
        rw [hcmp a (hsplit ▸ List.mem_append_right _ ha)] at hn
        rw [hself]
        exact (CString.strcmp_neg _ _).mp hn
    · intro a ha
      change (nodes' a).name.strlen < statsNodeMaxSize
      rcases hcases a ha with rfl | ha
      · rw [hself]
        exact hname
      · rw [hold a ha]
        exact h.short a ha
    · exact hrep
    · change (lru.dataOf t.lrulist.brk :: cells.map lru.dataOf).Perm rbtree.elems
      rw [hdata, List.map_congr_left hcells]
      exact (h.carried.cons _).trans hperm.symm
    · intro c hc
      change (nodes' (lru.dataOf c)).ptr = c
      rcases List.mem_cons.mp hc with rfl | hc
      · rw [hdata, hself]
      · rw [hcells c hc, hold _ (h.dataOf_mem hc)]
        exact h.ptr c hc
    · intro a ha
      change 0 < a ∧ a < t.nodeBrk + 1
      rcases hcases a ha with rfl | ha
      · exact ⟨h.brk_pos,Nat.lt_succ_self _⟩
      · exact ⟨(h.node_lt a ha).1,(h.node_lt a ha).2.trans (Nat.lt_succ_self _)⟩
    · exact Nat.succ_pos _

/-- A new view is put into the tree and at the head of the list. -/
theorem Wf.inserted (h : t.Wf cells) {name : CString} {vs : ViewStats} (hsound : vs.Sound)
    (hname : name.strlen < statsNodeMaxSize) (hne : ∀ a ∈ t.rbtree.elems, (t.nodes a).name ≠ name) :
    ∃ t', viewTreeInsert true { t with stats := Function.update t.stats t.statsBrk (some vs), statsBrk := t.statsBrk + 1 }
        name t.statsBrk = some t' ∧
      t'.rbtree.elems.Perm (t.nodeBrk :: t.rbtree.elems) ∧ t'.nodes t.nodeBrk = ⟨name,t.statsBrk,t.lrulist.brk⟩ ∧
      (∀ a ∈ t.rbtree.elems, t'.nodes a = t.nodes a) ∧ t'.stats = Function.update t.stats t.statsBrk (some vs) ∧
      t'.Wf (t.lrulist.brk :: cells) ∧ t'.lrulist.dataOf t.lrulist.brk = t.nodeBrk := by
  let t₀ : ViewTree := { t with stats := Function.update t.stats t.statsBrk (some vs), statsBrk := t.statsBrk + 1 }
  have hshape : t₀.Shape cells := ⟨h.valid,h.sorted,h.short,h.lru,h.carried,h.ptr,h.node_lt,h.brk_pos⟩
  obtain ⟨t',hrun,hins⟩ := hshape.inserted t.statsBrk hname hne
  have hself : t'.nodes t.nodeBrk = ⟨name,t.statsBrk,t.lrulist.brk⟩ := hins.node
  have hold : ∀ a ∈ t.rbtree.elems, t'.nodes a = t.nodes a := hins.nodes
  have hstats : t'.stats = Function.update t.stats t.statsBrk (some vs) := hins.stats_eq
  have hcases : ∀ a ∈ t'.rbtree.elems, a = t.nodeBrk ∨ a ∈ t.rbtree.elems := fun a ha =>
    List.mem_cons.mp (hins.elems.mem_iff.mp ha)
  refine ⟨t',hrun,hins.elems,hself,hold,hstats,?_,hins.data⟩
  have hs := hins.shape
  refine ⟨hs.valid,hs.sorted,hs.short,hs.lru,hs.carried,hs.ptr,?_,?_,?_,hs.node_lt,?_,hs.brk_pos⟩
  · rw [hins.count_eq, hins.elems.length_eq, List.length_cons]
    exact congrArg (· + 1) h.count_eq
  · intro a ha
    rw [hstats]
    rcases hcases a ha with rfl | ha
    · rw [hself]
      exact ⟨vs,Function.update_self _ _ _,hsound⟩
    · rw [hold a ha, Function.update_of_ne (h.vs_lt a ha).ne]
      exact h.live a ha
  · intro a ha b hb
    rcases hcases a ha with rfl | ha <;> rcases hcases b hb with rfl | hb
    · exact fun _ => rfl
    · rw [hself, hold b hb]
      exact fun he => absurd he.symm (h.vs_lt b hb).ne
    · rw [hself, hold a ha]
      exact fun he => absurd he (h.vs_lt a ha).ne
    · rw [hold a ha, hold b hb]
      exact h.own a ha b hb
  · intro a ha
    rw [hins.statsBrk_eq]
    change (t'.nodes a).vs < t.statsBrk + 1
    rcases hcases a ha with rfl | ha
    · rw [hself]
      exact Nat.lt_succ_self _
    · rw [hold a ha]
      exact (h.vs_lt a ha).trans (Nat.lt_succ_self _)

/-! ## Writing records -/

/-- Writing sound records to the nodes keeps the tree well-formed. -/
theorem Wf.recorded (h : t.Wf cells) {stats : ℕ → Option ViewStats}
    (hlive : ∀ a ∈ t.rbtree.elems, ∃ vs, stats (t.nodes a).vs = some vs ∧ vs.Sound) :
    { t with stats := stats }.Wf cells :=
  ⟨h.valid,h.sorted,h.short,h.lru,h.carried,h.ptr,h.count_eq,hlive,h.own,h.node_lt,h.vs_lt,h.brk_pos⟩

theorem Wf.recorded_one (h : t.Wf cells) (addr : ℕ) {vs : ViewStats} (hvs : vs.Sound) :
    { t with stats := Function.update t.stats addr (some vs) }.Wf cells := by
  apply h.recorded
  intro a ha
  by_cases he : (t.nodes a).vs = addr
  · exact ⟨vs,by rw [he, Function.update_self],hvs⟩
  · rw [Function.update_of_ne he]
    exact h.live a ha

end Facts

end ViewTree

end LogStats
