import LogStats.NameTree.Invariant

/-! # What an insertion does

A call finds the node of the name or adds one, and then counts it. Both ways the
heap is as before when the counting starts, and so is every other node.
-/
namespace LogStats

namespace NameTree

/-- A refused call: at most the pools and the memory of free elements change. -/
structure Refused (t t' : NameTree) : Prop where
  tree_eq : t'.tree = t.tree
  heap_eq : t'.heap = t.heap
  lru_eq : t'.lru = t.lru
  count_eq : t'.count = t.count
  mem_eq : ∀ v ∈ t.values, t'.mem v = t.mem v

/-- In `t₁` the node `v` is there for the name `s` and waits to be counted. -/
structure Tracks (t t₁ : NameTree) (s : CString) (v : ℕ) : Prop where
  heap_eq : t₁.heap = t.heap
  mem_eq : ∀ a ∈ t.values, t₁.mem a = t.mem a
  hit : v ∈ t.values → t₁.tree = t.tree ∧ t.nameOf v = s ∧ (t.mem v).Fits
  new : v ∉ t.values → t₁.values.Perm (v :: t.values) ∧ (∀ a ∈ t.values, t.nameOf a ≠ s) ∧
    t₁.heapIndexOf v = -1 ∧ (t₁.mem v).count = 0 ∧
    ((s.strlen < maxNameLen ∧ (t₁.mem v).Fits ∧ t₁.nameOf v = s) ∨ (s.strlen = maxNameLen ∧ ¬(t₁.mem v).Fits))

theorem Refused.values_eq {t t' : NameTree} (h : Refused t t') : t'.values = t.values := by
  rw [values, values, h.tree_eq]
theorem Refused.nodes_eq {t t' : NameTree} (h : Refused t t') : t'.nodes = t.nodes := by
  rw [nodes, nodes, h.tree_eq]

theorem Wf.refused {t t' : NameTree} {cells : List ℕ} (h : t.Wf cells) (hr : Refused t t')
    (hvo : t'.namePool.Outstanding t.values) (hno : t'.nodePool.Outstanding t.nodes) : t'.Wf cells := by
  have hname : ∀ a ∈ t.values, t'.nameOf a = t.nameOf a := fun a ha => by rw [nameOf, nameOf, hr.mem_eq a ha]
  constructor
  · exact hr.tree_eq ▸ h.valid
  · rw [hr.values_eq]
    refine h.sorted.imp_of_mem (fun {a b} ha hb hab => ?_)
    rw [hname a ha, hname b hb, hr.mem_eq a ha]
    exact hab
  · rw [hr.values_eq]
    intro a ha
    rw [hr.mem_eq a ha]
    exact h.settled a ha
  · rwa [hr.values_eq]
  · rwa [hr.nodes_eq]
  · exact hr.lru_eq ▸ h.lru
  · rw [hr.values_eq, hr.lru_eq]
    intro c hc
    rw [hr.mem_eq _ (h.linked c hc).1]
    exact h.linked c hc
  · rw [hr.values_eq, hr.lru_eq]
    intro a ha
    rw [hr.mem_eq a ha]
    exact h.listed a ha
  · rw [hr.count_eq, hr.values_eq]
    exact h.count_eq

/-- The state after a name was added and before it is counted. -/
structure Added (t t₁ : NameTree) (cells : List ℕ) (s : CString) (nv : ℕ) : Prop where
  split : ∃ xs ys, t.values = xs ++ ys ∧ t₁.values = xs ++ nv :: ys ∧ (∀ a ∈ xs, t.nameOf a < s) ∧
    (∀ a ∈ ys, s < t.nameOf a)
  valid : t₁.tree.Valid
  fresh : nv ∉ t.values
  values_out : t₁.namePool.Outstanding (nv :: t.values)
  nodes_out : t₁.nodePool.Outstanding t₁.nodes
  heap_eq : t₁.heap = t.heap
  count_eq : t₁.count = t.count + 1
  mem_eq : ∀ a, a ≠ nv → t₁.mem a = t.mem a
  fqdn_eq : (t₁.mem nv).fqdn = ((t.mem nv).setFqdn s).fqdn
  count_zero : (t₁.mem nv).count = 0
  heapIndex_eq : (t₁.mem nv).heapIndex = -1
  lru : t₁.lru.Represents ((t₁.mem nv).ptr :: cells)
  data : t₁.lru.dataOf (t₁.mem nv).ptr = nv
  data_eq : ∀ c ∈ cells, t₁.lru.dataOf c = t.lru.dataOf c

section Add
variable {t t₁ : NameTree} {cells : List ℕ} {s : CString} {nv : ℕ}

/-- With what `strcpy` and `count = 0` leave, the new node compares as its name. -/
theorem name_setFqdn {nv : NodeValue} (hs : s.strlen ≤ maxNameLen) :
    ({ nv.setFqdn s with count := 0, heapIndex := -1 } : NodeValue).name = s := by
  rcases Nat.lt_or_ge s.strlen maxNameLen with hlt | hge
  · obtain ⟨hf,hread⟩ := nv.setFqdn_fits hlt
    have hf' : ({ nv.setFqdn s with count := 0, heapIndex := -1 } : NodeValue).Fits := hf
    rw [hf'.name_eq]
    exact hread
  · have hfq := nv.setFqdn_overlong (Nat.le_antisymm hs hge)
    have hnf : ¬({ nv.setFqdn s with count := 0, heapIndex := -1 } : NodeValue).Fits := by
      rw [NodeValue.Fits, hfq]
      exact s.nulFree
    exact CString.ext ((NodeValue.name_of_count_zero hnf rfl).trans hfq)

/-- The new node goes between the names before and after its own. Its value `nv` is written in
memory first, which no comparison with another node notices. -/
theorem Wf.searchTree_insert (h : t.Wf cells) (hne : ∀ a ∈ t.values, t.nameOf a ≠ s) (hfresh : nv ∉ t.values)
    {v₀ : NodeValue} (hv₀ : v₀.name = s) (node : ℕ) :
    ∃ xs ys tree, (rbtreeInsert (nameCompare (Function.update t.mem nv v₀) (Function.update t.mem nv v₀ nv).name) t.tree
        (node,nv)).1 = tree ∧ t.tree.elems = xs ++ ys ∧ tree.elems = xs ++ (node,nv) :: ys ∧
      (∀ a ∈ xs.map Prod.snd, t.nameOf a < s) ∧ (∀ a ∈ ys.map Prod.snd, s < t.nameOf a) ∧ tree.Valid := by
  have hcmp : ∀ e ∈ t.tree.elems, nameCompare (Function.update t.mem nv v₀) s e = nameCompare t.mem s e := by
    intro e he
    have hv : e.2 ∈ t.values := List.mem_map_of_mem he
    have hold : e.2 ≠ nv := fun hen => hfresh (hen ▸ hv)
    rw [nameCompare, nameCompare, Function.update_of_ne hold]
  have hcut : Cut (nameCompare (Function.update t.mem nv v₀) s) t.tree.elems := by
    apply (h.cut s).imp_of_mem
    intro a b ha hb hab
    rw [hcmp a ha, hcmp b hb]
    exact hab
  have hnew : ∀ e ∈ t.tree.elems, nameCompare (Function.update t.mem nv v₀) s e ≠ 0 := by
    intro e he
    rw [hcmp e he]
    exact nameCompare_ne_zero (hne e.2 (List.mem_map_of_mem he))
  obtain ⟨xs,ys,tree,hins,hsplit,hsplit',hxs,hys,hvalid⟩ := rbtreeInsert_absent h.valid hcut hnew (node,nv)
  refine ⟨xs,ys,tree,?_,hsplit,hsplit',?_,?_,hvalid⟩
  · rw [Function.update_self, hv₀, hins]
  · intro a ha
    obtain ⟨e,he,rfl⟩ := List.mem_map.mp ha
    have hpos := hxs e he
    rw [hcmp e (hsplit ▸ List.mem_append_left _ he)] at hpos
    exact (CString.strcmp_pos _ _).mp hpos
  · intro a ha
    obtain ⟨e,he,rfl⟩ := List.mem_map.mp ha
    have hneg := hys e he
    rw [hcmp e (hsplit ▸ List.mem_append_right _ he)] at hneg
    exact (CString.strcmp_neg _ _).mp hneg

theorem nameTreeAdd_added {name : CString} {malloc : Mallocs} {r : Option ℕ} (h : t.Wf cells)
    (hname : name.strlen < maxNameLen) (hs : dotted name = some s) (hne : ∀ a ∈ t.values, t.nameOf a ≠ s)
    (hr : nameTreeAdd malloc t name = some (t₁,r)) :
    (r = none ∧ Refused t t₁ ∧ t₁.Wf cells) ∨ ∃ nv, r = some nv ∧ Added t t₁ cells s nv := by
  have hs32 := dotted_strlen_le hs hname
  simp only [nameTreeAdd, Option.bind_eq_bind, Option.bind_eq_some_iff] at hr
  obtain ⟨⟨namePool,nv⟩,hnv,hr⟩ := hr
  have hvo := memPoolAlloc_outstanding h.values_out hnv
  cases nv with
  | none =>
    obtain ⟨rfl,rfl⟩ : { t with namePool := namePool } = t₁ ∧ none = r := by simpa using hr
    have href : Refused t { t with namePool := namePool } := ⟨rfl,rfl,rfl,rfl,fun _ _ => rfl⟩
    exact Or.inl ⟨rfl,href,h.refused href hvo h.nodes_out⟩
  | some nv =>
    simp only [Option.bind_eq_some_iff] at hr
    obtain ⟨⟨nodePool,node⟩,hnode,hr⟩ := hr
    have hno := memPoolAlloc_outstanding h.nodes_out hnode
    have hnd := (List.nodup_append.mp hvo.nodup).1
    have hfresh : nv ∉ t.values := (List.nodup_cons.mp hnd).1
    have hmem : ∀ (x : NodeValue), ∀ a, a ≠ nv → Function.update t.mem nv x a = t.mem a :=
      fun x a ha => Function.update_of_ne ha x t.mem
    cases node with
    | none =>
      simp only [Option.bind_eq_some_iff] at hr
      obtain ⟨namePool',hfree,hr⟩ := hr
      obtain ⟨mp,hmp,hout⟩ := memPoolFree_outstanding hvo (show nv ∈ (some nv).toList ++ t.values by simp)
      obtain rfl : mp = namePool' := Option.some_inj.mp (hmp.symm.trans hfree)
      obtain ⟨rfl,rfl⟩ := Prod.mk.inj (Option.some_inj.mp hr)
      have href : Refused t { t with
          namePool := mp, nodePool := nodePool
          mem := Function.update t.mem nv ((t.mem nv).setNext (namePool.freeList.headD 0)) } :=
        ⟨rfl,rfl,rfl,rfl,fun v hv => hmem _ v (fun he => hfresh (he ▸ hv))⟩
      exact Or.inl ⟨rfl,href,h.refused href (by simpa using hout) hno⟩
    | some node =>
      simp only [hs, Option.bind_some, Option.bind_eq_some_iff] at hr
      obtain ⟨⟨lru,lruNode⟩,hlru,hr⟩ := hr
      obtain ⟨cell,hcell,hr⟩ := hr
      have hlruNode : lruNode = some cell := hcell
      subst hlruNode
      obtain ⟨rfl,rfl⟩ := Prod.mk.inj (Option.some_inj.mp hr)
      clear hr
      have hnv0 : nv ≠ 0 := hvo.nonnull nv (by simp)
      have hmalloc : malloc.lru = true := by
        by_contra hf
        rw [Bool.not_eq_true] at hf
        simp [lruListInsert, hnv0, hf] at hlru
      rw [hmalloc] at hlru
      obtain ⟨lru',hrun,hrep,hdata,hsame⟩ := lruListInsert_spec h.lru hnv0
      rw [hrun] at hlru
      obtain ⟨rfl,rfl⟩ : lru' = lru ∧ t.lru.brk = cell := by simpa using hlru
      let v₀ : NodeValue := { (t.mem nv).setFqdn s with count := 0, heapIndex := -1 }
      have hv₀ : v₀.name = s := name_setFqdn hs32
      obtain ⟨xs,ys,tree,htree,hsplit,hsplit',hxs,hys,hvalid⟩ := h.searchTree_insert hne hfresh hv₀ node
      refine Or.inr ⟨nv,rfl,?_⟩
      refine ⟨⟨xs.map Prod.snd,ys.map Prod.snd,?_,?_,hxs,hys⟩,?_,hfresh,hvo,?_,rfl,rfl,?_,?_,?_,?_,?_,?_,?_⟩
      · rw [values, hsplit, List.map_append]
      · simp only [values]
        rw [htree, hsplit', List.map_append, List.map_cons]
      · exact htree.symm ▸ hvalid
      · apply hno.perm
        simp only [nodes]
        rw [htree, hsplit', hsplit, List.map_append, List.map_append, List.map_cons]
        exact List.perm_middle
      · intro a ha
        simp [ha]
      · simp
      · simp
      · simp
      · simpa using hrep
      · simpa using hdata
      · intro c hc
        exact hsame c hc

section Counting
variable {t' : NameTree} (ha : Added t t₁ cells s nv) (hc : Counted t₁ t' nv)
include ha hc

/-- Counting the new node leaves the fields of the others alone. -/
theorem Added.counted_old {a : ℕ} (hav : a ∈ t.values) :
    (t'.mem a).fqdn = (t.mem a).fqdn ∧ (t'.mem a).ptr = (t.mem a).ptr ∧ (t'.mem a).count = (t.mem a).count := by
  have hold : a ≠ nv := by
    rintro rfl
    exact ha.fresh hav
  have hmem := ha.mem_eq a hold
  exact ⟨by rw [hc.fqdn_eq, hmem],by rw [hc.ptr_eq, hmem],by rw [hc.counts, if_neg hold, hmem]⟩

theorem Added.counted_fits {a : ℕ} (hav : a ∈ t.values) : (t'.mem a).Fits ↔ (t.mem a).Fits := by
  rw [NodeValue.Fits, NodeValue.Fits, (ha.counted_old hc hav).1]

theorem Added.counted_nameOf (h : t.Wf cells) {a : ℕ} (hav : a ∈ t.values) : t'.nameOf a = t.nameOf a := by
  obtain ⟨hfq,-,hcount⟩ := ha.counted_old hc hav
  apply NodeValue.name_congr hfq hcount
  rcases h.settled a hav with hf | ⟨-,hone⟩
  · exact List.mem_append_left _ hf.1
  · rw [hone]
    exact List.mem_append_right _ (by decide)

theorem Added.counted_one : (t'.mem nv).count = 1 := by
  rw [hc.counts, if_pos rfl, ha.count_zero]
  rfl

/-- The new name is `s`, or the string after it where `s` is too long. -/
theorem Added.counted_new (hs : s.strlen ≤ maxNameLen) : s ≤ t'.nameOf nv ∧ (∀ n, s < n → t'.nameOf nv ≤ n) ∧
    ((t'.mem nv).Fits → t'.nameOf nv = s) := by
  rcases Nat.lt_or_ge s.strlen maxNameLen with hlt | hge
  · obtain ⟨hf,hread⟩ := (t.mem nv).setFqdn_fits hlt
    have hf' : (t'.mem nv).Fits := by rw [NodeValue.Fits, hc.fqdn_eq, ha.fqdn_eq]; exact hf
    have hn : t'.nameOf nv = s := by
      rw [nameOf, hf'.name_eq, hc.fqdn_eq, ha.fqdn_eq, hread]
    exact ⟨hn.ge,fun n hlt => hn.le.trans hlt.le,fun _ => hn⟩
  · have hbytes : (t'.mem nv).fqdn = s.bytes := by
      rw [hc.fqdn_eq, ha.fqdn_eq, (t.mem nv).setFqdn_overlong (Nat.le_antisymm hs hge)]
    have hnf : ¬(t'.mem nv).Fits := by
      rw [NodeValue.Fits, hbytes]
      exact s.nulFree
    have happ := NodeValue.name_of_count_one hnf (ha.counted_one hc)
    rw [hbytes] at happ
    obtain ⟨hlt,hcov⟩ := CString.covers_append_one happ
    exact ⟨hlt.le,hcov,fun hf => absurd hf hnf⟩

end Counting

/-- Once it is counted, a new node belongs to the tree. -/
theorem Wf.added {t' : NameTree} (h : t.Wf cells) (hs : s.strlen ≤ maxNameLen) (hd : dotted s = some s)
    (ha : Added t t₁ cells s nv) (hc : Counted t₁ t' nv) :
    t'.Wf ((t₁.mem nv).ptr :: cells) ∧ t'.recent ((t₁.mem nv).ptr :: cells) = nv :: t.recent cells := by
  obtain ⟨xs,ys,hsplit,hsplit₁,hxs,hys⟩ := ha.split
  have hvals : t'.values = xs ++ nv :: ys := hc.values_eq.trans hsplit₁
  have hptr : ∀ a ∈ t.values, (t'.mem a).ptr = (t.mem a).ptr := fun a hav => (ha.counted_old hc hav).2.1
  have hfits : ∀ a ∈ t.values, (t'.mem a).Fits ↔ (t.mem a).Fits := fun a hav => ha.counted_fits hc hav
  have hnames : ∀ a ∈ t.values, t'.nameOf a = t.nameOf a := fun a hav => ha.counted_nameOf hc h hav
  have hone := ha.counted_one hc
  have hnew := ha.counted_new hc hs
  have hperm : t'.values.Perm (nv :: t.values) := by
    rw [hvals, hsplit]
    exact List.perm_middle
  refine ⟨⟨hc.tree_eq ▸ ha.valid,?_,?_,?_,?_,?_,?_,?_,?_⟩,?_⟩
  · rw [hvals]
    have hsorted := h.sorted
    rw [hsplit] at hsorted hnames hfits
    apply pairwise_insert hsorted
    · intro a hav b hbv hab
      rw [hnames a hav, hnames b hbv, hfits a hav]
      exact hab
    · intro a hav
      have hlt := (hxs a hav).trans_le hnew.1
      rw [hnames a (List.mem_append_left _ hav)]
      exact ⟨hlt.le,fun he => absurd he hlt.ne⟩
    · intro b hb
      have hlt := hys b hb
      rw [hnames b (List.mem_append_right _ hb)]
      refine ⟨hnew.2.1 _ hlt,fun he hf => ?_⟩
      exact hlt.ne ((hnew.2.2 hf).symm.trans he)
  · intro a hav
    rcases List.mem_cons.mp (hperm.mem_iff.mp hav) with rfl | hav
    · by_cases hf : (t'.mem a).Fits
      · refine Or.inl ⟨hf,?_⟩
        have hn : (t'.mem a).name = s := hnew.2.2 hf
        rw [hn, hd]
      · exact Or.inr ⟨hf,hone⟩
    · rcases h.settled a hav with ⟨hf,hda⟩ | ⟨hnf,hone⟩
      · refine Or.inl ⟨(hfits a hav).mpr hf,?_⟩
        have hn : (t'.mem a).name = (t.mem a).name := hnames a hav
        rw [hn, hda]
      · exact Or.inr ⟨fun hf => hnf ((hfits a hav).mp hf),(ha.counted_old hc hav).2.2.trans hone⟩
  · rw [hc.namePool_eq]
    exact ha.values_out.perm hperm
  · rw [hc.nodePool_eq, hc.nodes_eq]
    exact ha.nodes_out
  · rw [hc.lru_eq]
    exact ha.lru
  · intro c hcell
    rw [hc.lru_eq]
    rcases List.mem_cons.mp hcell with rfl | hcell
    · rw [ha.data, hc.ptr_eq]
      exact ⟨hperm.mem_iff.mpr List.mem_cons_self,rfl⟩
    · obtain ⟨hv,hp⟩ := h.linked c hcell
      rw [ha.data_eq c hcell, hptr _ hv]
      exact ⟨hperm.mem_iff.mpr (List.mem_cons_of_mem _ hv),hp⟩
  · intro a hav hf
    rw [hc.lru_eq]
    rcases List.mem_cons.mp (hperm.mem_iff.mp hav) with rfl | hav
    · rw [hc.ptr_eq]
      exact ⟨List.mem_cons_self,ha.data⟩
    · obtain ⟨hm,hdat⟩ := h.listed a hav ((hfits a hav).mp hf)
      rw [hptr a hav]
      exact ⟨List.mem_cons_of_mem _ hm,(ha.data_eq _ hm).trans hdat⟩
  · have hlt := h.values_lt
    rw [hc.count_eq, ha.count_eq, hperm.length_eq, List.length_cons, UInt32.toNat_add, h.count_eq]
    simp only [UInt32.reduceToNat]
    omega
  · simp only [recent, hc.lru_eq, List.map_cons, ha.data]
    exact congrArg (nv :: ·) (List.map_congr_left ha.data_eq)

end Add

/-! ## Finding a node -/

/-- A node whose name fits comes to the head of the list. -/
theorem Wf.movedToFirst {t : NameTree} {cells : List ℕ} {v : ℕ} (h : t.Wf cells) (hv : v ∈ t.values)
    (hf : (t.mem v).Fits) : ∃ lru cells', lruListMoveToFirst t.lru (t.mem v).ptr = some lru ∧
      ({ t with lru := lru } : NameTree).Wf cells' ∧
      ({ t with lru := lru } : NameTree).recent cells' = v :: (t.recent cells).erase v := by
  obtain ⟨hcell,hdata⟩ := h.listed v hv hf
  obtain ⟨cs,ds,hsplit⟩ := List.append_of_mem hcell
  obtain ⟨lru,hrun,hrep,hdataOf⟩ := lruListMoveToFirst_spec (hsplit ▸ h.lru)
  have hmem : ∀ c, c ∈ (t.mem v).ptr :: (cs ++ ds) ↔ c ∈ cells := by
    intro c
    rw [hsplit]
    exact List.perm_middle.symm.mem_iff
  refine ⟨lru,_,hrun,⟨h.valid,h.sorted,h.settled,h.values_out,h.nodes_out,hrep,?_,?_,h.count_eq⟩,?_⟩
  · intro c hc
    have hl := h.linked c ((hmem c).mp hc)
    rw [← hdataOf] at hl
    exact hl
  · intro a ha hfa
    obtain ⟨hm,hd⟩ := h.listed a ha hfa
    exact ⟨(hmem _).mpr hm,by simpa only [hdataOf] using hd⟩
  · have hrec : t.recent cells = cs.map t.lru.dataOf ++ v :: ds.map t.lru.dataOf := by
      rw [recent, hsplit, List.map_append, List.map_cons, hdata]
    have hnd := h.recent_nodup
    have hnot : v ∉ cs.map t.lru.dataOf := by
      rw [hrec] at hnd
      exact fun hm => (List.nodup_append.mp hnd).2.2 v hm v List.mem_cons_self rfl
    rw [hrec, List.erase_append_right _ hnot, List.erase_cons_head]
    simp only [recent, List.map_cons, List.map_append, hdataOf, hdata]

/-- What an exact look-up finds has the name and fits. -/
theorem Wf.found {t : NameTree} {cells : List ℕ} {name s : CString} {v : ℕ} (h : t.Wf cells)
    (hname : name.strlen < maxNameLen) (hs : dotted name = some s) (hfound : nameTreeExactlyFind t name = some (some v)) :
    v ∈ t.values ∧ t.nameOf v = s ∧ (t.mem v).Fits := by
  obtain ⟨hv,hn⟩ := (h.exactlyFind_some hname hs).mp hfound
  exact ⟨hv,hn,h.fits_of_name hv (hn ▸ dotted_strlen_le hs hname)⟩

/-! ## The whole call -/

/-- A call is refused, or finds or adds the node of its name and counts it. -/
theorem nameTreeInsert_cases {t t' : NameTree} {cells : List ℕ} {name : CString} {malloc : Mallocs} {r : ℤ}
    (h : t.Wf cells) (hr : nameTreeInsert malloc t name = some (t',r)) :
    (r = -1 ∧ Refused t t' ∧ t'.Wf cells ∧ nameTreeExactlyFind t name = some none) ∨
      (r = 0 ∧ name.strlen < maxNameLen ∧ ∃ s v t₁ cells', dotted name = some s ∧ Tracks t t₁ s v ∧
        t' = nameTreeCount t₁ v ∧ t'.Wf cells' ∧ t'.recent cells' = v :: (t.recent cells).erase v) := by
  unfold nameTreeInsert at hr
  by_cases hlen : maxNameLen ≤ name.strlen
  · rw [if_pos hlen] at hr
    obtain ⟨rfl,rfl⟩ := Prod.mk.inj (Option.some_inj.mp hr)
    exact Or.inl ⟨rfl,⟨rfl,rfl,rfl,rfl,fun _ _ => rfl⟩,h,by rw [nameTreeExactlyFind, if_pos hlen]⟩
  have hname : name.strlen < maxNameLen := by omega
  simp only [if_neg hlen, Option.bind_eq_bind, Option.bind_eq_some_iff] at hr
  obtain ⟨found,hfound,hr⟩ := hr
  obtain ⟨s,hs,-⟩ := exactlyFind_cases hname hfound
  cases found with
  | some v =>
    obtain ⟨hv,hn,hf⟩ := h.found hname hs hfound
    obtain ⟨lru,cells',hrun,hwf,hrec⟩ := h.movedToFirst hv hf
    simp only [hrun, Option.bind_some, Option.some.injEq, Prod.mk.injEq] at hr
    obtain ⟨rfl,rfl⟩ := hr
    have hc := nameTreeCount_counted { t with lru := lru } v
    refine Or.inr ⟨rfl,hname,s,v,_,cells',hs,?_,rfl,hwf.counted hc hf,?_⟩
    · exact ⟨rfl,fun _ _ => rfl,fun _ => ⟨rfl,hn,hf⟩,fun hno => absurd hv hno⟩
    · rw [← hrec, recent, recent, hc.lru_eq]
  | none =>
    have hne := (h.exactlyFind_none hname hs).mp hfound
    simp only [Option.bind_eq_some_iff] at hr
    obtain ⟨⟨t₁,nv⟩,hadd,hr⟩ := hr
    rcases nameTreeAdd_added h hname hs hne hadd with ⟨rfl,href,hwf⟩ | ⟨nv,rfl,ha⟩
    · simp only [Option.some.injEq, Prod.mk.injEq] at hr
      obtain ⟨rfl,rfl⟩ := hr
      exact Or.inl ⟨rfl,href,hwf,hfound⟩
    · simp only [Option.some.injEq, Prod.mk.injEq] at hr
      obtain ⟨rfl,rfl⟩ := hr
      have hs32 := dotted_strlen_le hs hname
      obtain ⟨hwf,hrec⟩ := h.added hs32 (dotted_dotted hs) ha (nameTreeCount_counted t₁ nv)
      have hnot : nv ∉ t.recent cells := by
        intro hm
        obtain ⟨c,hc,he⟩ := List.mem_map.mp hm
        exact ha.fresh (he ▸ (h.linked c hc).1)
      refine Or.inr ⟨rfl,hname,s,nv,t₁,_,hs,?_,rfl,hwf,?_⟩
      · refine ⟨ha.heap_eq,?_,fun hm => absurd hm ha.fresh,fun _ => ⟨?_,hne,ha.heapIndex_eq,ha.count_zero,?_⟩⟩
        · intro a hav
          exact ha.mem_eq a (fun he => ha.fresh (he ▸ hav))
        · obtain ⟨xs,ys,hsplit,hsplit₁,-⟩ := ha.split
          rw [hsplit, hsplit₁]
          exact List.perm_middle
        · rcases Nat.lt_or_ge s.strlen maxNameLen with hlt | hge
          · obtain ⟨hf,hread⟩ := (t.mem nv).setFqdn_fits hlt
            have hf' : (t₁.mem nv).Fits := by rw [NodeValue.Fits, ha.fqdn_eq]; exact hf
            exact Or.inl ⟨hlt,hf',by rw [nameOf, hf'.name_eq, ha.fqdn_eq, hread]⟩
          · refine Or.inr ⟨Nat.le_antisymm hs32 hge,?_⟩
            rw [NodeValue.Fits, ha.fqdn_eq, (t.mem nv).setFqdn_overlong (Nat.le_antisymm hs32 hge)]
            exact s.nulFree
      · rw [hrec, List.erase_of_not_mem hnot]

theorem nameTreeInsert_wf {t t' : NameTree} {cells : List ℕ} {name : CString} {malloc : Mallocs} {r : ℤ}
    (h : t.Wf cells) (hr : nameTreeInsert malloc t name = some (t',r)) : ∃ cells', t'.Wf cells' := by
  rcases nameTreeInsert_cases h hr with ⟨-,-,hwf',-⟩ | ⟨-,-,s,v,t₁,cells',-,-,-,hwf',-⟩
  · exact ⟨_,hwf'⟩
  · exact ⟨_,hwf'⟩

/-- A call for a name that is there needs no memory. -/
theorem nameTreeInsert_found {t : NameTree} {cells : List ℕ} {name : CString} {v : ℕ} (h : t.Wf cells)
    (hname : name.strlen < maxNameLen) (hfound : nameTreeExactlyFind t name = some (some v)) (malloc : Mallocs) :
    ∃ lru, nameTreeInsert malloc t name = some (nameTreeCount { t with lru := lru } v,0) := by
  have hlen : ¬maxNameLen ≤ name.strlen := by omega
  obtain ⟨s,hs,-⟩ := exactlyFind_cases hname hfound
  obtain ⟨hv,-,hf⟩ := h.found hname hs hfound
  obtain ⟨lru,cells',hrun,-⟩ := h.movedToFirst hv hf
  exact ⟨lru,by simp [nameTreeInsert, hlen, hfound, hrun]⟩

/-- With memory at hand a call on an admissible name succeeds, as long as the pools can
still grow. -/
theorem nameTreeInsert_some {t : NameTree} {cells : List ℕ} {name : CString} (h : t.Wf cells)
    (hnode : t.nodePool.Tripled) (hvalue : t.namePool.Tripled) (hlen : t.values.length < poolLimit)
    (hname : name.strlen < maxNameLen) (hne : name.strlen ≠ 0) :
    ∃ t', nameTreeInsert Mallocs.succeed t name = some (t',0) ∧ t'.nodePool.Tripled ∧ t'.namePool.Tripled := by
  obtain ⟨s,hs⟩ := Option.ne_none_iff_exists'.mp (fun hno => hne (dotted_eq_none.mp hno))
  have hlen' : ¬maxNameLen ≤ name.strlen := by omega
  have hcounted : ∀ t₁ v, t₁.nodePool.Tripled → t₁.namePool.Tripled →
      (nameTreeCount t₁ v).nodePool.Tripled ∧ (nameTreeCount t₁ v).namePool.Tripled := by
    intro t₁ v h₁ h₂
    have hc := nameTreeCount_counted t₁ v
    exact ⟨hc.nodePool_eq ▸ h₁,hc.namePool_eq ▸ h₂⟩
  obtain ⟨found,hfound⟩ : ∃ found, nameTreeExactlyFind t name = some found := by
    rw [nameTreeExactlyFind, if_neg hlen', hs]
    exact ⟨_,rfl⟩
  cases found with
  | some v =>
    obtain ⟨lru,hrun⟩ := nameTreeInsert_found h hname hfound Mallocs.succeed
    exact ⟨nameTreeCount { t with lru := lru } v,hrun,hcounted _ _ hnode hvalue⟩
  | none =>
    obtain ⟨namePool,nv,hnv,hvalue'⟩ := memPoolAlloc_some h.values_out hvalue hlen
    have hnlen : t.nodes.length < poolLimit := by
      have hl : t.nodes.length = t.values.length := by rw [nodes, values, List.length_map, List.length_map]
      omega
    obtain ⟨nodePool,node,hnd,hnode'⟩ := memPoolAlloc_some h.nodes_out hnode hnlen
    have hnv0 : nv ≠ 0 := (memPoolAlloc_outstanding h.values_out hnv).nonnull nv (by simp)
    obtain ⟨lru,hlru,-⟩ := lruListInsert_spec h.lru hnv0
    obtain ⟨t₁,hadd,h₁,h₂⟩ : ∃ t₁, nameTreeAdd Mallocs.succeed t name = some (t₁,some nv) ∧
        t₁.nodePool.Tripled ∧ t₁.namePool.Tripled := by
      simp only [nameTreeAdd, Mallocs.succeed, hnv, hnd, hs, hlru, Option.bind_eq_bind, Option.bind_some]
      exact ⟨_,rfl,hnode',hvalue'⟩
    exact ⟨nameTreeCount t₁ nv,by simp [nameTreeInsert, hlen', hfound, hadd],hcounted _ _ h₁ h₂⟩

end NameTree

end LogStats
