import LogStats.NameTree.Basic

/-! # What holds of a name tree between calls

The invariant admits the values whose name is a byte too long for its field: their
terminator was in `count`, which is one, so no search finds them again. It also
admits that such a value is in the tree and not in the LRU list.
-/
namespace LogStats

def NodeValue.Settled (nv : NodeValue) : Prop :=
  (nv.Fits ∧ dotted nv.name = some nv.name) ∨ (¬nv.Fits ∧ nv.count = 1)

namespace NameTree

/-- `cells` are the nodes of the LRU list from the header on. -/
structure Wf (t : NameTree) (cells : List ℕ) : Prop where
  valid : t.tree.Valid
  sorted : t.values.Pairwise (fun a b => t.nameOf a ≤ t.nameOf b ∧ (t.nameOf a = t.nameOf b → ¬(t.mem a).Fits))
  settled : ∀ v ∈ t.values, (t.mem v).Settled
  values_out : t.namePool.Outstanding t.values
  nodes_out : t.nodePool.Outstanding t.nodes
  lru : t.lru.Represents cells
  linked : ∀ c ∈ cells, t.lru.dataOf c ∈ t.values ∧ (t.mem (t.lru.dataOf c)).ptr = c
  listed : ∀ v ∈ t.values, (t.mem v).Fits → (t.mem v).ptr ∈ cells ∧ t.lru.dataOf (t.mem v).ptr = v
  count_eq : t.count.toNat = t.values.length

/-- The values in the order of the LRU list. -/
def recent (t : NameTree) (cells : List ℕ) : List ℕ := cells.map t.lru.dataOf

@[simp] theorem length_values (t : NameTree) : t.values.length = t.tree.elems.length := List.length_map _

section Facts
variable {t : NameTree} {cells : List ℕ}

theorem Wf.values_nodup (h : t.Wf cells) : t.values.Nodup := (List.nodup_append.mp h.values_out.nodup).1

theorem Wf.values_lt (h : t.Wf cells) : t.values.length < 2 ^ 31 := by
  have hlen := h.values_out.length_eq
  have hlt := h.values_out.count_lt
  rw [List.length_append] at hlen
  omega

theorem Wf.recent_nodup (h : t.Wf cells) : (t.recent cells).Nodup := by
  apply (List.nodup_map_iff_inj_on h.lru.nodup).mpr
  intro c hc c' hc' he
  rw [← (h.linked c hc).2, ← (h.linked c' hc').2, he]

/-- Apart from the names that are too long every value has a name of its own. -/
theorem Wf.name_inj (h : t.Wf cells) {a b : ℕ} (ha : a ∈ t.values) (hb : b ∈ t.values)
    (hf : (t.mem a).Fits) (he : t.nameOf a = t.nameOf b) : a = b := by
  by_contra hne
  have hfb : (t.mem b).Fits := by
    have hlt := (t.mem a).strlen_lt_iff.mpr hf
    have he' : (t.mem a).name = (t.mem b).name := he
    exact (t.mem b).strlen_lt_iff.mp (he' ▸ hlt)
  have hp := List.pairwise_iff_getElem.mp h.sorted
  obtain ⟨i,hi,rfl⟩ := List.getElem_of_mem ha
  obtain ⟨j,hj,rfl⟩ := List.getElem_of_mem hb
  rcases Nat.lt_trichotomy i j with hij | rfl | hij
  · exact (hp i j hi hj hij).2 he hf
  · exact hne rfl
  · exact (hp j i hj hi hij).2 he.symm hfb

theorem Wf.cut (h : t.Wf cells) (s : CString) : Cut (nameCompare t.mem s) t.tree.elems := by
  refine (List.pairwise_map.mp h.sorted).imp (fun {a b} hab => ⟨?_,?_⟩)
  · intro ha
    exact (CString.strcmp_neg _ _).mpr (((CString.strcmp_neg _ _).mp ha).trans_le hab.1)
  · intro hb
    exact (CString.strcmp_pos _ _).mpr (hab.1.trans_lt ((CString.strcmp_pos _ _).mp hb))

theorem nameCompare_ne_zero {mem : ℕ → NodeValue} {s : CString} {e : ℕ × ℕ} (h : (mem e.2).name ≠ s) :
    nameCompare mem s e ≠ 0 := fun h0 => h ((CString.strcmp_eq_zero _ _).mp h0).symm

/-- No name of up to 32 bytes is that of a value whose name was too long. -/
theorem Wf.fits_of_name (h : t.Wf cells) {v : ℕ} (hv : v ∈ t.values) (hlen : (t.nameOf v).strlen ≤ maxNameLen) :
    (t.mem v).Fits := by
  rcases h.settled v hv with hf | ⟨hnf,hone⟩
  · exact hf.1
  · have hb := NodeValue.name_of_count_one hnf hone
    have hl := (t.mem v).fqdn_length
    simp only [nameOf, CString.strlen, hb, List.length_append, List.length_singleton] at hlen
    omega

end Facts

/-! ## Looking a name up -/

section Find
variable {t : NameTree} {cells : List ℕ} {name s : CString}

theorem Wf.search_none (h : t.Wf cells) :
    rbtreeSearch (nameCompare t.mem s) t.tree = none ↔ ∀ v ∈ t.values, t.nameOf v ≠ s := by
  rw [rbtreeSearch_none_iff (h.cut s)]
  constructor
  · intro hne v hv he
    obtain ⟨e,hm,rfl⟩ := List.mem_map.mp hv
    exact hne e hm ((CString.strcmp_eq_zero _ _).mpr he.symm)
  · intro hne e he
    exact nameCompare_ne_zero (hne e.2 (List.mem_map_of_mem he))

theorem search_some {e : ℕ × ℕ} (h : rbtreeSearch (nameCompare t.mem s) t.tree = some e) :
    e.2 ∈ t.values ∧ t.nameOf e.2 = s := by
  obtain ⟨hm,h0⟩ := rbtreeSearch_some h
  exact ⟨List.mem_map_of_mem hm,((CString.strcmp_eq_zero _ _).mp h0).symm⟩

/-- A value whose name fits is what a search for its name returns. -/
theorem Wf.search_of_mem (h : t.Wf cells) {v : ℕ} (hv : v ∈ t.values) (hf : (t.mem v).Fits)
    (hs : t.nameOf v = s) : ∃ node, rbtreeSearch (nameCompare t.mem s) t.tree = some (node,v) := by
  cases hr : rbtreeSearch (nameCompare t.mem s) t.tree with
  | none => exact absurd hs (h.search_none.mp hr v hv)
  | some e =>
    obtain ⟨he,hn⟩ := search_some hr
    obtain rfl := h.name_inj hv he hf (hs.trans hn.symm)
    exact ⟨e.1,rfl⟩

theorem exactlyFind_cases {r : Option ℕ} (hname : name.strlen < maxNameLen)
    (hr : nameTreeExactlyFind t name = some r) :
    ∃ s, dotted name = some s ∧ r = (rbtreeSearch (nameCompare t.mem s) t.tree).map Prod.snd := by
  rw [nameTreeExactlyFind, if_neg (by omega)] at hr
  obtain ⟨s,hs,rfl⟩ := Option.map_eq_some_iff.mp hr
  exact ⟨s,hs,rfl⟩

theorem Wf.exactlyFind_none (h : t.Wf cells) (hname : name.strlen < maxNameLen) (hs : dotted name = some s) :
    nameTreeExactlyFind t name = some none ↔ ∀ v ∈ t.values, t.nameOf v ≠ s := by
  rw [nameTreeExactlyFind, if_neg (by omega), hs, ← h.search_none]
  simp

theorem Wf.exactlyFind_some (h : t.Wf cells) (hname : name.strlen < maxNameLen) (hs : dotted name = some s)
    {v : ℕ} : nameTreeExactlyFind t name = some (some v) ↔ v ∈ t.values ∧ t.nameOf v = s := by
  rw [nameTreeExactlyFind, if_neg (by omega), hs]
  simp only [Option.map_some, Option.some.injEq, Option.map_eq_some_iff]
  constructor
  · rintro ⟨e,he,rfl⟩
    exact search_some he
  · rintro ⟨hv,hn⟩
    have hf := h.fits_of_name hv (hn ▸ dotted_strlen_le hs hname)
    obtain ⟨node,hnode⟩ := h.search_of_mem hv hf hn
    exact ⟨_,hnode,rfl⟩

end Find

/-! ## Counting a name

The heap operations write heap indices and nothing else.
-/

/-- Everything but the heap indices and one count. -/
structure Counted (t t' : NameTree) (v : ℕ) : Prop where
  tree_eq : t'.tree = t.tree
  nodePool_eq : t'.nodePool = t.nodePool
  namePool_eq : t'.namePool = t.namePool
  count_eq : t'.count = t.count
  lru_eq : t'.lru = t.lru
  fqdn_eq : ∀ a, (t'.mem a).fqdn = (t.mem a).fqdn
  ptr_eq : ∀ a, (t'.mem a).ptr = (t.mem a).ptr
  counts : ∀ a, (t'.mem a).count = if a = v then (t.mem v).count + 1 else (t.mem a).count

/-- Two memories that differ in heap indices at most. -/
def SameButIndex (mem mem' : ℕ → NodeValue) : Prop :=
  ∀ a, (mem' a).fqdn = (mem a).fqdn ∧ (mem' a).ptr = (mem a).ptr ∧ (mem' a).count = (mem a).count

theorem elemInsert_sameButIndex (mem mem' : ℕ → NodeValue) (a k : ℕ) (h : SameButIndex mem mem') :
    SameButIndex mem (elemInsert mem' a k) := by
  intro b
  obtain ⟨hf,hp,hc⟩ := h b
  by_cases hb : b = a
  · subst hb
    simp [elemInsert, hf, hp, hc]
  · simp [elemInsert, hb, hf, hp, hc]

def bump (t : NameTree) (v : ℕ) : ℕ → NodeValue :=
  Function.update t.mem v { t.mem v with count := (t.mem v).count + 1 }

theorem adjust_sameButIndex (mem : ℕ → NodeValue) (hbt : Heap ℕ) (index : ℕ) :
    SameButIndex mem (heapAdjustSiftdown elemCompare elemInsert mem hbt index).1 := by
  have hsift : SameButIndex mem (heapSiftHole elemCompare elemInsert hbt.len (hbt.heap index) mem hbt.heap index).1 :=
    siftHole_preserves (S := fun _ => True) (fun _ a k _ => elemInsert_sameButIndex _ _ a k) (by simp)
      (fun _ => ⟨rfl,rfl,rfl⟩)
  unfold heapAdjustSiftdown
  dsimp only
  split
  · exact elemInsert_sameButIndex _ _ _ _ hsift
  · exact hsift

theorem nameTreeCount_counted (t : NameTree) (v : ℕ) : Counted t (nameTreeCount t v) v := by
  have hbump : ∀ mem', SameButIndex (t.bump v) mem' → ∀ a, (mem' a).fqdn = (t.mem a).fqdn ∧
      (mem' a).ptr = (t.mem a).ptr ∧
      (mem' a).count = if a = v then (t.mem v).count + 1 else (t.mem a).count := by
    intro mem' h a
    obtain ⟨hf,hp,hc⟩ := h a
    by_cases ha : a = v
    · subst ha
      simp [bump, hf, hp, hc]
    · simp [bump, ha, hf, hp, hc]
  have hfinish : ∀ (mem' : ℕ → NodeValue) (heap : Heap ℕ), SameButIndex (t.bump v) mem' →
      Counted t { t with mem := mem', heap := heap } v := by
    intro mem' heap h
    have hall := hbump mem' h
    exact ⟨rfl,rfl,rfl,rfl,rfl,fun a => (hall a).1,fun a => (hall a).2.1,fun a => (hall a).2.2⟩
  have hkeep := fun (mem' : ℕ → NodeValue) (a k : ℕ) (_ : True) =>
    elemInsert_sameButIndex (t.bump v) mem' a k
  unfold nameTreeCount
  dsimp only
  split
  · exact hfinish _ _ (adjust_sameButIndex _ _ _)
  · split
    · split
      · exact hfinish _ _ (heapReplaceLeast_preserves (S := fun _ => True) hkeep (by simp) trivial
          (fun _ => ⟨rfl,rfl,rfl⟩))
      · exact hfinish _ t.heap (fun _ => ⟨rfl,rfl,rfl⟩)
    · exact hfinish _ _ (heapInsert_preserves (S := fun _ => True) hkeep (by simp) trivial
        (fun _ => ⟨rfl,rfl,rfl⟩))

namespace Counted
variable {t t' : NameTree} {v : ℕ} (hc : Counted t t' v)
include hc

theorem values_eq : t'.values = t.values := by rw [values, values, hc.tree_eq]
theorem nodes_eq : t'.nodes = t.nodes := by rw [nodes, nodes, hc.tree_eq]
theorem fits_iff (a : ℕ) : (t'.mem a).Fits ↔ (t.mem a).Fits := by rw [NodeValue.Fits, NodeValue.Fits, hc.fqdn_eq]
theorem nameOf_of_fits {a : ℕ} (hf : (t.mem a).Fits) : t'.nameOf a = t.nameOf a := hf.name_congr (hc.fqdn_eq a)

theorem nameOf_of_one {a : ℕ} (hav : a ≠ v) (ha : (t.mem a).count = 1) : t'.nameOf a = t.nameOf a := by
  apply NodeValue.name_congr (hc.fqdn_eq a) (by rw [hc.counts, if_neg hav])
  rw [ha]
  exact List.mem_append_right _ (by decide)

end Counted

/-- Counting a value whose name fits keeps the invariant. -/
theorem Wf.counted {t t' : NameTree} {cells : List ℕ} {v : ℕ} (h : t.Wf cells) (hc : Counted t t' v)
    (hf : (t.mem v).Fits) : t'.Wf cells := by
  have hname : ∀ a ∈ t.values, t'.nameOf a = t.nameOf a := by
    intro a ha
    rcases h.settled a ha with hfa | ⟨hnf,hone⟩
    · exact hc.nameOf_of_fits hfa.1
    · refine hc.nameOf_of_one ?_ hone
      rintro rfl
      exact hnf hf
  constructor
  · exact hc.tree_eq ▸ h.valid
  · rw [hc.values_eq]
    refine h.sorted.imp_of_mem (fun {a b} ha hb hab => ?_)
    rw [hname a ha, hname b hb, hc.fits_iff]
    exact hab
  · rw [hc.values_eq]
    intro a ha
    rcases h.settled a ha with ⟨hfa,hd⟩ | ⟨hnf,hone⟩
    · refine Or.inl ⟨(hc.fits_iff a).mpr hfa,?_⟩
      have he : (t'.mem a).name = (t.mem a).name := hname a ha
      rw [he, hd]
    · refine Or.inr ⟨fun hfa => hnf ((hc.fits_iff a).mp hfa),?_⟩
      have hav : a ≠ v := by
        rintro rfl
        exact hnf hf
      rw [hc.counts, if_neg hav, hone]
  · rw [hc.values_eq, hc.namePool_eq]
    exact h.values_out
  · rw [hc.nodes_eq, hc.nodePool_eq]
    exact h.nodes_out
  · exact hc.lru_eq ▸ h.lru
  · rw [hc.values_eq, hc.lru_eq]
    intro c hcm
    rw [hc.ptr_eq]
    exact h.linked c hcm
  · rw [hc.values_eq, hc.lru_eq]
    intro a ha hfa
    rw [hc.ptr_eq]
    exact h.listed a ha ((hc.fits_iff a).mp hfa)
  · rw [hc.count_eq, hc.values_eq]
    exact h.count_eq

end NameTree

theorem nameTreeCreate_wf (memory : NameTreeMemory) :
    ∃ t, nameTreeCreate memory = some t ∧ t.Wf [] ∧ t.values = [] ∧ t.heap = heapInit memory.heap 1000 ∧
      t.nodePool.Tripled ∧ t.namePool.Tripled := by
  obtain ⟨nodePool,hnode,hno,hnt⟩ := memPoolCreate_spec 40 (by decide) (by decide) (by decide)
  obtain ⟨namePool,hname,hvo,hvt⟩ := memPoolCreate_spec 48 (by decide) (by decide) (by decide)
  let t : NameTree :=
    ⟨rbtreeCreate,heapInit memory.heap 1000,nodePool,namePool,0,lruListCreate memory.lru,memory.values⟩
  have hv : t.values = [] := rfl
  refine ⟨t,by simp [nameTreeCreate, hnode, hname, t],?_,hv,rfl,hnt,hvt⟩
  exact ⟨rbtreeCreate_valid,List.Pairwise.nil,by simp [hv],hvo,hno,lruListCreate_represents memory.lru,
    by simp,by simp [hv],rfl⟩

end LogStats
