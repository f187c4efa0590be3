import LogStats.NameTree.HeapIndex

/-! # Insertions, deletions and evictions in any order

A deletion unlinks a node from the tree and from the LRU list and gives it back to
the pool, but the heap keeps its address. An eviction forgets the LRU node of a name
that is too long without deleting the node.
-/
namespace LogStats

open NameTree

/-- The calls that change a name tree; `evict` is one round of `view_stats_set_memsize`. -/
inductive TreeOp where
  | insert (malloc : Mallocs) (name : CString)
  | delete (name : CString)
  | evict

def treeStep (t : NameTree) : TreeOp → Option NameTree
  | .insert malloc name => (nameTreeInsert malloc t name).map Prod.fst
  | .delete name => (nameTreeDelete t name (some lruListDelete)).map Prod.fst
  | .evict => (nameTreeEvict t).map Prod.fst

namespace NameTree

/-- The node that an operation is going to give back to the pool. -/
def deleted (t : NameTree) : TreeOp → Option ℕ
  | .insert _ _ => none
  | .delete name => (nameTreeExactlyFind t name).join
  | .evict =>
    let v := t.lru.dataOf t.lru.tail
    if t.lru.tail ≠ 0 ∧ (t.nameOf v).strlen < maxNameLen then some v else none

/-- All that an operation can do. -/
inductive Stepped (t t' : NameTree) (cells cells' : List ℕ) : TreeOp → Prop where
  | refused {malloc : Mallocs} {name : CString} : Refused t t' →
      nameTreeExactlyFind t name = some none → t'.recent cells' = t.recent cells →
      Stepped t t' cells cells' (.insert malloc name)
  | inserted {malloc : Mallocs} {name s : CString} {v : ℕ} {t₁ : NameTree} : dotted name = some s →
      name.strlen < maxNameLen → Tracks t t₁ s v → t' = nameTreeCount t₁ v →
      t'.recent cells' = v :: (t.recent cells).erase v → Stepped t t' cells cells' (.insert malloc name)
  | idle {op : TreeOp} : (∀ malloc name, op ≠ .insert malloc name) → t.deleted op = none → t' = t → t'.recent cells' = t.recent cells →
      Stepped t t' cells cells' op
  | removed {op : TreeOp} {v : ℕ} : t.deleted op = some v → v ∈ t.values → Removed t t' v →
      t'.recent cells' = (t.recent cells).erase v → Stepped t t' cells cells' op
  | forgotten {c : ℕ} : t.deleted .evict = none → c ∈ cells → t' = { t with lru := t'.lru } → t.lru.tail = c →
      ¬(t.mem (t.lru.dataOf c)).Fits → t.recent cells = t'.recent cells' ++ [t.lru.dataOf c] →
      Stepped t t' cells cells' .evict

section Step
variable {t t' : NameTree} {cells : List ℕ} {op : TreeOp}

theorem treeStep_cases (h : t.Wf cells) (hs : treeStep t op = some t') :
    ∃ cells', t'.Wf cells' ∧ Stepped t t' cells cells' op := by
  cases op with
  | insert malloc name =>
    obtain ⟨⟨t₂,r⟩,hr,rfl⟩ := Option.map_eq_some_iff.mp hs
    rcases nameTreeInsert_cases h hr with ⟨-,href,hwf',hfind⟩ | ⟨-,hname,s,v,t₁,cells',hd,ht,he,hwf',hrec⟩
    · exact ⟨cells,hwf',.refused href hfind (by rw [recent, href.lru_eq, recent])⟩
    · exact ⟨cells',hwf',.inserted hd hname ht he hrec⟩
  | delete name =>
    obtain ⟨⟨t₂,r⟩,hr,rfl⟩ := Option.map_eq_some_iff.mp hs
    rcases nameTreeDelete_cases h hr with ⟨-,rfl,hfind⟩ | ⟨-,v,cells',hfind,hv,hrem,hwf',hrec⟩
    · exact ⟨cells,h,.idle (by simp) (by simp [deleted, hfind]) rfl rfl⟩
    · exact ⟨cells',hwf',.removed (by simp [deleted, hfind]) hv hrem hrec⟩
  | evict =>
    obtain ⟨⟨t₂,b⟩,hr,rfl⟩ := Option.map_eq_some_iff.mp hs
    rcases nameTreeEvict_cases h with ⟨rfl,hrun⟩ | ⟨cs,c,t₃,rfl,hrun,hwf',hv,hrec,hcase⟩
    · obtain ⟨rfl,-⟩ := Prod.mk.inj (Option.some_inj.mp (hrun.symm.trans hr))
      have htail : t.lru.tail = 0 := h.lru.tail_eq
      exact ⟨[],h,.idle (by simp) (by simp [deleted, htail]) rfl rfl⟩
    · obtain ⟨rfl,-⟩ := Prod.mk.inj (Option.some_inj.mp (hrun.symm.trans hr))
      have htail : t.lru.tail = c := by rw [h.lru.tail_eq, List.getLastD_concat]
      have hc0 : c ≠ 0 := h.lru.nonnull c (by simp)
      rcases hcase with ⟨hf,hrem⟩ | ⟨hnf,he⟩
      · have hlt : (t.nameOf (t.lru.dataOf c)).strlen < maxNameLen := (t.mem _).strlen_lt_iff.mpr hf
        refine ⟨cs,hwf',.removed (v := t.lru.dataOf c) (by simp [deleted, htail, hc0, hlt]) hv hrem ?_⟩
        have hnd := h.recent_nodup
        rw [hrec] at hnd ⊢
        have hnot : t.lru.dataOf c ∉ t₃.recent cs := fun hm =>
          (List.nodup_append.mp hnd).2.2 _ hm _ (List.mem_singleton_self _) rfl
        rw [List.erase_append_right _ hnot, List.erase_cons_head, List.append_nil]
      · have hge : ¬(t.nameOf (t.lru.dataOf c)).strlen < maxNameLen := fun hlt =>
          hnf ((t.mem _).strlen_lt_iff.mp hlt)
        exact ⟨cs,hwf',.forgotten (by simp [deleted, htail, hge]) (by simp) he htail hnf hrec⟩

end Step

/-! ## Entries of the heap are nodes of the tree -/

/-- The entries are different nodes of the tree, and so are those of every reply. -/
structure HeapLive (t : NameTree) : Prop where
  live : ∀ a ∈ t.heap.elems, a ∈ t.values
  nodup : t.heap.elems.Nodup
  reply : ∀ memory topn, (topNodes memory t topn).Nodup ∧ ∀ a ∈ topNodes memory t topn, a ∈ t.values

theorem HeapInside.heapLive {t : NameTree} (h : t.HeapInside) : t.HeapLive := by
  have hnd := h.indexed.nodup
  refine ⟨h.live,hnd,fun memory topn => ?_⟩
  have hsub := topNodes_subperm memory t topn
  obtain ⟨l,hp,hl⟩ := topNodes_subperm memory t topn
  exact ⟨hp.nodup_iff.mp (hnd.sublist hl),fun a ha => h.live a (hsub.subset ha)⟩

theorem HeapInside.stepped {t t' : NameTree} {cells cells' : List ℕ} {op : TreeOp} (h : t.HeapInside)
    (hs : Stepped t t' cells cells' op) (hok : ∀ v ∈ t.deleted op, v ∉ t.heap.elems) : t'.HeapInside := by
  cases hs with
  | refused hr _ _ => exact h.refused hr
  | inserted hd hn ht he _ =>
    obtain ⟨h₁,hv⟩ := ht.heapInside h
    rw [he]
    exact h₁.counted hv
  | idle _ _ he _ => exact he ▸ h
  | removed hd hv hr _ => exact h.removed hr (hok _ hd)
  | forgotten _ _ he _ _ _ =>
    rw [he]
    exact ⟨⟨h.indexed,h.inside⟩,h.live⟩

end NameTree

/-- The heap holds nodes of the tree, each once, in every state that a sequence of
operations reaches, if and only if it never holds a node that is given back. -/
theorem heap_live_iff (memory : NameTreeMemory) (ops : List TreeOp) (t : NameTree)
    (ht : nameTreeCreate memory = some t) :
    Always treeStep HeapLive t ops ↔ Along treeStep (fun t op => ∀ v ∈ t.deleted op, v ∉ t.heap.elems) t ops := by
  obtain ⟨cells,hwf,hin,-⟩ := create_heapInside ht
  refine always_iff_along (I := fun t => (∃ cells, t.Wf cells) ∧ t.HeapInside) ⟨⟨cells,hwf⟩,hin⟩
    (fun _ h => h.2.heapLive) ?_ ?_
  · rintro t op t' ⟨⟨cells,hwf⟩,hin⟩ hok hs
    obtain ⟨cells',hwf',hstep⟩ := treeStep_cases hwf hs
    exact ⟨⟨cells',hwf'⟩,hin.stepped hstep hok⟩
  · rintro t op t' ⟨⟨cells,hwf⟩,hin⟩ hno hs hlive
    obtain ⟨cells',hwf',hstep⟩ := treeStep_cases hwf hs
    push Not at hno
    obtain ⟨v,hv,hmem⟩ := hno
    have hdel : t.deleted op = some v := hv
    cases hstep with
    | refused _ _ _ => simp [deleted] at hdel
    | inserted _ _ _ _ _ => simp [deleted] at hdel
    | idle _ hnone _ _ => simp [hnone] at hdel
    | forgotten hnone _ _ _ _ _ => simp [hnone] at hdel
    | removed hd _ hr _ =>
      obtain rfl := Option.some_inj.mp (hd.symm.trans hdel)
      have hgone : _ ∉ t'.values := (List.nodup_cons.mp (hr.perm.nodup_iff.mp hwf.values_nodup)).1
      exact hgone (hlive.live _ (hr.heap_eq ▸ hmem))

theorem heap_live_small : ∃ t, nameTreeCreate staleMemory = some t ∧
    (Always treeStep HeapLive t [.insert .succeed (letters 1),.delete (letters 2)] ↔
      Along treeStep (fun t op => ∀ v ∈ t.deleted op, v ∉ t.heap.elems) t
        [.insert .succeed (letters 1),.delete (letters 2)]) := by
  obtain ⟨t,ht,-⟩ := nameTreeCreate_wf staleMemory
  exact ⟨t,ht,heap_live_iff staleMemory _ t ht⟩

/-- A name that is inserted and deleted stays in the heap. -/
theorem heap_live_fails : ∃ t t', nameTreeCreate staleMemory = some t ∧
    run treeStep t [.insert .succeed (letters 1),.delete (letters 1)] = some t' ∧ ¬t'.HeapLive := by
  obtain ⟨t,ht,-⟩ := nameTreeCreate_wf staleMemory
  have hrun : (nameTreeCreate staleMemory).bind (fun t =>
      (run treeStep t [.insert .succeed (letters 1),.delete (letters 1)]).map
        (fun t' => (t'.heap.elems,t'.values))) = some ([49113],[]) := by decide +kernel
  rw [ht, Option.bind_some] at hrun
  obtain ⟨t',ht',he⟩ := Option.map_eq_some_iff.mp hrun
  obtain ⟨helems,hvalues⟩ := Prod.mk.inj he
  refine ⟨t,t',ht,ht',fun hlive => ?_⟩
  have hmem := hlive.live 49113 (by simp [helems])
  simp [hvalues] at hmem

/-! ## The tree, the LRU list and the counters agree

The order of the LRU list is compared with a record of the calls, the node inserted
last first.
-/

namespace NameTree

/-- `name_tree_get_size` of a tree without nodes. -/
def emptySize : ℕ := 104 + (80016 + 80000) + 72 * 2

/-- The LRU list carries the nodes of the tree in the given order. -/
structure Represented (t : NameTree) (recency : List ℕ) : Prop where
  cells : ∃ cells, t.lru.Represents cells ∧ t.recent cells = recency
  same : recency.Perm t.values
  ptr : ∀ v ∈ t.values, ∃ cells, t.lru.Represents cells ∧ (t.mem v).ptr ∈ cells ∧ t.lru.dataOf (t.mem v).ptr = v
  count_tree : t.count.toNat = t.tree.count
  count_lru : t.lru.count = t.tree.count
  size : (nameTreeGetSize t).toNat = emptySize + t.tree.count * (sizeofRbnode + sizeofNodeValue + sizeofLruNode)

/-- The nodes a call of `name_tree_insert` inserted or found. -/
def touched (t t' : NameTree) (name : CString) : List ℕ :=
  match nameTreeExactlyFind t name with
  | some (some v) => [v]
  | _ => t'.values.filter (· ∉ t.values)

/-- The record after an operation. -/
def recordOp (t t' : NameTree) (recency : List ℕ) : TreeOp → List ℕ
  | .insert _ name => t.touched t' name ++ recency.filter (· ∉ t.touched t' name)
  | _ => recency.filter (· ∈ t'.values)

/-- The eviction would take the LRU node of a name too long for its field. -/
def Forgets (t : NameTree) : TreeOp → Prop
  | .evict => t.lru.tail ≠ 0 ∧ maxNameLen ≤ (t.nameOf (t.lru.dataOf t.lru.tail)).strlen
  | _ => False

instance (t : NameTree) : (op : TreeOp) → Decidable (t.Forgets op)
  | .insert _ _ => isFalse id
  | .delete _ => isFalse id
  | .evict => inferInstanceAs (Decidable (_ ∧ _))

end NameTree

def recordStep (s : NameTree × List ℕ) (op : TreeOp) : Option (NameTree × List ℕ) :=
  (treeStep s.1 op).map fun t' => (t',s.1.recordOp t' s.2 op)

namespace NameTree

/-- Every node of the tree is in the LRU list, those with too long a name included. -/
structure Complete (t : NameTree) (recency : List ℕ) : Prop where
  wf : ∃ cells, t.Wf cells ∧ t.recent cells = recency
  perm : recency.Perm t.values

section Record
variable {t t' : NameTree} {recency : List ℕ} {op : TreeOp}

theorem size_toNat {n m : ℕ} (hcount : t.count.toNat = n) (hlru : t.lru.count = m) (hn : n < 2 ^ 31)
    (hm : m < 2 ^ 31) : (nameTreeGetSize t).toNat =
      emptySize + n * (sizeofRbnode + sizeofNodeValue) + m * sizeofLruNode := by
  have hl : (UInt64.ofInt t.lru.count).toNat = m := by
    rw [hlru]
    simp only [UInt64.ofInt, UInt64.toNat_ofNat']
    omega
  simp only [nameTreeGetSize, UInt64.toNat_add, UInt64.toNat_mul, UInt32.toNat_toUInt64, UInt64.reduceToNat, hl,
    hcount, emptySize, sizeofRbnode, sizeofNodeValue, sizeofLruNode]
  omega

theorem Complete.represented (h : t.Complete recency) : t.Represented recency := by
  obtain ⟨cells,hwf,hrec⟩ := h.wf
  have hlen : cells.length = t.values.length := by
    rw [← h.perm.length_eq, ← hrec, recent, List.length_map]
  have htree : t.tree.count = t.values.length := by rw [hwf.valid.count_eq, length_values]
  have hcount : t.count.toNat = t.tree.count := by rw [hwf.count_eq, htree]
  have hlru : t.lru.count = t.tree.count := by rw [hwf.lru.count_eq, hlen, htree]
  refine ⟨⟨cells,hwf.lru,hrec⟩,h.perm,?_,hcount,hlru,?_⟩
  · intro v hv
    have hm := h.perm.mem_iff.mpr hv
    rw [← hrec] at hm
    obtain ⟨c,hc,rfl⟩ := List.mem_map.mp hm
    rw [(hwf.linked c hc).2]
    exact ⟨cells,hwf.lru,hc,rfl⟩
  · have hlt : t.tree.count < 2 ^ 31 := htree ▸ hwf.values_lt
    rw [size_toNat hcount hlru hlt hlt, Nat.mul_add _ (sizeofRbnode + sizeofNodeValue), Nat.add_assoc]

private theorem filter_ne_eq_erase {l : List ℕ} {v : ℕ} {p : ℕ → Prop} [DecidablePred p] (hl : l.Nodup)
    (hp : ∀ a ∈ l, p a ↔ a ≠ v) : l.filter (p ·) = l.erase v := by
  rw [hl.erase_eq_filter]
  apply List.filter_congr
  intro a ha
  by_cases hav : a = v
  · subst hav
    have hno : ¬p a := fun hpa => (hp a ha).mp hpa rfl
    simp [hno]
  · simp [(hp a ha).mpr hav, hav]

theorem Complete.recordOp (h : t.Complete recency) (hno : ¬t.Forgets op) (hs : treeStep t op = some t') :
    t'.Complete (t.recordOp t' recency op) := by
  obtain ⟨cells,hwf,hrec⟩ := h.wf
  obtain ⟨cells',hwf',hstep⟩ := treeStep_cases hwf hs
  have hnd : recency.Nodup := hrec ▸ hwf.recent_nodup
  have hvalues : ∀ a ∈ recency, a ∈ t.values := fun a ha => h.perm.mem_iff.mp ha
  have hcomplete : ∀ r, t'.recent cells' = r → r.Perm t'.values → t'.Complete r :=
    fun r hr hp => ⟨⟨cells',hwf',hr⟩,hp⟩
  cases hstep with
  | @refused malloc name href hfind hkeep =>
    have htouched : t.touched t' name = [] := by
      rw [touched, hfind]
      simp [href.values_eq]
    have hrecord : t.recordOp t' recency (.insert malloc name) = recency := by
      simp [NameTree.recordOp, htouched]
    rw [hrecord]
    exact hcomplete _ (hkeep.trans hrec) (href.values_eq ▸ h.perm)
  | @inserted malloc name s v t₁ hd hname ht he hkeep =>
    have hc : Counted t₁ t' v := he ▸ nameTreeCount_counted t₁ v
    rw [hrec] at hkeep
    by_cases hv : v ∈ t.values
    · have hvals := ht.values_of_hit hc hv
      have hfind := (hwf.exactlyFind_some hname hd).mpr ⟨hv,(ht.hit hv).2.1⟩
      have hrecord : t.recordOp t' recency (.insert malloc name) = v :: recency.erase v := by
        simp only [NameTree.recordOp, touched, hfind, List.singleton_append, List.mem_singleton]
        exact congrArg (v :: ·) (filter_ne_eq_erase hnd (fun _ _ => Iff.rfl))
      rw [hrecord]
      apply hcomplete _ hkeep
      rw [hvals]
      exact (List.perm_cons_erase (h.perm.mem_iff.mpr hv)).symm.trans h.perm
    · have hvals := ht.values_of_new hc hv
      have hfind := (hwf.exactlyFind_none hname hd).mpr (ht.new hv).2.1
      have hnew : t'.values.filter (· ∉ t.values) = [v] := by
        refine List.perm_singleton.mp ((hvals.filter _).trans (List.Perm.of_eq ?_))
        rw [List.filter_cons_of_pos (by simpa using hv), List.filter_eq_nil_iff.mpr (by simp)]
      have hnot : v ∉ recency := fun hm => hv (hvalues v hm)
      have hrecord : t.recordOp t' recency (.insert malloc name) = v :: recency.erase v := by
        simp only [NameTree.recordOp, touched, hfind, hnew, List.singleton_append, List.mem_singleton]
        exact congrArg (v :: ·) (filter_ne_eq_erase hnd (fun _ _ => Iff.rfl))
      rw [hrecord]
      apply hcomplete _ hkeep
      rw [List.erase_of_not_mem hnot]
      exact (h.perm.cons v).trans hvals.symm
  | @idle op hidle hnone he hkeep =>
    subst he
    have hrecord : t'.recordOp t' recency op = recency := by
      have hall : recency.filter (· ∈ t'.values) = recency :=
        List.filter_eq_self.mpr (fun a ha => by simpa using hvalues a ha)
      cases op with
      | insert malloc name => exact absurd rfl (hidle malloc name)
      | delete name => exact hall
      | evict => exact hall
    rw [hrecord]
    exact hcomplete _ (hkeep.trans hrec) h.perm
  | @removed op v hd hv hr hkeep =>
    rw [hrec] at hkeep
    have hperm := hr.perm
    have hgone : v ∉ t'.values := (List.nodup_cons.mp (hperm.nodup_iff.mp hwf.values_nodup)).1
    have hrecord : recency.filter (· ∈ t'.values) = recency.erase v := by
      refine filter_ne_eq_erase hnd (fun a ha => ⟨fun hm he => hgone (he ▸ hm),fun hne => ?_⟩)
      exact (List.mem_cons.mp (hperm.mem_iff.mp (hvalues a ha))).resolve_left hne
    have hp : (recency.erase v).Perm t'.values := by
      apply List.Perm.cons_inv (a := v)
      exact (List.perm_cons_erase (h.perm.mem_iff.mpr hv)).symm.trans (h.perm.trans hperm)
    cases op with
    | insert malloc name => simp [deleted] at hd
    | delete name => exact hcomplete _ (hkeep.trans hrecord.symm) ((List.Perm.of_eq hrecord).trans hp)
    | evict => exact hcomplete _ (hkeep.trans hrecord.symm) ((List.Perm.of_eq hrecord).trans hp)
  | @forgotten c _ hc _ htail hnf _ =>
    refine absurd ⟨?_,?_⟩ hno
    · rw [htail]
      exact hwf.lru.nonnull c hc
    · rw [htail]
      exact not_lt.mp (fun hlt => hnf ((t.mem _).strlen_lt_iff.mp hlt))

end Record

end NameTree

/-- An eviction that forgets a node leaves it in the tree without its LRU node. -/
theorem not_represented_of_forgets {t t' : NameTree} {recency : List ℕ} {op : TreeOp} (h : t.Complete recency)
    (hf : t.Forgets op) (hs : treeStep t op = some t') (r : List ℕ) : ¬t'.Represented r := by
  obtain ⟨cells,hwf,hrec⟩ := h.wf
  have hop : op = .evict ∧ t.lru.tail ≠ 0 ∧ maxNameLen ≤ (t.nameOf (t.lru.dataOf t.lru.tail)).strlen := by
    cases op with
    | insert malloc name => exact absurd hf id
    | delete name => exact absurd hf id
    | evict => exact ⟨rfl,hf⟩
  obtain ⟨rfl,htail,hlen⟩ := hop
  obtain ⟨⟨t₂,b⟩,hr,rfl⟩ := Option.map_eq_some_iff.mp hs
  rcases nameTreeEvict_cases hwf with ⟨rfl,-⟩ | ⟨cs,c,t₃,rfl,hrun,hwf',hv,hrecent,hcase⟩
  · exact absurd hwf.lru.tail_eq htail
  · obtain ⟨rfl,-⟩ := Prod.mk.inj (Option.some_inj.mp (hrun.symm.trans hr))
    have hc : t.lru.tail = c := by rw [hwf.lru.tail_eq, List.getLastD_concat]
    rw [hc] at hlen
    rcases hcase with ⟨hfit,-⟩ | ⟨-,he⟩
    · have hlt : (t.nameOf (t.lru.dataOf c)).strlen < maxNameLen := (t.mem _).strlen_lt_iff.mpr hfit
      omega
    · intro hrep
      have hcount : t₃.lru.count = t₃.tree.count := hrep.count_lru
      have htree : t₃.tree.count = t.tree.count := by rw [he]
      have hlist := h.represented.count_lru
      have hcells := hwf.lru.count_eq
      have hcells' := hwf'.lru.count_eq
      rw [List.length_append, List.length_singleton] at hcells
      omega

/-- The invariant holds in every state that a sequence of operations reaches, if and only
if no eviction meets a name too long for its field. -/
theorem represented_iff (memory : NameTreeMemory) (ops : List TreeOp) (t : NameTree)
    (ht : nameTreeCreate memory = some t) :
    Always recordStep (fun s => s.1.Represented s.2) (t,[]) ops ↔
      Along recordStep (fun s op => ¬s.1.Forgets op) (t,[]) ops := by
  obtain ⟨t',ht',hwf,hv,-⟩ := nameTreeCreate_wf memory
  obtain rfl : t' = t := Option.some_inj.mp (ht'.symm.trans ht)
  refine always_iff_along (I := fun s => s.1.Complete s.2) ⟨⟨[],hwf,rfl⟩,by simp [hv]⟩
    (fun _ h => h.represented) ?_ ?_
  · rintro ⟨t,recency⟩ op s' h hno hs
    obtain ⟨t₂,ht₂,rfl⟩ := Option.map_eq_some_iff.mp hs
    exact h.recordOp hno ht₂
  · rintro ⟨t,recency⟩ op s' h hno hs
    obtain ⟨t₂,ht₂,rfl⟩ := Option.map_eq_some_iff.mp hs
    exact not_represented_of_forgets h (not_not.mp hno) ht₂ _

theorem represented_small : ∃ t, nameTreeCreate staleMemory = some t ∧
    (Always recordStep (fun s => s.1.Represented s.2) (t,[]) [.insert .succeed (letters 31),.evict] ↔
      Along recordStep (fun s op => ¬s.1.Forgets op) (t,[]) [.insert .succeed (letters 31),.evict]) := by
  obtain ⟨t,ht,-⟩ := nameTreeCreate_wf staleMemory
  exact ⟨t,ht,represented_iff staleMemory _ t ht⟩

/-- A name of 31 letters is inserted and evicted: the tree keeps it, the LRU list does not. -/
theorem represented_fails : ∃ t s, nameTreeCreate staleMemory = some t ∧
    run recordStep (t,[]) [.insert .succeed (letters 31),.evict] = some s ∧ ¬s.1.Represented s.2 := by
  obtain ⟨t,ht,-⟩ := nameTreeCreate_wf staleMemory
  have hrun : (nameTreeCreate staleMemory).bind (fun t =>
      (run recordStep (t,[]) [.insert .succeed (letters 31),.evict]).map
        (fun s => (s.1.tree.count,s.1.lru.count))) = some (1,0) := by decide +kernel
  rw [ht, Option.bind_some] at hrun
  obtain ⟨s,hs,he⟩ := Option.map_eq_some_iff.mp hrun
  obtain ⟨htree,hlru⟩ := Prod.mk.inj he
  refine ⟨t,s,ht,hs,fun hrep => ?_⟩
  have hcount := hrep.count_lru
  omega

end LogStats
