import LogStats.NameTree.Insert

/-! # What a deletion and an eviction do

The loops of `view_stats_set_memsize` take the last node off the LRU list and then
delete the name it carries. A name too long for its field is refused by the
deletion, so that its node stays in the tree.
-/
namespace LogStats

/-- The body of the loops of `view_stats_set_memsize`: `false` where the list is empty. -/
def nameTreeEvict (t : NameTree) : Option (NameTree × Bool) :=
  let (lru,node) := lruListRemoveTail t.lru
  if node = 0 then some ({ t with lru := lru },false)
  else (nameTreeDelete { t with lru := lru } (t.mem node).name none).map fun (t,_) => (t,true)

namespace NameTree

/-- The node `v` has left the tree and its memory is free. -/
structure Removed (t t' : NameTree) (v : ℕ) : Prop where
  split : ∃ xs ys, t.values = xs ++ v :: ys ∧ t'.values = xs ++ ys
  heap_eq : t'.heap = t.heap
  mem_eq : ∀ a, a ≠ v → t'.mem a = t.mem a
  heapIndex_eq : t'.heapIndexOf v = t.heapIndexOf v

theorem Removed.perm {t t' : NameTree} {v : ℕ} (h : Removed t t' v) : t.values.Perm (v :: t'.values) := by
  obtain ⟨xs,ys,hsplit,hsplit'⟩ := h.split
  rw [hsplit, hsplit']
  exact List.perm_middle

section Remove
variable {t : NameTree} {cells : List ℕ}

/-- Taking a node out keeps the invariant if its LRU node goes with it. -/
theorem Wf.removed {t' : NameTree} {v : ℕ} {cells' : List ℕ} (h : t.Wf cells) (hr : Removed t t' v)
    (hvalid : t'.tree.Valid) (hvo : t'.namePool.Outstanding t'.values) (hno : t'.nodePool.Outstanding t'.nodes)
    (hcount : t'.count = t.count - 1) (hlru : t'.lru.Represents cells') (hdata : t'.lru.dataOf = t.lru.dataOf)
    (hcells : ∀ c, c ∈ cells' ↔ c ∈ cells ∧ t.lru.dataOf c ≠ v) : t'.Wf cells' := by
  have hnd := h.values_nodup
  obtain ⟨xs,ys,hsplit,hsplit'⟩ := hr.split
  have hperm := hr.perm
  have hnot : v ∉ t'.values := (List.nodup_cons.mp (hperm.nodup_iff.mp hnd)).1
  have hsub : ∀ a ∈ t'.values, a ∈ t.values ∧ a ≠ v := by
    intro a ha
    exact ⟨hperm.mem_iff.mpr (List.mem_cons_of_mem _ ha),fun he => hnot (he ▸ ha)⟩
  have hname : ∀ a ∈ t'.values, t'.nameOf a = t.nameOf a := by
    intro a ha
    rw [nameOf, nameOf, hr.mem_eq a (hsub a ha).2]
  refine ⟨hvalid,?_,?_,hvo,hno,hlru,?_,?_,?_⟩
  · have hsl : t'.values.Sublist t.values := by
      rw [hsplit, hsplit']
      exact List.Sublist.append_left (List.sublist_cons_self v ys) xs
    refine (h.sorted.sublist hsl).imp_of_mem (fun {a b} ha hb hab => ?_)
    rw [hname a ha, hname b hb, hr.mem_eq a (hsub a ha).2]
    exact hab
  · intro a ha
    rw [hr.mem_eq a (hsub a ha).2]
    exact h.settled a (hsub a ha).1
  · intro c hc
    obtain ⟨hc,hcv⟩ := (hcells c).mp hc
    obtain ⟨hv,hp⟩ := h.linked c hc
    rw [hdata, hr.mem_eq _ hcv]
    refine ⟨?_,hp⟩
    rcases List.mem_cons.mp (hperm.mem_iff.mp hv) with he | hm
    · exact absurd he hcv
    · exact hm
  · intro a ha hf
    rw [hr.mem_eq a (hsub a ha).2] at hf ⊢
    obtain ⟨hm,hd⟩ := h.listed a (hsub a ha).1 hf
    rw [hdata]
    exact ⟨(hcells _).mpr ⟨hm,hd.symm ▸ (hsub a ha).2⟩,hd⟩
  · have hlen := hperm.length_eq
    have hlt := h.values_lt
    have hc := h.count_eq
    rw [List.length_cons] at hlen
    have hone : (1 : UInt32).toNat = 1 := rfl
    have hle : 1 ≤ t.count := by rw [UInt32.le_iff_toNat_le]; omega
    rw [hcount, UInt32.toNat_sub_of_le _ _ hle]
    omega

/-- The end of `name_tree_delete` for a node that was found, whatever the callback does. -/
theorem nameTreeDelete_found (h : t.Wf cells) {name s : CString} {v : ℕ} {lru lru' : LruList}
    (delFunc : Option (LruList → ℕ → Option LruList)) (hname : name.strlen < maxNameLen) (hs : dotted name = some s)
    (hv : v ∈ t.values) (hn : t.nameOf v = s)
    (hlru : (match delFunc with
      | none => some lru
      | some delFunc => delFunc lru (t.mem v).ptr) = some lru') :
    ∃ t', nameTreeDelete { t with lru := lru } name delFunc = some (t',0) ∧ Removed t t' v ∧ t'.tree.Valid ∧
      t'.namePool.Outstanding t'.values ∧ t'.nodePool.Outstanding t'.nodes ∧ t'.count = t.count - 1 ∧
      t'.lru = lru' := by
  have hf := h.fits_of_name hv (hn ▸ dotted_strlen_le hs hname)
  obtain ⟨node,hsearch⟩ := h.search_of_mem hv hf hn
  obtain ⟨xs,ys,tree,hdel,hsplit,hsplit',hvalid⟩ := rbtreeDelete_present h.valid (h.cut s) hsearch
  have hvals : t.values = xs.map Prod.snd ++ v :: ys.map Prod.snd := by simp [values, hsplit]
  have hnodes : t.nodes = xs.map Prod.fst ++ node :: ys.map Prod.fst := by simp [nodes, hsplit]
  have hnot : v ∉ xs.map Prod.snd := by
    have hnd := h.values_nodup
    rw [hvals] at hnd
    exact fun hm => (List.nodup_append.mp hnd).2.2 v hm v List.mem_cons_self rfl
  have hnot' : node ∉ xs.map Prod.fst := by
    have hnd := (List.nodup_append.mp h.nodes_out.nodup).1
    rw [hnodes] at hnd
    exact fun hm => (List.nodup_append.mp hnd).2.2 node hm node List.mem_cons_self rfl
  obtain ⟨namePool,hnp,hvo⟩ := memPoolFree_outstanding h.values_out hv
  obtain ⟨nodePool,hdp,hno⟩ := memPoolFree_outstanding h.nodes_out (show node ∈ t.nodes by simp [hnodes])
  have hve : t.values.erase v = xs.map Prod.snd ++ ys.map Prod.snd := by
    rw [hvals, List.erase_append_right _ hnot, List.erase_cons_head]
  have hne : t.nodes.erase node = xs.map Prod.fst ++ ys.map Prod.fst := by
    rw [hnodes, List.erase_append_right _ hnot', List.erase_cons_head]
  let t' : NameTree := ⟨tree,t.heap,nodePool,namePool,t.count - 1,lru',
    Function.update t.mem v ((t.mem v).setNext (t.namePool.freeList.headD 0))⟩
  have hvals' : t'.values = xs.map Prod.snd ++ ys.map Prod.snd := by simp [t', values, hsplit']
  have hnodes' : t'.nodes = xs.map Prod.fst ++ ys.map Prod.fst := by simp [t', nodes, hsplit']
  refine ⟨t',?_,⟨⟨_,_,hvals,hvals'⟩,rfl,?_,?_⟩,hvalid,?_,?_,rfl,rfl⟩
  · have hlen : ¬maxNameLen ≤ name.strlen := by omega
    simp only [nameTreeDelete, if_neg hlen, hs, Option.bind_eq_bind, Option.bind_some, hdel]
    cases delFunc with
    | none =>
      obtain rfl : lru = lru' := by simpa using hlru
      simp [hnp, hdp, t']
    | some f => simp only [hlru, hnp, hdp, Option.bind_some, t']
  · intro a ha
    simp [t', ha]
  · simp [t', heapIndexOf]
  · rw [hvals', ← hve]
    exact hvo
  · rw [hnodes', ← hne]
    exact hno

/-- `name_tree_delete` with the callback that takes the node out of the LRU list. -/
theorem nameTreeDelete_cases (h : t.Wf cells) {t' : NameTree} {name : CString} {r : ℤ}
    (hr : nameTreeDelete t name (some lruListDelete) = some (t',r)) :
    (r = -1 ∧ t' = t ∧ nameTreeExactlyFind t name = some none) ∨
      (r = 0 ∧ ∃ v cells', nameTreeExactlyFind t name = some (some v) ∧ v ∈ t.values ∧ Removed t t' v ∧
        t'.Wf cells' ∧ t'.recent cells' = (t.recent cells).erase v) := by
  by_cases hlen : maxNameLen ≤ name.strlen
  · rw [nameTreeDelete, if_pos hlen] at hr
    obtain ⟨rfl,rfl⟩ := Prod.mk.inj (Option.some_inj.mp hr)
    exact Or.inl ⟨rfl,rfl,by rw [nameTreeExactlyFind, if_pos hlen]⟩
  have hname : name.strlen < maxNameLen := by omega
  cases hs : dotted name with
  | none => simp [nameTreeDelete, hlen, hs] at hr
  | some s =>
    by_cases hex : ∀ v ∈ t.values, t.nameOf v ≠ s
    · have hdel := rbtreeDelete_absent (h.cut s) (fun e he => nameCompare_ne_zero (hex e.2 (List.mem_map_of_mem he)))
      simp only [nameTreeDelete, if_neg hlen, hs, Option.bind_eq_bind, Option.bind_some, hdel] at hr
      obtain ⟨rfl,rfl⟩ := Prod.mk.inj (Option.some_inj.mp hr)
      exact Or.inl ⟨rfl,rfl,(h.exactlyFind_none hname hs).mpr hex⟩
    · push Not at hex
      obtain ⟨v,hv,hn⟩ := hex
      have hf := h.fits_of_name hv (hn ▸ dotted_strlen_le hs hname)
      obtain ⟨hcell,hdata⟩ := h.listed v hv hf
      obtain ⟨cs,ds,hsplit⟩ := List.append_of_mem hcell
      obtain ⟨lru,hrun,hrep,hdataOf⟩ := lruListDelete_spec (hsplit ▸ h.lru)
      obtain ⟨t'',hrun',hrem,hvalid,hvo,hno,hcount,hlru⟩ := nameTreeDelete_found h
        (some lruListDelete) hname hs hv hn hrun
      obtain ⟨rfl,rfl⟩ := Prod.mk.inj (Option.some_inj.mp (hrun'.symm.trans hr))
      have hndc := h.lru.nodup
      rw [hsplit] at hndc
      have hcells : ∀ c, c ∈ cs ++ ds ↔ c ∈ cells ∧ t.lru.dataOf c ≠ v := by
        intro c
        constructor
        · intro hc
          have hm : c ∈ cells := by
            rw [hsplit]
            exact List.perm_middle.mem_iff.mpr (List.mem_cons_of_mem _ hc)
          refine ⟨hm,fun he => ?_⟩
          have hp := (h.linked c hm).2
          rw [he] at hp
          rw [← hp] at hc
          exact (List.nodup_cons.mp (List.perm_middle.nodup_iff.mp hndc)).1 hc
        · rintro ⟨hm,hne⟩
          rw [hsplit] at hm
          rcases List.mem_cons.mp (List.perm_middle.mem_iff.mp hm) with rfl | hm
          · exact absurd hdata hne
          · exact hm
      have hrec : t.recent cells = cs.map t.lru.dataOf ++ v :: ds.map t.lru.dataOf := by
        rw [recent, hsplit, List.map_append, List.map_cons, hdata]
      have hnotv : v ∉ cs.map t.lru.dataOf := by
        intro hm
        obtain ⟨c,hc,he⟩ := List.mem_map.mp hm
        exact ((hcells c).mp (List.mem_append_left _ hc)).2 he
      refine Or.inr ⟨rfl,v,cs ++ ds,(h.exactlyFind_some hname hs).mpr ⟨hv,hn⟩,hv,hrem,?_,?_⟩
      · exact h.removed hrem hvalid hvo hno hcount (hlru ▸ hrep) (hlru ▸ hdataOf) hcells
      · rw [hrec, List.erase_append_right _ hnotv, List.erase_cons_head, recent, hlru, hdataOf, List.map_append]

/-- An eviction takes the last node of the LRU list, which leaves the tree as well if
its name is not too long. -/
theorem nameTreeEvict_cases (h : t.Wf cells) :
    (cells = [] ∧ nameTreeEvict t = some (t,false)) ∨
      ∃ cs c t', cells = cs ++ [c] ∧ nameTreeEvict t = some (t',true) ∧ t'.Wf cs ∧
        t.lru.dataOf c ∈ t.values ∧ t.recent cells = t'.recent cs ++ [t.lru.dataOf c] ∧
        (((t.mem (t.lru.dataOf c)).Fits ∧ Removed t t' (t.lru.dataOf c)) ∨
          (¬(t.mem (t.lru.dataOf c)).Fits ∧ t' = { t with lru := t'.lru })) := by
  rcases cells.eq_nil_or_concat with rfl | ⟨cs,c,rfl⟩
  · refine Or.inl ⟨rfl,?_⟩
    rw [nameTreeEvict, lruListRemoveTail_nil h.lru.chain]
    rfl
  · rw [List.concat_eq_append] at h ⊢
    obtain ⟨lru,hrun,hrep,hdataOf⟩ := lruListRemoveTail_spec h.lru
    obtain ⟨hv,hptr⟩ := h.linked c (by simp)
    have hv0 : t.lru.dataOf c ≠ 0 := h.values_out.nonnull _ (List.mem_append_left _ hv)
    have hcells : ∀ c', c' ∈ cs ↔ c' ∈ cs ++ [c] ∧ t.lru.dataOf c' ≠ t.lru.dataOf c := by
      intro c'
      have hnd := h.lru.nodup
      constructor
      · intro hc'
        refine ⟨List.mem_append_left _ hc',fun he => ?_⟩
        have hp := (h.linked c' (List.mem_append_left _ hc')).2
        rw [he, hptr] at hp
        exact (List.nodup_append.mp hnd).2.2 c' hc' c (by simp) hp.symm
      · rintro ⟨hc',hne⟩
        rcases List.mem_append.mp hc' with hc' | hc'
        · exact hc'
        · exact absurd (congrArg t.lru.dataOf (List.mem_singleton.mp hc')) hne
    have hrec : t.recent (cs ++ [c]) = cs.map t.lru.dataOf ++ [t.lru.dataOf c] := by simp [recent]
    refine Or.inr ⟨cs,c,?_⟩
    by_cases hf : (t.mem (t.lru.dataOf c)).Fits
    · have hname := (t.mem (t.lru.dataOf c)).strlen_lt_iff.mpr hf
      have hd : dotted (t.mem (t.lru.dataOf c)).name = some (t.mem (t.lru.dataOf c)).name := by
        rcases h.settled _ hv with hs | hs
        · exact hs.2
        · exact absurd hf hs.1
      obtain ⟨t',hdel,hrem,hvalid,hvo,hno,hcount,hlru⟩ := nameTreeDelete_found h none hname hd hv rfl
        (show some lru = some lru from rfl)
      refine ⟨t',rfl,?_,?_,hv,?_,Or.inl ⟨hf,hrem⟩⟩
      · simp only [nameTreeEvict, hrun, if_neg hv0, hdel, Option.map_some]
      · exact h.removed hrem hvalid hvo hno hcount (hlru ▸ hrep) (hlru ▸ hdataOf) hcells
      · rw [hrec, recent, hlru, hdataOf]
    · have hname : maxNameLen ≤ (t.mem (t.lru.dataOf c)).name.strlen := by
        by_contra hlt
        exact hf ((t.mem (t.lru.dataOf c)).strlen_lt_iff.mp (by omega))
      refine ⟨{ t with lru := lru },rfl,?_,?_,hv,?_,Or.inr ⟨hf,rfl⟩⟩
      · simp [nameTreeEvict, hrun, hv0, nameTreeDelete, hname]
      · refine ⟨h.valid,h.sorted,h.settled,h.values_out,h.nodes_out,hrep,?_,?_,h.count_eq⟩
        · intro c' hc'
          have hl := h.linked c' ((hcells c').mp hc').1
          rw [← hdataOf] at hl
          exact hl
        · intro a ha hfa
          obtain ⟨hm,hd⟩ := h.listed a ha hfa
          refine ⟨(hcells _).mpr ⟨hm,fun he => ?_⟩,hdataOf.symm ▸ hd⟩
          rw [hd] at he
          exact hf (he ▸ hfa)
      · rw [hrec]
        simp only [recent, hdataOf]

end Remove

end NameTree

end LogStats
