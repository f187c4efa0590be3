import LogStats.NameTree.Counting

/-! # When a failed insertion leaves the tree as it was

The pools are asked before anything is linked, and an element goes back if the second
pool has none. The LRU node is asked for when the new node is already in the rb-tree, and
`lru_list_insert` has nothing to return when there is no memory for it.
-/
namespace LogStats

namespace NameTree

/-- The node `v` is where a successful call leaves that of the name `s`. -/
structure Holds (t t' : NameTree) (s : CString) (v : ℕ) : Prop where
  mem : v ∈ t'.values
  name_eq : t'.nameOf v = s
  listed : ∃ cells, t'.lru.Represents cells ∧ (t'.mem v).ptr ∈ cells
  data_eq : t'.lru.dataOf (t'.mem v).ptr = v
  count_eq : (t'.mem v).count = if v ∈ t.values then (t.mem v).count + 1 else 1
  total_eq : t'.count.toNat = t'.values.length

/-- What a call returns is a success with the name in the tree, or a failure without effect. -/
def Atomic (t : NameTree) (name : CString) (result : Option (NameTree × ℤ)) : Prop :=
  ∃ t' r, result = some (t',r) ∧
    ((r = 0 ∧ ∃ s v, dotted name = some s ∧ Holds t t' s v) ∨ (r = -1 ∧ Refused t t'))

/-- A node of the tree has this name. -/
def Stored (t : NameTree) (name : CString) : Prop := ∃ v ∈ t.values, dotted name = some (t.nameOf v)

/-- One of the pools has no element left, and what the other gave can go back. -/
def RunsOut (malloc : Mallocs) (t : NameTree) : Prop :=
  t.namePool.Refuses malloc.name ∨ (t.namePool.Gives malloc.name ∧ t.nodePool.Refuses malloc.node)

/-- Everything a new node takes is there. -/
def Affords (malloc : Mallocs) (t : NameTree) : Prop :=
  t.namePool.Gives malloc.name ∧ t.nodePool.Gives malloc.node ∧ malloc.lru = true

/-- The call is over before anything is linked, or links a node with a name that fits its field. -/
def Safe (malloc : Mallocs) (t : NameTree) (name : CString) : Prop :=
  maxNameLen ≤ name.strlen ∨ (name.strlen ≠ 0 ∧ (t.Stored name ∨ RunsOut malloc t ∨
    (Affords malloc t ∧ ∀ s, dotted name = some s → s.strlen < maxNameLen)))

/-! ## Adding a node -/

section Add
variable {t : NameTree} {cells : List ℕ} {name s : CString} {malloc : Mallocs}

theorem RunsOut.add (h : t.Wf cells) (hout : RunsOut malloc t) (name : CString) :
    ∃ t', nameTreeAdd malloc t name = some (t',none) := by
  rcases hout with hname | ⟨hname,hnode⟩
  · obtain ⟨namePool,hnv⟩ := memPoolAlloc_refuses hname
    simp only [nameTreeAdd, hnv, Option.bind_eq_bind, Option.bind_some]
    exact ⟨_,rfl⟩
  · obtain ⟨namePool,nv,hnv⟩ := memPoolAlloc_gives hname
    obtain ⟨nodePool,hnd⟩ := memPoolAlloc_refuses hnode
    have hvo := memPoolAlloc_outstanding h.values_out hnv
    obtain ⟨mp,hfree,-⟩ := memPoolFree_outstanding hvo (show nv ∈ (some nv).toList ++ t.values by simp)
    simp only [nameTreeAdd, hnv, hnd, hfree, Option.bind_eq_bind, Option.bind_some]
    exact ⟨_,rfl⟩

theorem Affords.add (h : t.Wf cells) (hs : dotted name = some s) (hok : Affords malloc t) :
    ∃ t' nv, nameTreeAdd malloc t name = some (t',some nv) := by
  obtain ⟨hname,hnode,hlru⟩ := hok
  obtain ⟨namePool,nv,hnv⟩ := memPoolAlloc_gives hname
  obtain ⟨nodePool,node,hnd⟩ := memPoolAlloc_gives hnode
  have hnv0 : nv ≠ 0 := (memPoolAlloc_outstanding h.values_out hnv).nonnull nv (by simp)
  obtain ⟨lru,hins,-⟩ := lruListInsert_spec h.lru hnv0
  simp only [nameTreeAdd, hnv, hnd, hs, hlru, hins, Option.bind_eq_bind, Option.bind_some]
  exact ⟨_,nv,rfl⟩

/-- Where neither holds a pool's new chunk wraps, or the LRU node is missing. -/
theorem nameTreeAdd_undefined (hout : ¬RunsOut malloc t) (hok : ¬Affords malloc t) : nameTreeAdd malloc t name = none := by
  by_cases hname : t.namePool.Gives malloc.name
  · obtain ⟨namePool,nv,hnv⟩ := memPoolAlloc_gives hname
    by_cases hnode : t.nodePool.Gives malloc.node
    · obtain ⟨nodePool,node,hnd⟩ := memPoolAlloc_gives hnode
      have hlru : malloc.lru = false := by
        rw [← Bool.not_eq_true]
        exact fun hlru => hok ⟨hname,hnode,hlru⟩
      have hins : ∀ l, (lruListInsert malloc.lru l nv).bind (fun p => p.2) = none := by
        intro l
        by_cases h0 : nv = 0
        · simp [lruListInsert, h0]
        · simp [lruListInsert, h0, hlru]
      cases hs : dotted name with
      | none => simp only [nameTreeAdd, hnv, hnd, hs, Option.bind_eq_bind, Option.bind_some, Option.bind_none]
      | some s =>
        have hnone := hins t.lru
        simp only [nameTreeAdd, hnv, hnd, hs, Option.bind_eq_bind, Option.bind_some]
        rcases hl : lruListInsert malloc.lru t.lru nv with _ | ⟨lru,lruNode⟩
        · rfl
        · rw [hl] at hnone
          obtain rfl : lruNode = none := hnone
          rfl
    · have hnd := memPoolAlloc_undefined hnode (fun hr => hout (Or.inr ⟨hname,hr⟩))
      simp only [nameTreeAdd, hnv, hnd, Option.bind_eq_bind, Option.bind_some, Option.bind_none]
  · have hnv := memPoolAlloc_undefined hname (fun hr => hout (Or.inl hr))
    simp only [nameTreeAdd, hnv, Option.bind_eq_bind, Option.bind_none]

end Add

/-! ## The whole call -/

section Call
variable {t t' t₁ : NameTree} {cells : List ℕ} {name s : CString} {malloc : Mallocs} {v : ℕ}

theorem Wf.stored_iff (h : t.Wf cells) (hname : name.strlen < maxNameLen) (hs : dotted name = some s) :
    t.Stored name ↔ ∃ v, nameTreeExactlyFind t name = some (some v) := by
  simp only [h.exactlyFind_some hname hs, Stored, hs, Option.some_inj]
  constructor
  · rintro ⟨v,hv,he⟩
    exact ⟨v,hv,he.symm⟩
  · rintro ⟨v,hv,he⟩
    exact ⟨v,hv,he.symm⟩

/-- A tracked node with a name that fits is in every structure once it is counted. -/
theorem Tracks.holds (ht : Tracks t t₁ s v) (hwf : (nameTreeCount t₁ v).Wf cells) (hs : s.strlen < maxNameLen) :
    Holds t (nameTreeCount t₁ v) s v := by
  have hc := nameTreeCount_counted t₁ v
  have hmem : v ∈ (nameTreeCount t₁ v).values ∧ (t₁.mem v).Fits ∧ t₁.nameOf v = s := by
    by_cases hv : v ∈ t.values
    · obtain ⟨-,hn,hf⟩ := ht.hit hv
      rw [ht.values_of_hit hc hv, nameOf, ht.mem_eq v hv]
      exact ⟨hv,hf,hn⟩
    · obtain ⟨-,-,-,-,hlen⟩ := ht.new hv
      rcases hlen with ⟨-,hf,hn⟩ | ⟨hlen,-⟩
      · exact ⟨(ht.values_of_new hc hv).mem_iff.mpr List.mem_cons_self,hf,hn⟩
      · omega
  obtain ⟨hv',hf₁,hn₁⟩ := hmem
  obtain ⟨hptr,hdata⟩ := hwf.listed v hv' ((hc.fits_iff v).mpr hf₁)
  constructor
  · exact hv'
  · exact (hc.nameOf_of_fits hf₁).trans hn₁
  · exact ⟨cells,hwf.lru,hptr⟩
  · exact hdata
  · rw [hc.counts, if_pos rfl]
    by_cases hv : v ∈ t.values
    · rw [if_pos hv, ht.mem_eq v hv]
    · rw [if_neg hv, (ht.new hv).2.2.2.1]
      rfl
  · exact hwf.count_eq

/-- A name of 32 bytes is not that of its node once the node is counted. -/
theorem holds_iff (h : t.Wf cells) (hd : dotted name = some s) (hr : nameTreeInsert malloc t name = some (t',0)) :
    (∃ v, Holds t t' s v) ↔ s.strlen < maxNameLen := by
  rcases nameTreeInsert_cases h hr with ⟨hno,-⟩ | ⟨-,hname,u,v,t₁,cells',hu,ht,rfl,hwf,-⟩
  · exact absurd hno (by decide)
  · obtain rfl : s = u := Option.some_inj.mp (hd.symm.trans hu)
    constructor
    · rintro ⟨w,hw⟩
      have hf := hwf.fits_of_name hw.mem (hw.name_eq.symm ▸ dotted_strlen_le hd hname)
      exact hw.name_eq ▸ (NodeValue.strlen_lt_iff _).mpr hf
    · intro hs
      exact ⟨v,ht.holds hwf hs⟩

theorem atomic_success (h : t.Wf cells) (hd : dotted name = some s) (hr : nameTreeInsert malloc t name = some (t',0)) :
    Atomic t name (nameTreeInsert malloc t name) ↔ s.strlen < maxNameLen := by
  rw [← holds_iff h hd hr]
  constructor
  · rintro ⟨t₂,r,hr₂,hcase⟩
    obtain ⟨rfl,rfl⟩ := Prod.mk.inj (Option.some_inj.mp (hr.symm.trans hr₂))
    rcases hcase with ⟨-,u,v,hu,hv⟩ | ⟨hno,-⟩
    · obtain rfl : s = u := Option.some_inj.mp (hd.symm.trans hu)
      exact ⟨v,hv⟩
    · exact absurd hno (by decide)
  · rintro ⟨v,hv⟩
    exact ⟨t',0,hr,Or.inl ⟨rfl,s,v,hd,hv⟩⟩

theorem atomic_refusal (h : t.Wf cells) (hr : nameTreeInsert malloc t name = some (t',-1)) :
    Atomic t name (nameTreeInsert malloc t name) := by
  rcases nameTreeInsert_cases h hr with ⟨-,href,-⟩ | ⟨hno,-⟩
  · exact ⟨t',-1,hr,Or.inr ⟨rfl,href⟩⟩
  · exact absurd hno (by decide)

theorem not_atomic_none (hr : nameTreeInsert malloc t name = none) : ¬Atomic t name (nameTreeInsert malloc t name) := by
  rintro ⟨t',r,hr',-⟩
  rw [hr] at hr'
  cases hr'

/-- A call for a name that is not there does what the allocations allow. -/
theorem nameTreeInsert_new (h : t.Wf cells) (hname : name.strlen < maxNameLen) (hd : dotted name = some s)
    (hnew : ¬t.Stored name) (malloc : Mallocs) :
    (RunsOut malloc t → ∃ t', nameTreeInsert malloc t name = some (t',-1)) ∧
      (Affords malloc t → ∃ t', nameTreeInsert malloc t name = some (t',0)) ∧
      (¬RunsOut malloc t → ¬Affords malloc t → nameTreeInsert malloc t name = none) := by
  have hlen : ¬maxNameLen ≤ name.strlen := by omega
  have hfind : nameTreeExactlyFind t name = some none := by
    cases hf : nameTreeExactlyFind t name with
    | none => simp [nameTreeExactlyFind, hlen, hd] at hf
    | some found =>
      cases found with
      | none => rfl
      | some v => exact absurd ((h.stored_iff hname hd).mpr ⟨v,hf⟩) hnew
  refine ⟨?_,?_,?_⟩
  · intro hout
    obtain ⟨t',hadd⟩ := hout.add h name
    exact ⟨t',by simp [nameTreeInsert, hlen, hfind, hadd]⟩
  · intro hok
    obtain ⟨t₁,nv,hadd⟩ := hok.add h hd
    exact ⟨nameTreeCount t₁ nv,by simp [nameTreeInsert, hlen, hfind, hadd]⟩
  · intro hout hok
    simp [nameTreeInsert, hlen, hfind, nameTreeAdd_undefined hout hok]

/-- `name_tree_insert` is atomic if and only if it refuses the name, finds it, or has all
it needs for a node whose name fits: an element from each pool, or none from one of them,
and then memory for the LRU node. -/
theorem nameTreeInsert_atomic_iff (t : NameTree) (cells : List ℕ) (malloc : Mallocs) (name : CString) (h : t.Wf cells) :
    Atomic t name (nameTreeInsert malloc t name) ↔ Safe malloc t name := by
  by_cases hlen : maxNameLen ≤ name.strlen
  · have hrun : nameTreeInsert malloc t name = some (t,-1) := if_pos hlen
    exact iff_of_true ⟨t,-1,hrun,Or.inr ⟨rfl,⟨rfl,rfl,rfl,rfl,fun _ _ => rfl⟩⟩⟩ (Or.inl hlen)
  have hname : name.strlen < maxNameLen := by omega
  cases hd : dotted name with
  | none =>
    have hzero := dotted_eq_none.mp hd
    have hrun : nameTreeInsert malloc t name = none := by simp [nameTreeInsert, nameTreeExactlyFind, hlen, hd]
    apply iff_of_false
    · rintro ⟨t',r,hr,-⟩
      rw [hrun] at hr
      cases hr
    · rintro (hge | ⟨hne,-⟩)
      · exact hlen hge
      · exact hne hzero
  | some s =>
    have hne : name.strlen ≠ 0 := fun hzero => by rw [dotted_eq_none.mpr hzero] at hd; cases hd
    have hfits : (∀ u, some s = some u → u.strlen < maxNameLen) ↔ s.strlen < maxNameLen := by
      constructor
      · intro hall
        exact hall s rfl
      · rintro hs u hu
        exact Option.some_inj.mp hu ▸ hs
    simp only [Safe, hd, hfits]
    by_cases hst : t.Stored name
    · refine iff_of_true ?_ (Or.inr ⟨hne,Or.inl hst⟩)
      obtain ⟨v,hfind⟩ := (h.stored_iff hname hd).mp hst
      obtain ⟨lru,hrun⟩ := nameTreeInsert_found h hname hfind malloc
      obtain ⟨-,hn,hf⟩ := h.found hname hd hfind
      exact (atomic_success h hd hrun).mpr (hn ▸ (NodeValue.strlen_lt_iff _).mpr hf)
    · obtain ⟨hrefuse,hsucceed,hundefined⟩ := nameTreeInsert_new h hname hd hst malloc
      by_cases hout : RunsOut malloc t
      · obtain ⟨t',hrun⟩ := hrefuse hout
        exact iff_of_true (atomic_refusal h hrun) (Or.inr ⟨hne,Or.inr (Or.inl hout)⟩)
      · by_cases hok : Affords malloc t
        · obtain ⟨t',hrun⟩ := hsucceed hok
          simp only [atomic_success h hd hrun, hlen, hne, hst, hout, hok, false_or, ne_eq, not_false_eq_true, true_and]
        · apply iff_of_false (not_atomic_none (hundefined hout hok))
          simp only [hlen, hst, hout, hok, false_or, false_and, and_false, not_false_eq_true]

end Call

/-- Three letters go into a new tree. -/
theorem nameTreeInsert_atomic_new : ∃ t, nameTreeCreate staleMemory = some t ∧
    Atomic t (letters 3) (nameTreeInsert Mallocs.succeed t (letters 3)) := by
  obtain ⟨t,ht,hwf,-⟩ := nameTreeCreate_wf staleMemory
  have hgives : (nameTreeCreate staleMemory).map (fun t => decide (t.namePool.Gives true ∧ t.nodePool.Gives true)) =
      some true := by decide +kernel
  rw [ht, Option.map_some, Option.some_inj, decide_eq_true_eq] at hgives
  have hsafe : Safe Mallocs.succeed t (letters 3) := by
    refine Or.inr ⟨by decide,Or.inr (Or.inr ⟨⟨hgives.1,hgives.2,rfl⟩,?_⟩)⟩
    intro s hs
    obtain rfl : letters 3 ++ dot = s := Option.some_inj.mp ((by decide : dotted (letters 3) = _).symm.trans hs)
    decide
  exact ⟨t,ht,(nameTreeInsert_atomic_iff t [] Mallocs.succeed (letters 3) hwf).mpr hsafe⟩

/-- Without memory for the LRU node the call has no result, and 31 letters go in under another name. -/
theorem nameTreeInsert_not_atomic : ∃ t, nameTreeCreate staleMemory = some t ∧ t.Wf [] ∧
    ¬Atomic t (letters 3) (nameTreeInsert ⟨true,true,false⟩ t (letters 3)) ∧
    ¬Atomic t (letters 31) (nameTreeInsert Mallocs.succeed t (letters 31)) := by
  obtain ⟨t,ht,hwf,-⟩ := nameTreeCreate_wf staleMemory
  have hruns : (nameTreeCreate staleMemory).map (fun t =>
      ((nameTreeInsert ⟨true,true,false⟩ t (letters 3)).isSome,
        (nameTreeInsert Mallocs.succeed t (letters 31)).map Prod.snd)) = some (false,some 0) := by decide +kernel
  rw [ht, Option.map_some, Option.some_inj, Prod.mk.injEq] at hruns
  refine ⟨t,ht,hwf,not_atomic_none (Option.not_isSome_iff_eq_none.mp (by simp [hruns.1])),?_⟩
  obtain ⟨⟨t',r⟩,hrun,hr⟩ := Option.map_eq_some_iff.mp hruns.2
  obtain rfl : r = 0 := hr
  rw [atomic_success hwf (by decide : dotted (letters 31) = some (letters 31 ++ dot)) hrun]
  decide

end NameTree

end LogStats
