import LogStats.NameTree.HeapIndex

/-! # Heap indices and live entries over whole runs

A node pushed out by `heap_replace_least` keeps the index it had there, so that the
marks are right as long as nothing is pushed out. An entry is a node of the tree as
long as no node is deleted while the heap holds it.
-/
namespace LogStats

open NameTree

namespace NameTree

/-- A node's index is the place where the heap holds it, or -1. -/
def BackPointers (t : NameTree) : Prop :=
  ∀ v ∈ t.values, (∀ i < t.heap.len, t.heapIndexOf v = i ↔ t.heap.heap i = v) ∧
    (t.heapIndexOf v = -1 ↔ v ∉ t.heap.elems)

/-- The comparison of `heap_min_less_than` and that of `heap_replace_least`. -/
def outranks (count least : UInt32) : Prop :=
  (least - count).toInt32.toInt < 0 ∧ 0 < (count - least).toInt32.toInt

instance (count least : UInt32) : Decidable (outranks count least) := inferInstanceAs (Decidable (_ ∧ _))

/-- The count with which a name that is not in the heap competes for a place. -/
def contender (t : NameTree) (name : CString) : Option UInt32 :=
  match nameTreeExactlyFind t name with
  | some (some v) => if t.heapIndexOf v = -1 then some ((t.mem v).count + 1) else none
  | some none => some 1
  | none => none

/-- Inserting the name would push the root out of a full heap. -/
def PushesOut (t : NameTree) (name : CString) : Prop :=
  1000 ≤ t.heap.len ∧ name.strlen < maxNameLen ∧
    ∃ count ∈ t.contender name, outranks count (t.mem (t.heap.heap 0)).count

instance (t : NameTree) (name : CString) : Decidable (t.PushesOut name) :=
  inferInstanceAs (Decidable (_ ∧ _ ∧ ∃ count ∈ t.contender name, outranks count (t.mem (t.heap.heap 0)).count))

/-- The nodes outside of the heap are marked as such. -/
def Marked (t : NameTree) : Prop := ∀ v ∈ t.values, v ∉ t.heap.elems → t.heapIndexOf v = -1

section Step
variable {t t₁ t' : NameTree} {cells : List ℕ} {s : CString} {v : ℕ}

theorem backPointers_of_marked (h : t.HeapInside) (hm : t.Marked) : t.BackPointers := by
  intro v hv
  have hidx : ∀ i < t.heap.len, t.heap.heap i = v → t.heapIndexOf v = i := by
    rintro i hi rfl
    exact h.indexed i hi
  refine ⟨fun i hi => ⟨fun hvi => ?_,hidx i hi⟩,not_mem_heap h.indexed,hm v hv⟩
  by_cases hmem : v ∈ t.heap.elems
  · obtain ⟨k,hk,he⟩ := mem_entries.mp hmem
    have hki := hidx k hk he
    obtain rfl : i = k := by omega
    exact he
  · have hneg := hm v hv hmem
    omega

/-- Without a replacement all entries stay. -/
theorem nameTreeCount_keeps (hv : t.heapIndexOf v = -1 ∨ ∃ i < t.heap.len, t.heapIndexOf v = i)
    (hno : t.heapIndexOf v = -1 → 1000 ≤ t.heap.len → ¬t.Outranks v) {a : ℕ} (ha : a ∈ t.heap.elems) :
    a ∈ (nameTreeCount t v).heap.elems := by
  rcases nameTreeCount_cases t v with ⟨hi,he⟩ | ⟨-,-,he⟩ | ⟨-,-,-,he⟩ | ⟨hi,hroof,hr,he⟩ <;> rw [he]
  · obtain ⟨i,hlt,hvi⟩ := hv.resolve_left hi
    exact (heapAdjustSiftdown_elems _ _ _ (by omega)).mem_iff.mpr ha
  · exact (heapInsert_elems v).2.mem_iff.mpr (List.mem_append_left _ ha)
  · exact ha
  · exact absurd hr (hno hi hroof)

/-- What `PushesOut` says about the state in which the counting starts. -/
theorem Tracks.outranks_iff (ht : Tracks t t₁ s v) (h : t.HeapInside) (hwf : t.Wf cells)
    (hidx : t₁.heapIndexOf v = -1) (hroof : 1000 ≤ t.heap.len) {name : CString} (hname : name.strlen < maxNameLen)
    (hs : dotted name = some s) : t.PushesOut name ↔ t₁.Outranks v := by
  have hroot : t.heap.heap 0 ∈ t.heap.elems := mem_entries.mpr ⟨0,by omega,rfl⟩
  have hrootv := h.live _ hroot
  obtain ⟨h₁,-⟩ := ht.heapInside h
  have hne : t.heap.heap 0 ≠ v := by
    intro he
    exact not_mem_heap h₁.indexed hidx (ht.heap_eq ▸ he ▸ hroot)
  have hcount : ∀ c, (t₁.mem v).count = c →
      (t₁.Outranks v ↔ outranks (c + 1) (t.mem (t.heap.heap 0)).count) := by
    rintro c rfl
    simp only [Outranks, outranks, elemCompare, bump, ht.heap_eq, Function.update_self, Function.update_of_ne hne,
      ht.mem_eq _ hrootv]
  by_cases hv : v ∈ t.values
  · obtain ⟨-,hn,-⟩ := ht.hit hv
    have hfind := (hwf.exactlyFind_some hname hs).mpr ⟨hv,hn⟩
    have hidx' : t.heapIndexOf v = -1 := by rw [heapIndexOf, ← ht.mem_eq v hv]; exact hidx
    rw [hcount _ (congrArg NodeValue.count (ht.mem_eq v hv))]
    simp [PushesOut, contender, hfind, hidx', hroof, hname]
  · obtain ⟨-,hnone,-,hzero,-⟩ := ht.new hv
    have hfind := (hwf.exactlyFind_none hname hs).mpr hnone
    rw [hcount _ hzero]
    simp [PushesOut, contender, hfind, hroof, hname]

/-- The nodes of an insertion that pushes nothing out stay marked. -/
theorem Marked.inserted {malloc : Mallocs} {name : CString} {r : ℤ} (hm : t.Marked) (h : t.HeapInside)
    (hwf : t.Wf cells) (hno : ¬t.PushesOut name) (hr : nameTreeInsert malloc t name = some (t',r)) :
    t'.Marked ∧ ∀ a ∈ t.heap.elems, a ∈ t'.heap.elems := by
  rcases nameTreeInsert_cases hwf hr with ⟨-,href,-⟩ | ⟨-,hname,s,v,t₁,cells',hs,ht,rfl,-⟩
  · refine ⟨?_,fun a ha => href.heap_eq ▸ ha⟩
    intro v hv hnot
    rw [href.values_eq] at hv
    rw [heapIndexOf, href.mem_eq v hv]
    exact hm v hv (href.heap_eq ▸ hnot)
  · obtain ⟨h₁,hv⟩ := ht.heapInside h
    have hin := h₁.inside v hv
    have hstay : ∀ a ∈ t₁.heap.elems, a ∈ (nameTreeCount t₁ v).heap.elems := by
      intro a ha
      refine nameTreeCount_keeps hin (fun hidx hroof => ?_) ha
      rw [ht.heap_eq] at hroof
      exact fun hout => hno ((ht.outranks_iff h hwf hidx hroof hname hs).mpr hout)
    refine ⟨?_,fun a ha => hstay a (ht.heap_eq.symm ▸ ha)⟩
    intro a ha hnot
    rw [(nameTreeCount_counted t₁ v).values_eq] at ha
    rw [nameTreeCount_heapIndex hin hnot]
    have hold : a ∉ t₁.heap.elems := fun hmem => hnot (hstay a hmem)
    by_cases hat : a ∈ t.values
    · rw [heapIndexOf, ht.mem_eq a hat]
      exact hm a hat (ht.heap_eq ▸ hold)
    · by_cases hvt : v ∈ t.values
      · rw [values, (ht.hit hvt).1] at ha
        exact absurd ha hat
      · obtain ⟨hperm,-,hidx,-⟩ := ht.new hvt
        rcases List.mem_cons.mp (hperm.mem_iff.mp ha) with rfl | hmem
        · exact hidx
        · exact absurd hmem hat

/-- An insertion that does push the root out leaves its mark wrong. -/
theorem not_backPointers_of_pushesOut {malloc : Mallocs} {name : CString} (h : t.HeapInside)
    (hwf : t.Wf cells) (hp : t.PushesOut name) (hr : nameTreeInsert malloc t name = some (t',0)) :
    ¬t'.BackPointers := by
  rcases nameTreeInsert_cases hwf hr with ⟨h0,-⟩ | ⟨-,hname,s,v,t₁,cells',hs,ht,rfl,-⟩
  · omega
  have hroof := hp.1
  obtain ⟨h₁,hv⟩ := ht.heapInside h
  have hidx : t₁.heapIndexOf v = -1 := by
    by_cases hvt : v ∈ t.values
    · obtain ⟨-,hn,-⟩ := ht.hit hvt
      obtain ⟨-,-,count,hcount,-⟩ := hp
      simp only [contender, (hwf.exactlyFind_some hname hs).mpr ⟨hvt,hn⟩, Option.mem_ite_none_right] at hcount
      rw [heapIndexOf, ht.mem_eq v hvt]
      exact hcount.1
    · exact (ht.new hvt).2.2.1
  have hout := (ht.outranks_iff h hwf hidx hroof hname hs).mp hp
  have hroot : t₁.heap.heap 0 ∈ t₁.heap.elems := mem_entries.mpr ⟨0,by rw [ht.heap_eq]; omega,rfl⟩
  have hvnot := not_mem_heap h₁.indexed hidx
  have hgone : t₁.heap.heap 0 ∉ (nameTreeCount t₁ v).heap.elems := by
    rcases nameTreeCount_cases t₁ v with ⟨hi,-⟩ | ⟨-,hlt,-⟩ | ⟨-,-,hno,-⟩ | ⟨-,-,-,he⟩
    · exact absurd hidx hi
    · rw [ht.heap_eq] at hlt
      omega
    · exact absurd hout hno
    · rw [he]
      intro hmem
      obtain ⟨k,hk,hke⟩ := mem_entries.mp ((heapReplaceLeast_elems hout.2 (by rw [ht.heap_eq]; omega)).mem_iff.mp hmem)
      by_cases h0 : k = 0
      · subst h0
        rw [Function.update_self] at hke
        exact hvnot (hke ▸ hroot)
      · rw [Function.update_of_ne h0] at hke
        exact h0 (entries_nodup_iff.mp h₁.indexed.nodup k hk 0 (by omega) hke)
  intro hback
  have hrootv := h₁.live _ hroot
  have hvals := (nameTreeCount_counted t₁ v).values_eq
  have hneg := ((hback _ (hvals.symm ▸ hrootv)).2).mpr hgone
  rw [nameTreeCount_heapIndex (h₁.inside v hv) hgone] at hneg
  exact not_mem_heap h₁.indexed hneg hroot

/-- A name that comes when the heap is full of names counted once stays outside, and
pushes the root out when it comes again. -/
theorem pushesOut_again {malloc : Mallocs} {name : CString} (h : t.HeapInside) (hwf : t.Wf cells)
    (hroof : 1000 ≤ t.heap.len) (hlen : s.strlen < maxNameLen) (hs : dotted name = some s)
    (hnew : nameTreeExactlyFind t name = some none) (hone : (t.mem (t.heap.heap 0)).count = 1)
    (hr : nameTreeInsert malloc t name = some (t',0)) : ¬t.PushesOut name ∧ t'.PushesOut name := by
  rcases nameTreeInsert_cases hwf hr with ⟨h0,-⟩ | ⟨-,hname,s',v,t₁,cells',hs',ht,rfl,hwf',-⟩
  · omega
  obtain rfl : s = s' := Option.some_inj.mp (hs.symm.trans hs')
  have hnone := (hwf.exactlyFind_none hname hs).mp hnew
  have hvt : v ∉ t.values := fun hv => hnone v hv (ht.hit hv).2.1
  obtain ⟨hperm,-,hidx,hzero,hfit⟩ := ht.new hvt
  have hno : ¬t.PushesOut name := by
    simp only [PushesOut, contender, hnew, hone, Option.mem_def, Option.some.injEq, exists_eq_left']
    exact fun hp => absurd hp.2.2 (by decide)
  have hkeep : nameTreeCount t₁ v = { t₁ with mem := t₁.bump v } := by
    rcases nameTreeCount_cases t₁ v with ⟨hi,-⟩ | ⟨-,hlt,-⟩ | ⟨-,-,-,he⟩ | ⟨-,-,hout,-⟩
    · exact absurd hidx hi
    · rw [ht.heap_eq] at hlt
      omega
    · exact he
    · exact absurd ((ht.outranks_iff h hwf hidx hroof hname hs).mpr hout) hno
  obtain ⟨-,hf,hn⟩ := hfit.resolve_right (fun hover => hlen.ne hover.1)
  have hc := nameTreeCount_counted t₁ v
  have hv' : v ∈ (nameTreeCount t₁ v).values := by
    rw [hc.values_eq]
    exact hperm.mem_iff.mpr List.mem_cons_self
  have hfind := (hwf'.exactlyFind_some hname hs).mpr ⟨hv',(hc.nameOf_of_fits hf).trans hn⟩
  have hroot := h.live _ (mem_entries.mpr ⟨0,by omega,rfl⟩)
  have hne : t.heap.heap 0 ≠ v := fun he => hvt (he ▸ hroot)
  have hrootcount : ((nameTreeCount t₁ v).mem ((nameTreeCount t₁ v).heap.heap 0)).count = 1 := by
    rw [hkeep]
    simp only [ht.heap_eq, bump, Function.update_of_ne hne, ht.mem_eq _ hroot, hone]
  have hcount : ((nameTreeCount t₁ v).mem v).count = 1 := by
    rw [hc.counts, if_pos rfl, hzero]
    rfl
  have hidx' : (nameTreeCount t₁ v).heapIndexOf v = -1 := by
    rw [hkeep]
    simpa [heapIndexOf, bump] using hidx
  refine ⟨hno,?_,hname,2,?_,?_⟩
  · rw [hkeep, ht.heap_eq]
    exact hroof
  · simp only [contender, hfind, hidx', if_true, hcount]
    rfl
  · rw [hrootcount]
    decide

end Step

end NameTree

/-! ## Runs of insertions -/

theorem insertStep_tree {s s' : Logged} {call : Insertion} (h : insertStep s call = some s') :
    ∃ r, nameTreeInsert call.malloc s.tree call.name = some (s'.tree,r) := by
  obtain ⟨⟨tree,r⟩,hr,rfl⟩ := Option.map_eq_some_iff.mp h
  exact ⟨r,hr⟩

theorem insertRun_inside {memory : NameTreeMemory} {calls : List Insertion} {s : Logged}
    (h : insertRun memory calls = some s) : s.tree.HeapInside ∧ s.tree.Filled := by
  obtain ⟨t,ht,hrun⟩ := Option.bind_eq_some_iff.mp h
  obtain ⟨cells,hwf,hin,hfill,-⟩ := create_heapInside ht
  have hall : (∃ cells, s.tree.Wf cells) ∧ s.tree.HeapInside ∧ s.tree.Filled := by
    refine run_induction (P := fun _ s => (∃ cells, s.tree.Wf cells) ∧ s.tree.HeapInside ∧ s.tree.Filled)
      ⟨⟨cells,hwf⟩,hin,hfill⟩ ?_ Along.true hrun
    rintro js s call s' ⟨⟨cells,hwf⟩,hin,hfill⟩ - hs
    obtain ⟨r,hr⟩ := insertStep_tree hs
    exact ⟨nameTreeInsert_wf hwf hr,hin.inserted hwf hr,hfill.inserted hin hwf hr⟩
  exact hall.2

/-- Invariant of the insertions that push nothing out. -/
structure Logged.Indexed (s : Logged) : Prop where
  wf : ∃ cells, s.tree.Wf cells
  inside : s.tree.HeapInside
  marked : s.tree.Marked

theorem Logged.Indexed.step {s s' : Logged} {call : Insertion} (h : s.Indexed)
    (hno : ¬s.tree.PushesOut call.name) (hs : insertStep s call = some s') : s'.Indexed := by
  obtain ⟨cells,hwf⟩ := h.wf
  obtain ⟨r,hr⟩ := insertStep_tree hs
  exact ⟨nameTreeInsert_wf hwf hr,h.inside.inserted hwf hr,(h.marked.inserted h.inside hwf hno hr).1⟩

theorem Logged.Indexed.create {memory : NameTreeMemory} {t : NameTree} (h : nameTreeCreate memory = some t) :
    Logged.Indexed ⟨t,[]⟩ := by
  obtain ⟨cells,hwf,hin,-,hv⟩ := create_heapInside h
  refine ⟨⟨cells,hwf⟩,hin,fun v hmem => ?_⟩
  change v ∈ t.values at hmem
  simp [hv] at hmem

/-- As long as no insertion pushes a node out of the heap, every node knows its place. -/
theorem back_pointers_kept (memory : NameTreeMemory) (calls : List Insertion) (t : NameTree)
    (ht : nameTreeCreate memory = some t)
    (hok : Along insertStep (fun s call => ¬s.tree.PushesOut call.name) ⟨t,[]⟩ calls) :
    Always insertStep (fun s => s.tree.BackPointers) ⟨t,[]⟩ calls := by
  intro js hjs s hs
  have hinv : s.Indexed := run_induction (P := fun _ => Logged.Indexed) (Logged.Indexed.create ht)
    (fun _ _ _ _ h hno hstep => h.step hno hstep) (hok.take hjs) hs
  exact backPointers_of_marked hinv.inside hinv.marked

theorem back_pointers_kept_small : ∃ t, nameTreeCreate staleMemory = some t ∧
    Always insertStep (fun s => s.tree.BackPointers) ⟨t,[]⟩ (insertAll [letters 1,letters 2,letters 2]) := by
  obtain ⟨t,ht,-⟩ := nameTreeCreate_wf staleMemory
  have hok : ∀ t ∈ nameTreeCreate staleMemory, Along insertStep (fun s call => ¬s.tree.PushesOut call.name)
      ⟨t,[]⟩ (insertAll [letters 1,letters 2,letters 2]) := by decide +kernel
  exact ⟨t,ht,back_pointers_kept staleMemory _ t ht (hok t ht)⟩

def letter (k : ℕ) : UInt8 := UInt8.ofNat (97 + k % 40)

theorem letter_spec (k : ℕ) : (0 : UInt8) ≠ letter k ∧ letter k ≠ 46 := by
  have h : ∀ r < 40, (0 : UInt8) ≠ UInt8.ofNat (97 + r) ∧ UInt8.ofNat (97 + r) ≠ 46 := by decide
  exact h _ (Nat.mod_lt _ (by omega))

theorem letter_inj {k l : ℕ} (h : letter k = letter l) : k % 40 = l % 40 := by
  have hinj : ∀ r < 40, ∀ q < 40, UInt8.ofNat (97 + r) = UInt8.ofNat (97 + q) → r = q := by decide
  exact hinj _ (Nat.mod_lt _ (by omega)) _ (Nat.mod_lt _ (by omega)) h

/-- Names of two bytes, different for different numbers. -/
def pairName (i : ℕ) : CString where
  bytes := [letter (i / 40),letter i]
  nulFree := by simp [(letter_spec (i / 40)).1, (letter_spec i).1]

theorem pairName_strlen (i : ℕ) : (pairName i).strlen = 2 := rfl

theorem dotted_pairName (i : ℕ) : dotted (pairName i) = some (pairName i ++ dot) := by
  simp [dotted, nameEndWithDot, pairName, (letter_spec i).2]

theorem pairName_inj {i j : ℕ} (hi : i < 1600) (hj : j < 1600) (h : pairName i ++ dot = pairName j ++ dot) :
    i = j := by
  have hb := congrArg CString.bytes (CString.append_right_cancel h)
  simp only [pairName, List.cons.injEq, and_true] at hb
  have hdiv := letter_inj hb.1
  have hmod := letter_inj hb.2
  omega

/-- A thousand different names fill the heap, each counted once. -/
theorem thousand_names : ∃ s, insertRun staleMemory (insertAll ((List.range 1000).map pairName)) = some s ∧
    1000 ≤ s.tree.heap.len ∧ nameTreeExactlyFind s.tree (pairName 1000) = some none ∧
    (s.tree.mem (s.tree.heap.heap 0)).count = 1 ∧
    s.tree.nodePool.Tripled ∧ s.tree.namePool.Tripled ∧ s.tree.values.length = 1000 := by
  obtain ⟨s,hrun,hlog,hnode,hname,-⟩ := insertAll_some staleMemory ((List.range 1000).map pairName)
    (by simp [poolLimit]) (by simp [pairName_strlen, maxNameLen])
  have hnames : ((List.range 1000).map pairName).filterMap dotted =
      (List.range 1000).map (fun i => pairName i ++ dot) := by
    rw [List.filterMap_map, show dotted ∘ pairName = fun i => some (pairName i ++ dot) from funext dotted_pairName,
      ← List.filterMap_eq_map]
    rfl
  rw [hnames] at hlog
  have hmem : ∀ u, u ∈ s.log ↔ ∃ i < 1000, pairName i ++ dot = u := by
    intro u
    simp [hlog]
  have hnd : s.log.Nodup := by
    rw [hlog, List.nodup_reverse, List.nodup_map_iff_inj_on List.nodup_range]
    intro i hi j hj he
    exact pairName_inj ((List.mem_range.mp hi).trans (by omega)) ((List.mem_range.mp hj).trans (by omega)) he
  have hlen : s.log.length = 1000 := by simp [hlog]
  have hfit : ∀ u ∈ s.log, u.strlen < maxNameLen := by
    intro u hu
    obtain ⟨i,-,rfl⟩ := (hmem u).mp hu
    exact (by decide : 2 + 1 < maxNameLen)
  have hinv := insertRun_inv hrun
  obtain ⟨cells,hwf⟩ := hinv.wf
  have hvalues : s.tree.values.length = 1000 := by
    have hperm := (hinv.tallied.names_perm hwf hfit).length_eq
    rwa [List.length_map, hnd.dedup, hlen] at hperm
  obtain ⟨hin,hfill⟩ := insertRun_inside hrun
  have hheap := hfill.len_eq hin hwf
  have hthousand : 1000 ≤ s.tree.heap.len := by omega
  refine ⟨s,hrun,hthousand,?_,?_,hnode,hname,hvalues⟩
  · apply (hwf.exactlyFind_none (by decide) (dotted_pairName 1000)).mpr
    intro v hv he
    have hf := hwf.fits_of_name hv (he ▸ (by decide : 2 + 1 ≤ maxNameLen))
    obtain ⟨i,hi,hie⟩ := (hmem _).mp (hinv.tallied.counts v hv hf).1
    have h1000 := pairName_inj (hi.trans (by omega)) (by omega) (hie.trans he)
    omega
  · have hroot := hin.live _ (mem_entries.mpr ⟨0,by omega,rfl⟩)
    have hf : (s.tree.mem (s.tree.heap.heap 0)).Fits := by
      by_contra hnf
      obtain ⟨u,hu,hul⟩ := hinv.tallied.overlong ⟨_,hroot,hnf⟩
      exact (hfit u hu).ne hul
    obtain ⟨hlog,hcount⟩ := hinv.tallied.counts _ hroot hf
    rw [hcount, List.count_eq_one_of_mem hnd hlog]
    rfl

/-- The thousand names and twice another: the node that is pushed out is not marked. -/
theorem back_pointers_fail : ∃ s,
    insertRun staleMemory (insertAll ((List.range 1000).map pairName ++ [pairName 1000,pairName 1000])) = some s ∧
      ¬s.tree.BackPointers := by
  obtain ⟨s₀,hrun₀,hroof,hnew,hone,hnode₀,hname₀,hlen₀⟩ := thousand_names
  let call : Insertion := ⟨Mallocs.succeed,pairName 1000⟩
  have hshort : (pairName 1000).strlen < maxNameLen ∧ (pairName 1000).strlen ≠ 0 := by decide
  obtain ⟨cells₀,hwf₀⟩ := (insertRun_inv hrun₀).wf
  obtain ⟨t₁,ht₁,hnode₁,hname₁⟩ := nameTreeInsert_some hwf₀ hnode₀ hname₀ (by simp [hlen₀, poolLimit])
    hshort.1 hshort.2
  have hstep₁ : insertStep s₀ call = some ⟨t₁,(dotted (pairName 1000)).toList ++ s₀.log⟩ := by
    simp [insertStep, call, ht₁]
  have hrun₁ := (insertRun_concat hrun₀ call).trans hstep₁
  obtain ⟨cells₁,hwf₁⟩ := (insertRun_inv hrun₁).wf
  have hlen₁ := insertStep_length ⟨cells₀,hwf₀⟩ hstep₁
  rw [hlen₀] at hlen₁
  obtain ⟨t₂,ht₂,-⟩ := nameTreeInsert_some hwf₁ hnode₁ hname₁
    (hlen₁.trans_lt (show 1001 < poolLimit by simp [poolLimit])) hshort.1 hshort.2
  have hstep₂ : insertStep ⟨t₁,(dotted (pairName 1000)).toList ++ s₀.log⟩ call =
      some ⟨t₂,(dotted (pairName 1000)).toList ++ ((dotted (pairName 1000)).toList ++ s₀.log)⟩ := by
    simp [insertStep, call, ht₂]
  have hrun₂ := (insertRun_concat hrun₁ call).trans hstep₂
  have hcalls : insertAll ((List.range 1000).map pairName ++ [pairName 1000,pairName 1000]) =
      insertAll ((List.range 1000).map pairName) ++ [call] ++ [call] := by simp [insertAll, call]
  obtain ⟨-,hpush⟩ := pushesOut_again (insertRun_inside hrun₀).1 hwf₀ hroof (by decide) (dotted_pairName 1000)
    hnew hone ht₁
  exact ⟨_,(congrArg (insertRun staleMemory) hcalls).trans hrun₂,
    not_backPointers_of_pushesOut (insertRun_inside hrun₁).1 hwf₁ hpush ht₂⟩

end LogStats
