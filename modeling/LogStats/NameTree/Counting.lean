import LogStats.NameTree.Insert
import LogStats.Library.Run
import Mathlib.Data.List.Dedup

/-! # Counting the calls of name_tree_insert

A run keeps a log of the dot-terminated names of the calls that returned 0. While
no name in it is longer than the field, the tree answers every look-up with the
number of times the name is in the log. A name of 31 bytes without a dot at its end
becomes one of 32 and is never found again.
-/
namespace LogStats

structure Insertion where
  malloc : Mallocs
  name : CString

structure Logged where
  tree : NameTree
  log : List CString

def insertStep (s : Logged) (call : Insertion) : Option Logged :=
  (nameTreeInsert call.malloc s.tree call.name).map fun (tree,r) =>
    ⟨tree,if r = 0 then (dotted call.name).toList ++ s.log else s.log⟩

/-- `name_tree_create` and a sequence of insertions. -/
def insertRun (memory : NameTreeMemory) (calls : List Insertion) : Option Logged :=
  (nameTreeCreate memory).bind fun t => run insertStep ⟨t,[]⟩ calls

namespace NameTree

/-- A look-up finds a node if and only if its name was inserted, with the right count,
and the tree counts the different names. -/
structure CountsExactly (t : NameTree) (log : List CString) : Prop where
  absent : ∀ n s, n.strlen < maxNameLen → dotted n = some s → s ∉ log →
    nameTreeExactlyFind t n = some none
  present : ∀ n s, n.strlen < maxNameLen → dotted n = some s → s ∈ log →
    ∃ v, nameTreeExactlyFind t n = some (some v) ∧ t.countOf v = log.count s
  distinct : t.count.toNat = log.dedup.length

/-- The log explains the tree. -/
structure Tallied (t : NameTree) (log : List CString) : Prop where
  counts : ∀ v ∈ t.values, (t.mem v).Fits → t.nameOf v ∈ log ∧
    (t.mem v).count = UInt32.ofNat (log.count (t.nameOf v))
  tracked : ∀ s ∈ log, s.strlen < maxNameLen → ∃ v ∈ t.values, t.nameOf v = s
  canonical : ∀ s ∈ log, s.strlen ≤ maxNameLen ∧ dotted s = some s
  overlong : (∃ v ∈ t.values, ¬(t.mem v).Fits) → ∃ s ∈ log, s.strlen = maxNameLen

section Step
variable {t t₁ t' : NameTree} {cells : List ℕ} {log : List CString} {s : CString} {v : ℕ}

theorem Tallied.refused (h : Tallied t log) (hr : Refused t t') : Tallied t' log := by
  have hv := hr.values_eq
  constructor
  · intro a ha
    rw [hv] at ha
    rw [nameOf, hr.mem_eq a ha]
    exact h.counts a ha
  · intro s hs hlt
    obtain ⟨a,ha,hn⟩ := h.tracked s hs hlt
    exact ⟨a,hv ▸ ha,by rw [nameOf, hr.mem_eq a ha]; exact hn⟩
  · exact h.canonical
  · rintro ⟨a,ha,hnf⟩
    rw [hv] at ha
    rw [hr.mem_eq a ha] at hnf
    exact h.overlong ⟨a,ha,hnf⟩

/-- Every old node but the counted one keeps its name and its count. -/
theorem Tracks.frame (ht : Tracks t t₁ s v) (hc : Counted t₁ t' v) {a : ℕ} (ha : a ∈ t.values) :
    ((t'.mem a).Fits ↔ (t.mem a).Fits) ∧ ((t.mem a).Fits → t'.nameOf a = t.nameOf a) ∧
      (t'.mem a).count = if a = v then (t.mem a).count + 1 else (t.mem a).count := by
  have hm := ht.mem_eq a ha
  refine ⟨by rw [hc.fits_iff, hm],fun hf => ?_,?_⟩
  · rw [hc.nameOf_of_fits (hm ▸ hf), nameOf, hm, nameOf]
  · rw [hc.counts]
    by_cases hav : a = v
    · subst hav
      rw [if_pos rfl, if_pos rfl, hm]
    · rw [if_neg hav, if_neg hav, hm]

theorem Tracks.values_of_hit (ht : Tracks t t₁ s v) (hc : Counted t₁ t' v) (hv : v ∈ t.values) :
    t'.values = t.values := by
  rw [hc.values_eq, values, (ht.hit hv).1, values]

theorem Tracks.values_of_new (ht : Tracks t t₁ s v) (hc : Counted t₁ t' v) (hv : v ∉ t.values) :
    t'.values.Perm (v :: t.values) := by
  rw [hc.values_eq]
  exact (ht.new hv).1

/-- The count of a node with another name is still that of the log. -/
theorem Tallied.counted_other (h : Tallied t log) (ht : Tracks t t₁ s v) (hc : Counted t₁ t' v) {a : ℕ} (ha : a ∈ t.values)
    (hav : a ≠ v) (hf : (t'.mem a).Fits) (hne : t.nameOf a ≠ s) :
    t'.nameOf a ∈ s :: log ∧ (t'.mem a).count = UInt32.ofNat ((s :: log).count (t'.nameOf a)) := by
  obtain ⟨hfits,hname,hcount⟩ := ht.frame hc ha
  have hf' := hfits.mp hf
  obtain ⟨hm,hold⟩ := h.counts a ha hf'
  rw [hname hf', hcount, if_neg hav, hold, List.count_cons_of_ne hne.symm]
  exact ⟨List.mem_cons_of_mem _ hm,rfl⟩

/-- A node that was there keeps its name. -/
theorem Tallied.tracked_old (h : Tallied t log) (ht : Tracks t t₁ s v) (hc : Counted t₁ t' v) {u : CString} (hu : u ∈ log)
    (hlt : u.strlen < maxNameLen) : ∃ a ∈ t.values, t'.nameOf a = u := by
  obtain ⟨a,ha,hna⟩ := h.tracked u hu hlt
  have hfa := (t.mem a).strlen_lt_iff.mp (by rw [nameOf] at hna; rwa [hna])
  exact ⟨a,ha,((ht.frame hc ha).2.1 hfa).trans hna⟩

theorem Tallied.overlong_old (h : Tallied t log) (ht : Tracks t t₁ s v) (hc : Counted t₁ t' v) {a : ℕ} (ha : a ∈ t.values)
    (hnf : ¬(t'.mem a).Fits) : ∃ u ∈ s :: log, u.strlen = maxNameLen := by
  obtain ⟨u,hu,hlen⟩ := h.overlong ⟨a,ha,fun hfa => hnf ((ht.frame hc ha).1.mpr hfa)⟩
  exact ⟨u,List.mem_cons_of_mem _ hu,hlen⟩

theorem Tallied.canonical_cons (h : Tallied t log) (hs : s.strlen ≤ maxNameLen) (hd : dotted s = some s) :
    ∀ u ∈ s :: log, u.strlen ≤ maxNameLen ∧ dotted u = some u := by
  intro u hu
  rcases List.mem_cons.mp hu with rfl | hu
  · exact ⟨hs,hd⟩
  · exact h.canonical u hu

/-- The node of the name was there. -/
theorem Tallied.counted_hit (h : Tallied t log) (hwf : t.Wf cells) (hs : s.strlen ≤ maxNameLen)
    (hd : dotted s = some s) (ht : Tracks t t₁ s v) (hc : Counted t₁ t' v) (hv : v ∈ t.values) : Tallied t' (s :: log) := by
  have hsucc : ∀ (c : UInt32) (n : ℕ), c = UInt32.ofNat n → c + 1 = UInt32.ofNat (n + 1) := by
    rintro c n rfl
    simp [UInt32.ofNat_add]
  obtain ⟨-,hn,hf⟩ := ht.hit hv
  have hvals := ht.values_of_hit hc hv
  obtain ⟨hfits,hname,hcount⟩ := ht.frame hc hv
  constructor
  · rw [hvals]
    intro a ha hfa
    by_cases hav : a = v
    · subst hav
      rw [hname hf, hn, List.count_cons_self, hcount, if_pos rfl]
      exact ⟨List.mem_cons_self,hsucc _ _ (hn ▸ (h.counts a hv hf).2)⟩
    · refine h.counted_other ht hc ha hav hfa (fun he => hav ?_)
      exact (hwf.name_inj hv ha hf (hn.trans he.symm)).symm
  · rw [hvals]
    intro u hu hlt
    rcases List.mem_cons.mp hu with rfl | hu
    · exact ⟨v,hv,(hname hf).trans hn⟩
    · exact h.tracked_old ht hc hu hlt
  · exact h.canonical_cons hs hd
  · rintro ⟨a,ha,hnf⟩
    exact h.overlong_old ht hc (hvals ▸ ha) hnf

/-- The node of the name is new. -/
theorem Tallied.counted_new (h : Tallied t log) (hs : s.strlen ≤ maxNameLen) (hd : dotted s = some s)
    (ht : Tracks t t₁ s v) (hc : Counted t₁ t' v) (hv : v ∉ t.values) : Tallied t' (s :: log) := by
  obtain ⟨-,hne,-,hzero,hlen⟩ := ht.new hv
  have hvals := ht.values_of_new hc hv
  have hone : (t'.mem v).count = UInt32.ofNat 1 := by rw [hc.counts, if_pos rfl, hzero]; rfl
  constructor
  · intro a ha hfa
    rcases List.mem_cons.mp (hvals.mem_iff.mp ha) with rfl | ha
    · rcases hlen with ⟨hlt,hf₁,hn₁⟩ | ⟨-,hnf⟩
      · have hn : t'.nameOf a = s := (hc.nameOf_of_fits hf₁).trans hn₁
        have hnot : s ∉ log := by
          intro hm
          obtain ⟨b,hb,hnb⟩ := h.tracked s hm hlt
          exact hne b hb hnb
        rw [hn, List.count_cons_self, List.count_eq_zero_of_not_mem hnot]
        exact ⟨List.mem_cons_self,hone⟩
      · exact absurd ((hc.fits_iff a).mp hfa) hnf
    · exact h.counted_other ht hc ha (fun he => hv (he ▸ ha)) hfa (hne a ha)
  · intro u hu hlt
    rcases List.mem_cons.mp hu with rfl | hu
    · rcases hlen with ⟨-,hf₁,hn₁⟩ | ⟨heq,-⟩
      · exact ⟨v,hvals.mem_iff.mpr List.mem_cons_self,(hc.nameOf_of_fits hf₁).trans hn₁⟩
      · omega
    · obtain ⟨a,ha,hna⟩ := h.tracked_old ht hc hu hlt
      exact ⟨a,hvals.mem_iff.mpr (List.mem_cons_of_mem _ ha),hna⟩
  · exact h.canonical_cons hs hd
  · rintro ⟨a,ha,hnf⟩
    rcases List.mem_cons.mp (hvals.mem_iff.mp ha) with rfl | ha
    · rcases hlen with ⟨-,hf₁,-⟩ | ⟨heq,-⟩
      · exact absurd ((hc.fits_iff a).mpr hf₁) hnf
      · exact ⟨s,List.mem_cons_self,heq⟩
    · exact h.overlong_old ht hc ha hnf

theorem Tallied.counted (h : Tallied t log) (hwf : t.Wf cells) (hs : s.strlen ≤ maxNameLen)
    (hd : dotted s = some s) (ht : Tracks t t₁ s v) (hc : Counted t₁ t' v) : Tallied t' (s :: log) := by
  by_cases hv : v ∈ t.values
  · exact h.counted_hit hwf hs hd ht hc hv
  · exact h.counted_new hs hd ht hc hv

end Step

/-! ## What the log says about look-ups -/

section Law
variable {t : NameTree} {cells : List ℕ} {log : List CString}

theorem Tallied.names_perm (h : Tallied t log) (hwf : t.Wf cells) (hfit : ∀ s ∈ log, s.strlen < maxNameLen) :
    (t.values.map t.nameOf).Perm log.dedup := by
  have hfits : ∀ v ∈ t.values, (t.mem v).Fits := by
    intro v hv
    by_contra hnf
    obtain ⟨s,hs,hlen⟩ := h.overlong ⟨v,hv,hnf⟩
    exact (hfit s hs).ne hlen
  refine (List.perm_ext_iff_of_nodup ?_ log.nodup_dedup).mpr (fun s => ?_)
  · exact (List.nodup_map_iff_inj_on hwf.values_nodup).mpr
      (fun a ha b hb he => hwf.name_inj ha hb (hfits a ha) he)
  · rw [List.mem_map, List.mem_dedup]
    constructor
    · rintro ⟨v,hv,rfl⟩
      exact (h.counts v hv (hfits v hv)).1
    · intro hs
      exact h.tracked s hs (hfit s hs)

theorem Tallied.countsExactly (h : Tallied t log) (hwf : t.Wf cells) (hlt : log.length < 2 ^ 32)
    (hfit : ∀ s ∈ log, s.strlen < maxNameLen) : CountsExactly t log := by
  constructor
  · intro n s hn hs hnot
    refine (hwf.exactlyFind_none hn hs).mpr (fun v hv he => hnot ?_)
    have hf := hwf.fits_of_name hv (he ▸ dotted_strlen_le hs hn)
    exact he ▸ (h.counts v hv hf).1
  · intro n s hn hs hmem
    obtain ⟨v,hv,he⟩ := h.tracked s hmem (hfit s hmem)
    refine ⟨v,(hwf.exactlyFind_some hn hs).mpr ⟨hv,he⟩,?_⟩
    have hf := hwf.fits_of_name hv (he ▸ dotted_strlen_le hs hn)
    have hle : log.count s ≤ log.length := List.count_le_length
    rw [countOf, (h.counts v hv hf).2, he, UInt32.toNat_ofNat', Nat.mod_eq_of_lt (by omega)]
  · rw [hwf.count_eq, ← (h.names_perm hwf hfit).length_eq, List.length_map]

/-- A name of 32 bytes came from one of 31, and that one is not found. -/
theorem not_countsExactly (hwf : t.Wf cells) {n s : CString}
    (hn : n.strlen < maxNameLen) (hs : dotted n = some s) (hmem : s ∈ log) (hlen : s.strlen = maxNameLen) :
    ¬CountsExactly t log := by
  intro hlaw
  obtain ⟨v,hfind,-⟩ := hlaw.present n s hn hs hmem
  obtain ⟨hv,he,hf⟩ := hwf.found hn hs hfind
  have hlt := (t.mem v).strlen_lt_iff.mpr hf
  have hname : (t.mem v).name = s := he
  rw [hname] at hlt
  omega

end Law

end NameTree

/-! ## Runs -/

open NameTree

/-- What an insertion keeps: the invariant, the tally, and where the log comes from. -/
structure Logged.Inv (calls : List Insertion) (s : Logged) : Prop where
  wf : ∃ cells, s.tree.Wf cells
  tallied : Tallied s.tree s.log
  source : ∀ u ∈ s.log, ∃ n : CString, n.strlen < maxNameLen ∧ dotted n = some u
  length_le : s.log.length ≤ calls.length

theorem insertStep_inv {calls : List Insertion} {s s' : Logged} {call : Insertion} (h : s.Inv calls)
    (hs : insertStep s call = some s') : s'.Inv (calls ++ [call]) := by
  obtain ⟨cells,hwf⟩ := h.wf
  obtain ⟨⟨tree,r⟩,hr,rfl⟩ := Option.map_eq_some_iff.mp hs
  have hlen := h.length_le
  rcases nameTreeInsert_cases hwf hr with ⟨rfl,href,hwf',-⟩ | ⟨rfl,hname,u,v,t₁,cells',hu,ht,rfl,hwf',-⟩
  · refine ⟨⟨cells,hwf'⟩,h.tallied.refused href,h.source,?_⟩
    simp only [List.length_append, List.length_singleton, Int.reduceNeg, Int.reduceEq, if_false]
    omega
  · refine ⟨⟨cells',hwf'⟩,?_,?_,?_⟩
    · simp only [if_true, hu, Option.toList_some, List.singleton_append]
      exact h.tallied.counted hwf (dotted_strlen_le hu hname) (dotted_dotted hu) ht (nameTreeCount_counted t₁ v)
    · simp only [if_true, hu, Option.toList_some, List.singleton_append]
      intro w hw
      rcases List.mem_cons.mp hw with rfl | hw
      · exact ⟨call.name,hname,hu⟩
      · exact h.source w hw
    · simp only [if_true, hu, Option.toList_some, List.singleton_append, List.length_cons, List.length_append,
        List.length_nil]
      omega

theorem nameTreeCreate_inv {memory : NameTreeMemory} {t : NameTree} (h : nameTreeCreate memory = some t) :
    Logged.Inv [] ⟨t,[]⟩ := by
  obtain ⟨t',ht',hwf,hv,-⟩ := nameTreeCreate_wf memory
  obtain rfl : t' = t := Option.some_inj.mp (ht'.symm.trans h)
  refine ⟨⟨[],hwf⟩,⟨?_,by simp,by simp,?_⟩,by simp,le_rfl⟩
  · simp [hv]
  · simp [hv]

theorem insertRun_inv {memory : NameTreeMemory} {calls : List Insertion} {s : Logged}
    (h : insertRun memory calls = some s) : s.Inv calls := by
  obtain ⟨t,ht,hrun⟩ := Option.bind_eq_some_iff.mp h
  exact run_induction (P := fun js s => s.Inv js) (nameTreeCreate_inv ht)
    (fun _ _ _ _ hinv _ hs => insertStep_inv hinv hs) Along.true hrun

theorem insertRun_concat {memory : NameTreeMemory} {calls : List Insertion} {s : Logged}
    (h : insertRun memory calls = some s) (call : Insertion) :
    insertRun memory (calls ++ [call]) = insertStep s call := by
  obtain ⟨t,ht,hrun⟩ := Option.bind_eq_some_iff.mp h
  simp only [insertRun, ht, Option.bind_some]
  exact run_concat hrun

/-- Memory that malloc did not clear. -/
def staleMemory : NameTreeMemory :=
  ⟨fun _ => ⟨List.replicate 32 7,5,0,0,rfl⟩,fun _ => 0,fun _ => ⟨0,0,0⟩⟩

/-- `n` letters `a`. -/
def letters (n : ℕ) : CString := ⟨List.replicate n 97,fun h => by simpa using List.eq_of_mem_replicate h⟩

def insertAll (names : List CString) : List Insertion := names.map fun name => ⟨Mallocs.succeed,name⟩

theorem insertStep_length {s s' : Logged} {call : Insertion} (hwf : ∃ cells, s.tree.Wf cells)
    (hs : insertStep s call = some s') : s'.tree.values.length ≤ s.tree.values.length + 1 := by
  obtain ⟨cells,hwf⟩ := hwf
  obtain ⟨⟨tree,r⟩,hr,rfl⟩ := Option.map_eq_some_iff.mp hs
  rcases nameTreeInsert_cases hwf hr with ⟨-,href,-⟩ | ⟨-,-,u,v,t₁,cells',-,ht,rfl,-⟩
  · exact href.values_eq ▸ Nat.le_succ _
  · have hc := nameTreeCount_counted t₁ v
    by_cases hv : v ∈ s.tree.values
    · exact (ht.values_of_hit hc hv) ▸ Nat.le_succ _
    · exact ((ht.values_of_new hc hv).length_eq).le

/-- A run of admissible names with memory at hand. -/
theorem insertAll_some (memory : NameTreeMemory) (names : List CString) (hlen : names.length ≤ poolLimit)
    (hnames : ∀ n ∈ names, n.strlen < maxNameLen ∧ n.strlen ≠ 0) :
    ∃ s, insertRun memory (insertAll names) = some s ∧ s.log = (names.filterMap dotted).reverse ∧
      s.tree.nodePool.Tripled ∧ s.tree.namePool.Tripled ∧ s.tree.values.length ≤ names.length := by
  induction names using List.reverseRecOn with
  | nil =>
    obtain ⟨t,ht,-,hv,-,hnode,hname⟩ := nameTreeCreate_wf memory
    exact ⟨⟨t,[]⟩,by simp [insertRun, ht, insertAll],rfl,hnode,hname,by simp [hv]⟩
  | append_singleton names n ih =>
    rw [List.length_append, List.length_singleton] at hlen
    obtain ⟨s,hrun,hlog,hnode,hname,hle⟩ := ih (by omega) (fun m hm => hnames m (List.mem_append_left _ hm))
    obtain ⟨hn,hne⟩ := hnames n (by simp)
    obtain ⟨cells,hwf⟩ := (insertRun_inv hrun).wf
    obtain ⟨t',ht',hnode',hname'⟩ := nameTreeInsert_some hwf hnode hname (by omega) hn hne
    have hstep : insertStep s ⟨Mallocs.succeed,n⟩ = some ⟨t',(dotted n).toList ++ s.log⟩ := by
      simp [insertStep, ht']
    have hle' := insertStep_length ⟨cells,hwf⟩ hstep
    refine ⟨⟨t',(dotted n).toList ++ s.log⟩,?_,?_,hnode',hname',?_⟩
    · have happ : insertAll (names ++ [n]) = insertAll names ++ [⟨Mallocs.succeed,n⟩] := by simp [insertAll]
      rw [happ, insertRun_concat hrun, hstep]
    · cases hd : dotted n <;> simp [hlog, hd]
    · rw [List.length_append, List.length_singleton]
      exact hle'.trans (Nat.succ_le_succ hle)

/-- With memory at hand a run is stopped by nothing but the pools' limit. -/
theorem insertRun_defined (memory : NameTreeMemory) (calls : List Insertion)
    (hcalls : ∀ c ∈ calls, c.malloc = Mallocs.succeed ∧ c.name.strlen ≠ 0) :
    (∃ s, insertRun memory calls = some s ∧ s.tree.nodePool.Tripled ∧ s.tree.namePool.Tripled) ∨
      ∃ pre s, pre <+: calls ∧ insertRun memory pre = some s ∧ poolLimit ≤ s.tree.values.length := by
  induction calls using List.reverseRecOn with
  | nil =>
    obtain ⟨t,ht,-,-,-,hnode,hname⟩ := nameTreeCreate_wf memory
    exact Or.inl ⟨⟨t,[]⟩,by simp [insertRun, ht],hnode,hname⟩
  | append_singleton calls call ih =>
    rcases ih (fun c hc => hcalls c (List.mem_append_left _ hc)) with ⟨s,hrun,hnode,hname⟩ | ⟨pre,s,hpre,hs⟩
    · rcases Nat.lt_or_ge s.tree.values.length poolLimit with hlt | hge
      · obtain ⟨cells,hwf⟩ := (insertRun_inv hrun).wf
        obtain ⟨hm,hne⟩ := hcalls call (by simp)
        rw [insertRun_concat hrun]
        rcases Nat.lt_or_ge call.name.strlen maxNameLen with hlen | hlen
        · obtain ⟨t',ht',hnode',hname'⟩ := nameTreeInsert_some hwf hnode hname hlt hlen hne
          refine Or.inl ⟨⟨t',(dotted call.name).toList ++ s.log⟩,?_,hnode',hname'⟩
          simp [insertStep, hm, ht']
        · refine Or.inl ⟨s,?_,hnode,hname⟩
          simp [insertStep, nameTreeInsert, hlen]
      · exact Or.inr ⟨calls,s,List.prefix_append _ _,hrun,hge⟩
    · exact Or.inr ⟨pre,s,hpre.trans (List.prefix_append _ _),hs⟩

/-- Fewer than 2 ^ 32 calls are counted exactly if and only if none of the names that were
accepted is longer than the field once it ends with a dot; and no allocation that the
pools can still satisfy stops the run. -/
theorem exactly_counted_iff (memory : NameTreeMemory) (calls : List Insertion) (hlt : calls.length < 2 ^ 32) :
    (∀ s, insertRun memory calls = some s →
      (s.tree.CountsExactly s.log ↔ ∀ u ∈ s.log, u.strlen < maxNameLen)) ∧
    ((∀ c ∈ calls, c.malloc = Mallocs.succeed ∧ c.name.strlen ≠ 0) →
      (∃ s, insertRun memory calls = some s) ∨
        ∃ pre s, pre <+: calls ∧ insertRun memory pre = some s ∧ poolLimit ≤ s.tree.count.toNat) := by
  constructor
  · intro s hs
    have hinv := insertRun_inv hs
    obtain ⟨cells,hwf⟩ := hinv.wf
    constructor
    · intro hlaw u hu
      obtain ⟨n,hn,hnu⟩ := hinv.source u hu
      apply lt_of_le_of_ne (hinv.tallied.canonical u hu).1
      intro hlen
      exact NameTree.not_countsExactly hwf hn hnu hu hlen hlaw
    · exact hinv.tallied.countsExactly hwf (hinv.length_le.trans_lt hlt)
  · intro hcalls
    rcases insertRun_defined memory calls hcalls with ⟨s,hs,-⟩ | ⟨pre,s,hpre,hs,hge⟩
    · exact Or.inl ⟨s,hs⟩
    · obtain ⟨cells,hwf⟩ := (insertRun_inv hs).wf
      exact Or.inr ⟨pre,s,hpre,hs,hwf.count_eq ▸ hge⟩

theorem exactly_counted_twice : ∃ s, insertRun staleMemory (insertAll [letters 1,letters 1]) = some s ∧
    s.tree.CountsExactly s.log := by
  obtain ⟨s,hs⟩ := Option.isSome_iff_exists.mp
    (by decide +kernel : (insertRun staleMemory (insertAll [letters 1,letters 1])).isSome = true)
  have hlog : ∀ u ∈ s.log, u.strlen < maxNameLen := by
    have hall : (insertRun staleMemory (insertAll [letters 1,letters 1])).map
        (fun s => s.log.all (fun u => decide (u.strlen < maxNameLen))) = some true := by decide +kernel
    rw [hs] at hall
    simpa using hall
  exact ⟨s,hs,((exactly_counted_iff staleMemory _ (by decide)).1 s hs).mpr hlog⟩

/-- A name of 31 letters is inserted and not found. -/
theorem exactly_counted_fails : ∃ s, insertRun staleMemory (insertAll [letters 31]) = some s ∧
    ¬s.tree.CountsExactly s.log := by
  obtain ⟨s,hs⟩ := Option.isSome_iff_exists.mp
    (by decide +kernel : (insertRun staleMemory (insertAll [letters 31])).isSome = true)
  have hfacts : (insertRun staleMemory (insertAll [letters 31])).map
      (fun s => (nameTreeExactlyFind s.tree (letters 31),s.log)) = some (some none,[letters 31 ++ dot]) := by
    decide +kernel
  rw [hs] at hfacts
  obtain ⟨hfind,hlog⟩ := Prod.mk.inj (Option.some_inj.mp hfacts)
  refine ⟨s,hs,fun hlaw => ?_⟩
  obtain ⟨v,hv,-⟩ := hlaw.present (letters 31) (letters 31 ++ dot) (by decide) (by decide) (by simp [hlog])
  rw [hfind] at hv
  simp at hv

end LogStats
