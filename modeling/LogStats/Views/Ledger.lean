import LogStats.Views.Drift

/-! # The view tree as a ledger

Seen from outside, the views are a map from names to the counters and rates of their
records. A lookup finds the record of a name, an insertion adds one, and a recycling
forgets some.
-/
namespace LogStats

structure Counters where
  qps : ℚ
  successRate : ℚ
  count : UInt32
  lastCount : UInt32
  rcode : Fin 7 → UInt32
  rtype : Fin 12 → UInt32

namespace Counters

def zero : Counters := ⟨0,1,0,0,fun _ => 0,fun _ => 0⟩

/-- One more record. -/
def log (c : Counters) (rcode : Fin 7) (rtype : Fin 12) : Counters :=
  { c with rcode := Function.update c.rcode rcode (c.rcode rcode + 1),
           rtype := Function.update c.rtype rtype (c.rtype rtype + 1) }

end Counters

def ViewStats.counters (vs : ViewStats) : Counters :=
  ⟨vs.qps,vs.successRate,vs.count,vs.lastCount,vs.rcode,vs.rtype⟩

theorem ViewStats.Fresh.counters_eq {vs : ViewStats} (h : vs.Fresh) : vs.counters = Counters.zero := by
  simp only [ViewStats.counters, h.qps, h.successRate, h.count, h.lastCount, Counters.zero, funext h.rcode,
    funext h.rtype]

abbrev Ledger := CString → Option Counters

namespace Ledger

def empty : Ledger := fun _ => none

/-- A record for a name that may not have one yet. -/
def log (l : Ledger) (name : CString) (rcode : Fin 7) (rtype : Fin 12) : Ledger :=
  Function.update l name (some (((l name).getD .zero).log rcode rtype))

/-- The names of `l'` have in it what they have in `l`. -/
def Forgets (l l' : Ledger) : Prop := ∀ name, l' name = l name ∨ l' name = none

theorem Forgets.refl (l : Ledger) : l.Forgets l := fun _ => Or.inl rfl

theorem Forgets.of_some {l l' : Ledger} (h : l.Forgets l') {name : CString} {c : Counters} (hc : l' name = some c) :
    l name = some c := by
  rcases h name with he | he
  · rw [← he, hc]
  · rw [he] at hc
    cases hc

theorem log_self (l : Ledger) (name : CString) (rcode : Fin 7) (rtype : Fin 12) :
    l.log name rcode rtype name = some (((l name).getD .zero).log rcode rtype) := Function.update_self _ _ _

theorem log_other (l : Ledger) {name other : CString} (h : other ≠ name) (rcode : Fin 7) (rtype : Fin 12) :
    l.log name rcode rtype other = l other := Function.update_of_ne h _ _

end Ledger

namespace ViewTree

/-- The record of the view of this name. -/
def record (t : ViewTree) (name : CString) : Option ViewStats :=
  (t.rbtree.elems.find? fun a => (t.nodes a).name = name).bind fun a => t.stats (t.nodes a).vs

def ledger (t : ViewTree) : Ledger := fun name => (t.record name).map ViewStats.counters

section Facts
variable {t t' : ViewTree} {cells kept : List ℕ} {name : CString}

theorem record_none (h : ∀ a ∈ t.rbtree.elems, (t.nodes a).name ≠ name) : t.record name = none := by
  have hfind : (t.rbtree.elems.find? fun a => (t.nodes a).name = name) = none := by
    rw [List.find?_eq_none]
    exact fun a ha he => h a ha (by simpa using he)
  rw [record, hfind, Option.bind_none]

theorem Wf.record_of_mem (h : t.Wf cells) {a : ℕ} (ha : a ∈ t.rbtree.elems) :
    t.record (t.nodes a).name = t.stats (t.nodes a).vs := by
  unfold record
  cases hfind : t.rbtree.elems.find? fun b => (t.nodes b).name = (t.nodes a).name with
  | none =>
    have hne := List.find?_eq_none.mp hfind a ha
    simp at hne
  | some b =>
    have hname : (t.nodes b).name = (t.nodes a).name := by simpa using List.find?_some hfind
    rw [h.name_inj (List.mem_of_find?_eq_some hfind) ha hname, Option.bind_some]

theorem Wf.ledger_of_mem (h : t.Wf cells) {a : ℕ} (ha : a ∈ t.rbtree.elems) :
    t.ledger (t.nodes a).name = (t.stats (t.nodes a).vs).map ViewStats.counters := by
  rw [ledger, h.record_of_mem ha]

theorem ledger_none (h : ∀ a ∈ t.rbtree.elems, (t.nodes a).name ≠ name) : t.ledger name = none := by
  rw [ledger, record_none h, Option.map_none]

/-- A name is either that of a node with a record, or not in the tree. -/
theorem Wf.name_cases (h : t.Wf cells) (name : CString) :
    (∃ a ∈ t.rbtree.elems, (t.nodes a).name = name ∧ ∃ vs, vs.Sound ∧ t.stats (t.nodes a).vs = some vs ∧
        t.record name = some vs ∧ t.ledger name = some vs.counters) ∨
      ((∀ a ∈ t.rbtree.elems, (t.nodes a).name ≠ name) ∧ t.record name = none ∧ t.ledger name = none) := by
  by_cases hin : ∃ a ∈ t.rbtree.elems, (t.nodes a).name = name
  · obtain ⟨a,ha,rfl⟩ := hin
    obtain ⟨vs,hvs,hsound⟩ := h.live a ha
    refine Or.inl ⟨a,ha,rfl,vs,hsound,hvs,?_,?_⟩
    · rw [h.record_of_mem ha, hvs]
    · rw [h.ledger_of_mem ha, hvs, Option.map_some]
  · push Not at hin
    exact Or.inr ⟨hin,record_none hin,ledger_none hin⟩

theorem ledger_create (memory : ViewTreeMemory) : (viewTreeCreate memory).ledger = Ledger.empty :=
  funext fun _ => ledger_none (by simp [viewTreeCreate])

/-- A new view adds its record to the ledger. -/
theorem Wf.ledger_inserted (h : t.Wf cells) {a : ℕ} {addr ptr : ℕ} {vs : ViewStats} (hwf : t'.Wf kept)
    (hperm : t'.rbtree.elems.Perm (a :: t.rbtree.elems)) (hnode : t'.nodes a = ⟨name,addr,ptr⟩)
    (hold : ∀ b ∈ t.rbtree.elems, t'.nodes b = t.nodes b) (haddr : ∀ b ∈ t.rbtree.elems, (t.nodes b).vs ≠ addr)
    (hstats : t'.stats = Function.update t.stats addr (some vs)) :
    t'.ledger = Function.update t.ledger name (some vs.counters) := by
  have ha : a ∈ t'.rbtree.elems := hperm.mem_iff.mpr List.mem_cons_self
  have hname : t'.ledger name = some vs.counters := by
    have hmem := hwf.ledger_of_mem ha
    rw [hnode, hstats, Function.update_self] at hmem
    exact hmem
  funext other
  by_cases ho : other = name
  · rw [ho, Function.update_self, hname]
  · rw [Function.update_of_ne ho]
    rcases h.name_cases other with ⟨b,hb,rfl,-⟩ | ⟨hnone,-,hl⟩
    · have hmem := hwf.ledger_of_mem (hperm.mem_iff.mpr (List.mem_cons_of_mem a hb))
      rw [hold b hb, hstats, Function.update_of_ne (haddr b hb), ← h.ledger_of_mem hb] at hmem
      exact hmem
    · rw [hl]
      apply ledger_none
      intro b hb
      rcases List.mem_cons.mp (hperm.mem_iff.mp hb) with rfl | hb
      · rw [hnode]
        exact fun he => ho he.symm
      · rw [hold b hb]
        exact hnone b hb

/-- Writing the record of a view changes its entry and no other. -/
theorem Wf.ledger_recorded (h : t.Wf cells) {a : ℕ} (ha : a ∈ t.rbtree.elems) {vs : ViewStats} (hvs : vs.Sound) :
    ViewTree.ledger { t with stats := Function.update t.stats (t.nodes a).vs (some vs) } =
      Function.update t.ledger (t.nodes a).name (some vs.counters) := by
  have hwf := h.recorded_one (t.nodes a).vs hvs
  funext other
  by_cases ho : other = (t.nodes a).name
  · subst ho
    rw [Function.update_self]
    exact (hwf.ledger_of_mem ha).trans (congrArg _ (Function.update_self _ _ _))
  · rw [Function.update_of_ne ho]
    rcases h.name_cases other with ⟨b,hb,rfl,-⟩ | ⟨hnone,-,hl⟩
    · have hne : (t.nodes b).vs ≠ (t.nodes a).vs := by
        intro he
        exact ho (by rw [h.own b hb a ha he])
      rw [h.ledger_of_mem hb]
      exact (hwf.ledger_of_mem hb).trans (congrArg _ (Function.update_of_ne hne _ _))
    · rw [hl]
      exact ledger_none hnone

/-- What survives a recycling keeps its counters. -/
theorem Survives.forgets (h : t.Wf cells) (hsur : Survives t t' kept)
    (hsame : ∀ a ∈ t'.rbtree.elems, (t'.stats (t.nodes a).vs).map ViewStats.counters =
      (t.stats (t.nodes a).vs).map ViewStats.counters) : t.ledger.Forgets t'.ledger := by
  intro name
  rcases hsur.wf.name_cases name with ⟨a,ha,rfl,-⟩ | ⟨-,-,hnone⟩
  · left
    rw [hsur.wf.ledger_of_mem ha, hsur.nodes_eq, hsame a ha, h.ledger_of_mem (hsur.elems_sub.subset ha)]
  · exact Or.inr hnone

@[simp] theorem ledger_shift (t : ViewTree) (d : ℤ) : (t.shift d).ledger = t.ledger := rfl

/-- A recycling that returns forgets some of the ledger, whatever the count was. -/
theorem viewTreeSetMemsize_forgets {d : ℤ} {expectSize : UInt64} (h : t.Wf cells)
    (hr : viewTreeSetMemsize (t.shift d) expectSize = some t') :
    ∃ u kept, t' = u.shift d ∧ Survives t u kept ∧ t.ledger.Forgets u.ledger := by
  obtain ⟨u,kept,rfl,hsur,hsame⟩ := viewTreeSetMemsize_shift h hr
  refine ⟨u,kept,rfl,hsur,hsur.forgets h (fun a ha => ?_)⟩
  obtain ⟨vs,nameTree,ipTree,hvs,hvs'⟩ := hsame a ha
  rw [hvs, hvs']
  rfl

end Facts

end ViewTree

end LogStats
