import LogStats.Views.Invariant
import LogStats.Library.Run

/-! # Views that are inserted twice

`view_tree_insert` takes NULL from `rbtree_insert` for a name that is there already, but
gets the node that is there. The node in hand is then in the LRU list only, and a search
for its name finds the other one.
-/
namespace LogStats

open ViewTree

/-- The nodes of the list from header to tail. -/
def LruList.entries (l : LruList) : List ℕ := follow l.nextOf 0 l.count.toNat l.header

namespace ViewTree

def HasName (t : ViewTree) (name : CString) : Prop := ∃ a ∈ t.rbtree.elems, (t.nodes a).name = name

instance (t : ViewTree) (name : CString) : Decidable (t.HasName name) :=
  inferInstanceAs (Decidable (∃ a ∈ t.rbtree.elems, (t.nodes a).name = name))

/-- What a call should do: refuse a name that is there, and add a node for any other. -/
def RefusesTwice (t : ViewTree) (cells : List ℕ) (name : CString) (vs : ℕ) : Prop :=
  ∃ t' r, viewTreeInsertResult true t name vs = some (t',r) ∧
    (t.HasName name → r = 1 ∧ t'.rbtree = t.rbtree ∧ t'.lrulist = t.lrulist ∧ t'.count = t.count) ∧
    (¬t.HasName name → r = 0 ∧ Inserted t t' cells name vs)

/-- Every node that the LRU list carries is found under its name. -/
def Reachable (t : ViewTree) : Prop :=
  ∀ c ∈ t.lrulist.entries, viewTreeFind t (t.nodes (t.lrulist.dataOf c)).name = some (some (t.lrulist.dataOf c))

section Facts
variable {t t' : ViewTree} {cells : List ℕ} {name : CString} {vs : ℕ}

theorem entries_eq {l : LruList} {xs : List ℕ} (h : l.Represents xs) : l.entries = xs := by
  rw [LruList.entries, h.header_eq, h.count_eq]
  exact follow_next h.linked h.nonnull le_rfl

theorem Shape.reachable (h : t.Shape cells) : t.Reachable := by
  intro c hc
  rw [entries_eq h.lru] at hc
  have ha := h.dataOf_mem hc
  rw [viewTreeFind, viewTreeKey_short (h.short _ ha), Option.map_some, h.search_of_mem ha]

theorem hasName_iff : ¬t.HasName name ↔ ∀ a ∈ t.rbtree.elems, (t.nodes a).name ≠ name := by
  simp [HasName]

/-- What `rbtree_insert` returns for the node in hand. -/
theorem Shape.insertNode (h : t.Shape cells) (name : CString) (vtnode : ViewTreeNode) :
    (t.HasName name ∧ ∃ a ∈ t.rbtree.elems,
        rbtreeInsert (viewCompare (Function.update t.nodes t.nodeBrk vtnode) name) t.rbtree t.nodeBrk = (t.rbtree,a)) ∨
      (¬t.HasName name ∧
        (rbtreeInsert (viewCompare (Function.update t.nodes t.nodeBrk vtnode) name) t.rbtree t.nodeBrk).2 = t.nodeBrk) := by
  cases hs : rbtreeSearch (viewCompare (Function.update t.nodes t.nodeBrk vtnode) name) t.rbtree with
  | some a =>
    obtain ⟨ha,h0⟩ := rbtreeSearch_some hs
    rw [h.compare_new vtnode name a ha] at h0
    exact Or.inl ⟨⟨a,ha,viewCompare_eq_zero.mp h0⟩,a,ha,rbtreeInsert_present hs _⟩
  | none =>
    have hne := (rbtreeSearch_none_iff (h.cut_new vtnode name)).mp hs
    obtain ⟨-,-,rbtree,hins,-⟩ := rbtreeInsert_absent h.valid (h.cut_new vtnode name) hne t.nodeBrk
    refine Or.inr ⟨hasName_iff.mpr (fun a ha he => hne a ha ?_),by rw [hins]⟩
    rw [h.compare_new vtnode name a ha]
    exact viewCompare_eq_zero.mpr he

/-- Whatever `rbtree_insert` returns is a node. -/
theorem Shape.insertNode_ne (h : t.Shape cells) (name : CString) (vtnode : ViewTreeNode) :
    (rbtreeInsert (viewCompare (Function.update t.nodes t.nodeBrk vtnode) name) t.rbtree t.nodeBrk).2 ≠ 0 := by
  rcases h.insertNode name vtnode with ⟨-,a,ha,hins⟩ | ⟨-,hins⟩
  · rw [hins]
    exact (h.node_lt a ha).1.ne'
  · rw [hins]
    exact h.brk_pos.ne'

/-- No call is refused. -/
theorem Shape.insertResult (h : t.Shape cells) (hname : name.strlen < statsNodeMaxSize) :
    viewTreeInsertResult true t name vs = (viewTreeInsert true t name vs).map fun t => (t,0) := by
  have hlong : ¬(true = false ∨ statsNodeMaxSize ≤ name.strlen) := by simpa using hname
  have hne := h.insertNode_ne name ⟨name,vs,0⟩
  simp only [viewTreeInsert, viewTreeInsertResult, if_neg hlong, if_neg hne, Option.map_bind, Option.bind_eq_bind,
    Function.comp_def, Option.map_some]

/-- A name that is there gets a second node, in the list only. -/
structure Orphaned (t t' : ViewTree) (cells : List ℕ) (name : CString) : Prop where
  rbtree_eq : t'.rbtree = t.rbtree
  count_eq : t'.count = t.count + 1
  lru : t'.lrulist.Represents (t.lrulist.brk :: cells)
  data : t'.lrulist.dataOf t.lrulist.brk = t.nodeBrk
  name_eq : (t'.nodes t.nodeBrk).name = name

theorem Shape.orphaned (h : t.Shape cells) (vs : ℕ) (hname : name.strlen < statsNodeMaxSize) (hhas : t.HasName name) :
    ∃ t', viewTreeInsert true t name vs = some t' ∧ Orphaned t t' cells name := by
  have hlong : ¬(true = false ∨ statsNodeMaxSize ≤ name.strlen) := by simpa using hname
  obtain ⟨lru,hlru,hrep,hdata,-⟩ := lruListInsert_spec h.lru h.brk_pos.ne'
  rcases h.insertNode name ⟨name,vs,0⟩ with ⟨-,a,ha,hins⟩ | ⟨hno,-⟩
  · refine ⟨⟨t.rbtree,lru,t.count + 1,Function.update t.nodes t.nodeBrk ⟨name,vs,t.lrulist.brk⟩,t.stats,
      t.nodeBrk + 1,t.statsBrk⟩,?_,rfl,rfl,hrep,hdata,?_⟩
    · have hne : a ≠ 0 := (h.node_lt a ha).1.ne'
      simp only [viewTreeInsert, viewTreeInsertResult, if_neg hlong]
      simp [hins, hlru, hne]
    · dsimp only
      rw [Function.update_self]
  · exact absurd hhas hno

/-- The second node is in the list, and a search for its name finds the first one. -/
theorem Orphaned.not_reachable (h : t.Shape cells) (ho : Orphaned t t' cells name)
    (hname : name.strlen < statsNodeMaxSize) : ¬t'.Reachable := by
  intro hreach
  have hfind := hreach t.lrulist.brk (by rw [entries_eq ho.lru]; exact List.mem_cons_self)
  rw [ho.data, ho.name_eq, viewTreeFind, viewTreeKey_short hname, Option.map_some] at hfind
  obtain ⟨hmem,-⟩ := rbtreeSearch_some (Option.some_inj.mp hfind)
  rw [ho.rbtree_eq] at hmem
  exact (h.node_lt _ hmem).2.false

end Facts

end ViewTree

/-! ## One call and any number of calls -/

def viewInsertStep (t : ViewTree) (call : CString × ℕ) : Option ViewTree :=
  (viewTreeInsertResult true t call.1 call.2).map Prod.fst

section Calls
variable {t t' : ViewTree} {cells : List ℕ}

theorem refusesTwice_iff (h : t.Shape cells) (name : CString) (vs : ℕ) :
    t.RefusesTwice cells name vs ↔ name.strlen < statsNodeMaxSize ∧ ¬t.HasName name := by
  constructor
  · rintro ⟨t',r,hrun,htwice,-⟩
    have hname : name.strlen < statsNodeMaxSize := by
      by_contra hlong
      rw [viewTreeInsertResult, if_pos (Or.inr (not_lt.mp hlong))] at hrun
      cases hrun
    refine ⟨hname,fun hhas => ?_⟩
    rw [h.insertResult hname] at hrun
    obtain ⟨t₁,-,he⟩ := Option.map_eq_some_iff.mp hrun
    have hr := (htwice hhas).1
    rw [← (Prod.mk.inj he).2] at hr
    cases hr
  · rintro ⟨hname,hno⟩
    obtain ⟨t',hrun,hins⟩ := h.inserted vs hname (hasName_iff.mp hno)
    refine ⟨t',0,?_,fun hhas => absurd hhas hno,fun _ => ⟨rfl,hins⟩⟩
    rw [h.insertResult hname, hrun, Option.map_some]

theorem viewInsertStep_some (h : t.Shape cells) {call : CString × ℕ} (hs : viewInsertStep t call = some t') :
    call.1.strlen < statsNodeMaxSize ∧ viewTreeInsert true t call.1 call.2 = some t' := by
  have hname : call.1.strlen < statsNodeMaxSize := by
    by_contra hlong
    rw [viewInsertStep, viewTreeInsertResult, if_pos (Or.inr (not_lt.mp hlong))] at hs
    cases hs
  rw [viewInsertStep, h.insertResult hname, Option.map_map] at hs
  refine ⟨hname,?_⟩
  simpa using hs

/-- Each call is right exactly for a name that fits and is not there, and as long as no name is there
already, and no longer, every node in the list is found. -/
theorem viewTreeInsert_right_iff (h : t.Shape cells) :
    (∀ name vs, t.RefusesTwice cells name vs ↔ name.strlen < statsNodeMaxSize ∧ ¬t.HasName name) ∧
      ∀ calls, Always viewInsertStep Reachable t calls ↔
        Along viewInsertStep (fun t call => ¬t.HasName call.1) t calls := by
  refine ⟨refusesTwice_iff h,fun calls => ?_⟩
  apply always_iff_along (I := fun t => ∃ cells, t.Shape cells)
  · exact ⟨cells,h⟩
  · rintro s ⟨cells,hs⟩
    exact hs.reachable
  · rintro s call s' ⟨cells,hshape⟩ hno hs
    obtain ⟨hname,hrun⟩ := viewInsertStep_some hshape hs
    obtain ⟨t',hrun',hins⟩ := hshape.inserted call.2 hname (hasName_iff.mp hno)
    obtain rfl := Option.some_inj.mp (hrun.symm.trans hrun')
    exact ⟨_,hins.shape⟩
  · rintro s call s' ⟨cells,hshape⟩ htwice hs
    obtain ⟨hname,hrun⟩ := viewInsertStep_some hshape hs
    obtain ⟨t',hrun',horphan⟩ := hshape.orphaned call.2 hname (not_not.mp htwice)
    obtain rfl := Option.some_inj.mp (hrun.symm.trans hrun')
    exact horphan.not_reachable hshape hname

end Calls

/-- Memory in which malloc found zeros. -/
def clearMemory : ViewTreeMemory := ⟨0,fun _ => ⟨0,0,0⟩,fun _ => ⟨dot,0,0⟩⟩

theorem viewTreeInsert_right_two :
    (viewTreeCreate clearMemory).RefusesTwice [] (text "a") 1 ∧
      Always viewInsertStep Reachable (viewTreeCreate clearMemory) [(text "a",1),(text "b",2)] := by
  obtain ⟨hone,hrun⟩ := viewTreeInsert_right_iff (Shape.create clearMemory)
  refine ⟨(hone (text "a") 1).mpr ⟨by decide,?_⟩,(hrun _).mpr ?_⟩
  · rintro ⟨a,ha,-⟩
    cases ha
  · decide +kernel

/-- The second insertion of a view succeeds and leaves its node out of reach. -/
theorem viewTreeInsert_twice : ∃ t₁ t₂, viewTreeInsertResult true (viewTreeCreate clearMemory) (text "a") 1 = some (t₁,0) ∧
    viewTreeInsertResult true t₁ (text "a") 2 = some (t₂,0) ∧ t₁.HasName (text "a") ∧ t₂.count = 2 ∧
    t₂.rbtree.elems = [1] ∧ t₂.lrulist.entries = [2,1] ∧ ¬t₂.Reachable := by
  refine ⟨_,_,rfl,rfl,by decide +kernel,rfl,rfl,rfl,?_⟩
  intro h
  exact absurd (h 2 (by decide +kernel)) (by decide +kernel)

end LogStats
