import LogStats.Views.ViewStats
import Mathlib.Data.UInt

/-! # The tree of views, log_view_tree.c

Nodes and records are addressed by numbers that are given out once each. A record that
was freed, or not handed out yet, is `none`, and what uses it is undefined.
-/
namespace LogStats

def statsNodeMaxSize : ℕ := 128
def sizeofViewTreeNode : ℕ := 144
def sizeofViewTree : UInt64 := 24

structure ViewTreeNode where
  name : CString
  vs : ℕ
  ptr : ℕ

structure ViewTree where
  rbtree : RbTree ℕ
  lrulist : LruList
  count : ℤ
  nodes : ℕ → ViewTreeNode
  stats : ℕ → Option ViewStats
  /-- The next addresses of a node and of a record. -/
  nodeBrk : ℕ
  statsBrk : ℕ

structure ViewTreeMemory where
  count : ℤ
  lru : ℕ → LruNode
  nodes : ℕ → ViewTreeNode

/-- `view_tree_create` does not set `count`. -/
def viewTreeCreate (memory : ViewTreeMemory) : ViewTree :=
  ⟨rbtreeCreate,lruListCreate memory.lru,memory.count,memory.nodes,fun _ => none,1,1⟩

/-- `name_compare` of the name in the search key with the name of a node. -/
def viewCompare (nodes : ℕ → ViewTreeNode) (name : CString) (vtnode : ℕ) : ℤ := CString.strcmp name (nodes vtnode).name

/-- The name in the key on the stack. A longer name runs over the pointers behind it, of
which the first is then set to NULL, and from 144 bytes on over the key. -/
def viewTreeKey (name : CString) : Option CString :=
  if sizeofViewTreeNode ≤ name.strlen then none
  else some ⟨name.bytes.take statsNodeMaxSize,fun h => name.nulFree (List.mem_of_mem_take h)⟩

def viewTreeFind (t : ViewTree) (name : CString) : Option (Option ℕ) :=
  (viewTreeKey name).map fun key => rbtreeSearch (viewCompare t.nodes key) t.rbtree

/-- `view_tree_insert` with the value it returns. `rbtree_insert` returns the node that is there
already, never NULL, so that the node in hand gets its LRU node in any case. -/
def viewTreeInsertResult (malloc : Bool) (t : ViewTree) (name : CString) (vs : ℕ) : Option (ViewTree × ℤ) :=
  -- a longer name would end in the bytes of the pointer behind it
  if malloc = false ∨ statsNodeMaxSize ≤ name.strlen then none
  else
    let vtnode := t.nodeBrk
    let nodes := Function.update t.nodes vtnode ⟨name,vs,0⟩
    let (rbtree,insertNode) := rbtreeInsert (viewCompare nodes name) t.rbtree vtnode
    if insertNode = 0 then some ({ t with rbtree := rbtree, nodes := nodes, nodeBrk := t.nodeBrk + 1 },1)
    else do
      let (lrulist,lruNode) ← lruListInsert true t.lrulist vtnode
      let lruNode ← lruNode
      let nodes := Function.update nodes vtnode { nodes vtnode with ptr := lruNode }
      some (⟨rbtree,lrulist,t.count + 1,nodes,t.stats,t.nodeBrk + 1,t.statsBrk⟩,0)

/-- `view_tree_insert` for callers that leave its value. -/
def viewTreeInsert (malloc : Bool) (t : ViewTree) (name : CString) (vs : ℕ) : Option ViewTree :=
  (viewTreeInsertResult malloc t name vs).map Prod.fst

def viewTreeDelete (t : ViewTree) (name : CString) : Option ViewTree := do
  let key ← viewTreeKey name
  match ← rbtreeDelete (viewCompare t.nodes key) t.rbtree with
  | (rbtree,none) => some { t with rbtree := rbtree }
  | (rbtree,some vtnode) =>
    let vs := (t.nodes vtnode).vs
    let _ ← t.stats vs
    some { t with rbtree := rbtree, stats := Function.update t.stats vs none, count := t.count - 1 }

/-- The size of the record of a node, and of its name. -/
def viewTreeNodeSize (t : ViewTree) (vtnode : ℕ) : Option UInt64 :=
  (t.stats (t.nodes vtnode).vs).map fun vs => viewStatsGetSize vs + 128

def viewTreeGetSize (t : ViewTree) : Option UInt64 := do
  let sizes ← t.rbtree.elems.mapM (viewTreeNodeSize t)
  some (sizes.sum + sizeofViewTree + 24 * UInt64.ofInt t.lrulist.count)

/-- The last node of the traversal. -/
def viewTreeTheOnlyOne (t : ViewTree) : Option ℕ := t.rbtree.elems.getLast?

/-- The loop of `view_tree_set_memsize`. -/
def viewTreeEvictLoop (expectSize : UInt64) : ℕ → ViewTree → Option ViewTree
  | 0, _ => none
  | fuel + 1, t => do
    let memSize ← viewTreeGetSize t
    if expectSize < memSize ∧ 1 < t.count then
      let (lrulist,vtnode) := lruListRemoveTail t.lrulist
      -- the name of a NULL node
      if vtnode = 0 then none
      else
        let t ← viewTreeDelete { t with lrulist := lrulist } (t.nodes vtnode).name
        viewTreeEvictLoop expectSize fuel t
    else some t

def viewTreeSetMemsize (t : ViewTree) (expectSize : UInt64) : Option ViewTree := do
  let t ← viewTreeEvictLoop expectSize (t.lrulist.count.toNat + 1) t
  if t.count = 1 then
    match viewTreeTheOnlyOne t with
    | none => some t
    | some vtnode =>
      let vs ← t.stats (t.nodes vtnode).vs
      let vs' ← viewStatsSetMemsize vs expectSize
      some { t with stats := Function.update t.stats (t.nodes vtnode).vs (some vs') }
  else some t

/-! ## Names as search keys -/

@[simp] theorem viewTreeKey_short {name : CString} (h : name.strlen < statsNodeMaxSize) :
    viewTreeKey name = some name := by
  have hlen : ¬sizeofViewTreeNode ≤ name.strlen := by
    rw [statsNodeMaxSize] at h
    rw [sizeofViewTreeNode]
    omega
  rw [viewTreeKey, if_neg hlen, Option.some_inj]
  exact CString.ext (List.take_of_length_le h.le)

/-- The key of a name too long for a node is as long as no name in a node. -/
theorem viewTreeKey_long {name key : CString} (h : viewTreeKey name = some key)
    (hlen : statsNodeMaxSize ≤ name.strlen) : key.strlen = statsNodeMaxSize := by
  rw [viewTreeKey] at h
  split at h
  · cases h
  · obtain rfl := Option.some_inj.mp h
    exact (List.length_take).trans (min_eq_left hlen)

end LogStats
