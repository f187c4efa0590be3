import LogStats.NameTree.NodeValue
import LogStats.Containers.Heap
import LogStats.Containers.LruList
import LogStats.Containers.MemPool
import LogStats.Containers.RbTree

/-! # The name tree of log_name_tree.c

A tree node is the address of its `rbnode_t` with the value pointer it holds. The
memory of the values is a function of the address with arbitrary contents at
first. A failed assert, and what the source leaves undefined, is `none`.
-/
namespace LogStats

/-- What malloc finds in the memory it returns. -/
structure NameTreeMemory where
  values : ℕ → NodeValue
  heap : ℕ → ℕ
  lru : ℕ → LruNode

structure NameTree where
  tree : RbTree (ℕ × ℕ)
  heap : Heap ℕ
  nodePool : MemPool
  namePool : MemPool
  count : UInt32
  lru : LruList
  mem : ℕ → NodeValue

/-- Whether each of the three requests of `name_tree_insert` finds memory. -/
structure Mallocs where
  name : Bool
  node : Bool
  lru : Bool
deriving DecidableEq

def Mallocs.succeed : Mallocs := ⟨true,true,true⟩

section Compare
variable (mem : ℕ → NodeValue)

/-- `name_compare` of a name with the name of a tree node. -/
def nameCompare (name : CString) (node : ℕ × ℕ) : ℤ := CString.strcmp name (mem node.2).name

/-- The difference of the counts is unsigned; the result is taken as signed. -/
def elemCompare (e1 e2 : ℕ) : ℤ := ((mem e1).count - (mem e2).count).toInt32.toInt

def elemInsert (e1 idx : ℕ) : ℕ → NodeValue := Function.update mem e1 { mem e1 with heapIndex := idx }

end Compare

def sizeofRbnode : ℕ := 40
def sizeofNodeValue : ℕ := 48
def sizeofLruNode : ℕ := 24

/-- `name_tree_create` where its own allocations succeed. -/
def nameTreeCreate (memory : NameTreeMemory) : Option NameTree := do
  let nodePool ← memPoolCreate true 40 1024 true
  let namePool ← memPoolCreate true 48 1024 true
  some ⟨rbtreeCreate,heapInit memory.heap 1000,nodePool,namePool,0,lruListCreate memory.lru,memory.values⟩

/-- Sizes of `name_tree_t`, `heap_t` with another array of pointers, and two pools. -/
def nameTreeGetSize (t : NameTree) : UInt64 :=
  104 + (80016 + 80000) + 72 * 2 + t.count.toUInt64 * (40 + 48) + UInt64.ofInt t.lru.count * 24

def nameTreeExactlyFind (t : NameTree) (name : CString) : Option (Option ℕ) :=
  if maxNameLen ≤ name.strlen then some none
  else (dotted name).map fun fqdn => (rbtreeSearch (nameCompare t.mem fqdn) t.tree).map Prod.snd

/-- The branch of `name_tree_insert` for a name that is not there: the new node, if
both pools have one. -/
def nameTreeAdd (malloc : Mallocs) (t : NameTree) (name : CString) : Option (NameTree × Option ℕ) := do
  let (namePool,nv) ← memPoolAlloc malloc.name t.namePool
  match nv with
  | none => some ({ t with namePool := namePool },none)
  | some nv =>
    let (nodePool,node) ← memPoolAlloc malloc.node t.nodePool
    match node with
    | none =>
      let mem := Function.update t.mem nv ((t.mem nv).setNext (namePool.freeList.headD 0))
      let namePool ← memPoolFree namePool nv
      some ({ t with namePool := namePool, nodePool := nodePool, mem := mem },none)
    | some node =>
      let fqdn ← dotted name
      let mem := Function.update t.mem nv { (t.mem nv).setFqdn fqdn with count := 0, heapIndex := -1 }
      let (tree,_) := rbtreeInsert (nameCompare mem (mem nv).name) t.tree (node,nv)
      -- a failed lru_list_insert returns no value
      let (lru,lruNode) ← lruListInsert malloc.lru t.lru nv
      let lruNode ← lruNode
      let mem := Function.update mem nv { mem nv with ptr := lruNode }
      some (⟨tree,t.heap,nodePool,namePool,t.count + 1,lru,mem⟩,some nv)

/-- The end of `name_tree_insert`: count the name and find its place in the heap. -/
def nameTreeCount (t : NameTree) (nv : ℕ) : NameTree :=
  let mem := Function.update t.mem nv { t.mem nv with count := (t.mem nv).count + 1 }
  if (mem nv).heapIndex ≠ -1 then
    let (mem,heap) := heapAdjustSiftdown elemCompare elemInsert mem t.heap (mem nv).heapIndex.toNat
    { t with mem := mem, heap := heap }
  else if heapReachRoof t.heap 1000 then
    if heapMinLessThan elemCompare mem t.heap nv then
      let (mem,heap,_) := heapReplaceLeast elemCompare elemInsert mem t.heap nv
      { t with mem := mem, heap := heap }
    else { t with mem := mem }
  else
    let (mem,heap,_) := heapInsert elemCompare elemInsert mem t.heap nv
    { t with mem := mem, heap := heap }

def nameTreeInsert (malloc : Mallocs) (t : NameTree) (name : CString) : Option (NameTree × ℤ) :=
  if maxNameLen ≤ name.strlen then some (t,-1)
  else do
    match ← nameTreeExactlyFind t name with
    | some nv =>
      let lru ← lruListMoveToFirst t.lru (t.mem nv).ptr
      some (nameTreeCount { t with lru := lru } nv,0)
    | none =>
      match ← nameTreeAdd malloc t name with
      | (t,none) => some (t,-1)
      | (t,some nv) => some (nameTreeCount t nv,0)

/-- `name_tree_delete`; `delFunc` is `none` for a NULL callback. -/
def nameTreeDelete (t : NameTree) (name : CString) (delFunc : Option (LruList → ℕ → Option LruList)) :
    Option (NameTree × ℤ) :=
  if maxNameLen ≤ name.strlen then some (t,-1)
  else do
    let fqdn ← dotted name
    match ← rbtreeDelete (nameCompare t.mem fqdn) t.tree with
    | (tree,none) => some ({ t with tree := tree },-1)
    | (tree,some (node,value)) =>
      let lru ← match delFunc with
        | none => some t.lru
        | some delFunc => delFunc t.lru (t.mem value).ptr
      let mem := Function.update t.mem value ((t.mem value).setNext (t.namePool.freeList.headD 0))
      let namePool ← memPoolFree t.namePool value
      let nodePool ← memPoolFree t.nodePool node
      some (⟨tree,t.heap,nodePool,namePool,t.count - 1,lru,mem⟩,0)

/-! ## The nodes of a tree -/

namespace NameTree

def nodes (t : NameTree) : List ℕ := t.tree.elems.map Prod.fst
/-- The tracked values in the order of their names. -/
def values (t : NameTree) : List ℕ := t.tree.elems.map Prod.snd
def nameOf (t : NameTree) (v : ℕ) : CString := (t.mem v).name
def countOf (t : NameTree) (v : ℕ) : ℕ := (t.mem v).count.toNat
def heapIndexOf (t : NameTree) (v : ℕ) : ℤ := (t.mem v).heapIndex

end NameTree

end LogStats
