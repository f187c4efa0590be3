import LogStats.Library.PrefixMap
import LogStats.Library.Run
import LogStats.Library.WordTree

/-! # The radix tree of dig_radix_tree.c

Nodes are addresses, `none` is NULL, and `malloc` gives the address `brk` or nothing. A
tree is never taken down here, so that no node goes back to `malloc`.
-/
namespace LogStats

structure RadixNode (V : Type*) where
  right : Option ℕ
  left : Option ℕ
  parent : Option ℕ
  value : Option V

structure RadixTree (V : Type*) where
  node : ℕ → RadixNode V
  root : ℕ
  free : Option ℕ
  count : UInt32
  brk : ℕ

/-- `result_t` -/
inductive RadixResult where
  | succeed
  | noMemory
  | dupKey
  | failed
deriving DecidableEq

variable {V : Type*}

def RadixTree.write (t : RadixTree V) (a : ℕ) (n : RadixNode V) : RadixTree V :=
  { t with node := Function.update t.node a n }

def RadixTree.setRight (t : RadixTree V) (a : ℕ) (p : Option ℕ) : RadixTree V :=
  t.write a { t.node a with right := p }

def RadixTree.setLeft (t : RadixTree V) (a : ℕ) (p : Option ℕ) : RadixTree V :=
  t.write a { t.node a with left := p }

def RadixTree.setValue (t : RadixTree V) (a : ℕ) (v : Option V) : RadixTree V :=
  t.write a { t.node a with value := v }

/-- `key & bit` -/
def bitSet (key bit : BitVec 32) : Bool := key &&& bit ≠ 0

def topBit : BitVec 32 := 0x80000000

/-- The node on the side of the bit. -/
def RadixTree.child (t : RadixTree V) (a : ℕ) (b : Bool) : Option ℕ :=
  if b then (t.node a).right else (t.node a).left

def RadixTree.setChild (t : RadixTree V) (a : ℕ) (b : Bool) (p : Option ℕ) : RadixTree V :=
  if b then t.setRight a p else t.setLeft a p

def radixTreeAlloc (malloc : Bool) (t : RadixTree V) : Option ℕ × RadixTree V :=
  match t.free with
  | some ptr => (some ptr,{ t with free := (t.node ptr).right }.write ptr ⟨none,none,none,none⟩)
  | none => if malloc then (some t.brk,{ t with brk := t.brk + 1 }) else (none,t)

def radixTreeCreate : RadixTree V := ⟨fun _ => ⟨none,none,none,none⟩,0,none,0,1⟩

/-- The first loop of `radix_tree_insert_node`: `node`, `next`, `bit` and `mask` after it. -/
def radixTreeInsertWalk (t : RadixTree V) (key : BitVec 32) : ℕ → BitVec 32 → ℕ → ℕ × Option ℕ × BitVec 32 × ℕ
  | 0, bit, node => (node,some node,bit,0)
  | mask + 1, bit, node =>
    match t.child node (bitSet key bit) with
    | none => (node,none,bit,mask + 1)
    | some next => radixTreeInsertWalk t key mask (bit >>> 1) next

/-- The second loop: a node for each bit that is left. -/
def radixTreeExtend (malloc : Bool) (key : BitVec 32) : ℕ → BitVec 32 → ℕ → RadixTree V → Option ℕ × RadixTree V
  | 0, _, node, t => (some node,t)
  | mask + 1, bit, node, t =>
    match radixTreeAlloc malloc t with
    | (none,t) => (none,t)
    | (some next,t) =>
      radixTreeExtend malloc key mask (bit >>> 1) next
        ((t.write next ⟨none,none,some node,none⟩).setChild node (bitSet key bit) (some next))

def RadixTree.fill (t : RadixTree V) (node : ℕ) (value : V) : RadixTree V :=
  { t.setValue node (some value) with count := t.count + 1 }

def radixTreeInsertNode (malloc : Bool) (t : RadixTree V) (key : BitVec 32) (mask : ℕ) (value : V) :
    RadixResult × RadixTree V :=
  match radixTreeInsertWalk t key mask topBit t.root with
  | (node,some _,_,_) => if (t.node node).value.isSome then (.dupKey,t) else (.succeed,t.fill node value)
  | (node,none,bit,mask) =>
    match radixTreeExtend malloc key mask bit node t with
    | (none,t) => (.noMemory,t)
    | (some node,t) => (.succeed,t.fill node value)

def radixTreeDeleteWalk (t : RadixTree V) (key : BitVec 32) : ℕ → BitVec 32 → Option ℕ → Option ℕ
  | _, _, none => none
  | 0, _, some node => some node
  | mask + 1, bit, some node => radixTreeDeleteWalk t key mask (bit >>> 1) (t.child node (bitSet key bit))

/-- The loop that takes nodes away from `node` upwards, at most as many as there are bits. A
NULL that is followed is `none`. -/
def radixTreePrune : ℕ → ℕ → RadixTree V → Option (RadixTree V)
  | 0, _, _ => none
  | fuel + 1, node, t =>
    match (t.node node).parent with
    | none => none
    | some parent =>
      let t := if (t.node parent).right = some node then t.setRight parent none else t.setLeft parent none
      let t : RadixTree V := { t.setRight node t.free with free := some node }
      if (t.node parent).right.isSome ∨ (t.node parent).left.isSome then some t
      else if (t.node parent).value.isSome then some t
      else if (t.node parent).parent = none then some t
      else radixTreePrune fuel parent t

def radixTreeDeleteNode (t : RadixTree V) (key : BitVec 32) (mask : ℕ) : Option (RadixResult × RadixTree V) :=
  match radixTreeDeleteWalk t key mask topBit (some t.root) with
  | none => some (.failed,t)
  | some node =>
    if (t.node node).right.isSome ∨ (t.node node).left.isSome then
      if (t.node node).value.isSome then some (.succeed,{ t.setValue node none with count := t.count - 1 })
      else some (.failed,t)
    else (radixTreePrune mask node t).map fun t => (.succeed,{ t with count := t.count - 1 })

/-- The loop of `radix_tree_find`: a step for each node down to the depth of 32 bits. -/
def radixTreeFindWalk (t : RadixTree V) (key : BitVec 32) :
    ℕ → BitVec 32 → Option ℕ → Option V → Option (Option V)
  | _, _, none, value => some value
  | 0, _, some _, _ => none
  | fuel + 1, bit, some node, value =>
    radixTreeFindWalk t key fuel (bit >>> 1) (t.child node (bitSet key bit))
      (if (t.node node).value.isSome then (t.node node).value else value)

def radixTreeFind (t : RadixTree V) (key : BitVec 32) (fuel : ℕ) : Option (Option V) :=
  radixTreeFindWalk t key fuel topBit (some t.root) none

end LogStats
