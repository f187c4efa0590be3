import LogStats.Containers.RbTree
import LogStats.Library.TreeMemory

/-! # The nodes and pointers of dig_rb_tree.c

Here the tree is its nodes in a memory, at the addresses that they have, and the operations
are those of the source, pointer by pointer. The address 0 is that of `rbtree_null_node`;
what comes back as NULL is `none`, and so are failed asserts and loops that take more turns
than `fuel` allows. Where the source has the same code twice with the sides exchanged, the
side is an argument.
-/
namespace LogStats

/-- `rbnode_t` -/
structure RbNode (V : Type*) extends Cell ℕ where
  value : V

/-- The memory together with `rbtree_t`. -/
structure RbMemory (V : Type*) where
  node : ℕ → RbNode V
  root : ℕ
  count : ℕ

def rbtreeNull : ℕ := 0

namespace RbMemory
variable {V : Type*}

def cell (m : RbMemory V) (a : ℕ) : Cell ℕ := (m.node a).toCell

def write (m : RbMemory V) (a : ℕ) (n : Cell ℕ) : RbMemory V :=
  { m with node := Function.update m.node a ⟨n,(m.node a).value⟩ }

def setParent (m : RbMemory V) (a p : ℕ) : RbMemory V := m.write a { m.cell a with parent := p }
def setChild (m : RbMemory V) (a : ℕ) (s : Side) (x : ℕ) : RbMemory V := m.write a ((m.cell a).setChild s x)
def setColor (m : RbMemory V) (a : ℕ) (c : Color) : RbMemory V := m.write a { m.cell a with color := c }

/-! ## Rotations -/

/-- The rotation of `node` towards a side. -/
def rotate (s : Side) (m : RbMemory V) (node : ℕ) : RbMemory V :=
  let right := (m.cell node).child s.other
  let m := m.setChild node s.other ((m.cell right).child s)
  let m := if (m.cell right).child s ≠ rbtreeNull then m.setParent ((m.cell right).child s) node else m
  let m := m.setParent right (m.cell node).parent
  let m :=
    if (m.cell node).parent ≠ rbtreeNull then
      if node = (m.cell (m.cell node).parent).child s then m.setChild (m.cell node).parent s right
      else m.setChild (m.cell node).parent s.other right
    else { m with root := right }
  let m := m.setChild right s node
  m.setParent node right

def rbtreeRotateLeft (m : RbMemory V) (node : ℕ) : RbMemory V := m.rotate .left node
def rbtreeRotateRight (m : RbMemory V) (node : ℕ) : RbMemory V := m.rotate .right node

/-! ## Insertion -/

/-- `node` and its parent are both on the side `s` of the node above them. -/
def repaintRotate (s : Side) (m : RbMemory V) (node : ℕ) : RbMemory V :=
  let m := m.setColor (m.cell node).parent .black
  let m := m.setColor (m.cell (m.cell node).parent).parent .red
  m.rotate s.other (m.cell (m.cell node).parent).parent

/-- A turn of the loop where the parent is the child of the grandparent on the side `s`. -/
def insertFixupTurn (s : Side) (m : RbMemory V) (node : ℕ) : RbMemory V × ℕ :=
  let parent := (m.cell node).parent
  let grandparent := (m.cell parent).parent
  let uncle := (m.cell grandparent).child s.other
  if (m.cell uncle).color = .red then
    (((m.setColor parent .black).setColor uncle .black).setColor grandparent .red,grandparent)
  else
    let (m,node) := if node = (m.cell parent).child s.other then (m.rotate s parent,parent) else (m,node)
    (m.repaintRotate s node,node)

def rbtreeInsertFixup : ℕ → RbMemory V → ℕ → Option (RbMemory V)
  | 0, _, _ => none
  | fuel + 1, m, node =>
    if node ≠ m.root ∧ (m.cell (m.cell node).parent).color = .red then
      let parent := (m.cell node).parent
      let s := if parent = (m.cell (m.cell parent).parent).left then Side.left else Side.right
      let (m,node) := insertFixupTurn s m node
      rbtreeInsertFixup fuel m node
    else some (m.setColor m.root .black)

/-- The walk down: a node that is equal, or the last node and how it compared. -/
def insertWalk (cmp : V → V → ℤ) (m : RbMemory V) (value : V) : ℕ → ℕ → ℕ → ℤ → Option (ℕ ⊕ ℕ × ℤ)
  | 0, _, _, _ => none
  | fuel + 1, node, parent, r =>
    if node ≠ rbtreeNull then
      let r := cmp value (m.node node).value
      if r = 0 then some (.inl node)
      else insertWalk cmp m value fuel (if r < 0 then (m.cell node).left else (m.cell node).right) node r
    else some (.inr (parent,r))

/-- `/* Initialize the new node */` -/
def initNode (m : RbMemory V) (data parent : ℕ) : RbMemory V :=
  { m.write data ⟨parent,rbtreeNull,rbtreeNull,.red⟩ with count := m.count + 1 }

/-- `/* Insert it into the tree... */` -/
def linkNode (m : RbMemory V) (parent : ℕ) (r : ℤ) (data : ℕ) : RbMemory V :=
  if parent ≠ rbtreeNull then
    if r < 0 then m.setChild parent .left data else m.setChild parent .right data
  else { m with root := data }

def rbtreeInsert (cmp : V → V → ℤ) (fuel : ℕ) (m : RbMemory V) (data : ℕ) : Option (RbMemory V × ℕ) :=
  match insertWalk cmp m (m.node data).value fuel m.root rbtreeNull 0 with
  | none => none
  | some (.inl node) => some (m,node)
  | some (.inr (parent,r)) =>
    (rbtreeInsertFixup fuel ((m.initNode data parent).linkNode parent r data) data).map fun m => (m,data)

/-! ## Search -/

def findLessEqualWalk (cmp : V → V → ℤ) (m : RbMemory V) (key : V) :
    ℕ → ℕ → Option ℕ → Option (Bool × Option ℕ)
  | 0, _, _ => none
  | fuel + 1, node, result =>
    if node ≠ rbtreeNull then
      let r := cmp key (m.node node).value
      if r = 0 then some (true,some node)
      else if r < 0 then findLessEqualWalk cmp m key fuel (m.cell node).left result
      else findLessEqualWalk cmp m key fuel (m.cell node).right (some node)
    else some (false,result)

def rbtreeFindLessEqual (cmp : V → V → ℤ) (fuel : ℕ) (m : RbMemory V) (key : V) : Option (Bool × Option ℕ) :=
  findLessEqualWalk cmp m key fuel m.root none

def rbtreeSearch (cmp : V → V → ℤ) (fuel : ℕ) (m : RbMemory V) (key : V) : Option (Option ℕ) :=
  (rbtreeFindLessEqual cmp fuel m key).map fun (found,node) => if found then node else none

/-! ## Traversal -/

/-- `for (; node->left != RBTREE_NULL; node = node->left);` -/
def endWalk (s : Side) (m : RbMemory V) : ℕ → ℕ → Option ℕ
  | 0, _ => none
  | fuel + 1, node =>
    if (m.cell node).child s ≠ rbtreeNull then endWalk s m fuel ((m.cell node).child s) else some node

def rbtreeFirst (fuel : ℕ) (m : RbMemory V) : Option ℕ := m.endWalk .left fuel m.root
def rbtreeLast (fuel : ℕ) (m : RbMemory V) : Option ℕ := m.endWalk .right fuel m.root

/-- `while (parent != RBTREE_NULL && node == parent->right) { ... }` -/
def climb (s : Side) (m : RbMemory V) : ℕ → ℕ → ℕ → Option ℕ
  | 0, _, _ => none
  | fuel + 1, node, parent =>
    if parent ≠ rbtreeNull ∧ node = (m.cell parent).child s then climb s m fuel parent (m.cell parent).parent
    else some parent

/-- The node next to `node` towards a side: one step there and then back as far as it goes,
or up. -/
def neighbour (s : Side) (fuel : ℕ) (m : RbMemory V) (node : ℕ) : Option ℕ :=
  if (m.cell node).child s ≠ rbtreeNull then m.endWalk s.other fuel ((m.cell node).child s)
  else m.climb s fuel node (m.cell node).parent

def rbtreeNext (fuel : ℕ) (m : RbMemory V) (node : ℕ) : Option ℕ := m.neighbour .right fuel node
def rbtreePrevious (fuel : ℕ) (m : RbMemory V) (node : ℕ) : Option ℕ := m.neighbour .left fuel node

/-- A `for` loop over nodes up to the sentinel: the nodes that its body sees. -/
def nodesFrom (next : ℕ → Option ℕ) : ℕ → ℕ → Option (List ℕ)
  | 0, _ => none
  | fuel + 1, node =>
    if node ≠ rbtreeNull then (next node).bind fun n => (nodesFrom next fuel n).map fun nodes => node :: nodes
    else some []

/-- `RBTREE_FOR` -/
def rbtreeFor (fuel : ℕ) (m : RbMemory V) : Option (List ℕ) :=
  (m.rbtreeFirst fuel).bind (nodesFrom (m.rbtreeNext fuel) fuel)

/-- The same loop with `rbtree_last` and `rbtree_previous`. -/
def rbtreeForBack (fuel : ℕ) (m : RbMemory V) : Option (List ℕ) :=
  (m.rbtreeLast fuel).bind (nodesFrom (m.rbtreePrevious fuel) fuel)

/-! ## Deletion -/

def changeParentPtr (m : RbMemory V) (parent old new : ℕ) : Option (RbMemory V) :=
  if parent = rbtreeNull then
    if m.root = old then some { m with root := new } else none
  else if (m.cell parent).left = old ∨ (m.cell parent).right = old ∨ (m.cell parent).left = new ∨
      (m.cell parent).right = new then
    let m := if (m.cell parent).left = old then m.setChild parent .left new else m
    let m := if (m.cell parent).right = old then m.setChild parent .right new else m
    some m
  else none

def changeChildPtr (m : RbMemory V) (child old new : ℕ) : Option (RbMemory V) :=
  if child = rbtreeNull then some m
  else if (m.cell child).parent = old ∨ (m.cell child).parent = new then
    some (if (m.cell child).parent = old then m.setParent child new else m)
  else none

/-- `if(child_parent->right == child) sibling = child_parent->left; else ...` -/
def sibling (m : RbMemory V) (child childParent : ℕ) : ℕ :=
  if (m.cell childParent).right = child then (m.cell childParent).left else (m.cell childParent).right

def rotateAt (m : RbMemory V) (child childParent : ℕ) : RbMemory V :=
  if (m.cell childParent).right = child then m.rbtreeRotateRight childParent else m.rbtreeRotateLeft childParent

/-- The loop of `rbtree_delete_fixup`: the nodes that it ends at, or nothing left to do. -/
def deleteFixupLoop : ℕ → RbMemory V → ℕ → ℕ → ℕ → Option (RbMemory V × Option (ℕ × ℕ × ℕ))
  | 0, _, _, _, _ => none
  | fuel + 1, m, child, childParent, sib =>
    if childParent = rbtreeNull then some (m,none)
    else
      let (m,sib) :=
        if (m.cell sib).color = .red then
          let m := ((m.setColor childParent .red).setColor sib .black).rotateAt child childParent
          (m,m.sibling child childParent)
        else (m,sib)
      if (m.cell childParent).color = .black ∧ (m.cell sib).color = .black ∧
          (m.cell (m.cell sib).left).color = .black ∧ (m.cell (m.cell sib).right).color = .black then
        let m := if sib ≠ rbtreeNull then m.setColor sib .red else m
        let child := childParent
        let childParent := (m.cell childParent).parent
        deleteFixupLoop fuel m child childParent (m.sibling child childParent)
      else some (m,some (child,childParent,sib))

/-- A sibling whose only red child is the one next to `child` is turned. -/
def deleteFixupNephew (m : RbMemory V) (child childParent sib : ℕ) : RbMemory V × ℕ :=
  if (m.cell childParent).right = child ∧ (m.cell sib).color = .black ∧
      (m.cell (m.cell sib).right).color = .red ∧ (m.cell (m.cell sib).left).color = .black then
    let m := m.setColor sib .red
    let m := m.setColor (m.cell sib).right .black
    let m := m.rbtreeRotateLeft sib
    (m,m.sibling child childParent)
  else if (m.cell childParent).left = child ∧ (m.cell sib).color = .black ∧
      (m.cell (m.cell sib).left).color = .red ∧ (m.cell (m.cell sib).right).color = .black then
    let m := m.setColor sib .red
    let m := m.setColor (m.cell sib).left .black
    let m := m.rbtreeRotateRight sib
    (m,m.sibling child childParent)
  else (m,sib)

/-- `/* now we have a black sibling with a red child. rotate and exchange colors. */` -/
def deleteFixupRotate (m : RbMemory V) (child childParent sib : ℕ) : Option (RbMemory V) :=
  let m := m.setColor sib (m.cell childParent).color
  let m := m.setColor childParent .black
  if (m.cell childParent).right = child then
    if (m.cell (m.cell sib).left).color = .red then
      some ((m.setColor (m.cell sib).left .black).rbtreeRotateRight childParent)
    else none
  else
    if (m.cell (m.cell sib).right).color = .red then
      some ((m.setColor (m.cell sib).right .black).rbtreeRotateLeft childParent)
    else none

/-- The rest of `rbtree_delete_fixup`. -/
def deleteFixupFinish (m : RbMemory V) (child childParent sib : ℕ) : Option (RbMemory V) :=
  if (m.cell childParent).color = .red ∧ (m.cell sib).color = .black ∧
      (m.cell (m.cell sib).left).color = .black ∧ (m.cell (m.cell sib).right).color = .black then
    let m := if sib ≠ rbtreeNull then m.setColor sib .red else m
    some (m.setColor childParent .black)
  else if sib = rbtreeNull then none
  else
    let (m,sib) := m.deleteFixupNephew child childParent sib
    m.deleteFixupRotate child childParent sib

def rbtreeDeleteFixup (fuel : ℕ) (m : RbMemory V) (child childParent : ℕ) : Option (RbMemory V) :=
  match deleteFixupLoop fuel m child childParent (m.sibling child childParent) with
  | none => none
  | some (m,none) => some m
  | some (m,some (child,childParent,sib)) => m.deleteFixupFinish child childParent sib

/-- `while(smright->left != RBTREE_NULL) smright = smright->left;` -/
def smallestWalk (m : RbMemory V) : ℕ → ℕ → Option ℕ
  | 0, _ => none
  | fuel + 1, smright =>
    if (m.cell smright).left ≠ rbtreeNull then smallestWalk m fuel (m.cell smright).left else some smright

/-- The swap of `to_delete` with `smright`. -/
def swapNodes (m : RbMemory V) (toDelete smright : ℕ) : Option (RbMemory V) := do
  let color := (m.cell toDelete).color
  let m := m.setColor toDelete (m.cell smright).color
  let m := m.setColor smright color
  let m ← m.changeParentPtr (m.cell toDelete).parent toDelete smright
  let m ← if (m.cell toDelete).right ≠ smright then m.changeParentPtr (m.cell smright).parent smright toDelete else some m
  let m ← m.changeChildPtr (m.cell smright).left smright toDelete
  let m ← m.changeChildPtr (m.cell smright).left smright toDelete
  let m ← m.changeChildPtr (m.cell smright).right smright toDelete
  let m ← m.changeChildPtr (m.cell smright).right smright toDelete
  let m ← m.changeChildPtr (m.cell toDelete).left toDelete smright
  let m ← if (m.cell toDelete).right ≠ smright then m.changeChildPtr (m.cell toDelete).right toDelete smright else some m
  let m := if (m.cell toDelete).right = smright then
    (m.setChild toDelete .right toDelete).setParent smright smright else m
  let t := m.cell toDelete
  let s := m.cell smright
  let m := m.write toDelete ⟨s.parent,s.left,s.right,t.color⟩
  some (m.write smright ⟨t.parent,t.left,t.right,s.color⟩)

/-- What follows the swap, up to the fix-up. -/
def unlinkNode (fuel : ℕ) (m : RbMemory V) (toDelete : ℕ) : Option (RbMemory V) :=
  if (m.cell toDelete).left = rbtreeNull ∨ (m.cell toDelete).right = rbtreeNull then do
    let child := if (m.cell toDelete).left ≠ rbtreeNull then (m.cell toDelete).left else (m.cell toDelete).right
    let m ← m.changeParentPtr (m.cell toDelete).parent toDelete child
    let m ← m.changeChildPtr child toDelete (m.cell toDelete).parent
    if (m.cell toDelete).color = .red then some m
    else if (m.cell child).color = .red then some (if child ≠ rbtreeNull then m.setColor child .black else m)
    else m.rbtreeDeleteFixup fuel child (m.cell toDelete).parent
  else none

def rbtreeDelete (cmp : V → V → ℤ) (fuel : ℕ) (m : RbMemory V) (key : V) : Option (RbMemory V × Option ℕ) :=
  match m.rbtreeSearch cmp fuel key with
  | none => none
  | some none => some (m,none)
  | some (some toDelete) =>
    let m := { m with count := m.count - 1 }
    let swapped :=
      if (m.cell toDelete).left ≠ rbtreeNull ∧ (m.cell toDelete).right ≠ rbtreeNull then
        (m.smallestWalk fuel (m.cell toDelete).right).bind (m.swapNodes toDelete)
      else some m
    (swapped.bind fun m => m.unlinkNode fuel toDelete).map fun m =>
      (m.write toDelete ⟨rbtreeNull,rbtreeNull,rbtreeNull,.black⟩,some toDelete)

end RbMemory

end LogStats
