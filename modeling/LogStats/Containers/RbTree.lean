import LogStats.Library.ColoredTree

/-! # The red-black tree of dig_rb_tree.c

The loops of the source climb through parent pointers; here they recurse on the
path above the current node, nearest ancestor first. A comparison argument is the
source's `cmp` with the sought key already supplied. Failed asserts are `none`.
-/
namespace LogStats

variable {α : Type*}

structure RbTree (α : Type*) where
  root : Tree α
  count : ℕ

/-- The nodes in the order `RBTREE_FOR` visits them. -/
def RbTree.elems (t : RbTree α) : List α := t.root.toList

def rbtreeCreate : RbTree α := ⟨.null,0⟩

def rbtreeRotateLeft : Tree α → Tree α
  | .node c l v (.node c' rl w rr) => .node c' (.node c l v rl) w rr
  | t => t

def rbtreeRotateRight : Tree α → Tree α
  | .node c (.node c' ll w lr) v r => .node c' ll w (.node c lr v r)
  | t => t

@[simp] theorem toList_rotateLeft (t : Tree α) : (rbtreeRotateLeft t).toList = t.toList := by
  unfold rbtreeRotateLeft
  split <;> simp

@[simp] theorem toList_rotateRight (t : Tree α) : (rbtreeRotateRight t).toList = t.toList := by
  unfold rbtreeRotateRight
  split <;> simp

/-! ## Insertion -/

/-- The grandparent with the red node below its red parent and a black uncle: turn an
inner grandchild outwards, repaint and rotate at the grandparent. -/
def rbtreeInsertRotate (node : Tree α) (p g : Frame α) : Tree α :=
  match g.side with
  | .left =>
    let parent := p.plug node
    let parent := if p.side = .right then rbtreeRotateLeft parent else parent
    rbtreeRotateRight (.node .red (parent.paint .black) g.value g.other)
  | .right =>
    let parent := p.plug node
    let parent := if p.side = .left then rbtreeRotateRight parent else parent
    rbtreeRotateLeft (.node .red g.other g.value (parent.paint .black))

/-- Fix the red node `l v r` below `path`. A red parent is never the root, so the
two shortest paths only end the loop. -/
def rbtreeInsertFixup (l : Tree α) (v : α) (r : Tree α) : Path α → Tree α
  | [] => .node .black l v r
  | [p] => (zip (.node .red l v r) [p]).paint .black
  | p :: g :: rest =>
    if p.color = .black then (zip (.node .red l v r) (p :: g :: rest)).paint .black
    else if g.other.color = .red then
      let parent := { p with color := .black }.plug (.node .red l v r)
      let uncle := g.other.paint .black
      match g.side with
      | .left => rbtreeInsertFixup parent g.value uncle rest
      | .right => rbtreeInsertFixup uncle g.value parent rest
    else (zip (rbtreeInsertRotate (.node .red l v r) p g) rest).paint .black

/-- `rbtree_insert`: an equal node stops the walk and is returned unchanged. -/
def rbtreeInsert (cmp : α → ℤ) (t : RbTree α) (data : α) : RbTree α × α :=
  match locate cmp t.root [] with
  | (.node _ _ v _,_) => (t,v)
  | (.null,path) => (⟨rbtreeInsertFixup .null data .null path,t.count + 1⟩,data)

/-! ## Search -/

def rbtreeFindLessEqual (cmp : α → ℤ) : Tree α → Option α → Bool × Option α
  | .null, result => (false,result)
  | .node _ l v r, result =>
    if cmp v = 0 then (true,some v)
    else if cmp v < 0 then rbtreeFindLessEqual cmp l result
    else rbtreeFindLessEqual cmp r (some v)

def rbtreeSearch (cmp : α → ℤ) (t : RbTree α) : Option α :=
  match rbtreeFindLessEqual cmp t.root none with
  | (true,result) => result
  | (false,_) => none

/-! ## Deletion -/

/-- The end of `rbtree_delete_fixup`: the child under `p` is one black node short and
its sibling is not red with a red parent above. -/
def rbtreeDeleteFinish (child : Tree α) (p : Frame α) (rest : Path α) : Option (Tree α) :=
  let sibling := p.other
  if p.color = .red ∧ sibling.color = .black ∧ sibling.leftColor = .black ∧ sibling.rightColor = .black then
    some (zip ({ p with color := .black, other := sibling.paint .red }.plug child) rest)
  else match p.side with
    | .right =>
      let sibling :=
        if sibling.color = .black ∧ sibling.rightColor = .red ∧ sibling.leftColor = .black then
          rbtreeRotateLeft ((sibling.paint .red).paintRight .black)
        else sibling
      if sibling.leftColor = .red then
        some (zip (rbtreeRotateRight
          (.node .black ((sibling.paint p.color).paintLeft .black) p.value child)) rest)
      else none
    | .left =>
      let sibling :=
        if sibling.color = .black ∧ sibling.leftColor = .red ∧ sibling.rightColor = .black then
          rbtreeRotateRight ((sibling.paint .red).paintLeft .black)
        else sibling
      if sibling.rightColor = .red then
        some (zip (rbtreeRotateLeft
          (.node .black child p.value ((sibling.paint p.color).paintRight .black))) rest)
      else none

def rbtreeDeleteFixup (child : Tree α) : Path α → Option (Tree α)
  | [] => some child
  | p :: rest =>
    match p.other with
    | .node .red sl s sr =>
      -- the sibling moves above the parent, whose new sibling is one of its black children
      match p.side with
      | .right => rbtreeDeleteFinish child ⟨.right,.red,p.value,sr⟩ (⟨.right,.black,s,sl⟩ :: rest)
      | .left => rbtreeDeleteFinish child ⟨.left,.red,p.value,sl⟩ (⟨.left,.black,s,sr⟩ :: rest)
    | sibling =>
      if p.color = .black ∧ sibling.leftColor = .black ∧ sibling.rightColor = .black then
        rbtreeDeleteFixup ({ p with other := sibling.paint .red }.plug child) rest
      else rbtreeDeleteFinish child p rest

/-- Take a node with at most one child out of the tree. -/
def rbtreeUnlink (color : Color) (l r : Tree α) (path : Path α) : Option (Tree α) :=
  let child := if l.isNull then r else l
  if color = .red then some (zip child path)
  else if child.color = .red then some (zip (child.paint .black) path)
  else rbtreeDeleteFixup child path

/-- `smright`: the leftmost node, with its colour, its right subtree and its path. -/
def rbtreeSmallest (c : Color) (l : Tree α) (v : α) (r : Tree α) (p : Path α) :
    Color × α × Tree α × Path α :=
  match l with
  | .null => (c,v,r,p)
  | .node c' l' v' r' => rbtreeSmallest c' l' v' r' (⟨.left,c,v,r⟩ :: p)

/-- `rbtree_delete`: the node that leaves the tree, `none` if no node matches. -/
def rbtreeDelete (cmp : α → ℤ) (t : RbTree α) : Option (RbTree α × Option α) :=
  match locate cmp t.root [] with
  | (.null,_) => some (t,none)
  | (.node c l v r,path) => do
    let root ← match l, r with
      | .node lc ll lv lr, .node rc rl rv rr =>
        -- swap with the smallest node on the right: the colours stay where they are
        let (c',v',r',inner) := rbtreeSmallest rc rl rv rr []
        rbtreeUnlink c' .null r' (inner ++ ⟨.right,c,v',.node lc ll lv lr⟩ :: path)
      | l, r => rbtreeUnlink c l r path
    return (⟨root,t.count - 1⟩,some v)

/-! ## The order of the nodes -/

theorem toList_insertRotate (node : Tree α) (p g : Frame α) :
    (rbtreeInsertRotate node p g).toList = (g.plug (p.plug node)).toList := by
  cases hg : g.side <;> cases hp : p.side <;> simp [rbtreeInsertRotate, Frame.plug, hg, hp]

theorem toList_insertFixup (l : Tree α) (v : α) (r : Tree α) (path : Path α) :
    (rbtreeInsertFixup l v r path).toList = before path ++ (l.toList ++ v :: (r.toList ++ after path)) := by
  fun_induction rbtreeInsertFixup l v r path with
  | case1 => simp [before, after]
  | case2 l v r p =>
    rw [Tree.toList_paint, toList_zip]
    simp
  | case3 l v r p g rest hblack =>
    rw [Tree.toList_paint, toList_zip]
    simp
  | case4 l v r p g rest hblack hred parent uncle hside ih =>
    rw [ih]
    cases hp : p.side <;> simp [parent, uncle, Frame.plug, before, after, hside, hp]
  | case5 l v r p g rest hblack hred parent uncle hside ih =>
    rw [ih]
    cases hp : p.side <;> simp [parent, uncle, Frame.plug, before, after, hside, hp]
  | case6 l v r p g rest hblack hred =>
    rw [Tree.toList_paint, toList_zip, toList_insertRotate]
    cases hg : g.side <;> cases hp : p.side <;> simp [Frame.plug, before, after, hg, hp]

/-! ## Insertion keeps the colours -/

theorem insertRotate_balanced {l r : Tree α} {v : α} {p g : Frame α} {c : Color} {n : ℕ}
    (hl : Balanced l .black n) (hr : Balanced r .black n) (hpred : p.color = .red)
    (hpo : Balanced p.other .black n) (hgo : Balanced g.other c n) (hgb : c = .black) :
    Balanced (rbtreeInsertRotate (.node .red l v r) p g) .black (n + 1) := by
  subst hgb
  cases hg : g.side <;> cases hp : p.side <;>
    simp only [rbtreeInsertRotate, hg, hp, Frame.plug, hpred, reduceCtorEq, ↓reduceIte, rbtreeRotateLeft,
      rbtreeRotateRight, Tree.paint]
  · exact .black (.red hl hr) (.red hpo hgo)
  · exact .black (.red hpo hl) (.red hr hgo)
  · exact .black (.red hgo hl) (.red hr hpo)
  · exact .black (.red hgo hpo) (.red hl hr)

/-- Below a red parent with a red sibling both become black, and what is above them fits one
level up. -/
theorem insertRecolor_balanced {l r : Tree α} (v : α) {p g : Frame α} {rest : Path α} {n : ℕ}
    (hl : Balanced l .black n) (hr : Balanced r .black n) (hp : HoleFits (p :: g :: rest) .black n)
    (hpred : p.color = .red) (hred : g.other.color = .red) :
    Balanced ({ p with color := .black }.plug (.node .red l v r)) .black (n + 1) ∧
      Balanced (g.other.paint .black) .black (n + 1) ∧ HoleFits rest .black (n + 1) := by
  obtain ⟨-,hpo,hg⟩ := hp.under_red hpred
  obtain ⟨-,⟨c,hgo⟩,hrest⟩ := hg.of_red_hole
  obtain rfl : c = .red := hgo.color_eq.symm.trans hred
  exact ⟨.plug_black rfl (.red hl hr) hpo,hgo.paint_red_black,hrest⟩

theorem insertFixup_balanced {l r : Tree α} {v : α} {path : Path α} {n : ℕ}
    (hl : Balanced l .black n) (hr : Balanced r .black n) (hp : HoleFits path .black n) :
    ∃ m, Balanced (rbtreeInsertFixup l v r path) .black m := by
  fun_induction rbtreeInsertFixup l v r path generalizing n with
  | case1 => exact ⟨_,.black hl hr⟩
  | case2 l v r p =>
    obtain ⟨m,hm⟩ := (hp.under_black hp.last_black .red).zip (.red (v := v) hl hr)
    exact hm.paint_black
  | case3 l v r p g rest hblack =>
    obtain ⟨m,hm⟩ := (hp.under_black hblack .red).zip (.red (v := v) hl hr)
    exact hm.paint_black
  | case4 l v r p g rest hblack hred parent uncle hside =>
    rename_i ih
    obtain ⟨hparent,huncle,hrest⟩ := insertRecolor_balanced v hl hr hp (Color.eq_red hblack) hred
    exact ih hparent huncle hrest
  | case5 l v r p g rest hblack hred parent uncle hside =>
    rename_i ih
    obtain ⟨hparent,huncle,hrest⟩ := insertRecolor_balanced v hl hr hp (Color.eq_red hblack) hred
    exact ih huncle hparent hrest
  | case6 l v r p g rest hblack hred =>
    have hpred : p.color = .red := Color.eq_red hblack
    obtain ⟨-,hpo,hg⟩ := hp.under_red hpred
    obtain ⟨hgb,⟨c,hgo⟩,hrest⟩ := hg.of_red_hole
    have hc : c = .black := hgo.color_eq.symm.trans (Color.eq_black hred)
    obtain ⟨m,hm⟩ := hrest.zip (insertRotate_balanced hl hr hpred hpo hgo hc)
    exact hm.paint_black

/-! ## Deletion keeps the order and the colours -/

theorem deleteFinish_spec {child : Tree α} {p : Frame α} {rest : Path α} {n : ℕ}
    (hchild : Balanced child .black n) (ho : Balanced p.other .black (n + 1))
    (hrest : HoleFits rest p.color (n + 1 + p.color.weight))
    (hred : p.color = .black → ¬(p.other.leftColor = .black ∧ p.other.rightColor = .black)) :
    ∃ t m, rbtreeDeleteFinish child p rest = some t ∧ Balanced t .black m ∧
      t.toList = before (p :: rest) ++ (child.toList ++ after (p :: rest)) := by
  obtain ⟨s,k,v,o⟩ := p
  obtain ⟨sl,sv,sr,c₁,c₂,rfl,hl,hr⟩ := ho.black_succ
  simp only [Tree.leftColor, Tree.rightColor, hl.color_eq, hr.color_eq] at hred hrest
  have hlc := hl.color_eq
  have hrc := hr.color_eq
  have hlist := toList_zip child (⟨s,k,v,.node .black sl sv sr⟩ :: rest)
  rw [zip_cons, toList_zip] at hlist
  -- it is enough to name the subtree that replaces the parent
  have hend : ∀ t, rbtreeDeleteFinish child ⟨s,k,v,.node .black sl sv sr⟩ rest = some (zip t rest) →
      (∃ m, Balanced (zip t rest) .black m) →
      t.toList = ((⟨s,k,v,.node .black sl sv sr⟩ : Frame α).plug child).toList →
      ∃ t m, rbtreeDeleteFinish child ⟨s,k,v,.node .black sl sv sr⟩ rest = some t ∧ Balanced t .black m ∧
        t.toList = before (⟨s,k,v,.node .black sl sv sr⟩ :: rest) ++
          (child.toList ++ after (⟨s,k,v,.node .black sl sv sr⟩ :: rest)) := by
    rintro t ht ⟨m,hm⟩ hl
    exact ⟨_,m,ht,hm,by rw [toList_zip, hl, hlist]⟩
  have hnode : ∀ (a b : Tree α) (w : α), Balanced a .black (n + 1) → Balanced b .black (n + 1) →
      ∃ m, Balanced (zip (.node k a w b) rest) .black m := fun a b w ha hb => hrest.zip (.node k ha hb)
  cases c₁ with
  | black =>
    cases c₂ with
    | black =>
      -- only the parent is red: its red moves to the sibling
      obtain rfl : k = .red := by cases k <;> simp_all
      have hs : Balanced (.node .red sl sv sr) .red n := .red hl hr
      refine hend ((⟨s,.black,v,.node .red sl sv sr⟩ : Frame α).plug child) ?_
        (hrest.of_red.zip (Balanced.plug_black rfl hchild hs)) ?_
      · simp [rbtreeDeleteFinish, hlc, hrc]
      · cases s <;> simp [Frame.plug]
    | red =>
      obtain ⟨rl,rv,rr,rfl,hrl,hrr⟩ := hr.red_node
      cases s with
      | left =>
        refine hend (.node k (.node .black child v sl) sv (.node .black rl rv rr)) ?_
          (hnode _ _ _ (.black hchild hl) (.black hrl hrr)) (by simp [Frame.plug])
        simp [rbtreeDeleteFinish, rbtreeRotateLeft, hlc]
      | right =>
        refine hend (.node k (.node .black sl sv rl) rv (.node .black rr v child)) ?_
          (hnode _ _ _ (.black hl hrl) (.black hrr hchild)) (by simp [Frame.plug])
        simp [rbtreeDeleteFinish, rbtreeRotateLeft, rbtreeRotateRight, hlc]
  | red =>
    obtain ⟨ll,lv,lr,rfl,hll,hlr⟩ := hl.red_node
    cases s with
    | right =>
      refine hend (.node k (.node .black ll lv lr) sv (.node .black sr v child)) ?_
        (hnode _ _ _ (.black hll hlr) (.black hr hchild)) (by simp [Frame.plug])
      simp [rbtreeDeleteFinish, rbtreeRotateRight]
    | left =>
      cases c₂ with
      | black =>
        refine hend (.node k (.node .black child v ll) lv (.node .black lr sv sr)) ?_
          (hnode _ _ _ (.black hchild hll) (.black hlr hr)) (by simp [Frame.plug])
        simp [rbtreeDeleteFinish, rbtreeRotateLeft, rbtreeRotateRight, hrc]
      | red =>
        obtain ⟨rl,rv,rr,rfl,hrl,hrr⟩ := hr.red_node
        refine hend (.node k (.node .black child v (.node .red ll lv lr)) sv (.node .black rl rv rr)) ?_
          (hnode _ _ _ (.black hchild hl) (.black hrl hrr)) (by simp [Frame.plug])
        simp [rbtreeDeleteFinish, rbtreeRotateLeft]

theorem deleteFixup_spec {child : Tree α} {path : Path α} {n : ℕ}
    (hchild : Balanced child .black n) (hp : HoleFits path .black (n + 1)) :
    ∃ t m, rbtreeDeleteFixup child path = some t ∧ Balanced t .black m ∧
      t.toList = before path ++ (child.toList ++ after path) := by
  induction path generalizing child n with
  | nil => exact ⟨child,n,rfl,hchild,by simp [before, after]⟩
  | cons p rest ih =>
    have hrest := hp.tail
    cases hp with
    | @red s v o _ _ ho _ =>
      obtain ⟨sl,sv,sr,c₁,c₂,rfl,hl,hr⟩ := ho.black_succ
      simp only [rbtreeDeleteFixup, reduceCtorEq, false_and, ↓reduceIte]
      exact deleteFinish_spec hchild ho hrest (by simp)
    | @black s v o _ _ c' _ ho _ =>
      cases c' with
      | red =>
        obtain ⟨sl,sv,sr,rfl,hl,hr⟩ := ho.red_node
        cases s with
        | left =>
          have hup : HoleFits (⟨.left,.black,sv,sr⟩ :: rest) .red _ := .black hr hrest
          obtain ⟨t,m,ht,hm,hlist⟩ := deleteFinish_spec (p := ⟨.left,.red,v,sl⟩) hchild hl hup (by simp)
          exact ⟨t,m,ht,hm,by rw [hlist]; simp [before, after]⟩
        | right =>
          have hup : HoleFits (⟨.right,.black,sv,sl⟩ :: rest) .red _ := .black hl hrest
          obtain ⟨t,m,ht,hm,hlist⟩ := deleteFinish_spec (p := ⟨.right,.red,v,sr⟩) hchild hr hup (by simp)
          exact ⟨t,m,ht,hm,by rw [hlist]; simp [before, after]⟩
      | black =>
        obtain ⟨sl,sv,sr,c₁,c₂,rfl,hl,hr⟩ := ho.black_succ
        simp only [rbtreeDeleteFixup, Tree.leftColor_node, Tree.rightColor_node, hl.color_eq, hr.color_eq,
          true_and]
        split
        · -- the whole subtree is one short now: go up
          rename_i hkids
          obtain ⟨rfl,rfl⟩ := hkids
          have hsub : Balanced ((⟨s,.black,v,.node .red sl sv sr⟩ : Frame α).plug child) .black (n + 1) :=
            Balanced.plug_black rfl hchild (.red hl hr)
          obtain ⟨t,m,ht,hm,hlist⟩ := ih hsub hrest
          refine ⟨t,m,ht,hm,?_⟩
          rw [hlist]
          cases s <;> simp [Frame.plug, before, after]
        · rename_i hkids
          refine deleteFinish_spec hchild ho hrest (fun _ hboth => hkids ?_)
          simpa [hl.color_eq, hr.color_eq] using hboth

theorem unlink_spec {c : Color} {l r : Tree α} {v : α} {path : Path α} {n : ℕ}
    (ht : Balanced (.node c l v r) c n) (hone : l = .null ∨ r = .null) (hp : HoleFits path c n) :
    ∃ t m, rbtreeUnlink c l r path = some t ∧ Balanced t .black m ∧
      t.toList = before path ++ (l.toList ++ (r.toList ++ after path)) := by
  have hlist : (if l.isNull then r else l).toList = l.toList ++ r.toList := by
    rcases hone with rfl | rfl
    · simp [Tree.isNull]
    · cases l <;> simp [Tree.isNull]
  cases ht with
  | red hl hr =>
    have hchild : Balanced (if l.isNull then r else l) .black n := by split <;> assumption
    obtain ⟨m,hm⟩ := hp.of_red.zip hchild
    exact ⟨_,m,by simp [rbtreeUnlink],hm,by rw [toList_zip, hlist, List.append_assoc]⟩
  | @black _ _ _ c₁ c₂ n hl hr =>
    have hchild : ∃ c', Balanced (if l.isNull then r else l) c' n := by
      split
      · exact ⟨_,hr⟩
      · exact ⟨_,hl⟩
    obtain ⟨c',hc'⟩ := hchild
    cases c' with
    | red =>
      obtain ⟨m,hm⟩ := hp.zip hc'.paint_red_black
      refine ⟨_,m,?_,hm,?_⟩
      · simp [rbtreeUnlink, hc'.color_eq]
      · rw [toList_zip, Tree.toList_paint, hlist, List.append_assoc]
    | black =>
      obtain ⟨t,m,ht,hm,hl'⟩ := deleteFixup_spec hc' hp
      refine ⟨t,m,?_,hm,by rw [hl', hlist, List.append_assoc]⟩
      simpa [rbtreeUnlink, hc'.color_eq] using ht

theorem smallest_spec {c : Color} {l r : Tree α} {v : α} (q p : Path α) {n : ℕ}
    (ht : Balanced (.node c l v r) c n) (hp : HoleFits (q ++ p) c n) :
    ∃ c' v' r' inner m, rbtreeSmallest c l v r q = (c',v',r',inner) ∧ Balanced (.node c' .null v' r') c' m ∧
      HoleFits (inner ++ p) c' m ∧ zip (.node c' .null v' r') inner = zip (.node c l v r) q ∧
      (before q = [] → before inner = []) := by
  induction l generalizing c v r q n with
  | null => exact ⟨c,v,r,q,n,rfl,ht,hp,rfl,id⟩
  | node lc ll lv lr ihl ihr =>
    obtain ⟨c',m,hl,hfit⟩ := hp.left ht
    obtain rfl : lc = c' := hl.color_eq
    exact ihl (⟨.left,c,v,r⟩ :: q) hl hfit

structure RbTree.Valid (t : RbTree α) : Prop where
  balanced : ∃ n, Balanced t.root .black n
  count_eq : t.count = t.elems.length

theorem rbtreeCreate_valid : (rbtreeCreate : RbTree α).Valid := ⟨⟨0,.null⟩,rfl⟩

@[simp] theorem rbtreeCreate_elems : (rbtreeCreate : RbTree α).elems = [] := rfl

/-- Where the search for a missing key ends, the list of nodes splits. -/
theorem RbTree.locate_split {cmp : α → ℤ} {t : RbTree α} (hc : Cut cmp t.elems) :
    t.elems = before (locate cmp t.root []).2 ++ ((locate cmp t.root []).1.toList ++
      after (locate cmp t.root []).2) ∧
    (∀ a ∈ before (locate cmp t.root []).2, 0 < cmp a) ∧
    (∀ a ∈ after (locate cmp t.root []).2, cmp a < 0) := by
  refine ⟨?_,locate_sides cmp t.root [] hc (by simp [before]) (by simp [after])⟩
  rw [← toList_zip, zip_locate]
  rfl

/-- Insertion of a new key puts the node at its place in the order. -/
theorem rbtreeInsert_absent {cmp : α → ℤ} {t : RbTree α} (hv : t.Valid) (hc : Cut cmp t.elems)
    (hne : ∀ a ∈ t.elems, cmp a ≠ 0) (data : α) :
    ∃ xs ys t', rbtreeInsert cmp t data = (t',data) ∧ t.elems = xs ++ ys ∧ t'.elems = xs ++ data :: ys ∧
      (∀ a ∈ xs, 0 < cmp a) ∧ (∀ a ∈ ys, cmp a < 0) ∧ t'.Valid := by
  obtain ⟨hsplit,hb,ha⟩ := RbTree.locate_split hc
  obtain ⟨n,hbal⟩ := hv.balanced
  obtain ⟨c,m,hpos,hfit⟩ := locate_balanced cmp hbal HoleFits.root
  have hnull := (locate_null_iff cmp t.root hc).mpr hne
  cases hloc : locate cmp t.root [] with
  | mk sub path =>
    rw [hloc] at hsplit hb ha hpos hfit hnull
    obtain rfl : sub = .null := hnull
    cases hpos
    obtain ⟨k,hk⟩ := insertFixup_balanced (v := data) .null .null hfit
    have hlist := toList_insertFixup .null data .null path
    simp only [Tree.toList_null, List.nil_append] at hsplit hlist
    refine ⟨before path,after path,⟨rbtreeInsertFixup .null data .null path,t.count + 1⟩,?_,hsplit,hlist,hb,ha,
      ⟨k,hk⟩,?_⟩
    · simp [rbtreeInsert, hloc]
    · have hlen := congrArg List.length hsplit
      rw [← hv.count_eq, List.length_append] at hlen
      simp only [RbTree.elems, hlist, List.length_append, List.length_cons]
      omega

theorem rbtreeSearch_eq_locate (cmp : α → ℤ) (t : RbTree α) :
    rbtreeSearch cmp t = match (locate cmp t.root []).1 with
      | .null => none
      | .node _ _ v _ => some v := by
  have hfind : ∀ (u : Tree α) (result : Option α) (p : Path α),
      (match rbtreeFindLessEqual cmp u result with
        | (true,found) => found
        | (false,_) => none) = match (locate cmp u p).1 with
          | .null => none
          | .node _ _ v _ => some v := by
    intro u
    induction u with
    | null => intros; rfl
    | node c l v r ihl ihr =>
      intro result p
      simp only [rbtreeFindLessEqual, locate]
      by_cases hv : cmp v = 0
      · simp [hv]
      · simp only [if_neg hv]
        by_cases hlt : cmp v < 0
        · simp only [if_pos hlt]
          exact ihl _ _
        · simp only [if_neg hlt]
          exact ihr _ _
  exact hfind t.root none []

/-- For a value that is there `rbtree_insert` returns the node that holds it. -/
theorem rbtreeInsert_present {cmp : α → ℤ} {t : RbTree α} {a : α} (h : rbtreeSearch cmp t = some a) (data : α) :
    rbtreeInsert cmp t data = (t,a) := by
  rw [rbtreeSearch_eq_locate] at h
  unfold rbtreeInsert
  cases hloc : locate cmp t.root [] with
  | mk u path =>
    rw [hloc] at h
    cases u with
    | null => cases h
    | node c l v r =>
      obtain rfl := Option.some_inj.mp h
      rfl

theorem rbtreeSearch_none_iff {cmp : α → ℤ} {t : RbTree α} (hc : Cut cmp t.elems) :
    rbtreeSearch cmp t = none ↔ ∀ a ∈ t.elems, cmp a ≠ 0 := by
  rw [rbtreeSearch_eq_locate]
  refine Iff.trans ?_ (locate_null_iff cmp t.root hc)
  cases (locate cmp t.root []).1 <;> simp

theorem rbtreeSearch_some {cmp : α → ℤ} {t : RbTree α} {v : α} (h : rbtreeSearch cmp t = some v) :
    v ∈ t.elems ∧ cmp v = 0 := by
  rw [rbtreeSearch_eq_locate] at h
  cases hfound : (locate cmp t.root []).1 with
  | null => simp [hfound] at h
  | node c l w r =>
    simp only [hfound, Option.some.injEq] at h
    subst h
    refine ⟨?_,locate_value cmp t.root [] hfound⟩
    have hzip := zip_locate cmp t.root []
    rw [hfound, zip_nil] at hzip
    rw [RbTree.elems, ← hzip, toList_zip]
    simp

theorem rbtreeDelete_absent {cmp : α → ℤ} {t : RbTree α} (hc : Cut cmp t.elems)
    (hne : ∀ a ∈ t.elems, cmp a ≠ 0) : rbtreeDelete cmp t = some (t,none) := by
  have hnull := (locate_null_iff cmp t.root hc).mpr hne
  cases hloc : locate cmp t.root [] with
  | mk sub path =>
    rw [hloc] at hnull
    obtain rfl : sub = .null := hnull
    simp [rbtreeDelete, hloc]

/-- Deletion takes out the node that a search for the key returns, and no other. -/
theorem rbtreeDelete_present {cmp : α → ℤ} {t : RbTree α} (hv : t.Valid) (hc : Cut cmp t.elems) {v : α}
    (hs : rbtreeSearch cmp t = some v) :
    ∃ xs ys t', rbtreeDelete cmp t = some (t',some v) ∧ t.elems = xs ++ v :: ys ∧ t'.elems = xs ++ ys ∧
      t'.Valid := by
  obtain ⟨hsplit,-,-⟩ := RbTree.locate_split hc
  obtain ⟨n,hbal⟩ := hv.balanced
  obtain ⟨c,m,hpos,hfit⟩ := locate_balanced cmp hbal HoleFits.root
  rw [rbtreeSearch_eq_locate] at hs
  cases hloc : locate cmp t.root [] with
  | mk sub path =>
    rw [hloc] at hsplit hpos hfit hs
    cases sub with
    | null => simp at hs
    | node k l w r =>
      simp only [Option.some.injEq] at hs
      subst hs
      obtain rfl : k = c := hpos.color_eq
      have hcount : t.count - 1 = (before path ++ (l.toList ++ (r.toList ++ after path))).length := by
        rw [hv.count_eq, hsplit]
        simp only [Tree.toList_node, List.length_append, List.length_cons]
        omega
      have hfinish : ∀ root m, Balanced root .black m →
          root.toList = before path ++ (l.toList ++ (r.toList ++ after path)) →
          rbtreeDelete cmp t = some (⟨root,t.count - 1⟩,some w) →
          ∃ xs ys t', rbtreeDelete cmp t = some (t',some w) ∧ t.elems = xs ++ w :: ys ∧
            t'.elems = xs ++ ys ∧ t'.Valid := by
        intro root m hm hlist hdel
        refine ⟨before path ++ l.toList,r.toList ++ after path,_,hdel,?_,?_,⟨m,hm⟩,?_⟩
        · rw [hsplit]; simp
        · simp only [RbTree.elems, hlist, List.append_assoc]
        · simp only [RbTree.elems, hlist, hcount]
      cases l with
      | null =>
        obtain ⟨root,m',hroot,hm,hlist⟩ := unlink_spec hpos (Or.inl rfl) hfit
        exact hfinish root m' hm hlist (by simp [rbtreeDelete, hloc, hroot])
      | node lc ll lv lr =>
        cases r with
        | null =>
          obtain ⟨root,m',hroot,hm,hlist⟩ := unlink_spec hpos (Or.inr rfl) hfit
          exact hfinish root m' hm hlist (by simp [rbtreeDelete, hloc, hroot])
        | node rc rl rv rr =>
          -- the successor's value takes the place of the deleted one
          obtain ⟨c₁,m₁,hr,hfit₁⟩ := hfit.right hpos
          obtain rfl : rc = c₁ := hr.color_eq
          obtain ⟨c',v',r',inner,m₂,hsm,hnode,hinner,hzip,hbefore⟩ := smallest_spec []
            (⟨.right,k,(rbtreeSmallest rc rl rv rr []).2.1,.node lc ll lv lr⟩ :: path) hr (hfit₁.revalue _)
          rw [hsm] at hinner
          obtain ⟨root,m',hroot,hm,hlist⟩ := unlink_spec hnode (Or.inl rfl) hinner
          have hright := congrArg Tree.toList hzip
          rw [toList_zip, zip_nil, hbefore rfl] at hright
          refine hfinish root m' hm ?_ (by simp [rbtreeDelete, hloc, hsm, hroot])
          rw [hlist, before_append, after_append, hbefore rfl, ← hright]
          simp [before, after]

end LogStats
