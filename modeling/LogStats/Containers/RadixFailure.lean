import LogStats.Containers.RadixMap

/-! # Insertions that run out of memory

Here each allocation of a call has an outcome of its own. A call that stops in the middle
leaves the nodes that it has made as a chain with a leaf at its end, which the calls that
follow take for a stored prefix.
-/
namespace LogStats

variable {V : Type*}

/-- The second loop of `radix_tree_insert_node`, where `malloc a` says whether the node at the
address `a` can be had. -/
def radixTreeExtendEach (malloc : ℕ → Bool) (key : BitVec 32) : ℕ → BitVec 32 → ℕ → RadixTree V → Option ℕ × RadixTree V
  | 0, _, node, t => (some node,t)
  | mask + 1, bit, node, t =>
    match radixTreeAlloc (malloc t.brk) t with
    | (none,t) => (none,t)
    | (some next,t) =>
      radixTreeExtendEach malloc key mask (bit >>> 1) next
        ((t.write next ⟨none,none,some node,none⟩).setChild node (bitSet key bit) (some next))

def radixTreeInsertEach (malloc : ℕ → Bool) (t : RadixTree V) (key : BitVec 32) (mask : ℕ) (value : V) :
    RadixResult × RadixTree V :=
  match radixTreeInsertWalk t key mask topBit t.root with
  | (node,some _,_,_) => if (t.node node).value.isSome then (.dupKey,t) else (.succeed,t.fill node value)
  | (node,none,bit,mask) =>
    match radixTreeExtendEach malloc key mask bit node t with
    | (none,t) => (.noMemory,t)
    | (some node,t) => (.succeed,t.fill node value)

/-- Where every allocation has the same outcome this is `radixTreeInsertNode`. -/
theorem radixTreeInsertEach_const (malloc : Bool) (t : RadixTree V) (key : BitVec 32) (mask : ℕ) (value : V) :
    radixTreeInsertEach (fun _ => malloc) t key mask value = radixTreeInsertNode malloc t key mask value := by
  have hextend : ∀ (m : ℕ) (bit : BitVec 32) (node : ℕ) (t : RadixTree V),
      radixTreeExtendEach (fun _ => malloc) key m bit node t = radixTreeExtend malloc key m bit node t := by
    intro m
    induction m with
    | zero =>
      intros
      rfl
    | succ m ih =>
      intro bit node t
      rw [radixTreeExtendEach, radixTreeExtend]
      rcases radixTreeAlloc malloc t with ⟨_ | next,t⟩
      · rfl
      · exact ih _ _ _
  unfold radixTreeInsertEach radixTreeInsertNode
  rcases radixTreeInsertWalk t key mask topBit t.root with ⟨node,_ | found,bit,mask⟩
  · rcases hext : radixTreeExtend malloc key mask bit node t with ⟨_ | next,t'⟩
    · simp only [hextend, hext]
    · simp only [hextend, hext]
  · rfl

/-- A call; an insertion comes with the outcomes of its allocations. -/
inductive RadixCall (V : Type*) where
  | insert (malloc : ℕ → Bool) (key : BitVec 32) (mask : { n : ℕ // 1 ≤ n ∧ n ≤ 32 }) (value : V)
  | delete (key : BitVec 32) (mask : { n : ℕ // 1 ≤ n ∧ n ≤ 32 })

def radixCallStep (t : RadixTree V) (call : RadixCall V) : Option (RadixTree V) :=
  match call with
  | .insert malloc key mask value => some (radixTreeInsertEach malloc t key mask value).2
  | .delete key mask => (radixTreeDeleteNode t key mask).map Prod.snd

namespace RadixTree
variable {t t' : RadixTree V} {place : List Bool → Option ℕ} {free : List ℕ} {key : BitVec 32} {malloc : ℕ → Bool}

/-- An allocation fails where the free list is empty and `malloc` gives nothing. -/
theorem alloc_cases (b : Bool) (t : RadixTree V) :
    (t.free = none ∧ b = false) ∧ radixTreeAlloc b t = (none,t) ∨
    ¬(t.free = none ∧ b = false) ∧ radixTreeAlloc b t = radixTreeAlloc true t := by
  cases b with
  | true => exact Or.inr ⟨by simp,rfl⟩
  | false =>
    cases hfree : t.free with
    | none =>
      refine Or.inl ⟨⟨rfl,rfl⟩,?_⟩
      simp [radixTreeAlloc, hfree]
    | some a =>
      refine Or.inr ⟨by simp,?_⟩
      simp [radixTreeAlloc, hfree]

/-- What an extension from the prefix of `d` bits leaves: `j` nodes more in a chain. -/
structure Extended (t t' : RadixTree V) (place place' : List Bool → Option ℕ) (free' : List ℕ) (key : BitVec 32)
    (d j : ℕ) : Prop extends t'.Placed place' free' where
  tip : ∃ a, place' (bits key (d + j)) = some a
  leaf : 0 < j ∨ (∀ b, place (bits key d ++ [b]) = none) → ∀ b, place' (bits key (d + j) ++ [b]) = none
  held_eq : ∀ w, t'.held place' w = t.held place w
  count_eq : t'.count = t.count

theorem extendEach_spec {m d node : ℕ} (h : t.Placed place free) (hnode : place (bits key d) = some node)
    (hnext : 0 < m → place (bits key (d + 1)) = none) (hdm : d + m ≤ 32) :
    ∃ found t' place' free' j, radixTreeExtendEach malloc key m (topBit >>> d) node t = (found,t') ∧
      Extended t t' place place' free' key d j ∧ j ≤ m ∧
      (∀ a, found = some a → place' (bits key (d + m)) = some a) ∧
      (found = none → j = 0 → t' = t ∧ t.free = none ∧ malloc t.brk = false) ∧
      (0 < j → ¬(t.free = none ∧ malloc t.brk = false)) := by
  induction m generalizing t place free d node with
  | zero =>
    refine ⟨some node,t,place,free,0,rfl,⟨h,⟨node,hnode⟩,?_,fun _ => rfl,rfl⟩,le_rfl,?_,by simp,by simp⟩
    · rintro (hj | hleaf)
      · exact absurd hj (Nat.lt_irrefl 0)
      · exact hleaf
    · intro a ha
      rwa [← ha]
  | succ m ih =>
    have hno := hnext (Nat.succ_pos m)
    rw [bits_succ] at hno
    rcases alloc_cases (malloc t.brk) t with ⟨hfail,halloc⟩ | ⟨hgot,halloc⟩
    · refine ⟨none,t,place,free,0,?_,⟨h,⟨node,hnode⟩,?_,fun _ => rfl,rfl⟩,Nat.zero_le _,by simp,fun _ _ => ⟨rfl,hfail⟩,by simp⟩
      · simp only [radixTreeExtendEach, halloc]
      · rintro (hj | hleaf)
        · exact absurd hj (Nat.lt_irrefl 0)
        · exact hleaf
    · obtain ⟨x,t₁,free₁,halloc₁,h₁,hnew,hfree,hx,hsame,hcount⟩ := alloc_spec h
      have hheld₁ : ∀ w, t₁.held place w = t.held place w := by
        intro w
        apply Option.bind_congr
        intro c hc
        rw [hsame c (fun heq => hnew w (heq ▸ hc))]
      have h₂ := h₁.attach hnode hno (by rw [length_bits]; omega) hnew hfree hx
      rw [← bits_succ] at h₂
      have hbelow : ∀ b, Function.update place (bits key (d + 1)) (some x) (bits key (d + 1) ++ [b]) = none := by
        intro b
        rw [Function.update_of_ne (WordTree.word_ne _ b)]
        apply h.tree.closed
        rw [bits_succ]
        exact hno
      obtain ⟨found,t',place',free',j,hrun,hext,hj,hfound,-,-⟩ :=
        ih h₂ (by rw [Function.update_self]) (fun _ => by rw [@bits_succ key (d + 1)]; exact hbelow _) (by omega)
      rw [show d + 1 + m = d + (m + 1) by ring] at hfound
      have hsum : d + (j + 1) = d + 1 + j := by ring
      refine ⟨found,t',place',free',j + 1,?_,⟨hext.toPlaced,?_,?_,?_,?_⟩,by omega,hfound,by simp,fun _ => hgot⟩
      · simp only [radixTreeExtendEach, halloc, halloc₁]
        rw [topBit_succ, bitSet_topBit]
        exact hrun
      · rw [hsum]
        exact hext.tip
      · rw [hsum]
        exact fun _ => hext.leaf (Or.inr hbelow)
      · intro w
        rw [hext.held_eq, bits_succ, held_attach hno hnew, hheld₁]
      · rw [hext.count_eq, setChild_eq]
        exact hcount

/-- An insertion puts the value where the node is or ends as the extension does. -/
theorem insertEach_cases (h : t.Placed place free) {mask : ℕ} (hmask : mask ≤ 32) (value : V) :
    (∃ node, place (bits key mask) = some node ∧ radixTreeInsertEach malloc t key mask value =
      if (t.node node).value.isSome then (.dupKey,t) else (.succeed,t.fill node value)) ∨
    ∃ found t' place' free' d j, place (bits key (d + 1)) = none ∧ d < mask ∧
      Extended t t' place place' free' key d j ∧
      (∀ a, found = some a → place' (bits key mask) = some a) ∧
      (found = none → j = 0 → t' = t ∧ t.free = none ∧ malloc t.brk = false) ∧
      (0 < j → ¬(t.free = none ∧ malloc t.brk = false)) ∧
      radixTreeInsertEach malloc t key mask value = match found with
        | none => (.noMemory,t')
        | some node => (.succeed,t'.fill node value) := by
  have hwalk := @insertWalk_spec V t place free h key mask 0 t.root (by rw [bits_zero, h.root_eq])
  rw [topBit_zero] at hwalk
  rcases hwalk with ⟨node,hrun,hnode⟩ | ⟨k,hk,node,hrun,hnode,hno⟩
  · rw [Nat.zero_add] at hnode
    refine Or.inl ⟨node,hnode,?_⟩
    rw [radixTreeInsertEach, hrun]
  · obtain ⟨found,t',place',free',j,hext,hspec,hj,hfound,hnone,hsome⟩ :=
      @extendEach_spec V t place free key malloc (mask - k) (0 + k) node h hnode (fun _ => hno) (by omega)
    rw [show 0 + k + (mask - k) = mask by omega] at hfound
    refine Or.inr ⟨found,t',place',free',0 + k,j,hno,by omega,hspec,hfound,hnone,hsome,?_⟩
    rw [radixTreeInsertEach, hrun]
    simp only [hext]
    cases found <;> rfl

/-- A value filled in keeps the places, and the node's prefix holds it. -/
theorem Placed.fill {w : List Bool} {node : ℕ} (h : t.Placed place free) (hw : place w = some node) (value : V) :
    (t.fill node value).Placed place free ∧
      (t.fill node value).held place = PrefixMap.assign (t.held place) w (some value) := by
  have hset := h.setValue (v := some value) hw
  exact ⟨⟨hset.tree,hset.root_eq,hset.depth_le,hset.chained,hset.nodup,hset.apart,hset.place_lt,hset.free_lt⟩,
    funext (h.held_setValue hw)⟩

/-- An insertion that succeeds has found no value. -/
theorem insertEach_spec (h : t.Placed place free) {mask : ℕ} (hmask : mask ≤ 32) (malloc : ℕ → Bool) (key : BitVec 32)
    (value : V) : ∃ r t' place' free', radixTreeInsertEach malloc t key mask value = (r,t') ∧ t'.Placed place' free' ∧
      (r = .succeed → t.held place (bits key mask) = none ∧
        t'.held place' = PrefixMap.assign (t.held place) (bits key mask) (some value)) := by
  rcases @insertEach_cases V t place free key malloc h mask hmask value with
    ⟨node,hnode,hrun⟩ | ⟨found,t',place',free',d,j,hno,hd,hext,hfound,-,-,hrun⟩
  · by_cases hvalue : (t.node node).value.isSome
    · rw [if_pos hvalue] at hrun
      exact ⟨.dupKey,t,place,free,hrun,h,fun hr => by cases hr⟩
    · rw [if_neg hvalue] at hrun
      obtain ⟨hfill,hheld⟩ := h.fill hnode value
      refine ⟨.succeed,_,place,free,hrun,hfill,fun _ => ⟨?_,hheld⟩⟩
      rw [held_some hnode]
      simpa using hvalue
  · cases found with
    | none => exact ⟨.noMemory,t',place',free',hrun,hext.toPlaced,fun hr => by cases hr⟩
    | some node =>
      obtain ⟨hfill,hheld⟩ := hext.toPlaced.fill (hfound node rfl) value
      refine ⟨.succeed,_,place',free',hrun,hfill,fun _ => ⟨?_,?_⟩⟩
      · have hmissing := h.bits_none hno (mask - (d + 1))
        rw [show d + 1 + (mask - (d + 1)) = mask by omega] at hmissing
        exact held_none hmissing
      · rw [hheld, show t'.held place' = t.held place from funext hext.held_eq]

/-- A deletion finds its way below the root, or keeps to what it finds there. -/
theorem delete_spec (h : t.Placed place free) {mask : ℕ}
    (hroot : 1 ≤ mask ∨ (t.node t.root).right.isSome ∨ (t.node t.root).left.isSome) :
    ∃ r t' place' free', radixTreeDeleteNode t key mask = some (r,t') ∧ t'.Placed place' free' ∧
      (t.held place (bits key mask) ≠ none → r = .succeed ∧
        t'.held place' = PrefixMap.assign (t.held place) (bits key mask) none) := by
  cases hw : place (bits key mask) with
  | none => exact ⟨.failed,t,place,free,delete_missing h hw,h,fun hheld => absurd (held_none hw) hheld⟩
  | some a =>
    by_cases hkids : (t.node a).right.isSome ∨ (t.node a).left.isSome
    · by_cases hvalue : (t.node a).value.isSome
      · have hset := h.setValue (v := none) hw
        refine ⟨.succeed,{ t.setValue a none with count := t.count - 1 },place,free,?_,⟨hset.tree,hset.root_eq,
          hset.depth_le,hset.chained,hset.nodup,hset.apart,hset.place_lt,hset.free_lt⟩,
          fun _ => ⟨rfl,funext (h.held_setValue hw)⟩⟩
        rw [radixTreeDeleteNode, deleteWalk_root h, hw]
        simp only [hkids, ↓reduceIte, hvalue]
      · refine ⟨.failed,t,place,free,?_,h,fun hheld => absurd ?_ hheld⟩
        · rw [radixTreeDeleteNode, deleteWalk_root h, hw]
          simp only [hkids, ↓reduceIte, hvalue, Bool.false_eq_true]
        · rw [held_some hw]
          simpa using hvalue
    · have hmask : 1 ≤ mask := by
        by_contra hzero
        obtain rfl : mask = 0 := by omega
        rw [bits_zero, h.root_eq, Option.some.injEq] at hw
        exact hkids (hw ▸ hroot.resolve_left hzero)
      have hleaf : ∀ b, place (bits key mask ++ [b]) = none := by
        intro b
        by_contra hb
        exact hkids ((h.kids hw).mpr ⟨b,hb⟩)
      obtain ⟨t',place',free',hrun,h',hheld,-⟩ := delete_leaf h hmask hw hleaf
      exact ⟨.succeed,t',place',free',hrun,h',fun _ => ⟨rfl,funext hheld⟩⟩

/-! ## Reachable trees -/

theorem callStep_placed (h : t.Placed place free) (call : RadixCall V) :
    ∃ t' place' free', radixCallStep t call = some t' ∧ t'.Placed place' free' := by
  cases call with
  | insert malloc key mask value =>
    obtain ⟨r,t',place',free',hrun,h',-⟩ := insertEach_spec h mask.2.2 malloc key value
    exact ⟨t',place',free',by rw [radixCallStep, hrun],h'⟩
  | delete key mask =>
    obtain ⟨r,t',place',free',hrun,h',-⟩ := @delete_spec V t place free key h mask (Or.inl mask.2.1)
    exact ⟨t',place',free',by rw [radixCallStep, hrun]; rfl,h'⟩

theorem callRun_placed (h : t.Placed place free) {calls : List (RadixCall V)} (hrun : run radixCallStep t calls = some t') :
    ∃ place' free', t'.Placed place' free' := by
  induction calls generalizing t place free with
  | nil =>
    obtain rfl : t = t' := Option.some.inj hrun
    exact ⟨place,free,h⟩
  | cons call calls ih =>
    obtain ⟨t₁,place₁,free₁,hstep,h₁⟩ := callStep_placed h call
    rw [run_cons_some hstep] at hrun
    exact ih h₁ hrun

/-! ## What a caller sees -/

/-- What a deletion returns and how it changes the count, after some calls. -/
def laterDelete (t : RadixTree V) (calls : List (RadixCall V)) (key : BitVec 32) (mask : ℕ) :
    Option (RadixResult × UInt32) :=
  (run radixCallStep t calls).bind fun u => (radixTreeDeleteNode u key mask).map fun r => (r.1,r.2.count - u.count)

/-- No caller can tell the trees apart. -/
structure Alike (t t' : RadixTree V) : Prop where
  find : ∀ key fuel, 33 ≤ fuel → radixTreeFind t' key fuel = radixTreeFind t key fuel
  count : t'.count = t.count
  delete : ∀ calls key mask, t'.laterDelete calls key mask = t.laterDelete calls key mask

theorem Alike.refl (t : RadixTree V) : t.Alike t := ⟨fun _ _ _ => rfl,rfl,fun _ _ _ => rfl⟩

theorem Placed.find_eq (h : t.Placed place free) {fuel : ℕ} (hfuel : 33 ≤ fuel) :
    radixTreeFind t key fuel = some (PrefixMap.longest (t.held place) (bits key) 32) := by
  have hwalk := @findWalk_eq V t place free h (t.held place) (fun _ => rfl) key fuel 0 hfuel
  rwa [topBit_zero, bits_zero, h.root_eq] at hwalk

/-- A chain that was left over shows in the deletion of its tip. -/
theorem Extended.not_alike {place' : List Bool → Option ℕ} {free' : List ℕ} {d j : ℕ} (h : t.Placed place free)
    (hext : Extended t t' place place' free' key d j) (hno : place (bits key (d + 1)) = none) (hj : 0 < j) :
    ¬t.Alike t' := by
  intro halike
  have hmissing : place (bits key (d + j)) = none := by
    obtain ⟨k,rfl⟩ : ∃ k, j = k + 1 := ⟨j - 1,by omega⟩
    rw [show d + (k + 1) = d + 1 + k by ring]
    exact h.bits_none hno k
  obtain ⟨a,ha⟩ := hext.tip
  obtain ⟨u,-,-,hdelete,-⟩ := delete_leaf hext.toPlaced (by omega) ha (hext.leaf (Or.inl hj))
  have hsame := halike.delete [] key (d + j)
  simp only [laterDelete, run_nil, Option.bind_some, hdelete, delete_missing h hmissing, Option.map_some] at hsame
  cases hsame

end RadixTree

open RadixTree

/-- An insertion that returns NO_MEMORY changes neither what is found nor the count, and it is
atomic if and only if it was the first allocation that failed. -/
theorem radixTreeInsert_atomic_iff {t : RadixTree V} {calls : List (RadixCall V)}
    (hreach : run radixCallStep radixTreeCreate calls = some t) (malloc : ℕ → Bool) (key : BitVec 32)
    (mask : { n : ℕ // 1 ≤ n ∧ n ≤ 32 }) (value : V)
    (hfail : (radixTreeInsertEach malloc t key mask value).1 = .noMemory) :
    (∀ k fuel, 33 ≤ fuel →
      radixTreeFind (radixTreeInsertEach malloc t key mask value).2 k fuel = radixTreeFind t k fuel) ∧
    (radixTreeInsertEach malloc t key mask value).2.count = t.count ∧
    (t.Alike (radixTreeInsertEach malloc t key mask value).2 ↔ t.free = none ∧ malloc t.brk = false) := by
  obtain ⟨place,free,h⟩ := callRun_placed create_holds.toPlaced hreach
  rcases @insertEach_cases V t place free key malloc h mask mask.2.2 value with
    ⟨node,-,hrun⟩ | ⟨found,t',place',free',d,j,hno,-,hext,-,hnone,hsome,hrun⟩
  · rw [hrun] at hfail
    split at hfail <;> cases hfail
  · cases found with
    | some node =>
      rw [hrun] at hfail
      cases hfail
    | none =>
      rw [hrun]
      refine ⟨fun k fuel hfuel => ?_,hext.count_eq,fun halike => ?_,fun hfirst => ?_⟩
      · rw [hext.toPlaced.find_eq hfuel, h.find_eq hfuel, show t'.held place' = t.held place from funext hext.held_eq]
      · by_contra hlater
        apply Extended.not_alike h hext hno _ halike
        by_contra hzero
        exact hlater (hnone rfl (by omega)).2
      · have hzero : j = 0 := by
          by_contra hpos
          exact hsome (by omega) hfirst
        rw [(hnone rfl hzero).1]
        exact Alike.refl t

/-- A node that can be had for the first bit and none for the second. -/
theorem radixTreeInsert_atomic_iff_second :
    ((radixTreeInsertEach (fun a => decide (a < 2)) (radixTreeCreate : RadixTree ℕ) 0xC0000000 2 7).1 = .noMemory) ∧
    ¬(radixTreeCreate : RadixTree ℕ).Alike
      (radixTreeInsertEach (fun a => decide (a < 2)) (radixTreeCreate : RadixTree ℕ) 0xC0000000 2 7).2 := by
  have hfail : (radixTreeInsertEach (fun a => decide (a < 2)) (radixTreeCreate : RadixTree ℕ) 0xC0000000 2 7).1 =
      .noMemory := by decide
  refine ⟨hfail,fun halike => ?_⟩
  have hfirst := (@radixTreeInsert_atomic_iff ℕ radixTreeCreate [] rfl _ _ ⟨2,by decide⟩ _ hfail).2.2.mp halike
  exact absurd hfirst.2 (by decide)

/-- The prefix of one bit, which was never stored, is deleted after the failure. -/
theorem radixTreeInsert_not_atomic : ∃ malloc : ℕ → Bool,
    (radixTreeInsertEach malloc (radixTreeCreate : RadixTree ℕ) 0xC0000000 2 7).1 = .noMemory ∧
    ((radixTreeDeleteNode (radixTreeCreate : RadixTree ℕ) 0xC0000000 1).map fun r => (r.1,r.2.count)) =
      some (.failed,0) ∧
    ((radixTreeDeleteNode (radixTreeInsertEach malloc (radixTreeCreate : RadixTree ℕ) 0xC0000000 2 7).2
      0xC0000000 1).map fun r => (r.1,r.2.count)) = some (.succeed,0xFFFFFFFF) :=
  ⟨fun a => decide (a < 2),by decide,by decide,by decide⟩

end LogStats
