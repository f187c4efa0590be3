import LogStats.Containers.RadixTree
import Mathlib.Tactic.Ring

/-! # The radix tree is a map from prefixes to values

Each node of the tree has a place, the word of the bits that lead to it, and the map holds
a word where the node there has a value. Every leaf below the root has one, but for the
tip of a chain of nodes that is being made or taken away.
-/
namespace LogStats

variable {V : Type*}

/-- The top bits of a key. -/
def bits (key : BitVec 32) (n : ℕ) : List Bool := (List.range n).map key.getMsbD

section Bits
variable {key : BitVec 32} {d n : ℕ}

@[simp] theorem bits_zero : bits key 0 = [] := rfl

theorem bits_succ : bits key (n + 1) = bits key n ++ [key.getMsbD n] := by
  rw [bits, List.range_succ, List.map_append]
  rfl

@[simp] theorem length_bits : (bits key n).length = n := by rw [bits, List.length_map, List.length_range]

theorem bits_ne_nil (hn : 1 ≤ n) : bits key n ≠ [] := by
  intro heq
  have hlen := congrArg List.length heq
  rw [length_bits, List.length_nil] at hlen
  omega

theorem topBit_succ : (topBit >>> d) >>> 1 = topBit >>> (d + 1) := (BitVec.shiftRight_add topBit d 1).symm

theorem topBit_shift : ∀ d < 32, topBit >>> d = BitVec.twoPow 32 (31 - d) := by decide

theorem bitSet_topBit : bitSet key (topBit >>> d) = key.getMsbD d := by
  by_cases hd : d < 32
  · have htwo : BitVec.twoPow 32 (31 - d) ≠ 0#32 := by
      rw [← topBit_shift d hd]
      revert d
      decide
    rw [bitSet, topBit_shift d hd, BitVec.and_twoPow, BitVec.getMsbD_eq_getLsbD]
    cases key.getLsbD (31 - d) <;> simp [hd, htwo]
  · have hzero : topBit >>> d = 0#32 := BitVec.ushiftRight_eq_zero (by omega)
    rw [bitSet, hzero, BitVec.getMsbD_of_ge _ _ (by omega)]
    simp

end Bits

namespace RadixTree
variable {t t' : RadixTree V} {a c : ℕ} {b b' : Bool} {p : Option ℕ} {n : RadixNode V} {v : Option V}

@[simp] theorem write_node : (t.write a n).node = Function.update t.node a n := rfl
@[simp] theorem write_root : (t.write a n).root = t.root := rfl
@[simp] theorem write_free : (t.write a n).free = t.free := rfl
@[simp] theorem write_count : (t.write a n).count = t.count := rfl
@[simp] theorem write_brk : (t.write a n).brk = t.brk := rfl

theorem child_write : (t.write a n).child c b = if c = a then (if b then n.right else n.left) else t.child c b := by
  by_cases h : c = a
  · subst h
    simp [child]
  · simp [child, h]

theorem parent_write : ((t.write a n).node c).parent = if c = a then n.parent else (t.node c).parent := by
  by_cases h : c = a
  · subst h
    simp
  · simp [h]

theorem value_write : ((t.write a n).node c).value = if c = a then n.value else (t.node c).value := by
  by_cases h : c = a
  · subst h
    simp
  · simp [h]

theorem right_write : ((t.write a n).node c).right = if c = a then n.right else (t.node c).right := by
  by_cases h : c = a
  · subst h
    simp
  · simp [h]

/-- The node that a link is set in, all else being as it was. -/
def withChild (n : RadixNode V) (b : Bool) (p : Option ℕ) : RadixNode V :=
  if b then { n with right := p } else { n with left := p }

theorem setChild_eq : t.setChild a b p = t.write a (withChild (t.node a) b p) := by
  cases b <;> rfl

@[simp] theorem withChild_parent : (withChild n b p).parent = n.parent := by cases b <;> rfl
@[simp] theorem withChild_value : (withChild n b p).value = n.value := by cases b <;> rfl

theorem child_setChild : (t.setChild a b p).child c b' = if (c,b') = (a,b) then p else t.child c b' := by
  rw [setChild_eq, child_write]
  by_cases h : c = a
  · subst h
    cases b <;> cases b' <;> simp [withChild, child]
  · simp [h]

theorem parent_setChild : ((t.setChild a b p).node c).parent = (t.node c).parent := by
  rw [setChild_eq, parent_write]
  split
  · rename_i h
    rw [h, withChild_parent]
  · rfl

theorem value_setChild : ((t.setChild a b p).node c).value = (t.node c).value := by
  rw [setChild_eq, value_write]
  split
  · rename_i h
    rw [h, withChild_value]
  · rfl

theorem right_setChild (h : c ≠ a) : ((t.setChild a b p).node c).right = (t.node c).right := by
  rw [setChild_eq, right_write, if_neg h]

/-! ## Places -/

/-- The nodes of the tree by the words that lead to them, and those of the free list. -/
structure Placed (t : RadixTree V) (place : List Bool → Option ℕ) (free : List ℕ) : Prop where
  tree : WordTree t.child (fun a => (t.node a).parent) place
  root_eq : place [] = some t.root
  depth_le : ∀ w a, place w = some a → w.length ≤ 32
  chained : Chained (fun a => (t.node a).right) t.free free
  nodup : free.Nodup
  apart : ∀ w a, place w = some a → a ∉ free
  place_lt : ∀ w a, place w = some a → a < t.brk
  free_lt : ∀ a ∈ free, a < t.brk

/-- What the node at a word holds. -/
def held (t : RadixTree V) (place : List Bool → Option ℕ) (w : List Bool) : Option V :=
  (place w).bind fun a => (t.node a).value

section Placed
variable {place : List Bool → Option ℕ} {free : List ℕ} {w : List Bool} {x : ℕ}

theorem alloc_spec (h : t.Placed place free) : ∃ x t' free', radixTreeAlloc true t = (some x,t') ∧
    t'.Placed place free' ∧ (∀ u, place u ≠ some x) ∧ x ∉ free' ∧ x < t'.brk ∧ (∀ c, c ≠ x → t'.node c = t.node c) ∧
    t'.count = t.count := by
  obtain ⟨htree,hroot,hdepth,hchain,hnodup,hapart,hplace,hfree⟩ := h
  rw [radixTreeAlloc]
  cases hf : t.free with
  | none =>
    refine ⟨t.brk,_,free,rfl,⟨htree,hroot,hdepth,hf ▸ hchain,hnodup,hapart,?_,?_⟩,?_,?_,Nat.lt_succ_self _,
      fun _ _ => rfl,rfl⟩
    · exact fun u c hu => (hplace u c hu).trans (Nat.lt_succ_self _)
    · exact fun c hc => (hfree c hc).trans (Nat.lt_succ_self _)
    · exact fun u hu => (hplace u _ hu).false
    · exact fun hin => (hfree _ hin).false
  | some ptr =>
    rw [hf] at hchain
    cases free with
    | nil => cases hchain
    | cons y ys =>
      obtain ⟨hy,hys⟩ := hchain
      obtain rfl := Option.some.inj hy
      obtain ⟨hnot,hnd⟩ := List.nodup_cons.mp hnodup
      have hne : ∀ u c, place u = some c → c ≠ ptr := fun u c hu hc =>
        hapart u c hu (hc ▸ List.mem_cons_self)
      refine ⟨ptr,_,ys,rfl,⟨htree.congr ?_ ?_,hroot,hdepth,?_,hnd,?_,hplace,?_⟩,?_,hnot,hfree _ List.mem_cons_self,?_,rfl⟩
      · intro u c hu
        funext b
        rw [child_write, if_neg (hne u c hu)]
        rfl
      · intro u c hu
        rw [parent_write, if_neg (hne u c hu)]
      · apply hys.congr
        intro c hc
        rw [right_write, if_neg (fun heq : c = ptr => hnot (heq ▸ hc))]
      · exact fun u c hu hc => hapart u c hu (List.mem_cons_of_mem _ hc)
      · exact fun c hc => hfree c (List.mem_cons_of_mem _ hc)
      · exact fun u hu => hne u _ hu rfl
      · exact fun c hc => Function.update_of_ne hc _ _

/-- A node that was allocated is hung below another. -/
theorem Placed.attach (h : t.Placed place free) (hw : place w = some a) (hno : place (w ++ [b]) = none)
    (hlen : w.length < 32) (hnew : ∀ u, place u ≠ some x) (hfree : x ∉ free) (hx : x < t.brk) :
    ((t.write x ⟨none,none,some a,none⟩).setChild a b (some x)).Placed (Function.update place (w ++ [b]) (some x)) free := by
  have hne : ∀ u c, place u = some c → c ≠ x := fun u c hu hc => hnew u (hc ▸ hu)
  have hax : a ≠ x := hne w a hw
  have hnot : a ∉ free := h.apart w a hw
  have hcases : ∀ u c, Function.update place (w ++ [b]) (some x) u = some c →
      (u = w ++ [b] ∧ c = x) ∨ place u = some c := by
    intro u c hu
    by_cases hu' : u = w ++ [b]
    · rw [hu', Function.update_self, Option.some.injEq] at hu
      exact Or.inl ⟨hu',hu.symm⟩
    · rw [Function.update_of_ne hu'] at hu
      exact Or.inr hu
  constructor
  · refine h.tree.attach hw hno hnew ?_ ?_ ?_ ?_ ?_
    · intro b'
      rw [child_setChild, if_neg (fun heq => hax (Prod.mk.inj heq).1.symm), child_write, if_pos rfl]
      cases b' <;> rfl
    · rw [child_setChild, if_pos rfl]
    · intro u c hu b' hcb
      rw [child_setChild, if_neg hcb, child_write, if_neg (hne u c hu)]
    · rw [parent_setChild, parent_write, if_pos rfl]
    · intro u c hu
      rw [parent_setChild, parent_write, if_neg (hne u c hu)]
  · rw [Function.update_of_ne (by simp), h.root_eq, setChild_eq]
    rfl
  · intro u c hu
    rcases hcases u c hu with ⟨rfl,-⟩ | hold
    · rw [List.length_append, List.length_singleton]
      exact hlen
    · exact h.depth_le u c hold
  · rw [setChild_eq]
    apply h.chained.congr
    intro c hc
    rw [right_write, if_neg (fun heq : c = a => hnot (heq ▸ hc)), right_write,
      if_neg (fun heq : c = x => hfree (heq ▸ hc))]
  · exact h.nodup
  · intro u c hu
    rcases hcases u c hu with ⟨-,rfl⟩ | hold
    · exact hfree
    · exact h.apart u c hold
  · intro u c hu
    rw [setChild_eq]
    rcases hcases u c hu with ⟨-,rfl⟩ | hold
    · exact hx
    · exact h.place_lt u c hold
  · intro c hc
    rw [setChild_eq]
    exact h.free_lt c hc

theorem held_none (h : place w = none) : t.held place w = none := by rw [held, h]; rfl

theorem held_some (h : place w = some a) : t.held place w = (t.node a).value := by rw [held, h]; rfl

theorem Placed.placed_of_held (h : t.held place w ≠ none) : ∃ a, place w = some a := by
  cases hw : place w with
  | none => exact absurd (held_none hw) h
  | some a => exact ⟨a,rfl⟩

/-- What the nodes hold after a leaf without a value was hung up. -/
theorem held_attach (hno : place (w ++ [b]) = none) (hnew : ∀ u, place u ≠ some x) (u : List Bool) :
    ((t.write x ⟨none,none,some a,none⟩).setChild a b (some x)).held (Function.update place (w ++ [b]) (some x)) u =
      t.held place u := by
  by_cases hu : u = w ++ [b]
  · rw [hu, held_none hno, held, Function.update_self, Option.bind_some, value_setChild, value_write, if_pos rfl]
  · rw [held, held, Function.update_of_ne hu]
    apply Option.bind_congr
    intro c hc
    rw [value_setChild, value_write, if_neg (fun heq : c = x => hnew u (heq ▸ hc))]

/-- Every leaf below the root has a value, but for the tip. -/
def Leafy (place : List Bool → Option ℕ) (M : PrefixMap V) (tip : List Bool) : Prop :=
  ∀ w, w ≠ [] → w ≠ tip → place w ≠ none → M w ≠ none ∨ ∃ b, place (w ++ [b]) ≠ none

theorem Leafy.attach {M : PrefixMap V} (h : Leafy place M w) (hw : place w ≠ none) :
    Leafy (Function.update place (w ++ [b]) (some x)) M (w ++ [b]) := by
  intro u hu htip hplace
  rw [Function.update_of_ne htip] at hplace
  by_cases hu' : u = w
  · subst hu'
    exact Or.inr ⟨b,by rw [Function.update_self]; exact Option.some_ne_none x⟩
  · rcases h u hu hu' hplace with hval | ⟨b',hb'⟩
    · exact Or.inl hval
    · refine Or.inr ⟨b',?_⟩
      rwa [Function.update_of_ne]
      intro hlast
      exact hu' (List.append_inj' hlast rfl).1

theorem extend_spec {key : BitVec 32} {M : PrefixMap V} {m d node : ℕ} (h : t.Placed place free)
    (hnode : place (bits key d) = some node) (hnext : 0 < m → place (bits key (d + 1)) = none) (hdm : d + m ≤ 32)
    (hheld : ∀ w, t.held place w = M w) (hleafy : Leafy place M (bits key d)) :
    ∃ node' t' place' free', radixTreeExtend true key m (topBit >>> d) node t = (some node',t') ∧
      t'.Placed place' free' ∧ place' (bits key (d + m)) = some node' ∧ (∀ w, t'.held place' w = M w) ∧
      Leafy place' M (bits key (d + m)) ∧ t'.count = t.count := by
  induction m generalizing t place free d node with
  | zero => exact ⟨node,t,place,free,rfl,h,hnode,hheld,hleafy,rfl⟩
  | succ m ih =>
    have hno := hnext (Nat.succ_pos m)
    rw [bits_succ] at hno
    obtain ⟨x,t₁,free₁,halloc,h₁,hnew,hfree,hx,hsame,hcount⟩ := alloc_spec h
    have hheld₁ : ∀ w, t₁.held place w = M w := by
      intro w
      rw [← hheld w, held, held]
      exact Option.bind_congr fun c hc => by rw [hsame c (fun heq => hnew w (heq ▸ hc))]
    have h₂ := h₁.attach hnode hno (by rw [length_bits]; omega) hnew hfree hx
    have hleafy₂ := hleafy.attach (b := key.getMsbD d) (x := x) (by rw [hnode]; exact Option.some_ne_none node)
    rw [← bits_succ] at h₂ hleafy₂
    have hbelow : place (bits key (d + 2)) = none := by
      rw [bits_succ]
      exact h.tree.closed _ _ (by rw [bits_succ]; exact hno)
    obtain ⟨node',t',place',free',hrun,h',hnode',hheld',hleafy',hcount'⟩ := ih h₂ (by rw [Function.update_self])
      (fun _ => by
        rw [Function.update_of_ne, hbelow]
        intro heq
        have hlen := congrArg List.length heq
        simp at hlen)
      (by omega) (fun w => by
        rw [bits_succ, held_attach hno hnew]
        exact hheld₁ w) hleafy₂
    rw [show d + (m + 1) = d + 1 + m by ring]
    refine ⟨node',t',place',free',?_,h',hnode',hheld',hleafy',?_⟩
    · simp only [radixTreeExtend, halloc]
      rw [topBit_succ, bitSet_topBit]
      exact hrun
    · rw [hcount', setChild_eq]
      exact hcount

/-- A value is written. -/
theorem Placed.setValue (h : t.Placed place free) (hw : place w = some a) : (t.setValue a v).Placed place free := by
  have hchild : ∀ c b, (t.setValue a v).child c b = t.child c b := by
    intro c b
    rw [RadixTree.setValue, child_write]
    split
    · rename_i hc
      rw [hc]
      rfl
    · rfl
  have hparent : ∀ c, ((t.setValue a v).node c).parent = (t.node c).parent := by
    intro c
    rw [RadixTree.setValue, parent_write]
    split
    · rename_i hc
      rw [hc]
    · rfl
  refine ⟨h.tree.congr (fun u c _ => funext (hchild c)) (fun u c _ => hparent c),h.root_eq,h.depth_le,?_,h.nodup,h.apart,
    h.place_lt,h.free_lt⟩
  apply h.chained.congr
  intro c hc
  rw [RadixTree.setValue, right_write, if_neg (fun heq : c = a => h.apart w a hw (heq ▸ hc))]

theorem Placed.held_setValue (h : t.Placed place free) (hw : place w = some a) (u : List Bool) :
    (t.setValue a v).held place u = PrefixMap.assign (t.held place) w v u := by
  by_cases hu : u = w
  · subst hu
    rw [PrefixMap.assign_self, held_some hw, RadixTree.setValue, value_write, if_pos rfl]
  · rw [PrefixMap.assign_of_ne hu, held, held]
    apply Option.bind_congr
    intro c hc
    rw [RadixTree.setValue, value_write, if_neg]
    rintro rfl
    exact hu (h.tree.inj u w c hc hw)

/-- A leaf goes from its parent to the free list. -/
theorem Placed.detach (h : t.Placed place free) (hw : place w = some a) (hx : place (w ++ [b]) = some x)
    (hleaf : ∀ b', place (w ++ [b] ++ [b']) = none) :
    ({ (t.setChild a b none).setRight x t.free with free := some x } : RadixTree V).Placed
      (Function.update place (w ++ [b]) none) (x :: free) := by
  have hax : a ≠ x := fun heq => WordTree.word_ne w b (h.tree.inj _ _ _ hx (heq ▸ hw))
  have hold : ∀ u c, Function.update place (w ++ [b]) none u = some c → place u = some c ∧ c ≠ x := by
    intro u c hu
    by_cases hu' : u = w ++ [b]
    · rw [hu', Function.update_self] at hu
      cases hu
    · rw [Function.update_of_ne hu'] at hu
      exact ⟨hu,fun heq => hu' (h.tree.inj _ _ _ hu (heq ▸ hx))⟩
  have hbrk : ({ (t.setChild a b none).setRight x t.free with free := some x } : RadixTree V).brk = t.brk := by
    rw [setChild_eq]
    rfl
  constructor
  · refine h.tree.detach hw hleaf ?_ ?_ ?_
    · exact (child_write.trans (if_neg hax)).trans (child_setChild.trans (if_pos rfl))
    · intro u c hu hc b' hcb
      have hcx : c ≠ x := fun heq => hu (h.tree.inj _ _ _ hc (heq ▸ hx))
      exact (child_write.trans (if_neg hcx)).trans (child_setChild.trans (if_neg hcb))
    · intro u c hu hc
      have hcx : c ≠ x := fun heq => hu (h.tree.inj _ _ _ hc (heq ▸ hx))
      exact (parent_write.trans (if_neg hcx)).trans parent_setChild
  · rw [Function.update_of_ne (by simp), h.root_eq, setChild_eq]
    rfl
  · exact fun u c hu => h.depth_le u c (hold u c hu).1
  · refine ⟨rfl,?_⟩
    have hnext : ((t.setChild a b none).setRight x t.free).node x =
        { (t.setChild a b none).node x with right := t.free } := Function.update_self ..
    simp only [hnext]
    apply h.chained.congr
    intro c hc
    have hcx : c ≠ x := fun heq => h.apart _ _ hx (heq ▸ hc)
    have hca : c ≠ a := fun heq => h.apart _ _ hw (heq ▸ hc)
    exact (right_write.trans (if_neg hcx)).trans (right_setChild hca)
  · exact List.nodup_cons.mpr ⟨h.apart _ _ hx,h.nodup⟩
  · intro u c hu hc
    obtain ⟨hu,hne⟩ := hold u c hu
    rcases List.mem_cons.mp hc with hc | hc
    · exact hne hc
    · exact h.apart u c hu hc
  · intro u c hu
    rw [hbrk]
    exact h.place_lt u c (hold u c hu).1
  · intro c hc
    rw [hbrk]
    rcases List.mem_cons.mp hc with rfl | hc
    · exact h.place_lt _ _ hx
    · exact h.free_lt c hc

theorem Placed.held_detach (h : t.Placed place free) (hx : place (w ++ [b]) = some x)
    {u : List Bool} (hu : u ≠ w ++ [b]) :
    ({ (t.setChild a b none).setRight x t.free with free := some x } : RadixTree V).held
      (Function.update place (w ++ [b]) none) u = t.held place u := by
  rw [held, held, Function.update_of_ne hu]
  apply Option.bind_congr
  intro c hc
  have hcx : c ≠ x := fun heq => hu (h.tree.inj _ _ _ hc (heq ▸ hx))
  exact (value_write.trans (if_neg hcx)).trans value_setChild

theorem Leafy.detach {M : PrefixMap V} (h : Leafy place M (w ++ [b])) :
    Leafy (Function.update place (w ++ [b]) none) M w := by
  intro u hu hne hplace
  by_cases hu' : u = w ++ [b]
  · rw [hu', Function.update_self] at hplace
    exact absurd rfl hplace
  · rw [Function.update_of_ne hu'] at hplace
    rcases h u hu hu' hplace with hval | ⟨b',hb'⟩
    · exact Or.inl hval
    · refine Or.inr ⟨b',?_⟩
      rwa [Function.update_of_ne]
      intro hlast
      exact hne (List.append_inj' hlast rfl).1

/-- A tip that may stay where it is. -/
theorem Leafy.settle {M : PrefixMap V} (h : Leafy place M w) (hw : w = [] ∨ M w ≠ none ∨ ∃ b, place (w ++ [b]) ≠ none) :
    Leafy place M [] := by
  intro u hu _ hplace
  by_cases hu' : u = w
  · subst hu'
    exact hw.resolve_left hu
  · exact h u hu hu' hplace

/-- The loop that prunes takes away a leaf and then what it leaves without use. -/
theorem prune_spec {M : PrefixMap V} {fuel : ℕ} (h : t.Placed place free) (hx : place (w ++ [b]) = some x)
    (hleaf : ∀ b', place (w ++ [b] ++ [b']) = none) (hheld : ∀ u, u ≠ w ++ [b] → t.held place u = M u)
    (hM : M (w ++ [b]) = none) (hfuel : w.length < fuel) :
    ∃ t' place' free', radixTreePrune fuel x t = some t' ∧ t'.Placed place' free' ∧ (∀ u, t'.held place' u = M u) ∧
      (Leafy place M (w ++ [b]) → Leafy place' M []) ∧ t'.count = t.count := by
  induction fuel generalizing t place free w b x with
  | zero => cases hfuel
  | succ fuel ih =>
    obtain ⟨a,hw⟩ : ∃ a, place w = some a := by
      cases hw : place w with
      | none => rw [h.tree.closed w b hw] at hx; cases hx
      | some a => exact ⟨a,rfl⟩
    have hparent : (t.node x).parent = some a := (h.tree.parent_eq w b x hx).trans hw
    have hside : (if (t.node a).right = some x then t.setRight a none else t.setLeft a none) = t.setChild a b none := by
      have hright : (t.node a).right = place (w ++ [true]) := h.tree.child_eq w a hw true
      cases b with
      | true => rw [if_pos (hright.trans hx)]; rfl
      | false =>
        rw [if_neg]
        · rfl
        · intro heq
          have hsame := h.tree.inj _ _ _ (hright.symm.trans heq) hx
          simp at hsame
    obtain ⟨t₂,ht₂⟩ : ∃ t₂ : RadixTree V, t₂ = { (t.setChild a b none).setRight x t.free with free := some x } := ⟨_,rfl⟩
    have hrun : radixTreePrune (fuel + 1) x t =
        if (t₂.node a).right.isSome ∨ (t₂.node a).left.isSome then some t₂
        else if (t₂.node a).value.isSome then some t₂
        else if (t₂.node a).parent = none then some t₂ else radixTreePrune fuel a t₂ := by
      have hfree : (t.setChild a b none).free = t.free := by rw [setChild_eq]; rfl
      simp only [radixTreePrune, hparent, hside, hfree, ht₂]
    have h₂ : t₂.Placed (Function.update place (w ++ [b]) none) (x :: free) := ht₂ ▸ h.detach hw hx hleaf
    have hw₂ : Function.update place (w ++ [b]) none w = some a := by
      rw [Function.update_of_ne (WordTree.word_ne w b).symm, hw]
    have hheld₂ : ∀ u, t₂.held (Function.update place (w ++ [b]) none) u = M u := by
      intro u
      by_cases hu : u = w ++ [b]
      · rw [hu, held_none (Function.update_self ..), hM]
      · rw [ht₂, h.held_detach hx hu, hheld u hu]
    have hleafy₂ : Leafy place M (w ++ [b]) → Leafy (Function.update place (w ++ [b]) none) M w := Leafy.detach
    have hcount : t₂.count = t.count := by rw [ht₂, setChild_eq]; rfl
    have hkids : ∀ b', t₂.child a b' = Function.update place (w ++ [b]) none (w ++ [b']) := h₂.tree.child_eq w a hw₂
    have hvalue : (t₂.node a).value = M w := by rw [← held_some hw₂, hheld₂]
    generalize Function.update place (w ++ [b]) none = place₂ at h₂ hw₂ hheld₂ hleafy₂ hkids
    rw [hrun]
    have hstop : (w = [] ∨ M w ≠ none ∨ ∃ b, place₂ (w ++ [b]) ≠ none) → ∃ t' place' free', some t₂ = some t' ∧
        t'.Placed place' free' ∧ (∀ u, t'.held place' u = M u) ∧ (Leafy place M (w ++ [b]) → Leafy place' M []) ∧
        t'.count = t.count := fun hok =>
      ⟨t₂,place₂,x :: free,rfl,h₂,hheld₂,fun hl => (hleafy₂ hl).settle hok,hcount⟩
    by_cases hboth : (t₂.node a).right.isSome ∨ (t₂.node a).left.isSome
    · rw [if_pos hboth]
      refine hstop (Or.inr (Or.inr ?_))
      rcases hboth with hr | hl
      · exact ⟨true,by rw [← hkids]; exact Option.isSome_iff_ne_none.mp hr⟩
      · exact ⟨false,by rw [← hkids]; exact Option.isSome_iff_ne_none.mp hl⟩
    rw [if_neg hboth]
    by_cases hval : (t₂.node a).value.isSome
    · rw [if_pos hval]
      exact hstop (Or.inr (Or.inl (hvalue ▸ Option.isSome_iff_ne_none.mp hval)))
    rw [if_neg hval]
    by_cases hroot : (t₂.node a).parent = none
    · rw [if_pos hroot]
      refine hstop (Or.inl ?_)
      cases w using List.reverseRecOn with
      | nil => rfl
      | append_singleton r c =>
        have hup : place₂ r = none := (h₂.tree.parent_eq r c a hw₂).symm.trans hroot
        rw [h₂.tree.closed r c hup] at hw₂
        cases hw₂
    rw [if_neg hroot]
    cases w using List.reverseRecOn with
    | nil => exact absurd (h₂.tree.parent_root a hw₂) hroot
    | append_singleton r c =>
      rw [not_or, Bool.not_eq_true, Bool.not_eq_true, Option.isSome_eq_false_iff, Option.isSome_eq_false_iff,
        Option.isNone_iff_eq_none, Option.isNone_iff_eq_none] at hboth
      have hnokids : ∀ b', place₂ (r ++ [c] ++ [b']) = none := by
        intro b'
        rw [← hkids]
        cases b'
        · exact hboth.2
        · exact hboth.1
      have hnoval : M (r ++ [c]) = none := by
        rw [← hvalue]
        simpa using hval
      rw [List.length_append, List.length_singleton] at hfuel
      obtain ⟨t',place',free',hrun',h',hheld',hleafy',hcount'⟩ :=
        ih h₂ hw₂ hnokids (fun u _ => hheld₂ u) hnoval (by omega)
      exact ⟨t',place',free',hrun',h',hheld',fun hl => hleafy' (hleafy₂ hl),hcount'.trans hcount⟩

/-! ## Walks -/

theorem Placed.bits_none (h : t.Placed place free) {key : BitVec 32} {d : ℕ} (hd : place (bits key d) = none) (m : ℕ) :
    place (bits key (d + m)) = none := by
  induction m with
  | zero => exact hd
  | succ m ih =>
    rw [← Nat.add_assoc, bits_succ]
    exact h.tree.closed _ _ ih

theorem Placed.bits_deep (h : t.Placed place free) {key : BitVec 32} {d : ℕ} (hd : 32 < d) : place (bits key d) = none := by
  cases hp : place (bits key d) with
  | none => rfl
  | some a =>
    have hlen := h.depth_le _ _ hp
    rw [length_bits] at hlen
    omega

theorem Placed.child_bits (h : t.Placed place free) {key : BitVec 32} {d node : ℕ} (hd : place (bits key d) = some node) :
    t.child node (bitSet key (topBit >>> d)) = place (bits key (d + 1)) := by
  rw [h.tree.child_eq _ _ hd, bitSet_topBit, bits_succ]

/-- The walk of an insertion ends at the node of the prefix or above the first missing one. -/
theorem insertWalk_spec (h : t.Placed place free) {key : BitVec 32} {m d node : ℕ}
    (hd : place (bits key d) = some node) :
    (∃ node', radixTreeInsertWalk t key m (topBit >>> d) node = (node',some node',topBit >>> (d + m),0) ∧
      place (bits key (d + m)) = some node') ∨
    ∃ k < m, ∃ node', radixTreeInsertWalk t key m (topBit >>> d) node = (node',none,topBit >>> (d + k),m - k) ∧
      place (bits key (d + k)) = some node' ∧ place (bits key (d + k + 1)) = none := by
  induction m generalizing d node with
  | zero => exact Or.inl ⟨node,rfl,hd⟩
  | succ m ih =>
    have hchild := h.child_bits hd
    cases hnext : place (bits key (d + 1)) with
    | none =>
      refine Or.inr ⟨0,Nat.succ_pos m,node,?_,hd,hnext⟩
      simp only [radixTreeInsertWalk, hchild, hnext, Nat.add_zero, Nat.sub_zero]
    | some next =>
      have hstep : radixTreeInsertWalk t key (m + 1) (topBit >>> d) node =
          radixTreeInsertWalk t key m (topBit >>> (d + 1)) next := by
        simp only [radixTreeInsertWalk, hchild, hnext, topBit_succ]
      rcases ih hnext with ⟨node',hrun,hplace⟩ | ⟨k,hk,node',hrun,hplace,hno⟩
      · refine Or.inl ⟨node',?_,?_⟩
        · rw [hstep, hrun, show d + (m + 1) = d + 1 + m by ring]
        · rwa [show d + (m + 1) = d + 1 + m by ring]
      · refine Or.inr ⟨k + 1,by omega,node',?_,?_,?_⟩
        · rw [hstep, hrun, show d + (k + 1) = d + 1 + k by ring, Nat.add_sub_add_right]
        · rwa [show d + (k + 1) = d + 1 + k by ring]
        · rwa [show d + (k + 1) + 1 = d + 1 + k + 1 by ring]

theorem deleteWalk_eq (h : t.Placed place free) {key : BitVec 32} {m d : ℕ} :
    radixTreeDeleteWalk t key m (topBit >>> d) (place (bits key d)) = place (bits key (d + m)) := by
  induction m generalizing d with
  | zero => cases hd : place (bits key d) <;> simp [radixTreeDeleteWalk]
  | succ m ih =>
    cases hd : place (bits key d) with
    | none => rw [radixTreeDeleteWalk, h.bits_none hd]
    | some node =>
      rw [radixTreeDeleteWalk, h.child_bits hd, topBit_succ, ih]
      rw [show d + (m + 1) = d + 1 + m by ring]

/-- The value that is found above a depth. -/
def above (M : PrefixMap V) (key : BitVec 32) : ℕ → Option V
  | 0 => none
  | d + 1 => M.longest (bits key) d

theorem above_succ {M : PrefixMap V} {key : BitVec 32} {d : ℕ} :
    above M key (d + 1) = if (M (bits key d)).isSome then M (bits key d) else above M key d := by
  cases d with
  | zero =>
    rw [bits_zero]
    cases hv : M [] <;> simp [above, PrefixMap.longest, hv]
  | succ d => cases hv : M (bits key (d + 1)) <;> simp [above, PrefixMap.longest, hv]

/-- Below a missing node nothing is stored. -/
theorem Placed.above_of_none (h : t.Placed place free) {M : PrefixMap V} (hheld : ∀ w, t.held place w = M w)
    {key : BitVec 32} {d : ℕ} (hd : place (bits key d) = none) : above M key d = M.longest (bits key) 32 := by
  cases d with
  | zero =>
    rw [bits_zero, h.root_eq] at hd
    cases hd
  | succ d =>
    have hbelow : ∀ i, d < i → M (bits key i) = none := by
      intro i hi
      obtain ⟨m,rfl⟩ := Nat.exists_eq_add_of_le (Nat.succ_le_of_lt hi)
      rw [← hheld, held_none (h.bits_none hd m)]
    have hdeep : ∀ i, 32 < i → M (bits key i) = none := fun i hi => by rw [← hheld, held_none (h.bits_deep hi)]
    rcases Nat.le_total d 32 with hle | hge
    · exact (PrefixMap.longest_of_none hle fun i hi _ => hbelow i hi).symm
    · exact PrefixMap.longest_of_none hge fun i hi _ => hdeep i hi

theorem findWalk_eq (h : t.Placed place free) {M : PrefixMap V} (hheld : ∀ w, t.held place w = M w) {key : BitVec 32}
    {fuel d : ℕ} (hfuel : 33 ≤ fuel + d) :
    radixTreeFindWalk t key fuel (topBit >>> d) (place (bits key d)) (above M key d) =
      some (M.longest (bits key) 32) := by
  induction fuel generalizing d with
  | zero =>
    have hnone := @Placed.bits_deep V t place free h key d (by omega)
    rw [hnone, radixTreeFindWalk, h.above_of_none hheld hnone]
  | succ fuel ih =>
    cases hd : place (bits key d) with
    | none => rw [radixTreeFindWalk, h.above_of_none hheld hd]
    | some node =>
      rw [radixTreeFindWalk, h.child_bits hd, topBit_succ, ← held_some hd, hheld, ← above_succ]
      exact ih (by omega)

end Placed

/-! ## The map that a tree is -/

/-- The tree holds the values of a map, with no node that it does not need. -/
structure Holds (t : RadixTree V) (M : PrefixMap V) (place : List Bool → Option ℕ) (free : List ℕ) : Prop
    extends t.Placed place free where
  held_eq : ∀ w, t.held place w = M w
  root_none : M [] = none
  leafy : Leafy place M []
  count_eq : t.count = UInt32.ofNat M.size

section Holds
variable {M : PrefixMap V} {place : List Bool → Option ℕ} {free : List ℕ} {key : BitVec 32} {mask : ℕ} {value : V}

theorem Holds.bounded (h : t.Holds M place free) : M.Bounded 32 := by
  intro w hw
  obtain ⟨a,ha⟩ := @Placed.placed_of_held V t place w (by rw [h.held_eq]; exact hw)
  exact h.depth_le w a ha

theorem create_holds : (radixTreeCreate : RadixTree V).Holds .empty (fun w => if w = [] then some 0 else none) [] := by
  have hword : ∀ (w : List Bool) a, (if w = [] then some 0 else none) = some a → w = [] ∧ a = 0 := by
    intro w a hw
    by_cases h : w = []
    · rw [if_pos h, Option.some.injEq] at hw
      exact ⟨h,hw.symm⟩
    · rw [if_neg h] at hw
      cases hw
  refine ⟨⟨⟨?_,?_,fun _ _ => rfl,?_,?_⟩,rfl,?_,rfl,List.nodup_nil,fun _ _ _ => List.not_mem_nil,?_,?_⟩,?_,rfl,?_,?_⟩
  · intro w a _ b
    rw [if_neg (by simp)]
    cases b <;> rfl
  · intro w b _
    rw [if_neg (by simp)]
  · intro w b a hw
    exact absurd (hword _ a hw).1 (by simp)
  · exact fun w u a hw hu => (hword w a hw).1.trans (hword u a hu).1.symm
  · intro w a hw
    rw [(hword w a hw).1]
    exact Nat.zero_le 32
  · intro w a hw
    rw [(hword w a hw).2]
    exact Nat.zero_lt_one
  · exact fun a ha => absurd ha List.not_mem_nil
  · intro w
    by_cases h : w = []
    · rw [held, if_pos h]
      rfl
    · rw [held, if_neg h]
      rfl
  · intro w hw _ hplace
    exact absurd (if_neg hw) hplace
  · rw [PrefixMap.size_empty]
    rfl

/-- Filling in the value of a prefix that has a node. -/
theorem fill_holds (h : t.Placed place free) {w : List Bool} {node : ℕ} (hw : place w = some node) (hne : w ≠ [])
    (hheld : ∀ u, t.held place u = M u) (hroot : M [] = none) (hleafy : Leafy place M w) (hnone : M w = none)
    (hbound : M.Bounded 32) (hcount : t.count = UInt32.ofNat M.size) :
    (t.fill node value).Holds (M.assign w (some value)) place free := by
  have hset := h.setValue (v := some value) hw
  refine ⟨⟨hset.tree,hset.root_eq,hset.depth_le,hset.chained,hset.nodup,hset.apart,hset.place_lt,hset.free_lt⟩,?_,?_,?_,?_⟩
  · intro u
    have hnew := h.held_setValue (v := some value) hw u
    rw [PrefixMap.assign, show t.held place = M from funext hheld] at hnew
    exact hnew
  · rw [PrefixMap.assign_of_ne hne.symm, hroot]
  · intro u hu _ hplace
    by_cases hu' : u = w
    · rw [hu', PrefixMap.assign_self]
      exact Or.inl (Option.some_ne_none value)
    · rw [PrefixMap.assign_of_ne hu']
      exact hleafy u hu hu' hplace
  · rw [PrefixMap.size_assign_some hbound hnone, UInt32.ofNat_add, ← hcount]
    rfl

theorem topBit_zero : topBit >>> 0 = topBit := rfl

theorem insert_present (h : t.Holds M place free) (hM : M (bits key mask) ≠ none) :
    radixTreeInsertNode true t key mask value = (.dupKey,t) := by
  obtain ⟨a,ha⟩ := @Placed.placed_of_held V t place (bits key mask) (by rw [h.held_eq]; exact hM)
  have hvalue : (t.node a).value.isSome := by
    rw [← held_some ha, h.held_eq]
    exact Option.isSome_iff_ne_none.mpr hM
  have hwalk := @insertWalk_spec V t place free h.toPlaced key mask 0 t.root (by rw [bits_zero, h.root_eq])
  rw [topBit_zero] at hwalk
  rcases hwalk with ⟨node,hrun,hnode⟩ | ⟨k,hk,node,-,-,hno⟩
  · rw [Nat.zero_add, ha, Option.some.injEq] at hnode
    subst hnode
    rw [radixTreeInsertNode, hrun]
    simp only [hvalue, ↓reduceIte]
  · have hnone := h.toPlaced.bits_none hno (mask - (k + 1))
    rw [show 0 + k + 1 + (mask - (k + 1)) = mask by omega, ha] at hnone
    cases hnone

theorem insert_absent (h : t.Holds M place free) (hmask : 1 ≤ mask ∧ mask ≤ 32) (hM : M (bits key mask) = none) :
    ∃ t' place' free', radixTreeInsertNode true t key mask value = (.succeed,t') ∧
      t'.Holds (M.assign (bits key mask) (some value)) place' free' := by
  have hne : bits key mask ≠ [] := bits_ne_nil hmask.1
  have hwalk := @insertWalk_spec V t place free h.toPlaced key mask 0 t.root (by rw [bits_zero, h.root_eq])
  rw [topBit_zero] at hwalk
  rcases hwalk with ⟨node,hrun,hnode⟩ | ⟨k,hk,node,hrun,hnode,hno⟩
  · rw [Nat.zero_add] at hnode
    have hvalue : (t.node node).value = none := by rw [← held_some hnode, h.held_eq, hM]
    refine ⟨t.fill node value,place,free,?_,fill_holds h.toPlaced hnode hne h.held_eq h.root_none ?_ hM h.bounded h.count_eq⟩
    · rw [radixTreeInsertNode, hrun]
      simp [hvalue]
    · exact fun w hw _ hplace => h.leafy w hw hw hplace
  · have hleafy : Leafy place M (bits key (0 + k)) := fun w hw _ hplace => h.leafy w hw hw hplace
    obtain ⟨node',t',place',free',hext,h',hnode',hheld',hleafy',hcount'⟩ :=
      extend_spec (m := mask - k) h.toPlaced hnode (fun _ => hno) (by omega) h.held_eq hleafy
    rw [show 0 + k + (mask - k) = mask by omega] at hnode' hleafy'
    refine ⟨t'.fill node' value,place',free',?_,fill_holds h' hnode' hne hheld' h.root_none hleafy' hM h.bounded
      (hcount'.trans h.count_eq)⟩
    rw [radixTreeInsertNode, hrun]
    simp only [hext]

theorem deleteWalk_root (h : t.Placed place free) :
    radixTreeDeleteWalk t key mask topBit (some t.root) = place (bits key mask) := by
  have hwalk := @deleteWalk_eq V t place free h key mask 0
  rwa [topBit_zero, bits_zero, h.root_eq, Nat.zero_add] at hwalk

theorem Placed.kids (h : t.Placed place free) {w : List Bool} {a : ℕ} (hw : place w = some a) :
    ((t.node a).right.isSome ∨ (t.node a).left.isSome) ↔ ∃ b, place (w ++ [b]) ≠ none := by
  have hchild := h.tree.child_eq w a hw
  have hright : (t.node a).right = place (w ++ [true]) := hchild true
  have hleft : (t.node a).left = place (w ++ [false]) := hchild false
  rw [hright, hleft, Option.isSome_iff_ne_none, Option.isSome_iff_ne_none]
  simp [or_comm]

theorem delete_missing (h : t.Placed place free) (hno : place (bits key mask) = none) :
    radixTreeDeleteNode t key mask = some (.failed,t) := by
  rw [radixTreeDeleteNode, deleteWalk_root h, hno]

/-- A leaf is taken away, whether or not it has a value. -/
theorem delete_leaf (h : t.Placed place free) (hmask : 1 ≤ mask) {a : ℕ} (hw : place (bits key mask) = some a)
    (hleaf : ∀ b, place (bits key mask ++ [b]) = none) :
    ∃ t' place' free', radixTreeDeleteNode t key mask = some (.succeed,t') ∧ t'.Placed place' free' ∧
      (∀ u, t'.held place' u = PrefixMap.assign (t.held place) (bits key mask) none u) ∧
      (Leafy place (PrefixMap.assign (t.held place) (bits key mask) none) (bits key mask) →
        Leafy place' (PrefixMap.assign (t.held place) (bits key mask) none) []) ∧ t'.count = t.count - 1 := by
  obtain ⟨n,rfl⟩ : ∃ n, mask = n + 1 := ⟨mask - 1,by omega⟩
  have hkids : ¬((t.node a).right.isSome ∨ (t.node a).left.isSome) := by
    intro hboth
    obtain ⟨b,hb⟩ := (h.kids hw).mp hboth
    exact hb (hleaf b)
  have hwalk := @deleteWalk_root V t place free key (n + 1) h
  rw [hw] at hwalk
  rw [bits_succ] at hw hleaf ⊢
  obtain ⟨t',place',free',hrun,h',hheld,hleafy,hcount⟩ :=
    prune_spec (M := PrefixMap.assign (t.held place) (bits key n ++ [key.getMsbD n]) none) h hw hleaf
      (fun u hu => (PrefixMap.assign_of_ne hu none).symm) (PrefixMap.assign_self none)
      (by rw [length_bits]; exact Nat.lt_succ_self n : (bits key n).length < n + 1)
  refine ⟨{ t' with count := t'.count - 1 },place',free',?_,⟨h'.tree,h'.root_eq,h'.depth_le,h'.chained,h'.nodup,h'.apart,
    h'.place_lt,h'.free_lt⟩,hheld,hleafy,by rw [← hcount]⟩
  rw [radixTreeDeleteNode, hwalk]
  simp only [hkids, ↓reduceIte, hrun, Option.map_some]

theorem delete_absent (h : t.Holds M place free) (hmask : 1 ≤ mask) (hM : M (bits key mask) = none) :
    radixTreeDeleteNode t key mask = some (.failed,t) := by
  have hne : bits key mask ≠ [] := bits_ne_nil hmask
  rw [radixTreeDeleteNode, deleteWalk_root h.toPlaced]
  cases hw : place (bits key mask) with
  | none => rfl
  | some a =>
    have hvalue : (t.node a).value = none := by rw [← held_some hw, h.held_eq, hM]
    have hkids := (h.kids hw).mpr ((h.leafy _ hne hne (by rw [hw]; exact Option.some_ne_none a)).resolve_left fun hval =>
      hval hM)
    simp only [hkids, ↓reduceIte, hvalue, Option.isSome_none, Bool.false_eq_true]

theorem delete_present (h : t.Holds M place free) (hmask : 1 ≤ mask) (hM : M (bits key mask) ≠ none) :
    ∃ t' place' free', radixTreeDeleteNode t key mask = some (.succeed,t') ∧
      t'.Holds (M.assign (bits key mask) none) place' free' := by
  have hsize : t.count - 1 = UInt32.ofNat (M.assign (bits key mask) none).size := by
    rw [h.count_eq, ← PrefixMap.size_assign_none h.bounded hM, UInt32.ofNat_add]
    exact UInt32.add_sub_cancel _ _
  obtain ⟨a,hw⟩ := @Placed.placed_of_held V t place (bits key mask) (by rw [h.held_eq]; exact hM)
  have hvalue : (t.node a).value.isSome := by
    rw [← held_some hw, h.held_eq]
    exact Option.isSome_iff_ne_none.mpr hM
  have hroot : [] ≠ bits key mask := (bits_ne_nil hmask).symm
  rw [radixTreeDeleteNode, deleteWalk_root h.toPlaced, hw]
  by_cases hkids : (t.node a).right.isSome ∨ (t.node a).left.isSome
  · have hset := h.toPlaced.setValue (v := none) hw
    refine ⟨{ t.setValue a none with count := t.count - 1 },place,free,by simp only [hkids, ↓reduceIte, hvalue],
      ⟨hset.tree,hset.root_eq,hset.depth_le,hset.chained,hset.nodup,hset.apart,hset.place_lt,hset.free_lt⟩,?_,?_,?_,hsize⟩
    · intro u
      have hnew := h.toPlaced.held_setValue (v := none) hw u
      rw [PrefixMap.assign, show t.held place = M from funext h.held_eq] at hnew
      exact hnew
    · rw [PrefixMap.assign_of_ne hroot, h.root_none]
    · intro u hu _ hplace
      by_cases hu' : u = bits key mask
      · subst hu'
        exact Or.inr ((h.kids hw).mp hkids)
      · rw [PrefixMap.assign_of_ne hu']
        exact h.leafy u hu hu hplace
  · have hleaf : ∀ b', place (bits key mask ++ [b']) = none := by
      intro b'
      by_contra hb
      exact hkids ((h.kids hw).mpr ⟨b',hb⟩)
    obtain ⟨t',place',free',hrun,h',hheld',hleafy',hcount'⟩ := delete_leaf h.toPlaced hmask hw hleaf
    rw [show t.held place = M from funext h.held_eq] at hheld' hleafy'
    rw [radixTreeDeleteNode, deleteWalk_root h.toPlaced, hw] at hrun
    refine ⟨t',place',free',hrun,h',hheld',?_,hleafy' ?_,hcount'.trans hsize⟩
    · rw [PrefixMap.assign_of_ne hroot, h.root_none]
    · intro u hu htip hplace
      rw [PrefixMap.assign_of_ne htip]
      exact h.leafy u hu hu hplace

theorem find_eq (h : t.Holds M place free) {fuel : ℕ} (hfuel : 33 ≤ fuel) :
    radixTreeFind t key fuel = some (M.longest (bits key) 32) := by
  have hwalk := @findWalk_eq V t place free h.toPlaced M h.held_eq key fuel 0 hfuel
  rwa [topBit_zero, bits_zero, h.root_eq] at hwalk

end Holds

end RadixTree

/-! ## Runs -/

/-- A request; a prefix has one bit at least. -/
inductive RadixOp (V : Type*) where
  | insert (key : BitVec 32) (mask : { n : ℕ // 1 ≤ n ∧ n ≤ 32 }) (value : V)
  | delete (key : BitVec 32) (mask : { n : ℕ // 1 ≤ n ∧ n ≤ 32 })

def radixStep (t : RadixTree V) (op : RadixOp V) : Option (RadixTree V) :=
  match op with
  | .insert key mask value => some (radixTreeInsertNode true t key mask value).2
  | .delete key mask => (radixTreeDeleteNode t key mask).map Prod.snd

/-- A map keeps its first value for a prefix. -/
def PrefixMap.step (M : PrefixMap V) (op : RadixOp V) : PrefixMap V :=
  match op with
  | .insert key mask value => if (M (bits key mask)).isSome then M else M.assign (bits key mask) (some value)
  | .delete key mask => M.assign (bits key mask) none

/-- The node that the links lead to from the root. -/
def RadixTree.linked (t : RadixTree V) (w : List Bool) : Option ℕ :=
  w.foldl (fun node b => node.bind fun a => t.child a b) (some t.root)

/-- The `k`-th node of the free list. -/
def RadixTree.freed (t : RadixTree V) (k : ℕ) : Option ℕ :=
  (fun node => Option.bind node fun a => (t.node a).right)^[k] t.free

/-- What each request finds in the map: its answer, and that nothing changes where it fails. -/
structure RadixTree.Behaves (t : RadixTree V) (M : PrefixMap V) : Prop where
  insert_dup : ∀ key (mask : { n : ℕ // 1 ≤ n ∧ n ≤ 32 }) value, M (bits key mask) ≠ none →
    radixTreeInsertNode true t key mask value = (.dupKey,t)
  insert_new : ∀ key (mask : { n : ℕ // 1 ≤ n ∧ n ≤ 32 }) value, M (bits key mask) = none →
    (radixTreeInsertNode true t key mask value).1 = .succeed
  delete_absent : ∀ key (mask : { n : ℕ // 1 ≤ n ∧ n ≤ 32 }), M (bits key mask) = none →
    radixTreeDeleteNode t key mask = some (.failed,t)
  delete_present : ∀ key (mask : { n : ℕ // 1 ≤ n ∧ n ≤ 32 }), M (bits key mask) ≠ none →
    ∃ t', radixTreeDeleteNode t key mask = some (.succeed,t')
  find : ∀ key fuel, 33 ≤ fuel → radixTreeFind t key fuel = some (M.longest (bits key) 32)
  count : t.count = UInt32.ofNat M.size
  apart : ∀ w k a, t.linked w = some a → t.freed k ≠ some a

section Runs
variable {t : RadixTree V} {M : PrefixMap V} {place : List Bool → Option ℕ} {free : List ℕ}

theorem RadixTree.Holds.behaves (h : t.Holds M place free) : t.Behaves M where
  insert_dup key mask value hM := RadixTree.insert_present h hM
  insert_new key mask value hM := by
    obtain ⟨t',place',free',hrun,-⟩ := RadixTree.insert_absent h mask.2 hM
    rw [hrun]
  delete_absent key mask hM := RadixTree.delete_absent h mask.2.1 hM
  delete_present key mask hM := by
    obtain ⟨t',place',free',hrun,-⟩ := RadixTree.delete_present h mask.2.1 hM
    exact ⟨t',hrun⟩
  find key fuel hfuel := RadixTree.find_eq h hfuel
  count := h.count_eq
  apart w k a hw hk := by
    have hplace := h.tree.foldl_child w
    rw [h.root_eq] at hplace
    exact h.apart w a (hplace.symm.trans hw) (h.chained.reached k hk)

theorem radixStep_holds (h : t.Holds M place free) (op : RadixOp V) :
    ∃ t' place' free', radixStep t op = some t' ∧ t'.Holds (M.step op) place' free' := by
  cases op with
  | insert key mask value =>
    by_cases hM : M (bits key mask) = none
    · obtain ⟨t',place',free',hrun,h'⟩ := @RadixTree.insert_absent V t M place free key mask value h mask.2 hM
      refine ⟨t',place',free',?_,?_⟩
      · rw [radixStep, hrun]
      · simpa [PrefixMap.step, hM] using h'
    · refine ⟨t,place,free,?_,?_⟩
      · rw [radixStep, RadixTree.insert_present h hM]
      · rw [PrefixMap.step, if_pos (Option.isSome_iff_ne_none.mpr hM)]
        exact h
  | delete key mask =>
    by_cases hM : M (bits key mask) = none
    · refine ⟨t,place,free,?_,?_⟩
      · rw [radixStep, RadixTree.delete_absent h mask.2.1 hM]
        rfl
      · have hsame : M.assign (bits key mask) none = M := by
          rw [← hM, PrefixMap.assign, Function.update_eq_self]
        rw [PrefixMap.step, hsame]
        exact h
    · obtain ⟨t',place',free',hrun,h'⟩ := RadixTree.delete_present h mask.2.1 hM
      refine ⟨t',place',free',?_,h'⟩
      rw [radixStep, hrun]
      rfl

theorem radixRun_holds (h : t.Holds M place free) (ops : List (RadixOp V)) :
    ∃ t' place' free', run radixStep t ops = some t' ∧ t'.Holds (ops.foldl PrefixMap.step M) place' free' := by
  induction ops generalizing t M place free with
  | nil => exact ⟨t,place,free,rfl,h⟩
  | cons op ops ih =>
    obtain ⟨t₁,place₁,free₁,hstep,h₁⟩ := radixStep_holds h op
    rw [run_cons_some hstep]
    exact ih h₁

end Runs

/-- Every run from an empty tree goes through, and leaves a tree that answers as the map
does. The count is that of the stored prefixes, as far as 32 bits show it. -/
theorem radixTree_refines (ops : List (RadixOp V)) : ∃ t, run radixStep radixTreeCreate ops = some t ∧
    t.Behaves (ops.foldl PrefixMap.step .empty) := by
  obtain ⟨t,place,free,hrun,h⟩ := radixRun_holds RadixTree.create_holds ops
  exact ⟨t,hrun,h.behaves⟩

/-- The insertions of the first `n` addresses. -/
def addresses (n : ℕ) : List (RadixOp Unit) := (List.range n).map fun i => .insert (BitVec.ofNat 32 i) ⟨32,by decide⟩ ()

theorem bits_injective {x y : BitVec 32} (h : bits x 32 = bits y 32) : x = y := by
  have hbits := List.map_inj_left.mp h
  exact BitVec.eq_of_getMsbD_eq fun i hi => hbits i (List.mem_range.mpr hi)

theorem addresses_stored {n : ℕ} (hn : n ≤ 2 ^ 32) :
    ((addresses n).foldl PrefixMap.step .empty).size = n ∧
      ((addresses n).foldl PrefixMap.step .empty).stored = { w | ∃ i < n, w = bits (BitVec.ofNat 32 i) 32 } := by
  induction n with
  | zero =>
    refine ⟨PrefixMap.size_empty,?_⟩
    ext w
    simp [addresses, PrefixMap.stored, PrefixMap.empty]
  | succ n ih =>
    obtain ⟨hsize,hstored⟩ := ih (by omega)
    have hlast : addresses (n + 1) = addresses n ++ [.insert (BitVec.ofNat 32 n) ⟨32,by decide⟩ ()] := by
      rw [addresses, List.range_succ, List.map_append]
      rfl
    rw [hlast, List.foldl_append]
    generalize (addresses n).foldl PrefixMap.step .empty = M at hsize hstored
    have hbound : M.Bounded 32 := by
      intro w hw
      rw [hstored] at hw
      obtain ⟨i,-,rfl⟩ := hw
      exact length_bits.le
    have hnone : M (bits (BitVec.ofNat 32 n) 32) = none := by
      by_contra hsome
      have hin : bits (BitVec.ofNat 32 n) 32 ∈ M.stored := hsome
      rw [hstored] at hin
      obtain ⟨i,hi,heq⟩ := hin
      have hval := congrArg BitVec.toNat (bits_injective heq)
      rw [BitVec.toNat_ofNat, BitVec.toNat_ofNat, Nat.mod_eq_of_lt (by omega), Nat.mod_eq_of_lt (by omega)] at hval
      omega
    have hstep : [RadixOp.insert (BitVec.ofNat 32 n) ⟨32,by decide⟩ ()].foldl PrefixMap.step M =
        M.assign (bits (BitVec.ofNat 32 n) 32) (some ()) := by
      simp [PrefixMap.step, hnone]
    rw [hstep]
    refine ⟨by rw [PrefixMap.size_assign_some hbound hnone, hsize],?_⟩
    rw [PrefixMap.stored_assign_some, hstored]
    ext w
    simp only [Set.mem_insert_iff, Set.mem_ofPred_eq, Nat.lt_succ_iff_lt_or_eq, or_and_right, exists_or, exists_eq_left]
    exact or_comm

/-- With every address stored the count is zero again. -/
theorem radixTree_count_wraps : ∃ t, run radixStep radixTreeCreate (addresses (2 ^ 32)) = some t ∧
    t.count.toNat ≠ ((addresses (2 ^ 32)).foldl PrefixMap.step .empty).size := by
  obtain ⟨t,place,free,hrun,h⟩ := radixRun_holds RadixTree.create_holds (addresses (2 ^ 32))
  refine ⟨t,hrun,?_⟩
  rw [h.count_eq, (addresses_stored le_rfl).1]
  decide

end LogStats
