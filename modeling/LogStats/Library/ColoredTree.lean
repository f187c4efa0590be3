import Mathlib.Data.List.Basic
import Mathlib.Tactic.Linarith

/-! # Coloured binary trees, positions inside them, and black height

A position is a subtree together with the path of ancestors above it, nearest
first. The path is what parent pointers give an imperative program, so loops
that climb a tree become recursions on the path.
-/
namespace LogStats

inductive Color
  | red
  | black
deriving DecidableEq

theorem Color.eq_red {c : Color} (h : ¬c = .black) : c = .red := by
  cases c with
  | red => rfl
  | black => exact absurd rfl h

theorem Color.eq_black {c : Color} (h : ¬c = .red) : c = .black := by
  cases c with
  | red => exact absurd rfl h
  | black => rfl

inductive Side
  | left
  | right
deriving DecidableEq

inductive Tree (α : Type*)
  | null
  | node (color : Color) (left : Tree α) (value : α) (right : Tree α)

/-- One ancestor: on which side of it the position lies, and its other subtree. -/
structure Frame (α : Type*) where
  side : Side
  color : Color
  value : α
  other : Tree α

abbrev Path (α : Type*) := List (Frame α)

variable {α : Type*}

namespace Tree

def toList : Tree α → List α
  | null => []
  | node _ l v r => l.toList ++ v :: r.toList

/-- The sentinel is black. -/
def color : Tree α → Color
  | null => .black
  | node c _ _ _ => c

def leftColor : Tree α → Color
  | null => .black
  | node _ l _ _ => l.color

def rightColor : Tree α → Color
  | null => .black
  | node _ _ _ r => r.color

/-- Recolouring skips the sentinel. -/
def paint (c : Color) : Tree α → Tree α
  | null => null
  | node _ l v r => node c l v r

def paintLeft (c : Color) : Tree α → Tree α
  | null => null
  | node k l v r => node k (l.paint c) v r

def paintRight (c : Color) : Tree α → Tree α
  | null => null
  | node k l v r => node k l v (r.paint c)

def isNull : Tree α → Bool
  | null => true
  | node _ _ _ _ => false

@[simp] theorem toList_null : (null : Tree α).toList = [] := rfl
@[simp] theorem toList_node (c : Color) (l : Tree α) (v : α) (r : Tree α) :
    (node c l v r).toList = l.toList ++ v :: r.toList := rfl
@[simp] theorem color_null : (null : Tree α).color = .black := rfl
@[simp] theorem color_node (c : Color) (l : Tree α) (v : α) (r : Tree α) : (node c l v r).color = c := rfl
@[simp] theorem leftColor_node (c : Color) (l : Tree α) (v : α) (r : Tree α) :
    (node c l v r).leftColor = l.color := rfl
@[simp] theorem rightColor_node (c : Color) (l : Tree α) (v : α) (r : Tree α) :
    (node c l v r).rightColor = r.color := rfl
@[simp] theorem paint_node (k c : Color) (l : Tree α) (v : α) (r : Tree α) :
    (node c l v r).paint k = node k l v r := rfl
@[simp] theorem paintLeft_node (k c : Color) (l : Tree α) (v : α) (r : Tree α) :
    (node c l v r).paintLeft k = node c (l.paint k) v r := rfl
@[simp] theorem paintRight_node (k c : Color) (l : Tree α) (v : α) (r : Tree α) :
    (node c l v r).paintRight k = node c l v (r.paint k) := rfl
@[simp] theorem toList_paint (c : Color) (t : Tree α) : (t.paint c).toList = t.toList := by
  cases t <;> rfl
@[simp] theorem toList_paintLeft (c : Color) (t : Tree α) : (t.paintLeft c).toList = t.toList := by
  cases t <;> simp [paintLeft]
@[simp] theorem toList_paintRight (c : Color) (t : Tree α) : (t.paintRight c).toList = t.toList := by
  cases t <;> simp [paintRight]

end Tree

def Frame.plug (f : Frame α) (t : Tree α) : Tree α :=
  match f.side with
  | .left => .node f.color t f.value f.other
  | .right => .node f.color f.other f.value t

/-- The whole tree of a position. -/
def zip (t : Tree α) : Path α → Tree α
  | [] => t
  | f :: p => zip (f.plug t) p

@[simp] theorem zip_nil (t : Tree α) : zip t [] = t := rfl
@[simp] theorem zip_cons (t : Tree α) (f : Frame α) (p : Path α) : zip t (f :: p) = zip (f.plug t) p := rfl

/-- What comes before and after a position in the order of the whole tree. -/
def before : Path α → List α
  | [] => []
  | f :: p => match f.side with
    | .left => before p
    | .right => before p ++ (f.other.toList ++ [f.value])

def after : Path α → List α
  | [] => []
  | f :: p => match f.side with
    | .left => f.value :: (f.other.toList ++ after p)
    | .right => after p

theorem toList_zip (t : Tree α) (p : Path α) :
    (zip t p).toList = before p ++ (t.toList ++ after p) := by
  induction p generalizing t with
  | nil => simp [before, after]
  | cons f p ih =>
    rw [zip_cons, ih]
    cases hs : f.side <;> simp [Frame.plug, before, after, hs]

theorem before_append (p q : Path α) : before (p ++ q) = before q ++ before p := by
  induction p with
  | nil => simp [before]
  | cons f p ih => cases hs : f.side <;> simp [before, hs, ih]

theorem after_append (p q : Path α) : after (p ++ q) = after p ++ after q := by
  induction p with
  | nil => simp [after]
  | cons f p ih => cases hs : f.side <;> simp [after, hs, ih]

/-- What a node of this colour adds to the black height. -/
def Color.weight : Color → ℕ
  | .red => 0
  | .black => 1

/-- `Balanced t c n`: the root of `t` has colour `c`, no red node has a red child,
and every path to the sentinel passes `n` black nodes. -/
inductive Balanced : Tree α → Color → ℕ → Prop
  | null : Balanced .null .black 0
  | red {l r : Tree α} {v : α} {n : ℕ} : Balanced l .black n → Balanced r .black n →
      Balanced (.node .red l v r) .red n
  | black {l r : Tree α} {v : α} {c₁ c₂ : Color} {n : ℕ} : Balanced l c₁ n → Balanced r c₂ n →
      Balanced (.node .black l v r) .black (n + 1)

/-- `HoleFits p c n`: a balanced tree of colour `c` and black height `n` in the
hole of `p` makes the whole tree balanced with a black root. -/
inductive HoleFits : Path α → Color → ℕ → Prop
  | root {n : ℕ} : HoleFits [] .black n
  | red {s : Side} {v : α} {t : Tree α} {p : Path α} {n : ℕ} : Balanced t .black n →
      HoleFits p .red n → HoleFits (⟨s,.red,v,t⟩ :: p) .black n
  | black {s : Side} {v : α} {t : Tree α} {p : Path α} {c c' : Color} {n : ℕ} : Balanced t c' n →
      HoleFits p .black (n + 1) → HoleFits (⟨s,.black,v,t⟩ :: p) c n

theorem Balanced.color_eq {t : Tree α} {c : Color} {n : ℕ} (h : Balanced t c n) : t.color = c := by
  cases h <;> rfl

theorem Balanced.paint_black {t : Tree α} {c : Color} {n : ℕ} (h : Balanced t c n) :
    ∃ m, Balanced (t.paint .black) .black m := by
  cases h with
  | null => exact ⟨0,.null⟩
  | red hl hr => exact ⟨_,.black hl hr⟩
  | black hl hr => exact ⟨_,.black hl hr⟩

theorem Balanced.paint_red_black {t : Tree α} {n : ℕ} (h : Balanced t .red n) :
    Balanced (t.paint .black) .black (n + 1) := by
  cases h with
  | red hl hr => exact .black hl hr

theorem Balanced.plug_black {f : Frame α} {t : Tree α} {c c' : Color} {n : ℕ} (hf : f.color = .black)
    (ht : Balanced t c n) (ho : Balanced f.other c' n) : Balanced (f.plug t) .black (n + 1) := by
  cases hs : f.side <;> simp only [Frame.plug, hs, hf]
  · exact .black ht ho
  · exact .black ho ht

/-- A black tree of positive black height is a node. -/
theorem Balanced.black_succ {t : Tree α} {n : ℕ} (h : Balanced t .black (n + 1)) :
    ∃ l v r c₁ c₂, t = .node .black l v r ∧ Balanced l c₁ n ∧ Balanced r c₂ n := by
  cases h with
  | black hl hr => exact ⟨_,_,_,_,_,rfl,hl,hr⟩

theorem Balanced.node {l r : Tree α} (c : Color) {v : α} {n : ℕ} (hl : Balanced l .black n)
    (hr : Balanced r .black n) : Balanced (.node c l v r) c (n + c.weight) := by
  cases c
  · exact .red hl hr
  · exact .black hl hr

theorem Balanced.red_node {t : Tree α} {n : ℕ} (h : Balanced t .red n) :
    ∃ l v r, t = .node .red l v r ∧ Balanced l .black n ∧ Balanced r .black n := by
  cases h with
  | red hl hr => exact ⟨_,_,_,rfl,hl,hr⟩

theorem Balanced.revalue {l r : Tree α} {v : α} {c k : Color} {n : ℕ} (h : Balanced (.node c l v r) k n) (w : α) :
    Balanced (.node c l w r) k n := by
  cases h with
  | red hl hr => exact .red hl hr
  | black hl hr => exact .black hl hr

theorem HoleFits.tail {f : Frame α} {p : Path α} {c : Color} {n : ℕ} (h : HoleFits (f :: p) c n) :
    HoleFits p f.color (n + f.color.weight) := by
  cases h with
  | red ht hp => exact hp
  | black ht hp => exact hp

theorem HoleFits.under_black {f : Frame α} {p : Path α} {c : Color} {n : ℕ} (h : HoleFits (f :: p) c n)
    (hf : f.color = .black) (c' : Color) : HoleFits (f :: p) c' n := by
  cases h with
  | red ht hp => cases hf
  | black ht hp => exact .black ht hp

theorem HoleFits.under_red {f : Frame α} {p : Path α} {c : Color} {n : ℕ} (h : HoleFits (f :: p) c n)
    (hf : f.color = .red) : c = .black ∧ Balanced f.other .black n ∧ HoleFits p .red n := by
  cases h with
  | red ht hp => exact ⟨rfl,ht,hp⟩
  | black ht hp => cases hf

/-- What fits below the root of a path is below a black node. -/
theorem HoleFits.last_black {f : Frame α} {c : Color} {n : ℕ} (h : HoleFits [f] c n) : f.color = .black := by
  by_contra hne
  cases (h.under_red (Color.eq_red hne)).2.2

theorem HoleFits.revalue {s : Side} {k c : Color} {v : α} {o : Tree α} {p : Path α} {n : ℕ}
    (h : HoleFits (⟨s,k,v,o⟩ :: p) c n) (w : α) : HoleFits (⟨s,k,w,o⟩ :: p) c n := by
  cases h with
  | red ht hp => exact .red ht hp
  | black ht hp => exact .black ht hp

/-- A red tree hangs below a black node. -/
theorem HoleFits.of_red_hole {f : Frame α} {p : Path α} {n : ℕ} (h : HoleFits (f :: p) .red n) :
    f.color = .black ∧ (∃ c, Balanced f.other c n) ∧ HoleFits p .black (n + 1) := by
  cases h with
  | black ht hp => exact ⟨rfl,⟨_,ht⟩,hp⟩

/-- Where a red tree fits, a black one of the same height does. -/
theorem HoleFits.of_red {p : Path α} {n : ℕ} (h : HoleFits p .red n) : HoleFits p .black n := by
  cases h with
  | black ht hp => exact .black ht hp

theorem HoleFits.zip {p : Path α} {c : Color} {n : ℕ} (hp : HoleFits p c n) {t : Tree α}
    (ht : Balanced t c n) : ∃ m, Balanced (zip t p) .black m := by
  induction hp generalizing t with
  | root => exact ⟨_,ht⟩
  | @red s v o p n ho _ ih =>
    cases s with
    | left => exact ih (.red ht ho)
    | right => exact ih (.red ho ht)
  | @black s v o p c c' n ho _ ih =>
    cases s with
    | left => exact ih (.black ht ho)
    | right => exact ih (.black ho ht)

theorem HoleFits.left {p : Path α} {c : Color} {n : ℕ} {l r : Tree α} {v : α}
    (hp : HoleFits p c n) (ht : Balanced (.node c l v r) c n) :
    ∃ c' n', Balanced l c' n' ∧ HoleFits (⟨.left,c,v,r⟩ :: p) c' n' := by
  cases ht with
  | red hl hr => exact ⟨_,_,hl,.red hr hp⟩
  | black hl hr => exact ⟨_,_,hl,.black hr hp⟩

theorem HoleFits.right {p : Path α} {c : Color} {n : ℕ} {l r : Tree α} {v : α}
    (hp : HoleFits p c n) (ht : Balanced (.node c l v r) c n) :
    ∃ c' n', Balanced r c' n' ∧ HoleFits (⟨.right,c,v,l⟩ :: p) c' n' := by
  cases ht with
  | red hl hr => exact ⟨_,_,hr,.red hl hp⟩
  | black hl hr => exact ⟨_,_,hr,.black hl hp⟩

/-! ## Searching -/

/-- Walk down from a position, left where the sought key compares below the node
and right where it compares above, until it matches or the tree ends. -/
def locate (cmp : α → ℤ) : Tree α → Path α → Tree α × Path α
  | .null, p => (.null,p)
  | .node c l v r, p =>
    if cmp v = 0 then (.node c l v r,p)
    else if cmp v < 0 then locate cmp l (⟨.left,c,v,r⟩ :: p)
    else locate cmp r (⟨.right,c,v,l⟩ :: p)

/-- Along the list the sought key compares first above, then equal, then below. -/
def Cut (cmp : α → ℤ) (xs : List α) : Prop :=
  xs.Pairwise (fun a b => (cmp a < 0 → cmp b < 0) ∧ (0 < cmp b → 0 < cmp a))

/-- An element is put into an ordered list; between the others the new order follows from the old one. -/
theorem pairwise_insert {R R' : α → α → Prop} {xs ys : List α} {a : α} (h : (xs ++ ys).Pairwise R)
    (hkeep : ∀ b ∈ xs ++ ys, ∀ c ∈ xs ++ ys, R b c → R' b c) (hx : ∀ b ∈ xs, R' b a) (hy : ∀ c ∈ ys, R' a c) :
    (xs ++ a :: ys).Pairwise R' := by
  have hkept : (xs ++ ys).Pairwise R' := h.imp_of_mem fun hb hc => hkeep _ hb _ hc
  obtain ⟨hxx,hyy,hxy⟩ := List.pairwise_append.mp hkept
  refine List.pairwise_append.mpr ⟨hxx,List.pairwise_cons.mpr ⟨hy,hyy⟩,?_⟩
  intro b hb c hc
  rcases List.mem_cons.mp hc with rfl | hc
  · exact hx b hb
  · exact hxy b hb c hc

theorem zip_locate (cmp : α → ℤ) (t : Tree α) (p : Path α) :
    zip (locate cmp t p).1 (locate cmp t p).2 = zip t p := by
  induction t generalizing p with
  | null => rfl
  | node c l v r ihl ihr =>
    simp only [locate]
    split
    · rfl
    · split
      · rw [ihl]; rfl
      · rw [ihr]; rfl

theorem locate_value (cmp : α → ℤ) (t : Tree α) (p : Path α) {c : Color} {l r : Tree α} {v : α}
    (h : (locate cmp t p).1 = .node c l v r) : cmp v = 0 := by
  induction t generalizing p with
  | null => cases h
  | node c' l' v' r' ihl ihr =>
    simp only [locate] at h
    split at h
    · rename_i hv
      cases h
      exact hv
    · split at h
      · exact ihl _ h
      · exact ihr _ h

theorem locate_sides (cmp : α → ℤ) (t : Tree α) (p : Path α) (hc : Cut cmp (zip t p).toList)
    (hb : ∀ a ∈ before p, 0 < cmp a) (ha : ∀ a ∈ after p, cmp a < 0) :
    (∀ a ∈ before (locate cmp t p).2, 0 < cmp a) ∧ (∀ a ∈ after (locate cmp t p).2, cmp a < 0) := by
  induction t generalizing p with
  | null => exact ⟨hb,ha⟩
  | node c l v r ihl ihr =>
    have hcut := hc
    rw [toList_zip, Tree.toList_node, List.append_assoc] at hcut
    obtain ⟨-,hin,-⟩ := List.pairwise_append.mp hcut
    obtain ⟨-,hvr,hlv⟩ := List.pairwise_append.mp hin
    simp only [locate]
    split
    · exact ⟨hb,ha⟩
    · rename_i hne
      split
      · rename_i hlt
        apply ihl (⟨.left,c,v,r⟩ :: p) hc hb
        intro a hmem
        rcases List.mem_cons.mp hmem with rfl | hmem
        · exact hlt
        · exact ((List.pairwise_cons.mp hvr).1 a hmem).1 hlt
      · rename_i hge
        have hgt : 0 < cmp v := by omega
        refine ihr (⟨.right,c,v,l⟩ :: p) hc ?_ ha
        intro a hmem
        rcases List.mem_append.mp hmem with hmem | hmem
        · exact hb a hmem
        · rcases List.mem_append.mp hmem with hmem | hmem
          · exact (hlv a hmem v (List.mem_cons_self)).2 hgt
          · exact (List.mem_singleton.mp hmem) ▸ hgt

theorem locate_balanced (cmp : α → ℤ) {t : Tree α} {p : Path α} {c : Color} {n : ℕ}
    (ht : Balanced t c n) (hp : HoleFits p c n) :
    ∃ c' n', Balanced (locate cmp t p).1 c' n' ∧ HoleFits (locate cmp t p).2 c' n' := by
  induction t generalizing p c n with
  | null => exact ⟨c,n,ht,hp⟩
  | node c₀ l v r ihl ihr =>
    obtain rfl : c₀ = c := ht.color_eq
    simp only [locate]
    split
    · exact ⟨_,_,ht,hp⟩
    · split
      · obtain ⟨c',n',hl,hfit⟩ := hp.left ht
        exact ihl hl hfit
      · obtain ⟨c',n',hr,hfit⟩ := hp.right ht
        exact ihr hr hfit

/-- A search that ends at the sentinel has seen that no element matches. -/
theorem locate_null_iff (cmp : α → ℤ) (t : Tree α) (hc : Cut cmp t.toList) :
    (locate cmp t []).1 = .null ↔ ∀ a ∈ t.toList, cmp a ≠ 0 := by
  have hzip := zip_locate cmp t []
  obtain ⟨hb,ha⟩ := locate_sides cmp t [] hc (by simp [before]) (by simp [after])
  have hlist := toList_zip (locate cmp t []).1 (locate cmp t []).2
  rw [hzip, zip_nil] at hlist
  constructor
  · intro hnull a hmem
    rw [hlist, hnull] at hmem
    rcases List.mem_append.mp hmem with h | h
    · exact (hb a h).ne'
    · exact (ha a h).ne
  · intro hall
    cases hfound : (locate cmp t []).1 with
    | null => rfl
    | node c l v r =>
      have hv := locate_value cmp t [] hfound
      exact absurd hv (hall v (by rw [hlist, hfound]; simp))

end LogStats
