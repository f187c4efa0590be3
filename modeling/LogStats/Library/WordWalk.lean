import Mathlib.Data.List.Induction
import Mathlib.Tactic.Ring

/-! # Words of bits in order

A word of up to `n` bits stands for the block of the numbers of `n` bits that start with
it. A traversal of a binary tree of words meets each of them once: in preorder by the
blockFirst number of the block, the larger blocks before those in them, and in inorder by its
middle.
-/
namespace LogStats

section Blocks
variable {w u : List Bool} {b : Bool} {n : ℕ}

/-- The number that is written with the bits. -/
def wordCode (w : List Bool) : ℕ := w.foldl (fun n b => 2 * n + b.toNat) 0

theorem wordCode_snoc : wordCode (w ++ [b]) = 2 * wordCode w + b.toNat := by
  rw [wordCode, List.foldl_append]
  rfl

theorem wordCode_append (w u : List Bool) : wordCode (w ++ u) = wordCode w * 2 ^ u.length + wordCode u := by
  induction u using List.reverseRecOn with
  | nil => simp [wordCode]
  | append_singleton u b ih =>
    rw [← List.append_assoc, wordCode_snoc, wordCode_snoc, ih, List.length_append, List.length_singleton]
    ring

theorem wordCode_lt (w : List Bool) : wordCode w < 2 ^ w.length := by
  induction w using List.reverseRecOn with
  | nil => decide
  | append_singleton w b ih =>
    rw [wordCode_snoc, List.length_append, List.length_singleton, pow_succ]
    have hb := b.toNat_le
    omega

/-- The blockFirst number of a block, and the size of the block. -/
def blockFirst (n : ℕ) (w : List Bool) : ℕ := wordCode w * 2 ^ (n - w.length)

def blockSize (n : ℕ) (w : List Bool) : ℕ := 2 ^ (n - w.length)

theorem blockSize_pos : 0 < blockSize n w := Nat.two_pow_pos _

theorem blockSize_snoc (h : w.length < n) : 2 * blockSize n (w ++ [b]) = blockSize n w := by
  rw [blockSize, blockSize, List.length_append, List.length_singleton, ← pow_succ']
  congr 1
  omega

theorem blockFirst_snoc (h : w.length < n) : blockFirst n (w ++ [b]) = blockFirst n w + b.toNat * blockSize n (w ++ [b]) := by
  have hsize := @blockSize_snoc w b n h
  rw [blockSize, blockSize] at hsize
  rw [blockFirst, blockFirst, blockSize, wordCode_snoc, ← hsize]
  ring

/-- The block of a longer word lies within that of its prefix. -/
theorem block_within (h : (w ++ u).length ≤ n) :
    blockFirst n w ≤ blockFirst n (w ++ u) ∧ blockFirst n (w ++ u) + blockSize n (w ++ u) ≤ blockFirst n w + blockSize n w := by
  rw [List.length_append] at h
  have hsplit : 2 ^ (n - w.length) = 2 ^ u.length * 2 ^ (n - (w ++ u).length) := by
    rw [← pow_add, List.length_append]
    congr 1
    omega
  have hlt := wordCode_lt u
  rw [blockFirst, blockFirst, blockSize, blockSize, hsplit, wordCode_append]
  generalize 2 ^ (n - (w ++ u).length) = p
  constructor
  · calc wordCode w * (2 ^ u.length * p) = wordCode w * 2 ^ u.length * p := by ring
      _ ≤ (wordCode w * 2 ^ u.length + wordCode u) * p := Nat.mul_le_mul_right p (Nat.le_add_right _ _)
  · calc (wordCode w * 2 ^ u.length + wordCode u) * p + p = wordCode w * (2 ^ u.length * p) + (wordCode u + 1) * p := by ring
      _ ≤ wordCode w * (2 ^ u.length * p) + 2 ^ u.length * p := Nat.add_le_add_left (Nat.mul_le_mul_right p hlt) _

/-- Larger blocks come before those in them. -/
def BlockBefore (n : ℕ) (w u : List Bool) : Prop := blockFirst n w < blockFirst n u ∨ blockFirst n w = blockFirst n u ∧ w.length < u.length

def blockMiddle (n : ℕ) (w : List Bool) : ℕ := 2 * blockFirst n w + blockSize n w

end Blocks

section Walks
variable {A : Type*} {place : List Bool → Option A} {w u : List Bool} {n m : ℕ}

/-- The words that a tree has a node for, from `w` on and down to a depth. -/
def preorder (place : List Bool → Option A) : ℕ → List Bool → List (List Bool)
  | 0, _ => []
  | m + 1, w => if (place w).isSome then w :: (preorder place m (w ++ [false]) ++ preorder place m (w ++ [true])) else []

def inorder (place : List Bool → Option A) : ℕ → List Bool → List (List Bool)
  | 0, _ => []
  | m + 1, w => if (place w).isSome then inorder place m (w ++ [false]) ++ w :: inorder place m (w ++ [true]) else []

theorem inorder_perm (place : List Bool → Option A) (m : ℕ) (w : List Bool) :
    (inorder place m w).Perm (preorder place m w) := by
  induction m generalizing w with
  | zero => exact List.Perm.nil
  | succ m ih =>
    rw [inorder, preorder]
    split
    · exact List.perm_middle.trans (((ih _).append (ih _)).cons w)
    · exact List.Perm.nil

theorem mem_preorder (hclosed : ∀ w b, place w = none → place (w ++ [b]) = none) :
    u ∈ preorder place m w ↔ ∃ v, u = w ++ v ∧ place u ≠ none ∧ v.length < m := by
  induction m generalizing w with
  | zero => simp [preorder]
  | succ m ih =>
    rw [preorder]
    have hnone : ∀ v, place w = none → place (w ++ v) = none := by
      intro v hw
      induction v using List.reverseRecOn with
      | nil => rwa [List.append_nil]
      | append_singleton v b ihv => rw [← List.append_assoc, hclosed _ _ ihv]
    cases hw : place w with
    | none =>
      refine ⟨fun h => by simp at h,?_⟩
      rintro ⟨v,rfl,hne,-⟩
      exact absurd (hnone v hw) hne
    | some a =>
      rw [Option.isSome_some, if_pos rfl, List.mem_cons, List.mem_append, ih, ih]
      constructor
      · rintro (rfl | ⟨v,rfl,hne,hlen⟩ | ⟨v,rfl,hne,hlen⟩)
        · exact ⟨[],by simp,by simp [hw],Nat.succ_pos m⟩
        · exact ⟨false :: v,by simp,hne,Nat.succ_lt_succ hlen⟩
        · exact ⟨true :: v,by simp,hne,Nat.succ_lt_succ hlen⟩
      · rintro ⟨v,rfl,hne,hlen⟩
        cases v with
        | nil => exact Or.inl (List.append_nil w)
        | cons b v =>
          cases b with
          | false => exact Or.inr (Or.inl ⟨v,by simp,hne,Nat.lt_of_succ_lt_succ hlen⟩)
          | true => exact Or.inr (Or.inr ⟨v,by simp,hne,Nat.lt_of_succ_lt_succ hlen⟩)

/-- A word that is met is within the block. -/
theorem preorder_within (hm : w.length + m ≤ n + 1) (hu : u ∈ preorder place m w) :
    ∃ v, u = w ++ v ∧ (w ++ v).length ≤ n := by
  induction m generalizing w with
  | zero => cases hu
  | succ m ih =>
    rw [preorder] at hu
    split at hu
    · rcases List.mem_cons.mp hu with rfl | hu
      · exact ⟨[],(List.append_nil u).symm,by rw [List.append_nil]; omega⟩
      · rcases List.mem_append.mp hu with hu | hu <;>
        · obtain ⟨v,rfl,hlen⟩ := ih (by rw [List.length_append, List.length_singleton]; omega) hu
          exact ⟨_ ++ v,List.append_assoc _ _ _,by rwa [← List.append_assoc]⟩
    · cases hu

/-- The words on the two sides, and what lies between them. -/
theorem sides (hm : w.length + (m + 1) ≤ n + 1) (b : Bool) (hu : u ∈ preorder place m (w ++ [b])) :
    blockFirst n w + b.toNat * blockSize n (w ++ [b]) ≤ blockFirst n u ∧
      blockFirst n u + blockSize n u ≤ blockFirst n w + (b.toNat + 1) * blockSize n (w ++ [b]) ∧ w.length < u.length ∧
      2 * blockSize n (w ++ [b]) = blockSize n w := by
  obtain ⟨v,rfl,hlen⟩ := preorder_within (n := n) (by rw [List.length_append, List.length_singleton]; omega) hu
  have hlt : w.length < n := by
    rw [List.length_append, List.length_append, List.length_singleton] at hlen
    omega
  have hblock := block_within hlen
  rw [blockFirst_snoc hlt] at hblock
  refine ⟨hblock.1,hblock.2.trans (by rw [Nat.add_mul, Nat.one_mul, Nat.add_assoc]),by simp,blockSize_snoc hlt⟩

theorem preorder_sorted (hm : w.length + m ≤ n + 1) : (preorder place m w).Pairwise (BlockBefore n) := by
  induction m generalizing w with
  | zero => exact List.Pairwise.nil
  | succ m ih =>
    rw [preorder]
    split
    · have hbelow : ∀ b, (preorder place m (w ++ [b])).Pairwise (BlockBefore n) := fun b =>
        ih (by rw [List.length_append, List.length_singleton]; omega)
      refine List.pairwise_cons.mpr ⟨?_,List.pairwise_append.mpr ⟨hbelow false,hbelow true,?_⟩⟩
      · intro u hu
        have hle : blockFirst n w ≤ blockFirst n u ∧ w.length < u.length := by
          rcases List.mem_append.mp hu with hu | hu
          · obtain ⟨hlow,-,hlen,-⟩ := sides hm false hu
            exact ⟨(Nat.le_add_right _ _).trans hlow,hlen⟩
          · obtain ⟨hlow,-,hlen,-⟩ := sides hm true hu
            exact ⟨(Nat.le_add_right _ _).trans hlow,hlen⟩
        rcases hle.1.lt_or_eq with hlt | heq
        · exact Or.inl hlt
        · exact Or.inr ⟨heq,hle.2⟩
      · intro u hu v hv
        obtain ⟨-,hu',-,hsize⟩ := sides hm false hu
        obtain ⟨hv',-,-,hsize'⟩ := sides hm true hv
        have hpos := @blockSize_pos u n
        simp only [Bool.toNat_false, Bool.toNat_true, Nat.zero_add, Nat.one_mul] at hu' hv'
        exact Or.inl (by omega)
    · exact List.Pairwise.nil

theorem inorder_sorted (hm : w.length + m ≤ n + 1) :
    (inorder place m w).Pairwise fun u v => blockMiddle n u < blockMiddle n v := by
  induction m generalizing w with
  | zero => exact List.Pairwise.nil
  | succ m ih =>
    rw [inorder]
    split
    · have hbelow : ∀ b, (inorder place m (w ++ [b])).Pairwise fun u v => blockMiddle n u < blockMiddle n v := fun b =>
        ih (by rw [List.length_append, List.length_singleton]; omega)
      have hleft : ∀ u ∈ inorder place m (w ++ [false]), blockMiddle n u < blockMiddle n w := by
        intro u hu
        obtain ⟨-,hhigh,-,hsize⟩ := sides hm false ((inorder_perm _ _ _).mem_iff.mp hu)
        have hpos := @blockSize_pos u n
        simp only [Bool.toNat_false, Nat.zero_add, Nat.one_mul] at hhigh
        rw [blockMiddle, blockMiddle]
        omega
      have hright : ∀ u ∈ inorder place m (w ++ [true]), blockMiddle n w < blockMiddle n u := by
        intro u hu
        obtain ⟨hlow,-,-,hsize⟩ := sides hm true ((inorder_perm _ _ _).mem_iff.mp hu)
        have hpos := @blockSize_pos u n
        simp only [Bool.toNat_true, Nat.one_mul] at hlow
        rw [blockMiddle, blockMiddle]
        omega
      refine List.pairwise_append.mpr ⟨hbelow false,List.pairwise_cons.mpr ⟨hright,hbelow true⟩,?_⟩
      intro u hu v hv
      rcases List.mem_cons.mp hv with rfl | hv
      · exact hleft u hu
      · exact (hleft u hu).trans (hright v hv)
    · exact List.Pairwise.nil

end Walks

end LogStats
