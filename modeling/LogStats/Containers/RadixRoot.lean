import LogStats.Containers.RadixFailure

/-! # The prefix of no bits

An insertion accepts it and puts its value into the root. A deletion prunes from the node
that it finds, and looks at the node's parent before it asks whether there is one, so that
a root without children is where it fails.
-/
namespace LogStats

variable {V : Type*}

/-- A call with a prefix of any length; an insertion comes with the outcomes of its allocations. -/
inductive RadixEdit (V : Type*) where
  | insert (malloc : ℕ → Bool) (key : BitVec 32) (mask : { n : ℕ // n ≤ 32 }) (value : V)
  | delete (key : BitVec 32) (mask : { n : ℕ // n ≤ 32 })

def radixEditStep (t : RadixTree V) (edit : RadixEdit V) : Option (RadixTree V) :=
  match edit with
  | .insert malloc key mask value => some (radixTreeInsertEach malloc t key mask value).2
  | .delete key mask => (radixTreeDeleteNode t key mask).map Prod.snd

namespace RadixTree

def RootHasChild (t : RadixTree V) : Prop := (t.node t.root).right.isSome ∨ (t.node t.root).left.isSome

/-- A deletion follows no NULL and leaves the root out of the free list, and it takes back an
insertion of the same prefix. -/
structure PrunesBelowRoot (t : RadixTree V) (key : BitVec 32) (mask : ℕ) : Prop where
  safe : ∃ r t', radixTreeDeleteNode t key mask = some (r,t') ∧ t'.root = t.root ∧ ∀ k, t'.freed k ≠ some t.root
  undone : ∀ malloc value t', radixTreeInsertEach malloc t key mask value = (.succeed,t') →
    ∃ t'', radixTreeDeleteNode t' key mask = some (.succeed,t'') ∧
      ∀ k fuel, 33 ≤ fuel → radixTreeFind t'' k fuel = radixTreeFind t k fuel

section Root
variable {t t' : RadixTree V} {place : List Bool → Option ℕ} {free : List ℕ} {key : BitVec 32} {mask : ℕ}

/-- The first thing that the loop does with the root is to follow its parent. -/
theorem prune_root {node : ℕ} (h : (t.node node).parent = none) (fuel : ℕ) : radixTreePrune fuel node t = none := by
  cases fuel with
  | zero => rfl
  | succ fuel => simp only [radixTreePrune, h]

theorem prune_root_eq {fuel node : ℕ} (h : radixTreePrune fuel node t = some t') : t'.root = t.root := by
  induction fuel generalizing node t with
  | zero => cases h
  | succ fuel ih =>
    cases hparent : (t.node node).parent with
    | none =>
      rw [prune_root hparent] at h
      cases h
    | some parent =>
      -- no write of a round is one to the root pointer
      obtain ⟨side,hside,hroot⟩ : ∃ side, side =
          (if (t.node parent).right = some node then t.setRight parent none else t.setLeft parent none) ∧
          side.root = t.root := ⟨_,rfl,by split <;> rfl⟩
      simp only [radixTreePrune, hparent, ← hside] at h
      split at h
      · rw [← Option.some.inj h]
        exact hroot
      · split at h
        · rw [← Option.some.inj h]
          exact hroot
        · split at h
          · rw [← Option.some.inj h]
            exact hroot
          · rw [ih h]
            exact hroot

theorem delete_root_eq {r : RadixResult} (h : radixTreeDeleteNode t key mask = some (r,t')) : t'.root = t.root := by
  rw [radixTreeDeleteNode] at h
  cases hwalk : radixTreeDeleteWalk t key mask topBit (some t.root) with
  | none =>
    rw [hwalk] at h
    cases h
    rfl
  | some node =>
    simp only [hwalk] at h
    split at h
    · split at h
      · cases h
        rfl
      · cases h
        rfl
    · obtain ⟨t₁,hprune,heq⟩ := Option.map_eq_some_iff.mp h
      cases heq
      have hroot := prune_root_eq hprune
      exact hroot

/-- Without a child of the root there is nothing below which the root could be deleted. -/
theorem delete_root_none (hkids : ¬t.RootHasChild) : radixTreeDeleteNode t key 0 = none := by
  have hwalk : radixTreeDeleteWalk t key 0 topBit (some t.root) = some t.root := rfl
  simp only [radixTreeDeleteNode, hwalk, RootHasChild] at hkids ⊢
  rw [if_neg hkids]
  rfl

theorem Placed.root_not_freed (h : t.Placed place free) (k : ℕ) : t.freed k ≠ some t.root :=
  fun hk => h.apart [] t.root h.root_eq (h.chained.reached k hk)

theorem Placed.find_congr {place' : List Bool → Option ℕ} {free' : List ℕ} (h : t.Placed place free)
    (h' : t'.Placed place' free') (hheld : t'.held place' = t.held place) {fuel : ℕ} (hfuel : 33 ≤ fuel) :
    radixTreeFind t' key fuel = radixTreeFind t key fuel := by
  rw [h.find_eq hfuel, h'.find_eq hfuel, hheld]

/-- What an insertion has stored its deletion takes back. -/
theorem Placed.undone (h : t.Placed place free) (hmask : mask ≤ 32) (hroot : 1 ≤ mask ∨ t.RootHasChild) (malloc : ℕ → Bool)
    (value : V) (hins : radixTreeInsertEach malloc t key mask value = (.succeed,t')) :
    ∃ t'', radixTreeDeleteNode t' key mask = some (.succeed,t'') ∧
      ∀ k fuel, 33 ≤ fuel → radixTreeFind t'' k fuel = radixTreeFind t k fuel := by
  obtain ⟨r,t₁,place₁,free₁,hrun,h₁,hspec⟩ := insertEach_spec h hmask malloc key value
  rw [hins] at hrun
  obtain ⟨rfl,rfl⟩ := Prod.mk.inj hrun
  obtain ⟨hnone,hheld₁⟩ := hspec rfl
  have hroot₁ : 1 ≤ mask ∨ t'.RootHasChild := by
    rcases Nat.eq_zero_or_pos mask with rfl | hpos
    · right
      have hat : radixTreeInsertEach malloc t key 0 value =
          if (t.node t.root).value.isSome then (.dupKey,t) else (.succeed,t.fill t.root value) := rfl
      rw [hat] at hins
      split at hins
      · cases hins
      · obtain rfl := (Prod.mk.inj hins).2
        simpa [RootHasChild, RadixTree.fill, RadixTree.setValue] using hroot.resolve_left (by omega)
    · exact Or.inl hpos
  obtain ⟨r,t₂,place₂,free₂,hdel,h₂,hspec₂⟩ := @delete_spec V t' place₁ free₁ key h₁ mask hroot₁
  obtain ⟨rfl,hheld₂⟩ := hspec₂ (by rw [hheld₁, PrefixMap.assign_self]; exact Option.some_ne_none value)
  refine ⟨t₂,hdel,fun k fuel hfuel => h.find_congr h₂ ?_ hfuel⟩
  rw [hheld₂, hheld₁, PrefixMap.assign, PrefixMap.assign, Function.update_idem, ← hnone, Function.update_eq_self]

end Root

/-! ## Reachable trees -/

section Reach
variable {t t' : RadixTree V} {place : List Bool → Option ℕ} {free : List ℕ}

/-- A step that goes through finds a child of the root where it needs one. -/
theorem editStep_placed (h : t.Placed place free) {edit : RadixEdit V} (hs : radixEditStep t edit = some t') :
    ∃ place' free', t'.Placed place' free' := by
  cases edit with
  | insert malloc key mask value =>
    obtain ⟨r,t₁,place₁,free₁,hrun,h₁,-⟩ := insertEach_spec h mask.2 malloc key value
    rw [radixEditStep, hrun] at hs
    obtain rfl := Option.some.inj hs
    exact ⟨place₁,free₁,h₁⟩
  | delete key mask =>
    have hroot : 1 ≤ (mask : ℕ) ∨ t.RootHasChild := by
      by_contra hno
      obtain ⟨hzero,hkids⟩ := not_or.mp hno
      rw [radixEditStep, show (mask : ℕ) = 0 by omega, delete_root_none hkids] at hs
      cases hs
    obtain ⟨r,t₁,place₁,free₁,hrun,h₁,-⟩ := @delete_spec V t place free key h mask hroot
    rw [radixEditStep, hrun] at hs
    obtain rfl := Option.some.inj hs
    exact ⟨place₁,free₁,h₁⟩

theorem editRun_placed {edits : List (RadixEdit V)} (hrun : run radixEditStep radixTreeCreate edits = some t) :
    ∃ place free, t.Placed place free :=
  run_induction (P := fun _ t => ∃ place free, t.Placed place free) ⟨_,_,create_holds.toPlaced⟩
    (fun _ _ _ _ ⟨_,_,h⟩ _ hs => editStep_placed h hs) Along.true hrun

end Reach

end RadixTree

open RadixTree

/-- In every tree that calls with prefixes of any length lead to, a deletion stays below the
root and takes back its insertion if and only if its prefix has a bit or the root has a child. -/
theorem radixTreeDelete_below_root_iff {t : RadixTree V} {edits : List (RadixEdit V)}
    (hreach : run radixEditStep radixTreeCreate edits = some t) (key : BitVec 32) (mask : { n : ℕ // n ≤ 32 }) :
    t.PrunesBelowRoot key mask ↔ 1 ≤ (mask : ℕ) ∨ t.RootHasChild := by
  obtain ⟨place,free,h⟩ := editRun_placed hreach
  constructor
  · intro hprunes
    by_contra hno
    obtain ⟨hzero,hkids⟩ := not_or.mp hno
    obtain ⟨r,t',hrun,-⟩ := hprunes.safe
    rw [show (mask : ℕ) = 0 by omega, delete_root_none hkids] at hrun
    cases hrun
  · intro hroot
    refine ⟨?_,fun malloc value t' hins => h.undone mask.2 hroot malloc value hins⟩
    obtain ⟨r,t',place',free',hrun,h',-⟩ := @delete_spec V t place free key h mask hroot
    have hsame := delete_root_eq hrun
    refine ⟨r,t',hrun,hsame,fun k => ?_⟩
    rw [← hsame]
    exact h'.root_not_freed k

/-- With a prefix of one bit in the tree that of no bits can be taken back, and in the empty
tree it can not. -/
theorem radixTreeDelete_below_root_iff_one : ∃ t : RadixTree ℕ,
    run radixEditStep radixTreeCreate [.insert (fun _ => true) 0x80000000 ⟨1,by decide⟩ 7] = some t ∧
    t.PrunesBelowRoot 0 0 ∧ ¬(radixTreeCreate : RadixTree ℕ).PrunesBelowRoot 0 0 := by
  let t : RadixTree ℕ := (radixTreeInsertEach (fun _ => true) radixTreeCreate 0x80000000 1 7).2
  have hrun : run radixEditStep radixTreeCreate [.insert (fun _ => true) 0x80000000 ⟨1,by decide⟩ 7] = some t := rfl
  refine ⟨t,hrun,(radixTreeDelete_below_root_iff hrun 0 ⟨0,by decide⟩).mpr (Or.inr (Or.inl (by decide))),fun hprunes => ?_⟩
  have hroot := (@radixTreeDelete_below_root_iff ℕ radixTreeCreate [] rfl 0 ⟨0,by decide⟩).mp hprunes
  exact absurd hroot (by simp [RootHasChild, radixTreeCreate])

/-- The prefix of no bits is stored in an empty tree, and its deletion follows the parent of
the root, which is NULL. -/
theorem radixTreeDelete_follows_null : ∃ t : RadixTree ℕ,
    run radixEditStep radixTreeCreate [.insert (fun _ => true) 0 ⟨0,by decide⟩ 7] = some t ∧
    (radixTreeInsertEach (fun _ => true) (radixTreeCreate : RadixTree ℕ) 0 0 7).1 = .succeed ∧
    (t.node t.root).parent = none ∧ radixTreeDeleteNode t 0 0 = none :=
  ⟨radixTreeCreate.fill 0 7,rfl,rfl,by decide,delete_root_none (by simp [RootHasChild, RadixTree.fill, RadixTree.setValue,
    radixTreeCreate])⟩

end LogStats
