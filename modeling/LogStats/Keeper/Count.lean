import LogStats.Keeper.Steps
import LogStats.Library.Run

/-! # The count of the view tree over whole runs

`count` follows the nodes of the tree and the entries of the LRU list from what
`view_tree_create` left in it.
-/
namespace LogStats

open ViewTree

namespace HouseKeeper

/-- `count` is the number of the nodes of the tree and of the entries of the LRU list. -/
def Counted (keeper : HouseKeeper) : Prop :=
  keeper.views.count = keeper.views.rbtree.elems.length ∧
    ∃ cells, keeper.views.lrulist.Represents cells ∧ keeper.views.count = cells.length

/-- No name is written behind the array of `return_all_views`, and no tail is taken off an
empty list by `view_tree_set_memsize`. -/
def CountTrusted (keeper : HouseKeeper) : Prop :=
  (returnAllViews keeper).isSome ∧ ∀ expectSize, (viewTreeSetMemsize keeper.views expectSize).isSome

end HouseKeeper

/-- The memory of a tree that is set up by this operation holds 0 where its count is. -/
def KeeperOp.Zeroed : KeeperOp → Prop
  | .flush memory => memory.count = 0
  | _ => True

section Count
variable {keeper : HouseKeeper} {cells : List ℕ}

theorem ViewTree.offBy_zero {t : ViewTree} : t.OffBy 0 cells ↔ t.Wf cells := by
  constructor
  · rintro ⟨u,hwf,rfl⟩
    rwa [shift_zero]
  · exact fun h => ⟨t,h,(shift_zero t).symm⟩

theorem counted_of_wf (h : keeper.views.Wf cells) : keeper.Counted ∧ keeper.CountTrusted := by
  have hlen : keeper.views.count = cells.length := by rw [h.count_eq, h.length_eq]
  refine ⟨⟨h.count_eq,cells,h.lru,hlen⟩,?_,fun expectSize => ?_⟩
  · have hle : ((keeper.views.rbtree.elems.map fun a => (keeper.views.nodes a).name).filter
        (fun name => name.strlen ≠ 0)).length ≤ keeper.views.count.toNat := by
      apply (List.length_filter_le _ _).trans
      rw [List.length_map, h.count_eq, Int.toNat_natCast]
    simp only [returnAllViews, if_pos hle, Option.isSome_some]
  · obtain ⟨t',kept,hset,-⟩ := viewTreeSetMemsize_cases h expectSize
    rw [hset, Option.isSome_some]

/-- A tree that was just set up is empty, so that its count has to be 0. -/
theorem created_counted {memory : ViewTreeMemory} {keeper : HouseKeeper} (hviews : keeper.views = viewTreeCreate memory)
    (h : keeper.Counted) : memory.count = 0 := by
  have hcount := h.1
  rw [hviews] at hcount
  simpa [viewTreeCreate] using hcount

end Count

/-- Throughout a run the count is right, and what trusts it is defined, if and only if
every tree was set up in memory with 0 in the place of the count. -/
theorem count_right_iff (memory : ViewTreeMemory) (ops : List KeeperOp) :
    Always keeperStep (fun keeper => keeper.Counted ∧ keeper.CountTrusted) (houseKeeperCreate memory) ops ↔
      memory.count = 0 ∧ Along keeperStep (fun _ op => op.Zeroed) (houseKeeperCreate memory) ops := by
  have hkeep : ∀ keeper op keeper', (∃ cells, keeper.views.Wf cells) → op.Zeroed →
      keeperStep keeper op = some keeper' → ∃ cells, keeper'.views.Wf cells := by
    rintro keeper op keeper' ⟨cells,hwf⟩ hop hr
    obtain ⟨⟨cells',hoff⟩,-,-⟩ := keeperStep_cases (offBy_zero.mpr hwf) hr
    have hdrift : op.drift 0 = 0 := by
      cases op with
      | flush memory => exact hop
      | log alloc r => rfl
      | recycle expectSize => rfl
      | tick => rfl
    rw [hdrift, offBy_zero] at hoff
    exact ⟨cells',hoff⟩
  have hbreak : ∀ keeper op keeper', (∃ cells, keeper.views.Wf cells) → ¬op.Zeroed →
      keeperStep keeper op = some keeper' → ¬(keeper'.Counted ∧ keeper'.CountTrusted) := by
    rintro keeper op keeper' - hop hr ⟨hcounted,-⟩
    cases op with
    | flush memory =>
      obtain rfl := Option.some_inj.mp hr
      exact hop (created_counted rfl hcounted)
    | log alloc r => exact hop trivial
    | recycle expectSize => exact hop trivial
    | tick => exact hop trivial
  have hiff : memory.count = 0 →
      (Always keeperStep (fun keeper => keeper.Counted ∧ keeper.CountTrusted) (houseKeeperCreate memory) ops ↔
        Along keeperStep (fun _ op => op.Zeroed) (houseKeeperCreate memory) ops) := fun h0 =>
    always_iff_along (I := fun keeper => ∃ cells, keeper.views.Wf cells) ⟨[],Wf.create memory h0⟩
      (fun _ ⟨_,hwf⟩ => counted_of_wf hwf) hkeep hbreak
  constructor
  · intro h
    have h0 := created_counted rfl (h [] List.nil_prefix _ run_nil).1
    exact ⟨h0,(hiff h0).mp h⟩
  · rintro ⟨h0,halong⟩
    exact (hiff h0).mpr halong

/-- malloc may return a 1 there. -/
theorem count_right_fails : ∃ memory ops,
    ¬Always keeperStep (fun keeper => keeper.Counted ∧ keeper.CountTrusted) (houseKeeperCreate memory) ops := by
  let memory : ViewTreeMemory := ⟨1,fun _ => ⟨0,0,0⟩,fun _ => ⟨CString.read [],0,0⟩⟩
  refine ⟨memory,[],fun h => ?_⟩
  have hcounted : (houseKeeperCreate memory).Counted := (h [] List.nil_prefix _ run_nil).1
  have h0 : (1 : ℤ) = 0 := created_counted rfl hcounted
  omega

end LogStats
