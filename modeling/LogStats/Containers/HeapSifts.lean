import LogStats.Containers.Heap
import Mathlib.Tactic.IntervalCases

/-! # What the operations of log_heap.c do to the heap order

`heap_delete` contains the loop of the other sifts without a callback. All of them
move a hole down and restore the order. The loop of `heap_insert` moves a hole up,
but it compares with what the hole still contains, so it stops a step after the
first one.
-/
namespace LogStats

variable {α M : Type*}

/-- `heap_delete`: on an empty heap it exits. -/
def heapDelete (cmp : M → α → α → ℤ) (m : M) (hbt : Heap α) : Option (Heap α × α) :=
  if hbt.len = 0 then none
  else
    let temp := hbt.heap 0
    let len := hbt.len - 1
    if len = 0 then some (⟨hbt.heap,len,hbt.maxSize⟩,temp)
    else
      let x := hbt.heap len
      let (_,arr,i) := heapSiftHole cmp (fun m _ _ => m) len x m hbt.heap 0
      some (⟨Function.update arr i x,len,hbt.maxSize⟩,temp)

section Insert
variable {cmp : M → α → α → ℤ} {func : M → α → ℕ → M} {m : M} {hbt : Heap α}

theorem heapInsert_position (cmp : M → α → α → ℤ) (func : M → α → ℕ → M) (m : M) (hbt : Heap α) (x : α) :
    (heapInsert cmp func m hbt x).2.1.heap (heapInsert cmp func m hbt x).2.2 = x ∧
      (heapInsert cmp func m hbt x).2.2 < hbt.len + 1 :=
  ⟨Function.update_self _ _ _,Nat.lt_succ_of_le rise_index⟩

/-- The new element arrives at its place exactly if it need not rise above its grandparent. -/
theorem heapInsert_keeps_order_iff {S : α → Prop} (hcmp : ∀ m a i, cmp (func m a i) = cmp m)
    (hc : TotalPreorderOn S (cmp m)) (hS : ∀ a ∈ hbt.elems, S a) {x : α} (hx : S x)
    (h : MinHeap (cmp m) hbt.heap hbt.len) :
    let out := heapInsert cmp func m hbt x
    (out.2.1.len = hbt.len + 1 ∧ out.2.1.elems.Perm (hbt.elems ++ [x]) ∧
        MinHeap (cmp out.1) out.2.1.heap out.2.1.len ∧ out.2.2 < out.2.1.len ∧ out.2.1.heap out.2.2 = x) ↔
      hbt.len ≤ 2 ∨ cmp m (hbt.heap (parent (parent hbt.len))) x ≤ 0 := by
  intro out
  have hroot : hbt.len ≤ 2 ↔ parent hbt.len = 0 := by unfold parent; omega
  have hlen : out.2.1.len = hbt.len + 1 := (heapInsert_elems x).1
  have hout : cmp out.1 = cmp m :=
    heapInsert_preserves (P := fun m' => cmp m' = cmp m) (fun m' a k _ hm => (hcmp m' a k).trans hm) hS hx rfl
  have hiff := heapInsert_minHeap_iff hcmp hc hS hx h
  rw [hlen, hout, hroot]
  constructor
  · rintro ⟨-,-,hheap,-⟩
    exact hiff.mp hheap
  · intro hgrand
    obtain ⟨hat,hlt⟩ := heapInsert_position cmp func m hbt x
    exact ⟨rfl,(heapInsert_elems x).2,hiff.mpr hgrand,hlt,hat⟩

/-- Under the entries 1 and 2 a new 1 comes to rest between them. -/
theorem heapInsert_keeps_order_once :
    let hbt : Heap ℤ := ⟨fun i => i + 1,3,10000⟩
    let out := heapInsert (fun (_ : Unit) a b => a - b) (fun m _ _ => m) () hbt 1
    out.2.1.len = 4 ∧ out.2.1.elems.Perm [1,2,3,1] ∧
      MinHeap (fun a b => a - b) out.2.1.heap 4 ∧ out.2.2 < 4 ∧ out.2.1.heap out.2.2 = 1 := by
  intro hbt out
  have hheap : MinHeap (fun a b => a - b) hbt.heap 3 := by
    intro i hi hn
    interval_cases i <;> decide
  exact (heapInsert_keeps_order_iff (fun _ _ _ => rfl) (sub_preorder (fun _ => True)) (fun _ _ => trivial) trivial
    hheap).mpr (Or.inr (by decide))

/-- Under the entries 1 and 2 a new 0 stays below the 1. -/
theorem heapInsert_drops_order :
    let hbt : Heap ℤ := ⟨fun i => i + 1,3,10000⟩
    let out := heapInsert (fun (_ : Unit) a b => a - b) (fun m _ _ => m) () hbt 0
    TotalPreorderOn (fun _ => True) (fun a b : ℤ => a - b) ∧ MinHeap (fun a b => a - b) hbt.heap hbt.len ∧
      ¬MinHeap (fun a b => a - b) out.2.1.heap out.2.1.len := by
  intro hbt out
  refine ⟨sub_preorder _,?_,?_⟩
  · intro i hi hn
    change i < 3 at hn
    interval_cases i <;> decide
  · intro h
    exact absurd (h 1 (by decide) (by decide)) (by decide +kernel)

end Insert

/-! ## The loops that move the hole down -/

section SiftHole
variable {cmp : M → α → α → ℤ} {func : M → α → ℕ → M} {n : ℕ} {elem : α} {m : M} {arr : ℕ → α} {i : ℕ}

theorem siftHole_before {k : ℕ} (hk : k < i) : (heapSiftHole cmp func n elem m arr i).2.1 k = arr k := by
  fun_induction heapSiftHole cmp func n elem m arr i with
  | case1 m arr i hlt j hle => rfl
  | case2 m arr i hlt j hgt ih =>
    obtain ⟨hij,hjn,-⟩ := heapChild_bounds cmp m arr hlt
    rw [ih (hk.trans hij)]
    exact Function.update_of_ne hk.ne _ _
  | case3 m arr i hge => rfl

/-- Where the sifting begins there is in the end something not greater than the children of before. -/
theorem siftHole_top (func : M → α → ℕ → M) {S : α → Prop} (hc : TotalPreorderOn S (cmp m)) (hS : ∀ k < n, k ≠ i → S (arr k))
    (hSe : S elem) {k : ℕ} (hk : k < n) (h0 : 0 < k) (hp : parent k = i) :
    S (Function.update (heapSiftHole cmp func n elem m arr i).2.1
        (heapSiftHole cmp func n elem m arr i).2.2 elem i) ∧
      cmp m (Function.update (heapSiftHole cmp func n elem m arr i).2.1
        (heapSiftHole cmp func n elem m arr i).2.2 elem i) (arr k) ≤ 0 := by
  have hlt : 2 * i + 1 < n := by unfold parent at hp; omega
  obtain ⟨hij,hjn,-⟩ := heapChild_bounds cmp m arr hlt
  have hleast := heapChild_least hc hS k hk h0 hp
  have hki : k ≠ i := by unfold parent at hp; omega
  rw [heapSiftHole, if_pos hlt]
  dsimp only
  split
  · rename_i hle
    rw [Function.update_self]
    exact ⟨hSe,hc.trans _ _ _ hSe (hS _ hjn hij.ne') (hS k hk hki) hle hleast⟩
  · have hdown : heapChild cmp m arr n (2 * i + 1) ≤
        (heapSiftHole cmp func n elem (func m (arr (heapChild cmp m arr n (2 * i + 1))) i)
          (Function.update arr i (arr (heapChild cmp m arr n (2 * i + 1)))) (heapChild cmp m arr n (2 * i + 1))).2.2 :=
      (siftHole_index hjn).1
    rw [Function.update_of_ne (by omega), siftHole_before hij, Function.update_self]
    exact ⟨hS _ hjn hij.ne',hleast⟩

end SiftHole

section Operations
variable {S : α → Prop} {cmp : M → α → α → ℤ} {func : M → α → ℕ → M} {m : M} {hbt : Heap α}

/-- The element may exceed its children, but nothing moves up past the entry above it. -/
theorem heapAdjustSiftdown_minHeap_iff (hcmp : ∀ m a i, cmp (func m a i) = cmp m)
    (hc : TotalPreorderOn S (cmp m)) (hS : ∀ a ∈ hbt.elems, S a) {index : ℕ} (hi : index < hbt.len)
    (ho : OrderedBut (cmp m) hbt.heap hbt.len index) :
    MinHeap (cmp m) (heapAdjustSiftdown cmp func m hbt index).2.heap hbt.len ↔
      GrandOrder (cmp m) hbt.heap hbt.len index := by
  have hk : ∀ k < hbt.len, S (hbt.heap k) := fun k hk => hS _ (mem_entries.mpr ⟨k,hk,rfl⟩)
  constructor
  · intro hheap h0 k hkn hk0 hp
    have hpi : parent index < index := by unfold parent; omega
    have habove := hheap index h0 hi
    rw [heapAdjustSiftdown_heap] at habove
    dsimp only at habove
    have hstay : Function.update (heapSiftHole cmp func hbt.len (hbt.heap index) m hbt.heap index).2.1
        (heapSiftHole cmp func hbt.len (hbt.heap index) m hbt.heap index).2.2 (hbt.heap index) (parent index) =
          hbt.heap (parent index) := by
      rw [Function.update_of_ne, siftHole_before hpi]
      exact (hpi.trans_le (siftHole_index hi).1).ne
    rw [hstay] at habove
    obtain ⟨htop,hle⟩ := siftHole_top func hc (fun k hkl _ => hk k hkl) (hk index hi) hkn hk0 hp
    exact hc.trans _ _ _ (hk _ (hpi.trans hi)) htop (hk k hkn) habove hle
  · intro hg
    exact heapAdjustSiftdown_minHeap hcmp hc hS hi (ho.downOrder hi hg)

/-- The root is exchanged for the new element. -/
theorem heapReplaceLeast_exchange {new : α} (h : 0 < cmp m new (hbt.heap 0)) (hn : 0 < hbt.len) :
    (hbt.heap 0 :: (heapReplaceLeast cmp func m hbt new).2.1.elems).Perm (new :: hbt.elems) := by
  obtain ⟨l,hl⟩ : ∃ l, hbt.len = l + 1 := ⟨hbt.len - 1,by omega⟩
  have hcons : ∀ a : α, entries (Function.update hbt.heap 0 a) hbt.len =
      a :: (List.range l).map (fun k => hbt.heap (k + 1)) := by
    intro a
    simp [entries, hl, List.range_succ_eq_map]
  have helems := hcons (hbt.heap 0)
  rw [Function.update_eq_self] at helems
  apply ((heapReplaceLeast_elems h hn).cons _).trans
  rw [Heap.elems, hcons new, helems]
  exact List.Perm.swap _ _ _

theorem heapDelete_spec (hc : TotalPreorderOn S (cmp m)) (hS : ∀ a ∈ hbt.elems, S a) (hn : 0 < hbt.len)
    (h : MinHeap (cmp m) hbt.heap hbt.len) :
    ∃ rest, heapDelete cmp m hbt = some (rest,hbt.heap 0) ∧ (∀ a ∈ hbt.elems, cmp m (hbt.heap 0) a ≤ 0) ∧
      (hbt.heap 0 :: rest.elems).Perm hbt.elems ∧ MinHeap (cmp m) rest.heap rest.len := by
  have hk : ∀ k < hbt.len, S (hbt.heap k) := fun k hk => hS _ (mem_entries.mpr ⟨k,hk,rfl⟩)
  have hroot : ∀ a ∈ hbt.elems, cmp m (hbt.heap 0) a ≤ 0 := by
    intro a ha
    obtain ⟨k,hkn,rfl⟩ := mem_entries.mp ha
    exact h.root_le hc hk hkn
  obtain ⟨l,hl⟩ : ∃ l, hbt.len = l + 1 := ⟨hbt.len - 1,by omega⟩
  rcases Nat.eq_zero_or_pos l with h0 | hpos
  · refine ⟨⟨hbt.heap,0,hbt.maxSize⟩,by simp [heapDelete, hl, h0],hroot,?_,fun i _ hlt => absurd hlt (Nat.not_lt_zero i)⟩
    simp [Heap.elems, hl, h0, entries]
  · let out := heapSiftHole cmp (fun m _ _ => m) l (hbt.heap l) m hbt.heap 0
    refine ⟨⟨Function.update out.2.1 out.2.2 (hbt.heap l),l,hbt.maxSize⟩,?_,hroot,?_,?_⟩
    · simp [heapDelete, hl, hpos.ne', out]
    · have hfront : (entries (Function.update out.2.1 out.2.2 (hbt.heap l)) l).Perm
          (entries (Function.update hbt.heap 0 (hbt.heap l)) l) := siftHole_perm cmp _ m hpos
      have hswap := swap_perm hbt.heap (Nat.lt_succ_self l)
      rw [entries_succ, Function.update_of_ne hpos.ne', Function.update_self] at hswap
      rw [Heap.elems, Heap.elems, hl]
      refine (hfront.cons _).trans (((List.perm_append_singleton _ _).symm.trans ?_).trans hswap)
      refine List.Perm.of_eq (congrArg (· ++ [hbt.heap 0]) (entries_congr (fun k hkl => ?_)))
      rw [Function.update_comm hpos.ne', Function.update_of_ne hkl.ne]
    · exact siftHole_minHeap (fun _ _ _ => rfl) hc (fun k hkl _ => hk k (by omega)) (hk l (by omega))
        ((h.mono (by omega)).downOrder_root _)

/-- Each operation that moves a hole down restores the order, and tells the callback where the elements are. -/
theorem sifts_restore_order [DecidableEq α] (hcmp : ∀ m a i, cmp (func m a i) = cmp m)
    (hc : TotalPreorderOn S (cmp m)) (hS : ∀ a ∈ hbt.elems, S a) (hn : 0 < hbt.len) :
    (∀ index < hbt.len, OrderedBut (cmp m) hbt.heap hbt.len index →
        let out := heapAdjustSiftdown cmp func m hbt index
        (MinHeap (cmp m) out.2.heap out.2.len ↔ GrandOrder (cmp m) hbt.heap hbt.len index) ∧
          out.2.elems.Perm hbt.elems ∧
          ∀ pos, Callback cmp func pos → hbt.Indexed pos m → out.2.Indexed pos out.1) ∧
      (MinHeap (cmp m) hbt.heap hbt.len → ∀ new, S new →
        let out := heapReplaceLeast cmp func m hbt new
        (cmp m new (hbt.heap 0) ≤ 0 → out = (m,hbt,new)) ∧
          (0 < cmp m new (hbt.heap 0) → out.2.2 = hbt.heap 0 ∧ MinHeap (cmp m) out.2.1.heap out.2.1.len ∧
            (hbt.heap 0 :: out.2.1.elems).Perm (new :: hbt.elems)) ∧
          (new ∉ hbt.elems → ∀ pos, Callback cmp func pos → hbt.Indexed pos m → out.2.1.Indexed pos out.1)) ∧
      (MinHeap (cmp m) hbt.heap hbt.len →
        ∃ rest, heapDelete cmp m hbt = some (rest,hbt.heap 0) ∧ (∀ a ∈ hbt.elems, cmp m (hbt.heap 0) a ≤ 0) ∧
          (hbt.heap 0 :: rest.elems).Perm hbt.elems ∧ MinHeap (cmp m) rest.heap rest.len) := by
  refine ⟨?_,?_,heapDelete_spec hc hS hn⟩
  · intro index hi ho out
    rw [show out.2.len = hbt.len from heapAdjustSiftdown_len index]
    exact ⟨heapAdjustSiftdown_minHeap_iff hcmp hc hS hi ho,heapAdjustSiftdown_elems cmp func m hi,
      fun pos cb h => heapAdjustSiftdown_indexed cb h hi⟩
  · intro h new hnew out
    rw [show out.2.1.len = hbt.len from heapReplaceLeast_len new]
    exact ⟨heapReplaceLeast_keep,
      fun hgt => ⟨heapReplaceLeast_out hgt,heapReplaceLeast_minHeap hcmp hc hS hnew h,heapReplaceLeast_exchange hgt hn⟩,
      fun hx pos cb hidx => heapReplaceLeast_indexed cb hidx hx⟩

/-- The second of 5, 7, 6 and 8 grows to 9, the least of 5, 7 and 6 gives way to an 8, and is taken out. -/
theorem sifts_restore_example :
    let func := fun (m : ℤ → ℤ) (a : ℤ) (k : ℕ) => Function.update m a (k : ℤ)
    let grown : Heap ℤ := ⟨fun k => if k = 0 then 5 else if k = 1 then 9 else if k = 2 then 6 else 8,4,10000⟩
    let three : Heap ℤ := ⟨fun k => if k = 0 then 5 else if k = 1 then 7 else 6,3,10000⟩
    let down := heapAdjustSiftdown (fun _ a b => a - b) func (fun _ => 0) grown 1
    let out := heapReplaceLeast (fun _ a b => a - b) func (fun a => if a = 5 then 0 else if a = 7 then 1 else 2) three 8
    MinHeap (fun a b => a - b) down.2.heap 4 ∧
      (out.2.2 = 5 ∧ out.2.1.elems.Perm [7,6,8] ∧ out.2.1.Indexed (fun m a => m a) out.1) ∧
      ∃ rest, heapDelete (fun (_ : ℤ → ℤ) a b => a - b) (fun _ => 0) three = some (rest,5) ∧
        MinHeap (fun a b => a - b) rest.heap rest.len := by
  intro func grown three down out
  have hcb : Callback (fun _ a b => a - b) func (fun m a => m a) := by
    constructor
    · intro m a i
      rfl
    · intro m a i b
      simp only [func, Function.update_apply]
  have hspec := fun m hbt => @sifts_restore_order ℤ (ℤ → ℤ) (fun _ => True) (fun _ a b => a - b) func m hbt _
    (fun _ _ _ => rfl) (sub_preorder _) (fun _ _ => trivial)
  have hthree : MinHeap (fun a b => a - b) three.heap three.len := by
    intro k hk hn
    change k < 3 at hn
    interval_cases k <;> decide
  have ho : OrderedBut (fun a b => a - b) grown.heap grown.len 1 := by
    intro k hk hn hp
    change k < 4 at hn
    interval_cases k <;> first | decide | exact absurd rfl hp
  have hg : GrandOrder (fun a b => a - b) grown.heap grown.len 1 := by
    intro _ k hn hk hp
    change k < 4 at hn
    interval_cases k <;> decide
  have hdown := ((hspec (fun _ => 0) grown (by decide)).1 1 (by decide) ho).1.mpr hg
  rw [heapAdjustSiftdown_len] at hdown
  refine ⟨hdown,?_,?_⟩
  · obtain ⟨-,hout,hidx⟩ := (hspec (fun a => if a = 5 then 0 else if a = 7 then 1 else 2) three (by decide)).2.1
      hthree 8 trivial
    obtain ⟨hret,-,hperm⟩ := hout (by decide)
    refine ⟨hret,?_,hidx (by decide) _ hcb ?_⟩
    · exact (List.perm_cons 5).mp (hperm.trans (by decide))
    · intro k hk
      change k < 3 at hk
      interval_cases k <;> decide
  · obtain ⟨rest,hdel,-,-,hheap⟩ := (hspec (fun _ => 0) three (by decide)).2.2 hthree
    exact ⟨rest,hdel,hheap⟩

/-- Below a 5 a 7 gives way to its child 3, which then stands below the 5; and a new element
that was in the heap already stands there twice and has one index. -/
theorem sifts_misorder :
    let func := fun (m : ℤ → ℤ) (a : ℤ) (k : ℕ) => Function.update m a (k : ℤ)
    let four : Heap ℤ := ⟨fun k => if k = 0 then 5 else if k = 1 then 7 else if k = 2 then 6 else 3,4,10000⟩
    let two : Heap ℤ := ⟨fun k => k,2,10000⟩
    let out := heapReplaceLeast (fun _ a b => a - b) func (fun a => a) two 1
    (four.elems.Nodup ∧ OrderedBut (fun a b => a - b) four.heap 4 1 ∧
      ¬MinHeap (fun a b => a - b) (heapAdjustSiftdown (fun _ a b => a - b) func (fun a => a) four 1).2.heap 4) ∧
    two.elems.Nodup ∧ MinHeap (fun a b => a - b) two.heap 2 ∧ two.Indexed (fun m a => m a) (fun a => a) ∧
      ¬out.2.1.Indexed (fun m a => m a) out.1 := by
  intro func four two out
  refine ⟨⟨by decide,?_,?_⟩,by decide,?_,fun _ _ => rfl,?_⟩
  · intro k hk hn hp
    interval_cases k <;> first | decide | exact absurd rfl hp
  · intro h
    exact absurd (h 1 (by decide) (by decide)) (by decide +kernel)
  · intro k hk hn
    interval_cases k
    decide
  · intro h
    exact absurd (h 1 (by decide)) (by decide +kernel)

end Operations

end LogStats
