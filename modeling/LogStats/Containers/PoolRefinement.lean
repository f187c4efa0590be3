import LogStats.Containers.PoolPartition

/-! # The lists of a pool and its memory

The model that keeps the free list as a list is what the memory shows where malloc returns one
block behind the other. Its runs are runs in memory, whatever the caller writes in between,
so what is proved of the lists holds of the links.
-/
namespace LogStats

/-- A call on the lists: `malloc` succeeds or fails, and what is written does not matter. -/
inductive MemPoolCall where
  | alloc (malloc : Bool)
  | free (mem : ℕ)
  | write (mem i : ℕ) (b : UInt8)

/-- The lists, and the elements that the caller has. -/
def memPoolStep : MemPool × List ℕ → MemPoolCall → Option (MemPool × List ℕ)
  | (mp,out), .alloc malloc => (memPoolAlloc malloc mp).map fun (mp,r) => (mp,r.toList ++ out)
  | (mp,out), .free mem => if mem ∈ out then (memPoolFree mp mem).map fun mp => (mp,out.erase mem) else none
  | (mp,out), .write mem i _ => if mem ∈ out ∧ i < mp.elemSize.toNat then some (mp,out) else none

/-- The call on the lists that a call in memory is. -/
def PoolCall.shown : PoolCall → MemPoolCall
  | .alloc newMem => .alloc (newMem ≠ 0)
  | .free mem => .free mem
  | .write mem i b => .write mem i b

namespace PoolState

/-- The links in memory are the lists, and nothing reaches beyond `brk`. -/
structure Shows (s : PoolState) (mp : MemPool) : Prop where
  inv : s.Inv mp.freeList
  elemSize : s.pool.elemSize = mp.elemSize
  elemCount : s.pool.elemCount = mp.elemCount
  needsAutoGrow : s.pool.needsAutoGrow = mp.needsAutoGrow
  raw : s.chunks.map PoolChunk.addr = mp.rawMemList
  below : ∀ c ∈ s.chunks, c.addr + c.bytes ≤ mp.brk
  brk_ne : mp.brk ≠ 0

end PoolState

/-! ## What the lists do -/

section Lists
variable {malloc : Bool} {mp mp' : MemPool} {n : UInt32}

theorem fillFreeList_strided (hprod : n.toNat * mp.elemSize.toNat < 2 ^ 32) (rawMem : ℕ) :
    fillFreeList mp rawMem n = (strided rawMem mp.elemSize.toNat n.toNat).reverse ++ mp.freeList := by
  rw [fillFreeList_eq, strided]
  congr 2
  exact List.map_congr_left fun i hi => mp.elemAt_eq hprod rawMem (List.mem_range.mp hi)

theorem growNewMem_rawMemList (h : growNewMem true mp n = some mp') : mp'.rawMemList = mp.brk :: mp.rawMemList := by
  simp only [growNewMem, Bool.true_eq_false, if_false] at h
  split at h
  · cases h
    rfl
  · cases h

theorem growNewMem_brk_le (h : growNewMem malloc mp n = some mp') : mp.brk ≤ mp'.brk := by
  cases malloc with
  | false =>
    obtain rfl : mp = mp' := by simpa [growNewMem] using h
    exact Nat.le_refl _
  | true =>
    obtain ⟨-,-,-,-,-,hbrk⟩ := growNewMem_some h
    omega

/-- The pool as `mem_pool_alloc` finds it once it has grown where it must. -/
def MemPool.replenished (malloc : Bool) (mp : MemPool) : Option MemPool :=
  if mp.freeList = [] ∧ mp.needsAutoGrow = true then growNewMem malloc mp (mp.elemCount * 2) else some mp

theorem memPoolAlloc_cases {r : Option ℕ} (h : memPoolAlloc malloc mp = some (mp',r)) :
    ∃ mp₁, mp.replenished malloc = some mp₁ ∧ mp' = { mp₁ with freeList := mp₁.freeList.tail } ∧ r = mp₁.freeList.head? := by
  obtain ⟨mp₁,hg,hr⟩ := Option.map_eq_some_iff.mp h
  refine ⟨mp₁,hg,?_⟩
  cases hfree : mp₁.freeList with
  | nil =>
    rw [hfree] at hr
    cases hr
    refine ⟨?_,rfl⟩
    rw [List.tail_nil, ← hfree]
  | cons e next =>
    rw [hfree] at hr
    cases hr
    exact ⟨rfl,rfl⟩

theorem replenished_brk_le (h : mp.replenished malloc = some mp') : mp.brk ≤ mp'.brk := by
  rw [MemPool.replenished] at h
  split at h
  · exact growNewMem_brk_le h
  · exact (Option.some_inj.mp h) ▸ Nat.le_refl _

theorem memPoolStep_brk_le {out out' : List ℕ} {call : MemPoolCall} (h : memPoolStep (mp,out) call = some (mp',out')) :
    mp.brk ≤ mp'.brk := by
  cases call with
  | alloc malloc =>
    obtain ⟨⟨mp₁,r⟩,halloc,he⟩ := Option.map_eq_some_iff.mp h
    cases he
    obtain ⟨mp₂,hrep,rfl,-⟩ := memPoolAlloc_cases halloc
    exact @replenished_brk_le malloc mp mp₂ hrep
  | free mem =>
    rw [memPoolStep] at h
    split at h
    · obtain ⟨mp₁,hfree,he⟩ := Option.map_eq_some_iff.mp h
      cases he
      rw [memPoolFree] at hfree
      split at hfree
      · cases hfree
      · cases hfree
        exact Nat.le_refl _
    · cases h
  | write mem i b =>
    rw [memPoolStep] at h
    split at h
    · cases h
      exact Nat.le_refl _
    · cases h

end Lists

namespace PoolState

/-! ## One call -/

section Calls
variable {s : PoolState} {mp mp' : MemPool} {malloc : Bool}

theorem Shows.grows_iff (h : s.Shows mp) : s.pool.Grows ↔ mp.freeList = [] ∧ mp.needsAutoGrow = true := by
  rw [PoolMemory.Grows, h.inv.freeList_eq_zero, h.needsAutoGrow]

/-- A chunk behind all others. -/
theorem Shows.grown (h : s.Shows mp) {n : UInt32} (hg : growNewMem true mp n = some mp')
    (hcount : s.pool.elemCount.toNat + n.toNat < 2 ^ 31) (hend : mp'.brk ≤ 2 ^ 64) :
    Shows ⟨s.pool.growNewMem mp.brk n,⟨mp.brk,8 + n.toNat * s.size,n.toNat⟩ :: s.chunks,s.out⟩ mp' := by
  obtain ⟨hprod,hfree,hcount',hsize,hauto,hbrk⟩ := growNewMem_some hg
  have hsame : s.size = mp.elemSize.toNat := congrArg UInt32.toNat h.elemSize
  have hinv := h.inv.grown h.brk_ne (hsame ▸ hprod) hcount (by rw [hsame]; omega) fun c hc => Or.inl (h.below c hc)
  have hbytes : mp.brk + (8 + n.toNat * s.size) = mp'.brk := by
    rw [hbrk, hsame, Nat.add_assoc]
  refine ⟨?_,?_,?_,?_,?_,?_,?_⟩
  · rw [hfree, fillFreeList_strided hprod, ← hsame]
    exact hinv
  · exact PoolMemory.growNewMem_elemSize.trans (h.elemSize.trans hsize.symm)
  · rw [PoolMemory.growNewMem_elemCount h.brk_ne, h.elemCount, hcount']
  · exact PoolMemory.growNewMem_needsAutoGrow.trans (h.needsAutoGrow.trans hauto.symm)
  · rw [growNewMem_rawMemList hg, List.map_cons, h.raw]
  · intro c hc
    rcases List.mem_cons.mp hc with rfl | hc
    · exact hbytes.le
    · have hold := h.below c hc
      omega
  · have hne := h.brk_ne
    omega

/-- A pool grows in memory where its lists do, since malloc may return the next block. -/
theorem Shows.grows (h : s.Shows mp) (hgrow : s.pool.Grows) (hg : growNewMem true mp (mp.elemCount * 2) = some mp')
    (hend : mp'.brk ≤ 2 ^ 64) : s.Grants mp.brk ∧ (s.replenished mp.brk).Shows mp' := by
  obtain ⟨hprod,-,-,-,-,hbrk⟩ := growNewMem_some hg
  have hsame : s.size = mp.elemSize.toNat := congrArg UInt32.toNat h.elemSize
  have hsize := h.inv.size_ge
  have htwo := twice_toNat h.inv.count_lt
  rw [← h.elemCount] at hg
  rw [← h.elemCount, ← hsame] at hprod hbrk
  have hmul := Nat.mul_le_mul_left (s.pool.elemCount * 2).toNat hsize
  have hbytes := (chunkBytes_eq hsize (htwo ▸ hprod)).2
  rw [← htwo] at hbytes
  have hshows := h.grown hg (by omega) hend
  rw [replenished, if_pos ⟨hgrow,h.brk_ne⟩, hbytes]
  refine ⟨Or.inr ⟨htwo ▸ hprod,?_,fun c hc => Or.inl (h.below c hc)⟩,hshows⟩
  rw [hbytes]
  omega

theorem Shows.replenish (h : s.Shows mp) (hrep : mp.replenished malloc = some mp') (hend : mp'.brk ≤ 2 ^ 64) :
    (s.pool.Grows → s.Grants (if malloc then mp.brk else 0)) ∧
      (s.replenished (if malloc then mp.brk else 0)).Shows mp' := by
  rw [MemPool.replenished] at hrep
  by_cases hgrow : mp.freeList = [] ∧ mp.needsAutoGrow = true
  · rw [if_pos hgrow] at hrep
    cases malloc with
    | false =>
      obtain rfl : mp = mp' := by simpa [growNewMem] using hrep
      refine ⟨fun _ => Or.inl rfl,?_⟩
      rw [replenished, if_neg (fun hboth => hboth.2 rfl)]
      exact h
    | true =>
      obtain ⟨hgrants,hshows⟩ := h.grows (h.grows_iff.mpr hgrow) hrep hend
      exact ⟨fun _ => hgrants,hshows⟩
  · rw [if_neg hgrow, Option.some.injEq] at hrep
    subst hrep
    have hno : ¬s.pool.Grows := fun hgrows => hgrow (h.grows_iff.mp hgrows)
    refine ⟨fun hgrows => absurd hgrows hno,?_⟩
    rw [replenished, if_neg (fun hboth => hno hboth.1)]
    exact h

theorem Shows.alloc (h : s.Shows mp) {r : Option ℕ} (halloc : memPoolAlloc malloc mp = some (mp',r))
    (hend : mp'.brk ≤ 2 ^ 64) : ∃ s', poolStep s (.alloc (if malloc then mp.brk else 0)) = some s' ∧ s'.Shows mp' ∧
      s'.out = r.toList ++ s.out := by
  obtain ⟨mp₁,hrep,rfl,rfl⟩ := memPoolAlloc_cases halloc
  obtain ⟨hgrants,h₁⟩ := h.replenish hrep hend
  obtain ⟨pool,hrun,htaken,hsize,hcount,hauto⟩ := h₁.inv.take
  have hchunks := @replenished_chunks s (if malloc then mp.brk else 0)
  refine ⟨_,?_,⟨htaken,hsize.trans h₁.elemSize,hcount.trans h₁.elemCount,hauto.trans h₁.needsAutoGrow,
    hchunks ▸ h₁.raw,hchunks ▸ h₁.below,h₁.brk_ne⟩,?_⟩
  · rw [poolStep, if_pos hgrants, hrun]
  · cases hfree : mp₁.freeList with
    | nil => rfl
    | cons e next =>
      have hne : e ≠ 0 := (h₁.inv.element_lt (h₁.inv.free_mem (hfree ▸ List.mem_cons_self))).1
      simp [hne]

theorem Shows.free (h : s.Shows mp) {mem : ℕ} (hmem : mem ∈ s.out) (hfree : memPoolFree mp mem = some mp') :
    ∃ s', poolStep s (.free mem) = some s' ∧ s'.Shows mp' ∧ s'.out = s.out.erase mem := by
  obtain ⟨hrun,hinv⟩ := h.inv.pushed hmem
  rw [memPoolFree, if_neg (h.inv.element_lt (h.inv.out_mem hmem)).1, Option.some.injEq] at hfree
  subst hfree
  refine ⟨_,?_,⟨hinv,h.elemSize,h.elemCount,h.needsAutoGrow,h.raw,h.below,h.brk_ne⟩,rfl⟩
  rw [poolStep, if_pos hmem, hrun, Option.map_some]

theorem Shows.write (h : s.Shows mp) {mem i : ℕ} (hmem : mem ∈ s.out) (hi : i < s.size) (b : UInt8) :
    ∃ s', poolStep s (.write mem i b) = some s' ∧ s'.Shows mp ∧ s'.out = s.out :=
  ⟨_,if_pos ⟨hmem,hi⟩,⟨h.inv.written hmem hi b,h.elemSize,h.elemCount,h.needsAutoGrow,h.raw,h.below,h.brk_ne⟩,rfl⟩

/-- Every call on the lists is one in memory. -/
theorem Shows.step (h : s.Shows mp) {call : MemPoolCall} {out : List ℕ}
    (hs : memPoolStep (mp,s.out) call = some (mp',out)) (hend : mp'.brk ≤ 2 ^ 64) :
    ∃ call' s', call'.shown = call ∧ poolStep s call' = some s' ∧ s'.Shows mp' ∧ s'.out = out := by
  cases call with
  | alloc malloc =>
    obtain ⟨⟨mp₁,r⟩,halloc,he⟩ := Option.map_eq_some_iff.mp hs
    cases he
    obtain ⟨s',hrun,hshows,hout⟩ := h.alloc halloc hend
    refine ⟨_,s',?_,hrun,hshows,hout⟩
    have hne := h.brk_ne
    cases malloc <;> simp [PoolCall.shown, hne]
  | free mem =>
    rw [memPoolStep] at hs
    split at hs
    · rename_i hmem
      obtain ⟨mp₁,hfree,he⟩ := Option.map_eq_some_iff.mp hs
      cases he
      obtain ⟨s',hrun,hshows,hout⟩ := h.free hmem hfree
      exact ⟨_,s',rfl,hrun,hshows,hout⟩
    · cases hs
  | write mem i b =>
    rw [memPoolStep] at hs
    split at hs
    · rename_i hin
      cases hs
      have hi : i < s.size := by
        rw [size, h.elemSize]
        exact hin.2
      obtain ⟨s',hrun,hshows,hout⟩ := h.write hin.1 hi b
      exact ⟨_,s',rfl,hrun,hshows,hout⟩
    · cases hs

end Calls

/-! ## Runs -/

section Runs
variable {s : PoolState} {mp mp' : MemPool} {out out' : List ℕ} {calls : List MemPoolCall}

theorem memPoolRun_brk_le (h : run memPoolStep (mp,out) calls = some (mp',out')) : mp.brk ≤ mp'.brk :=
  run_induction (P := fun _ st => mp.brk ≤ st.1.brk) (Nat.le_refl _)
    (fun _ _ _ _ hle _ hs => hle.trans (memPoolStep_brk_le hs)) Along.true h

theorem Shows.run (h : s.Shows mp) (hrun : LogStats.run memPoolStep (mp,s.out) calls = some (mp',out))
    (hend : mp'.brk ≤ 2 ^ 64) : ∃ calls' s', calls'.map PoolCall.shown = calls ∧ LogStats.run poolStep s calls' = some s' ∧
      s'.Shows mp' ∧ s'.out = out := by
  induction calls generalizing s mp with
  | nil =>
    cases hrun
    exact ⟨[],s,rfl,rfl,h,rfl⟩
  | cons call calls ih =>
    cases hs : memPoolStep (mp,s.out) call with
    | none => exact absurd hrun (by simp [run_cons_none hs])
    | some st =>
      obtain ⟨mp₁,out₁⟩ := st
      rw [run_cons_some hs] at hrun
      obtain ⟨call',s₁,hcall,hstep,h₁,rfl⟩ := h.step hs ((memPoolRun_brk_le hrun).trans hend)
      obtain ⟨calls',s',hcalls,hrun',h',hout⟩ := ih h₁ hrun
      refine ⟨call' :: calls',s',?_,?_,h',hout⟩
      · rw [List.map_cons, hcall, hcalls]
      · rw [run_cons_some hstep]
        exact hrun'

end Runs

/-- A new pool, its chunk at the first address. -/
theorem memPoolCreate_shows (bytes : Bytes) {elemSize elemCount : UInt32} (needsAutoGrow : Bool)
    (hprod : PoolMemory.firstCount elemCount * PoolMemory.paddedSize elemSize.toNat < 2 ^ 32) :
    ∃ mp, memPoolCreate true elemSize elemCount needsAutoGrow = some mp ∧
      (poolCreate 1 bytes elemSize elemCount needsAutoGrow).Shows mp := by
  obtain ⟨size,count,hsize,hcount,hrun,hlists⟩ := PoolMemory.create_grown elemCount (PoolMemory.paddedSize_lt hprod)
  have hpadded := PoolMemory.eight_le_paddedSize elemSize.toNat
  rw [poolCreate, hrun, hlists, ← hsize, ← hcount]
  rw [← hsize, ← hcount] at hprod
  rw [← hsize] at hpadded
  have hmul := Nat.mul_le_mul_left count.toNat hpadded
  have hempty : Shows ⟨⟨size,0,0,0,needsAutoGrow,bytes⟩,[],[]⟩ ⟨size,0,[],[],needsAutoGrow,1⟩ :=
    ⟨empty_inv bytes needsAutoGrow hpadded,rfl,rfl,rfl,rfl,by simp,Nat.one_ne_zero⟩
  obtain ⟨mp,hg⟩ : ∃ mp, growNewMem true ⟨size,0,[],[],needsAutoGrow,1⟩ count = some mp := ⟨_,if_pos hprod⟩
  obtain ⟨-,-,-,-,-,hbrk⟩ := growNewMem_some hg
  exact ⟨mp,hg,hempty.grown hg (by simp; omega) (by simp only at hbrk; omega)⟩

end PoolState

/-- Every run of the lists is a run in memory that shows them at its end. -/
theorem memPool_run_shows (bytes : Bytes) {elemSize elemCount : UInt32} (needsAutoGrow : Bool)
    (hprod : PoolMemory.firstCount elemCount * PoolMemory.paddedSize elemSize.toNat < 2 ^ 32)
    {mp mp' : MemPool} {calls : List MemPoolCall} {out : List ℕ}
    (hcreate : memPoolCreate true elemSize elemCount needsAutoGrow = some mp)
    (hrun : run memPoolStep (mp,[]) calls = some (mp',out)) (hend : mp'.brk ≤ 2 ^ 64) : ∃ calls' s,
    calls'.map PoolCall.shown = calls ∧ run poolStep (poolCreate 1 bytes elemSize elemCount needsAutoGrow) calls' = some s ∧
      s.Shows mp' ∧ s.out = out := by
  obtain ⟨mp₀,hcreate₀,hshows⟩ := PoolState.memPoolCreate_shows bytes needsAutoGrow hprod
  obtain rfl : mp₀ = mp := Option.some_inj.mp (hcreate₀.symm.trans hcreate)
  exact hshows.run hrun hend

end LogStats
