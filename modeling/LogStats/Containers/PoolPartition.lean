import LogStats.Containers.PoolMemory
import LogStats.Library.Run
import Mathlib.Data.List.Pairwise

/-! # No element of a pool is handed out twice

A run keeps the blocks that malloc has returned and the elements that the caller has. The
caller may write what it likes into them. That the links of the free list survive it, and
that the list never comes back to an element that is in use, is one invariant: the elements
of the chunks are apart, and each is either handed out or on the list.
-/
namespace LogStats

instance (a n b k : ℕ) : Decidable (Apart a n b k) := inferInstanceAs (Decidable (_ ∨ _))

/-- A block, its size, and the number of elements it was asked for. -/
structure PoolChunk where
  addr : ℕ
  bytes : ℕ
  count : ℕ

/-- The blocks do not meet. -/
def PoolChunk.ClearOf (c d : PoolChunk) : Prop := Apart c.addr c.bytes d.addr d.bytes

instance : Std.Symm PoolChunk.ClearOf := ⟨fun _ _ h => Apart.symm h⟩

structure PoolState where
  pool : PoolMemory
  chunks : List PoolChunk
  out : List ℕ

/-- A call, with what `malloc` returns if the pool grows, or a byte that the caller writes into
an element. -/
inductive PoolCall where
  | alloc (newMem : ℕ)
  | free (mem : ℕ)
  | write (mem i : ℕ) (b : UInt8)

namespace PoolState

def size (s : PoolState) : ℕ := s.pool.elemSize.toNat

def elements (s : PoolState) : List ℕ := s.chunks.flatMap fun c => strided (c.addr + 8) s.size c.count

/-- What the next growth asks for. -/
def chunkBytes (s : PoolState) : ℕ := s.pool.chunkBytes (s.pool.elemCount * 2)

/-- Where no product wraps, `malloc` returns NULL or a block that is apart from the others. -/
def Grants (s : PoolState) (newMem : ℕ) : Prop :=
  newMem = 0 ∨ s.pool.elemCount.toNat * 2 * s.size < 2 ^ 32 ∧ newMem + s.chunkBytes ≤ 2 ^ 64 ∧
    ∀ c ∈ s.chunks, Apart c.addr c.bytes newMem s.chunkBytes

instance (s : PoolState) (newMem : ℕ) : Decidable (s.Grants newMem) := inferInstanceAs (Decidable (_ ∨ _ ∧ _ ∧ _))

def chunksAfter (s : PoolState) (newMem : ℕ) : List PoolChunk :=
  if s.pool.Grows ∧ newMem ≠ 0 then ⟨newMem,s.chunkBytes,(s.pool.elemCount * 2).toNat⟩ :: s.chunks else s.chunks

end PoolState

/-- A call whose condition the environment or the caller does not meet is undefined. -/
def poolStep (s : PoolState) : PoolCall → Option PoolState
  | .alloc newMem =>
    if s.pool.Grows → s.Grants newMem then
      let (pool,e) := s.pool.memPoolAlloc newMem
      some ⟨pool,s.chunksAfter newMem,if e = 0 then s.out else e :: s.out⟩
    else none
  | .free mem =>
    if mem ∈ s.out then (s.pool.memPoolFree mem).map fun pool => ⟨pool,s.chunks,s.out.erase mem⟩ else none
  | .write mem i b =>
    if mem ∈ s.out ∧ i < s.size then
      some { s with pool := { s.pool with bytes := Function.update s.pool.bytes (mem + i) b } }
    else none

/-- A pool that `mem_pool_create` has made with a chunk at `newMem`. -/
def poolCreate (newMem : ℕ) (bytes : Bytes) (elemSize elemCount : UInt32) (needsAutoGrow : Bool) : PoolState :=
  ⟨PoolMemory.memPoolCreate newMem bytes elemSize elemCount needsAutoGrow,
    [⟨newMem,8 + PoolMemory.firstCount elemCount * PoolMemory.paddedSize elemSize.toNat,PoolMemory.firstCount elemCount⟩],[]⟩

namespace PoolState

/-- The elements of the chunks are apart, and each of them is out or on the free list. -/
structure Partitioned (s : PoolState) : Prop where
  owned : ∃ free, Chained s.pool.bytes.next (pointer s.pool.freeList) free ∧ (s.out ++ free).Perm s.elements
  chunks : Chained s.pool.bytes.next (pointer s.pool.rawMemList) (s.chunks.map PoolChunk.addr)
  count : s.elements.length = s.pool.elemCount.toNat
  apart : s.elements.Pairwise fun a b => Apart a s.size b s.size
  inside : ∀ a ∈ s.elements, ∃ c ∈ s.chunks, c.addr + 8 ≤ a ∧ a + s.size ≤ c.addr + c.bytes

/-- The invariant, with the elements of the free list in their order. -/
structure Inv (s : PoolState) (free : List ℕ) : Prop where
  size_ge : 8 ≤ s.size
  count_lt : s.pool.elemCount.toNat < 2 ^ 31
  links : Chained s.pool.bytes.next (pointer s.pool.freeList) free
  raw : Chained s.pool.bytes.next (pointer s.pool.rawMemList) (s.chunks.map PoolChunk.addr)
  perm : (s.out ++ free).Perm s.elements
  count : s.elements.length = s.pool.elemCount.toNat
  placed : ∀ c ∈ s.chunks, c.addr ≠ 0 ∧ c.bytes = 8 + c.count * s.size ∧ c.addr + c.bytes ≤ 2 ^ 64
  apart : s.chunks.Pairwise PoolChunk.ClearOf

section Facts
variable {s : PoolState} {free : List ℕ} {a b e mem : ℕ}

theorem Inv.inside (h : s.Inv free) (ha : a ∈ s.elements) :
    ∃ c ∈ s.chunks, c.addr + 8 ≤ a ∧ a + s.size ≤ c.addr + c.bytes := by
  obtain ⟨c,hc,hin⟩ := List.mem_flatMap.mp ha
  obtain ⟨-,hbytes,-⟩ := h.placed c hc
  have hbounds := strided_inside hin
  exact ⟨c,hc,by omega,by omega⟩

theorem Inv.element_lt (h : s.Inv free) (ha : a ∈ s.elements) : a ≠ 0 ∧ a < 2 ^ 64 := by
  obtain ⟨c,hc,hlow,hhigh⟩ := h.inside ha
  obtain ⟨-,-,hend⟩ := h.placed c hc
  have hsize := h.size_ge
  omega

theorem Inv.elements_apart (h : s.Inv free) : s.elements.Pairwise fun a b => Apart a s.size b s.size := by
  apply List.pairwise_flatMap.mpr
  refine ⟨fun c _ => strided_apart,h.apart.imp_of_mem ?_⟩
  intro c d hc hd hcd a ha b hb
  have hina := strided_inside ha
  have hinb := strided_inside hb
  obtain ⟨-,hbc,-⟩ := h.placed c hc
  obtain ⟨-,hbd,-⟩ := h.placed d hd
  exact hcd.mono (by omega) (by omega) (by omega) (by omega)

theorem Inv.owned_apart (h : s.Inv free) : (s.out ++ free).Pairwise fun a b => Apart a s.size b s.size :=
  (h.perm.pairwise_iff fun hab => hab.symm).mpr h.elements_apart

theorem Inv.out_mem (h : s.Inv free) (ha : a ∈ s.out) : a ∈ s.elements :=
  h.perm.mem_iff.mp (List.mem_append_left free ha)

theorem Inv.free_mem (h : s.Inv free) (ha : a ∈ free) : a ∈ s.elements :=
  h.perm.mem_iff.mp (List.mem_append_right s.out ha)

/-- What is handed out is apart from what is free. -/
theorem Inv.out_apart (h : s.Inv free) (ha : a ∈ s.out) (hb : b ∈ free) : Apart b s.size a s.size :=
  ((List.pairwise_append.mp h.owned_apart).2.2 a ha b hb).symm

/-- No element reaches into the word at the beginning of a chunk. -/
theorem Inv.header_apart (h : s.Inv free) {c : PoolChunk} (hc : c ∈ s.chunks) (ha : a ∈ s.elements) :
    Apart c.addr 8 a s.size := by
  obtain ⟨d,hd,hlow,hhigh⟩ := h.inside ha
  obtain ⟨-,hbytes,-⟩ := h.placed c hc
  by_cases hcd : c = d
  · subst hcd
    exact Or.inl hlow
  · have hclear : c.ClearOf d := h.apart.forall hc hd hcd
    exact hclear.mono (Nat.le_refl _) (by omega) (by omega) hhigh

theorem Inv.partitioned (h : s.Inv free) : s.Partitioned :=
  ⟨⟨free,h.links,h.perm⟩,h.raw,h.count,h.elements_apart,fun _ ha => h.inside ha⟩

/-! ## What the calls keep -/

/-- The links do not see what is written into an element that is out. -/
theorem Inv.frame (h : s.Inv free) (hmem : mem ∈ s.out) {bytes : Bytes} (hw : s.pool.bytes.Within bytes mem s.size) :
    Chained bytes.next (pointer s.pool.freeList) free ∧
      Chained bytes.next (pointer s.pool.rawMemList) (s.chunks.map PoolChunk.addr) := by
  have hsize := h.size_ge
  constructor
  · apply hw.chained h.links
    intro a ha
    exact (h.out_apart hmem ha).mono (Nat.le_refl a) (by omega) (Nat.le_refl mem) (Nat.le_refl _)
  · apply hw.chained h.raw
    intro a ha
    obtain ⟨c,hc,rfl⟩ := List.mem_map.mp ha
    exact h.header_apart hc (h.out_mem hmem)

/-- A state with the same chunks, and the same elements in other hands. -/
theorem Inv.same_chunks {s' : PoolState} {free' : List ℕ} (h : s.Inv free) (hchunks : s'.chunks = s.chunks)
    (hsize : s'.pool.elemSize = s.pool.elemSize) (hcount : s'.pool.elemCount = s.pool.elemCount)
    (hlinks : Chained s'.pool.bytes.next (pointer s'.pool.freeList) free')
    (hraw : Chained s'.pool.bytes.next (pointer s'.pool.rawMemList) (s.chunks.map PoolChunk.addr))
    (hperm : (s'.out ++ free').Perm (s.out ++ free)) : s'.Inv free' := by
  have hsize' : s'.size = s.size := by rw [size, size, hsize]
  have helements : s'.elements = s.elements := by rw [elements, elements, hchunks, hsize']
  refine ⟨hsize' ▸ h.size_ge,hcount ▸ h.count_lt,hlinks,hchunks ▸ hraw,?_,?_,?_,hchunks ▸ h.apart⟩
  · rw [helements]
    exact hperm.trans h.perm
  · rw [helements, hcount]
    exact h.count
  · rw [hchunks, hsize']
    exact h.placed

theorem Inv.written (h : s.Inv free) (hmem : mem ∈ s.out) {i : ℕ} (hi : i < s.size) (b : UInt8) :
    Inv { s with pool := { s.pool with bytes := Function.update s.pool.bytes (mem + i) b } } free := by
  have hw : s.pool.bytes.Within (Function.update s.pool.bytes (mem + i) b) mem s.size :=
    fun x hx => Function.update_of_ne (by omega) _ _
  obtain ⟨hlinks,hraw⟩ := h.frame hmem hw
  exact h.same_chunks rfl rfl rfl hlinks hraw (List.Perm.refl _)

/-- An element that is given back is the first of the free list. -/
theorem Inv.pushed (h : s.Inv free) (hmem : mem ∈ s.out) :
    s.pool.memPoolFree mem = some (s.pool.push mem) ∧ Inv ⟨s.pool.push mem,s.chunks,s.out.erase mem⟩ (mem :: free) := by
  have hne := (h.element_lt (h.out_mem hmem)).1
  have hsize := h.size_ge
  have hhead : s.pool.freeList < 2 ^ 64 := by
    rw [Bytes.chained_head h.links]
    cases free with
    | nil => simp
    | cons a as => exact (h.element_lt (h.free_mem List.mem_cons_self)).2
  have hlinks := Bytes.chained_push h.links hne hhead fun a ha =>
    (h.out_apart hmem ha).mono (Nat.le_refl a) (by omega) (Nat.le_refl mem) (by omega)
  have hw := (Bytes.writeWord_within s.pool.bytes mem s.pool.freeList).mono (Nat.le_refl mem)
    (show mem + 8 ≤ mem + s.size by omega)
  refine ⟨if_neg hne,h.same_chunks rfl rfl rfl hlinks (h.frame hmem hw).2 ?_⟩
  exact List.perm_middle.trans ((List.perm_cons_erase hmem).symm.append_right free)

/-- The first element of the free list is handed out. -/
theorem Inv.popped (h : s.Inv (e :: free)) : s.pool.freeList = e ∧ e ≠ 0 ∧
    Inv ⟨{ s.pool with freeList := s.pool.bytes.readWord e },s.chunks,e :: s.out⟩ free := by
  obtain ⟨hhead,hrest⟩ := h.links
  obtain ⟨hfirst,hne⟩ := pointer_eq_some.mp hhead
  rw [Bytes.next] at hrest
  exact ⟨hfirst,hne,h.same_chunks rfl rfl rfl hrest h.raw List.perm_middle.symm⟩

/-- A new chunk adds its elements to the free list. -/
theorem Inv.grown (h : s.Inv free) {newMem : ℕ} {n : UInt32} (hne : newMem ≠ 0) (hprod : n.toNat * s.size < 2 ^ 32)
    (hcount : s.pool.elemCount.toNat + n.toNat < 2 ^ 31) (hend : newMem + (8 + n.toNat * s.size) ≤ 2 ^ 64)
    (hapart : ∀ c ∈ s.chunks, Apart c.addr c.bytes newMem (8 + n.toNat * s.size)) :
    Inv ⟨s.pool.growNewMem newMem n,⟨newMem,8 + n.toNat * s.size,n.toNat⟩ :: s.chunks,s.out⟩
      ((strided (newMem + 8) s.size n.toNat).reverse ++ free) := by
  have hsize := h.size_ge
  have hold : ∀ a ∈ free ++ s.chunks.map PoolChunk.addr, a < 2 ^ 64 ∧ Apart a 8 newMem (8 + n.toNat * s.size) := by
    intro a ha
    rcases List.mem_append.mp ha with ha | ha
    · obtain ⟨c,hc,hlow,hhigh⟩ := h.inside (h.free_mem ha)
      exact ⟨(h.element_lt (h.free_mem ha)).2,(hapart c hc).mono (by omega) (by omega) (Nat.le_refl _) (Nat.le_refl _)⟩
    · obtain ⟨c,hc,rfl⟩ := List.mem_map.mp ha
      obtain ⟨-,hbytes,hc64⟩ := h.placed c hc
      exact ⟨by omega,(hapart c hc).mono (Nat.le_refl _) (by omega) (Nat.le_refl _) (Nat.le_refl _)⟩
  obtain ⟨bytes,head,hrun,hlinks,hraw⟩ := PoolMemory.grow_spec hne hprod hsize hend h.links h.raw
    (fun a ha => (hold a ha).1) (fun a ha => (hold a ha).2)
  have hadd : (s.pool.elemCount + n).toNat = s.pool.elemCount.toNat + n.toNat := by
    rw [UInt32.toNat_add, Nat.mod_eq_of_lt (by omega)]
  rw [hrun]
  refine ⟨h.size_ge,?_,hlinks,hraw,?_,?_,?_,List.pairwise_cons.mpr ⟨?_,h.apart⟩⟩
  · change (s.pool.elemCount + n).toNat < 2 ^ 31
    omega
  · have hnew := (List.reverse_perm (strided (newMem + 8) s.size n.toNat)).append_right (s.out ++ free)
    exact (List.perm_append_comm_assoc _ _ _).trans (hnew.trans (h.perm.append_left _))
  · change (strided (newMem + 8) s.size n.toNat ++ s.elements).length = (s.pool.elemCount + n).toNat
    rw [List.length_append, length_strided, h.count, hadd, Nat.add_comm]
  · intro c hc
    rcases List.mem_cons.mp hc with rfl | hc
    · exact ⟨hne,rfl,hend⟩
    · exact h.placed c hc
  · exact fun c hc => (hapart c hc).symm

end Facts

/-! ## An allocation -/

section Alloc
variable {s : PoolState} {free : List ℕ} {newMem : ℕ}

/-- The pool as `mem_pool_alloc` finds it once it has grown where it must. -/
def replenished (s : PoolState) (newMem : ℕ) : PoolState :=
  if s.pool.Grows ∧ newMem ≠ 0 then
    ⟨s.pool.growNewMem newMem (s.pool.elemCount * 2),⟨newMem,s.chunkBytes,(s.pool.elemCount * 2).toNat⟩ :: s.chunks,s.out⟩
  else s

theorem replenished_chunks : (s.replenished newMem).chunks = s.chunksAfter newMem := by
  rw [replenished, chunksAfter]
  split <;> rfl

theorem replenished_out : (s.replenished newMem).out = s.out := by
  rw [replenished]
  split <;> rfl

theorem replenished_pool : (s.replenished newMem).pool =
    if s.pool.Grows then s.pool.growNewMem newMem (s.pool.elemCount * 2) else s.pool := by
  rw [replenished]
  by_cases hgrow : s.pool.Grows
  · by_cases hne : newMem = 0
    · subst hne
      rw [if_neg (by simp), if_pos hgrow, PoolMemory.growNewMem, if_pos rfl]
    · rw [if_pos ⟨hgrow,hne⟩, if_pos hgrow]
  · rw [if_neg (fun hboth => hgrow hboth.1), if_neg hgrow]

theorem replenished_fixed : (s.replenished newMem).pool.elemSize = s.pool.elemSize ∧
    (s.replenished newMem).pool.needsAutoGrow = s.pool.needsAutoGrow := by
  rw [replenished_pool]
  split
  · exact ⟨PoolMemory.growNewMem_elemSize,PoolMemory.growNewMem_needsAutoGrow⟩
  · exact ⟨rfl,rfl⟩

/-- Where no product wraps a growth asks for what it needs. -/
theorem chunkBytes_eq (hsize : 8 ≤ s.size) (hprod : s.pool.elemCount.toNat * 2 * s.size < 2 ^ 32) :
    (s.pool.elemCount * 2).toNat = s.pool.elemCount.toNat * 2 ∧
      s.chunkBytes = 8 + s.pool.elemCount.toNat * 2 * s.size := by
  have hmul := Nat.mul_le_mul_left (s.pool.elemCount.toNat * 2) hsize
  have htwo := @twice_toNat s.pool.elemCount (by omega)
  have hsame : (s.pool.elemCount * 2).toNat * s.pool.elemSize.toNat = s.pool.elemCount.toNat * 2 * s.size := by
    rw [htwo, size]
  refine ⟨htwo,?_⟩
  rw [chunkBytes, PoolMemory.chunkBytes, UInt32.toNat_mul, hsame, Nat.mod_eq_of_lt hprod]

theorem Inv.replenish (h : s.Inv free) (hgrow : s.pool.Grows ∧ newMem ≠ 0) (hgrant : s.Grants newMem) :
    (s.replenished newMem).Inv ((strided (newMem + 8) s.size (s.pool.elemCount.toNat * 2)).reverse ++ free) ∧
      (s.replenished newMem).pool.elemCount.toNat = s.pool.elemCount.toNat * 3 := by
  obtain ⟨hprod,hend,hapart⟩ := hgrant.resolve_left hgrow.2
  obtain ⟨htwo,hbytes⟩ := chunkBytes_eq h.size_ge hprod
  have hmul := Nat.mul_le_mul_left (s.pool.elemCount.toNat * 2) h.size_ge
  have hinv := @Inv.grown s free h newMem (s.pool.elemCount * 2) hgrow.2 (by rwa [htwo]) (by omega)
    (by rwa [htwo, ← hbytes]) (fun c hc => by rw [htwo, ← hbytes]; exact hapart c hc)
  rw [replenished, if_pos hgrow]
  rw [htwo, ← hbytes] at hinv
  refine ⟨htwo ▸ hinv,?_⟩
  rw [PoolMemory.growNewMem_elemCount hgrow.2, UInt32.toNat_add, htwo, Nat.mod_eq_of_lt (by omega)]
  omega

/-- The list runs dry where it is empty and nothing can be added to it. -/
def Dry (s : PoolState) (newMem : ℕ) : Prop := s.pool.freeList = 0 ∧ (s.pool.needsAutoGrow = false ∨ newMem = 0)

theorem Inv.freeList_eq_zero (h : s.Inv free) : s.pool.freeList = 0 ↔ free = [] := by
  rw [Bytes.chained_head h.links]
  cases free with
  | nil => simp
  | cons a as => simpa using (h.element_lt (h.free_mem List.mem_cons_self)).1

theorem Inv.replenished_free (h : s.Inv free) (hpos : 0 < s.pool.elemCount.toNat) (hgrant : s.pool.Grows → s.Grants newMem) :
    ∃ free', (s.replenished newMem).Inv free' ∧ (free' = [] ↔ s.Dry newMem) := by
  by_cases hgrow : s.pool.Grows ∧ newMem ≠ 0
  · refine ⟨_,(h.replenish hgrow (hgrant hgrow.1)).1,fun hnil => ?_,fun hdry => ?_⟩
    · have hlen := congrArg List.length hnil
      rw [List.length_append, List.length_reverse, length_strided, List.length_nil] at hlen
      omega
    · rcases hdry.2 with hfixed | hzero
      · exact absurd (hgrow.1.2.symm.trans hfixed) (by decide)
      · exact absurd hzero hgrow.2
  · rw [replenished, if_neg hgrow]
    refine ⟨free,h,fun hnil => ?_,fun hdry => h.freeList_eq_zero.mp hdry.1⟩
    have hzero := h.freeList_eq_zero.mpr hnil
    refine ⟨hzero,?_⟩
    by_contra hno
    obtain ⟨hgrows,hne⟩ := not_or.mp hno
    exact hgrow ⟨⟨hzero,by simpa using hgrows⟩,hne⟩

/-- The first free element is taken from a list that was replenished, or NULL. -/
theorem Inv.take (h : (s.replenished newMem).Inv free) : ∃ pool, s.pool.memPoolAlloc newMem = (pool,free.headD 0) ∧
    Inv ⟨pool,s.chunksAfter newMem,if free.headD 0 = 0 then s.out else free.headD 0 :: s.out⟩ free.tail ∧
    pool.elemSize = (s.replenished newMem).pool.elemSize ∧ pool.elemCount = (s.replenished newMem).pool.elemCount ∧
    pool.needsAutoGrow = (s.replenished newMem).pool.needsAutoGrow := by
  have hrun : s.pool.memPoolAlloc newMem = if (s.replenished newMem).pool.freeList ≠ 0 then
      ({ (s.replenished newMem).pool with
        freeList := (s.replenished newMem).pool.bytes.readWord (s.replenished newMem).pool.freeList },
        (s.replenished newMem).pool.freeList)
      else ((s.replenished newMem).pool,0) := by
    rw [PoolMemory.memPoolAlloc, ← replenished_pool]
  rw [← replenished_chunks, ← @replenished_out s newMem]
  generalize s.replenished newMem = s₁ at h hrun
  cases free with
  | nil =>
    have hzero := h.freeList_eq_zero.mpr rfl
    rw [if_neg (not_not.mpr hzero)] at hrun
    exact ⟨s₁.pool,hrun,h,rfl,rfl,rfl⟩
  | cons e rest =>
    obtain ⟨hfirst,hne,hpopped⟩ := h.popped
    rw [hfirst, if_pos hne] at hrun
    refine ⟨_,hrun,?_,rfl,rfl,rfl⟩
    rw [List.headD_cons, if_neg hne]
    exact hpopped

/-- What a granted allocation does, whether or not the pool grows. -/
theorem Inv.alloc (h : s.Inv free) (hpos : 0 < s.pool.elemCount.toNat) (hgrant : s.pool.Grows → s.Grants newMem) :
    ∃ pool e free', s.pool.memPoolAlloc newMem = (pool,e) ∧
      Inv ⟨pool,s.chunksAfter newMem,if e = 0 then s.out else e :: s.out⟩ free' ∧
      (e = 0 ↔ s.Dry newMem) ∧ pool.elemSize = (s.replenished newMem).pool.elemSize ∧
      pool.elemCount = (s.replenished newMem).pool.elemCount ∧
      pool.needsAutoGrow = (s.replenished newMem).pool.needsAutoGrow := by
  obtain ⟨free',h',hdry⟩ := h.replenished_free hpos hgrant
  obtain ⟨pool,hrun,htaken,hsize,hcount,hgrow⟩ := h'.take
  refine ⟨pool,_,_,hrun,htaken,?_,hsize,hcount,hgrow⟩
  rw [← hdry, ← h'.freeList_eq_zero, Bytes.chained_head h'.links]

end Alloc

/-! ## Runs -/

/-- What a run keeps: the pool has tripled with each chunk after the first. -/
structure Reached (s : PoolState) (size n : ℕ) (needsAutoGrow : Bool) : Prop where
  inv : ∃ free, s.Inv free
  size_eq : s.size = size
  grow_eq : s.pool.needsAutoGrow = needsAutoGrow
  chunks_ne : s.chunks ≠ []
  count_eq : s.pool.elemCount.toNat = n * 3 ^ (s.chunks.length - 1)

section Runs
variable {s s' : PoolState} {size n : ℕ} {needsAutoGrow : Bool}

theorem Reached.count_pos (h : s.Reached size n needsAutoGrow) (hn : 0 < n) : 0 < s.pool.elemCount.toNat := by
  rw [h.count_eq]
  exact Nat.mul_pos hn (Nat.pow_pos (by decide))

theorem Reached.replenished_count (h : s.Reached size n needsAutoGrow) {newMem : ℕ}
    (hgrant : s.pool.Grows → s.Grants newMem) : s.chunksAfter newMem ≠ [] ∧
      (s.replenished newMem).pool.elemCount.toNat = n * 3 ^ ((s.chunksAfter newMem).length - 1) := by
  obtain ⟨free,hinv⟩ := h.inv
  have hlen : 0 < s.chunks.length := List.length_pos_of_ne_nil h.chunks_ne
  by_cases hgrow : s.pool.Grows ∧ newMem ≠ 0
  · rw [(hinv.replenish hgrow (hgrant hgrow.1)).2, h.count_eq, chunksAfter, if_pos hgrow]
    refine ⟨List.cons_ne_nil _ _,?_⟩
    rw [List.length_cons, Nat.add_sub_cancel, Nat.mul_assoc, ← Nat.pow_succ, Nat.succ_eq_add_one, Nat.sub_add_cancel hlen]
  · rw [replenished, chunksAfter, if_neg hgrow, if_neg hgrow]
    exact ⟨h.chunks_ne,h.count_eq⟩

theorem Reached.alloc (h : s.Reached size n needsAutoGrow) (hn : 0 < n) {newMem : ℕ}
    (hs : poolStep s (.alloc newMem) = some s') : s'.Reached size n needsAutoGrow := by
  obtain ⟨free,hinv⟩ := h.inv
  rw [poolStep] at hs
  split at hs
  · rename_i hgrant
    obtain ⟨pool,e,free',hrun,hinv',-,hsize,hcount,hgrow⟩ := hinv.alloc (h.count_pos hn) hgrant
    obtain ⟨hne,hthree⟩ := h.replenished_count hgrant
    obtain ⟨hsame,hkept⟩ := @replenished_fixed s newMem
    simp only [hrun, Option.some.injEq] at hs
    subst hs
    refine ⟨⟨free',hinv'⟩,?_,(hgrow.trans hkept).trans h.grow_eq,hne,?_⟩
    · change pool.elemSize.toNat = size
      rw [hsize, hsame]
      exact h.size_eq
    · change pool.elemCount.toNat = _
      rw [hcount, hthree]
  · cases hs

theorem Reached.step (h : s.Reached size n needsAutoGrow) (hn : 0 < n) {call : PoolCall} (hs : poolStep s call = some s') :
    s'.Reached size n needsAutoGrow := by
  obtain ⟨free,hinv⟩ := h.inv
  cases call with
  | alloc newMem => exact h.alloc hn hs
  | free mem =>
    rw [poolStep] at hs
    split at hs
    · rename_i hmem
      obtain ⟨hrun,hinv'⟩ := hinv.pushed hmem
      rw [hrun, Option.map_some, Option.some.injEq] at hs
      subst hs
      exact ⟨⟨_,hinv'⟩,h.size_eq,h.grow_eq,h.chunks_ne,h.count_eq⟩
    · cases hs
  | write mem i b =>
    rw [poolStep] at hs
    split at hs
    · rename_i hmem
      rw [Option.some.injEq] at hs
      subst hs
      exact ⟨⟨free,hinv.written hmem.1 hmem.2 b⟩,h.size_eq,h.grow_eq,h.chunks_ne,h.count_eq⟩
    · cases hs

/-- A pool without chunks. -/
theorem empty_inv (bytes : Bytes) (needsAutoGrow : Bool) {elemSize : UInt32} (h : 8 ≤ elemSize.toNat) :
    Inv ⟨⟨elemSize,0,0,0,needsAutoGrow,bytes⟩,[],[]⟩ [] :=
  ⟨h,show (0 : UInt32).toNat < 2 ^ 31 by decide,pointer_zero,pointer_zero,List.Perm.refl _,rfl,by simp,List.Pairwise.nil⟩

/-- The first chunk holds the elements that the pool is created with. -/
theorem poolCreate_reached {newMem : ℕ} (bytes : Bytes) {elemSize elemCount : UInt32} (needsAutoGrow : Bool)
    (hne : newMem ≠ 0)
    (hprod : PoolMemory.firstCount elemCount * PoolMemory.paddedSize elemSize.toNat < 2 ^ 32)
    (hend : newMem + (8 + PoolMemory.firstCount elemCount * PoolMemory.paddedSize elemSize.toNat) ≤ 2 ^ 64) :
    (poolCreate newMem bytes elemSize elemCount needsAutoGrow).Reached (PoolMemory.paddedSize elemSize.toNat)
      (PoolMemory.firstCount elemCount) needsAutoGrow := by
  obtain ⟨size,count,hsize,hcount,hrun,-⟩ := PoolMemory.create_grown elemCount (PoolMemory.paddedSize_lt hprod)
  have hpadded := PoolMemory.eight_le_paddedSize elemSize.toNat
  rw [poolCreate, hrun, ← hsize, ← hcount]
  rw [← hsize, ← hcount] at hprod hend
  rw [← hsize] at hpadded
  have hmul := Nat.mul_le_mul_left count.toNat hpadded
  have hgrown := @Inv.grown _ [] (empty_inv bytes needsAutoGrow hpadded) newMem count hne hprod (by simp; omega) hend (by simp)
  refine ⟨⟨_,hgrown⟩,?_,?_,List.cons_ne_nil _ _,?_⟩
  · exact congrArg UInt32.toNat PoolMemory.growNewMem_elemSize
  · exact PoolMemory.growNewMem_needsAutoGrow
  · rw [PoolMemory.growNewMem_elemCount hne, UInt32.zero_add]
    simp

theorem Reached.run (h : s.Reached size n needsAutoGrow) (hn : 0 < n) {calls : List PoolCall}
    (hrun : run poolStep s calls = some s') : s'.Reached size n needsAutoGrow :=
  run_induction (P := fun _ s => s.Reached size n needsAutoGrow) h (fun _ _ _ _ hr _ hs => hr.step hn hs) Along.true hrun

/-- A caller who frees and writes what it has is never stopped, and neither is one who allocates
where malloc keeps to its part. -/
theorem Reached.defined (h : s.Reached size n needsAutoGrow) (hn : 0 < n) :
    (∀ newMem, (s.pool.Grows → s.Grants newMem) → ∃ s', poolStep s (.alloc newMem) = some s') ∧
    (∀ mem ∈ s.out, ∃ s', poolStep s (.free mem) = some s') ∧
    (∀ mem ∈ s.out, ∀ i < s.size, ∀ b, ∃ s', poolStep s (.write mem i b) = some s') := by
  obtain ⟨free,hinv⟩ := h.inv
  refine ⟨fun newMem hgrant => ?_,fun mem hmem => ?_,fun mem hmem i hi b => ?_⟩
  · obtain ⟨pool,e,-,hrun,-⟩ := hinv.alloc (h.count_pos hn) hgrant
    rw [poolStep, if_pos hgrant, hrun]
    exact ⟨_,rfl⟩
  · rw [poolStep, if_pos hmem, (hinv.pushed hmem).1]
    exact ⟨_,rfl⟩
  · rw [poolStep, if_pos ⟨hmem,hi⟩]
    exact ⟨_,rfl⟩

end Runs

end PoolState

/-- In every state of a run the elements of the chunks are apart and divided between the
caller and the free list, and an allocation returns NULL only if the list is empty and the
pool may not grow or malloc fails. -/
theorem memPool_partitioned {newMem : ℕ} (bytes : Bytes) {elemSize elemCount : UInt32} (needsAutoGrow : Bool)
    (hne : newMem ≠ 0)
    (hprod : PoolMemory.firstCount elemCount * PoolMemory.paddedSize elemSize.toNat < 2 ^ 32)
    (hend : newMem + (8 + PoolMemory.firstCount elemCount * PoolMemory.paddedSize elemSize.toNat) ≤ 2 ^ 64)
    {calls : List PoolCall} {s : PoolState}
    (hrun : run poolStep (poolCreate newMem bytes elemSize elemCount needsAutoGrow) calls = some s) :
    s.Partitioned ∧ s.size = PoolMemory.paddedSize elemSize.toNat ∧
    ∀ newMem', (s.pool.Grows → s.Grants newMem') → (s.pool.memPoolAlloc newMem').2 = 0 →
      s.pool.freeList = 0 ∧ (needsAutoGrow = false ∨ newMem' = 0) := by
  have hpos := PoolMemory.firstCount_pos elemCount
  have hreached := (PoolState.poolCreate_reached bytes needsAutoGrow hne hprod hend).run hpos hrun
  obtain ⟨free,hinv⟩ := hreached.inv
  refine ⟨hinv.partitioned,hreached.size_eq,fun newMem' hgrant hnull => ?_⟩
  obtain ⟨pool,e,-,halloc,-,hdry,-⟩ := hinv.alloc (hreached.count_pos hpos) hgrant
  rw [halloc] at hnull
  rw [← hreached.grow_eq]
  exact hdry.mp hnull

/-- Three elements from a pool of two, one of them overwritten, given back and handed out again. -/
theorem memPool_partitioned_three : ∃ s, run poolStep (poolCreate 4096 (fun _ => 0) 12 2 true)
    [.alloc 0,.alloc 0,.write 4120 0 255,.alloc 8192,.free 4120,.alloc 0] = some s ∧ s.Partitioned := by
  obtain ⟨s,hs⟩ := Option.isSome_iff_exists.mp (by decide +kernel :
    (run poolStep (poolCreate 4096 (fun _ => 0) 12 2 true)
      [.alloc 0,.alloc 0,.write 4120 0 255,.alloc 8192,.free 4120,.alloc 0]).isSome = true)
  exact ⟨s,hs,(memPool_partitioned (fun _ => 0) true (by decide) (by decide) (by decide) hs).1⟩

end LogStats
