import LogStats.Containers.MemPool
import LogStats.Library.ByteMemory

/-! # The element pool in memory

The free list runs through the free elements and the list of chunks through the chunks, by
the word at the beginning of each. The address of a new chunk is what malloc returns, and
all arithmetic is done in the width of the source, whether or not it wraps.
-/
namespace LogStats

structure PoolMemory where
  elemSize : UInt32
  elemCount : UInt32
  freeList : ℕ
  rawMemList : ℕ
  needsAutoGrow : Bool
  bytes : Bytes

namespace PoolMemory

/-- `e->next = mp->free_list; mp->free_list = e` -/
def push (mp : PoolMemory) (e : ℕ) : PoolMemory := { mp with bytes := mp.bytes.writeWord e mp.freeList, freeList := e }

def elemAt (mp : PoolMemory) (rawMem i : ℕ) : ℕ := rawMem + (UInt32.ofNat i * mp.elemSize).toNat

/-- What `grow_new_mem` asks `malloc` for. -/
def chunkBytes (mp : PoolMemory) (newElemCount : UInt32) : ℕ := 8 + (newElemCount * mp.elemSize).toNat

def fillFreeList (mp : PoolMemory) (rawMem : ℕ) (elemCount : UInt32) : PoolMemory :=
  (List.range elemCount.toNat).foldl (fun mp i => mp.push (mp.elemAt rawMem i)) mp

def growNewMem (newMem : ℕ) (mp : PoolMemory) (newElemCount : UInt32) : PoolMemory :=
  if newMem = 0 then mp
  else
    let mp := { mp with bytes := mp.bytes.writeWord newMem mp.rawMemList, rawMemList := newMem }
    let mp := mp.fillFreeList (newMem + 8) newElemCount
    { mp with elemCount := mp.elemCount + newElemCount }

def memPoolCreate (newMem : ℕ) (bytes : Bytes) (elemSize elemCount : UInt32) (needsAutoGrow : Bool) : PoolMemory :=
  let size := if 8 < elemSize then elemSize else 8
  growNewMem newMem ⟨size + alignPad size,0,0,0,needsAutoGrow,bytes⟩ (if elemCount = 0 then 20 else elemCount)

/-- The condition under which `mem_pool_alloc` grows the pool. -/
def Grows (mp : PoolMemory) : Prop := mp.freeList = 0 ∧ mp.needsAutoGrow = true

instance (mp : PoolMemory) : Decidable mp.Grows := inferInstanceAs (Decidable (_ ∧ _))

/-- The element, or NULL as 0. -/
def memPoolAlloc (newMem : ℕ) (mp : PoolMemory) : PoolMemory × ℕ :=
  let mp := if mp.Grows then growNewMem newMem mp (mp.elemCount * 2) else mp
  if mp.freeList ≠ 0 then ({ mp with freeList := mp.bytes.readWord mp.freeList },mp.freeList) else (mp,0)

/-- `mem_pool_free`, whose ASSERT refuses NULL. -/
def memPoolFree (mp : PoolMemory) (mem : ℕ) : Option PoolMemory := if mem = 0 then none else some (mp.push mem)

/-! ## Sizes -/

/-- The size of an element in unbounded arithmetic: eight bytes at least, and a multiple of them. -/
def paddedSize (elemSize : ℕ) : ℕ := (max elemSize 8 + 7) / 8 * 8

/-- The number of elements that a pool is created with. -/
def firstCount (elemCount : UInt32) : ℕ := if elemCount = 0 then 20 else elemCount.toNat

theorem or_seven (n : ℕ) : n ||| 7 = n / 8 * 8 + 7 := by
  have hlow : ∀ r < 8, r ||| 7 = 7 := by decide
  have hsplit : n = (n / 8) <<< 3 ||| n % 8 := by
    rw [← Nat.shiftLeft_add_eq_or_of_lt (Nat.mod_lt n (by decide) : n % 8 < 2 ^ 3), Nat.shiftLeft_eq]
    omega
  calc n ||| 7 = (n / 8) <<< 3 ||| n % 8 ||| 7 := by rw [← hsplit]
    _ = (n / 8) <<< 3 ||| 7 := by rw [Nat.or_assoc, hlow _ (Nat.mod_lt n (by decide))]
    _ = n / 8 * 8 + 7 := by
      rw [← Nat.shiftLeft_add_eq_or_of_lt (show 7 < 2 ^ 3 by decide), Nat.shiftLeft_eq]

/-- `ALIGN_PAD` fills a size up to the next multiple of eight. -/
theorem alignPad_toNat {size : UInt32} (h : (size.toNat + 7) / 8 * 8 < 2 ^ 32) :
    (size + alignPad size).toNat = (size.toNat + 7) / 8 * 8 := by
  have hmod : size % 8 = 0 ↔ size.toNat % 8 = 0 := by
    rw [← UInt32.toNat_inj, UInt32.toNat_mod]
    rfl
  rw [alignPad]
  by_cases hdvd : size % 8 = 0
  · rw [if_pos hdvd, UInt32.add_zero]
    have hzero := hmod.mp hdvd
    omega
  · rw [if_neg hdvd]
    have hne : ¬size.toNat % 8 = 0 := fun h0 => hdvd (hmod.mpr h0)
    have hsum : size + ((size ||| 7) + 1 - size) = (size ||| 7) + 1 := by
      rw [UInt32.add_comm, UInt32.sub_add_cancel]
    have hseven : (7 : UInt32).toNat = 7 := rfl
    rw [hsum, UInt32.toNat_add, UInt32.toNat_or, hseven, or_seven]
    simp only [UInt32.reduceToNat]
    omega

theorem create_elemSize {elemSize : UInt32} (h : paddedSize elemSize.toNat < 2 ^ 32) :
    ((if 8 < elemSize then elemSize else 8) + alignPad (if 8 < elemSize then elemSize else 8)).toNat =
      paddedSize elemSize.toNat := by
  have hmax : (if 8 < elemSize then elemSize else 8).toNat = max elemSize.toNat 8 := by
    have height : (8 : UInt32).toNat = 8 := rfl
    have hlt : 8 < elemSize ↔ 8 < elemSize.toNat := UInt32.lt_iff_toNat_lt
    split
    · rename_i h8
      rw [hlt] at h8
      omega
    · rename_i h8
      rw [hlt] at h8
      omega
  rw [paddedSize, ← hmax] at h ⊢
  exact alignPad_toNat h

theorem firstCount_eq (elemCount : UInt32) : (if elemCount = 0 then 20 else elemCount).toNat = firstCount elemCount := by
  rw [firstCount]
  split <;> rfl

theorem eight_le_paddedSize (elemSize : ℕ) : 8 ≤ paddedSize elemSize := by
  rw [paddedSize]
  omega

theorem firstCount_pos (elemCount : UInt32) : 0 < firstCount elemCount := by
  rw [firstCount]
  split
  · decide
  · rename_i hne
    exact Nat.pos_of_ne_zero fun h0 => hne (UInt32.toNat_inj.mp h0)

theorem paddedSize_lt {elemSize : ℕ} {elemCount : UInt32} (hprod : firstCount elemCount * paddedSize elemSize < 2 ^ 32) :
    paddedSize elemSize < 2 ^ 32 := by
  have hone := Nat.mul_le_mul_right (paddedSize elemSize) (Nat.succ_le_of_lt (firstCount_pos elemCount))
  omega

/-- Both models of a pool begin with a growth of one without chunks. -/
theorem create_grown {elemSize : UInt32} (elemCount : UInt32) (h : paddedSize elemSize.toNat < 2 ^ 32) : ∃ size count : UInt32,
    size.toNat = paddedSize elemSize.toNat ∧ count.toNat = firstCount elemCount ∧
    (∀ newMem bytes grows, memPoolCreate newMem bytes elemSize elemCount grows =
      growNewMem newMem ⟨size,0,0,0,grows,bytes⟩ count) ∧
    ∀ malloc grows, LogStats.memPoolCreate malloc elemSize elemCount grows =
      LogStats.growNewMem malloc ⟨size,0,[],[],grows,1⟩ count :=
  ⟨_,_,create_elemSize h,firstCount_eq elemCount,fun _ _ _ => rfl,fun _ _ => rfl⟩

/-! ## What a growth makes of the counts -/

section Counts
variable {newMem : ℕ} {mp : PoolMemory} {n : UInt32}

theorem fillFreeList_fixed (rawMem : ℕ) : (mp.fillFreeList rawMem n).elemSize = mp.elemSize ∧
    (mp.fillFreeList rawMem n).elemCount = mp.elemCount ∧
    (mp.fillFreeList rawMem n).needsAutoGrow = mp.needsAutoGrow := by
  rw [fillFreeList]
  generalize List.range n.toNat = is
  induction is generalizing mp with
  | nil => exact ⟨rfl,rfl,rfl⟩
  | cons i is ih => exact @ih (mp.push (mp.elemAt rawMem i))

theorem growNewMem_elemSize : (mp.growNewMem newMem n).elemSize = mp.elemSize := by
  rw [growNewMem]
  split
  · rfl
  · exact (fillFreeList_fixed _).1

theorem growNewMem_needsAutoGrow : (mp.growNewMem newMem n).needsAutoGrow = mp.needsAutoGrow := by
  rw [growNewMem]
  split
  · rfl
  · exact (fillFreeList_fixed _).2.2

theorem growNewMem_elemCount (hne : newMem ≠ 0) : (mp.growNewMem newMem n).elemCount = mp.elemCount + n := by
  rw [growNewMem, if_neg hne]
  exact congrArg (· + n) (fillFreeList_fixed _).2.1

end Counts

/-! ## The loop that fills the free list -/

section Fill
variable {mp : PoolMemory} {n : UInt32} {rawMem : ℕ} {free : List ℕ}

theorem elemAt_eq (hprod : n.toNat * mp.elemSize.toNat < 2 ^ 32) (rawMem : ℕ) {i : ℕ} (hi : i < n.toNat) :
    mp.elemAt rawMem i = rawMem + i * mp.elemSize.toNat := by
  have hn := n.toNat_lt
  have hmul : i * mp.elemSize.toNat ≤ n.toNat * mp.elemSize.toNat := Nat.mul_le_mul_right _ hi.le
  rw [elemAt, UInt32.toNat_mul, UInt32.toNat_ofNat', Nat.mod_eq_of_lt (by omega : i < 2 ^ 32), Nat.mod_eq_of_lt (by omega)]

/-- What the loop keeps: the elements so far are in front, and nothing but them was written to. -/
theorem fill_upto (hprod : n.toNat * mp.elemSize.toNat < 2 ^ 32) (hsize : 8 ≤ mp.elemSize.toNat) (hraw : rawMem ≠ 0)
    (hend : rawMem + n.toNat * mp.elemSize.toNat ≤ 2 ^ 64) (hfree : Chained mp.bytes.next (pointer mp.freeList) free)
    (hlt : ∀ a ∈ free, a < 2 ^ 64) (hapart : ∀ a ∈ free, Apart a 8 rawMem (n.toNat * mp.elemSize.toNat)) {k : ℕ}
    (hk : k ≤ n.toNat) : ∃ bytes head,
      (List.range k).foldl (fun mp i => mp.push (mp.elemAt rawMem i)) mp = { mp with bytes := bytes, freeList := head } ∧
      mp.bytes.Within bytes rawMem (k * mp.elemSize.toNat) ∧
      Chained bytes.next (pointer head) ((strided rawMem mp.elemSize.toNat k).reverse ++ free) := by
  induction k with
  | zero => exact ⟨mp.bytes,mp.freeList,rfl,.refl _ _ _,hfree⟩
  | succ k ih =>
    obtain ⟨bytes,head,hrun,hwithin,hchain⟩ := ih (by omega)
    have hmul : (k + 1) * mp.elemSize.toNat ≤ n.toNat * mp.elemSize.toNat := Nat.mul_le_mul_right _ hk
    rw [Nat.succ_mul] at hmul ⊢
    have hat : elemAt { mp with bytes := bytes, freeList := head } rawMem k = rawMem + k * mp.elemSize.toNat :=
      @elemAt_eq mp n hprod rawMem k (by omega)
    have hall : ∀ a ∈ (strided rawMem mp.elemSize.toNat k).reverse ++ free,
        Apart a 8 (rawMem + k * mp.elemSize.toNat) 8 ∧ a < 2 ^ 64 := by
      intro a ha
      rcases List.mem_append.mp ha with ha | ha
      · have hin := strided_inside (List.mem_reverse.mp ha)
        exact ⟨Or.inl (by omega),by omega⟩
      · exact ⟨(hapart a ha).mono (Nat.le_refl a) (Nat.le_refl _) (by omega) (by omega),hlt a ha⟩
    have hhead : head < 2 ^ 64 := by
      rw [Bytes.chained_head hchain]
      cases hl : (strided rawMem mp.elemSize.toNat k).reverse ++ free with
      | nil => simp
      | cons a as => exact (hall a (hl ▸ List.mem_cons_self)).2
    refine ⟨bytes.writeWord (rawMem + k * mp.elemSize.toNat) head,rawMem + k * mp.elemSize.toNat,?_,?_,?_⟩
    · rw [List.range_succ, List.foldl_append, hrun, List.foldl_cons, List.foldl_nil, hat]
      rfl
    · apply Bytes.Within.trans (hwithin.mono (Nat.le_refl _) (by omega))
      exact (Bytes.writeWord_within bytes _ head).mono (by omega) (by omega)
    · rw [strided_succ, List.reverse_append, List.reverse_singleton, List.append_assoc, List.singleton_append]
      exact Bytes.chained_push hchain (by omega) hhead fun a ha => (hall a ha).1

/-- A new chunk is in front of the others, and its elements in front of the free ones. -/
theorem grow_spec {newMem : ℕ} {chunks : List ℕ} (hne : newMem ≠ 0) (hprod : n.toNat * mp.elemSize.toNat < 2 ^ 32)
    (hsize : 8 ≤ mp.elemSize.toNat) (hend : newMem + (8 + n.toNat * mp.elemSize.toNat) ≤ 2 ^ 64)
    (hfree : Chained mp.bytes.next (pointer mp.freeList) free)
    (hraw : Chained mp.bytes.next (pointer mp.rawMemList) chunks) (hlt : ∀ a ∈ free ++ chunks, a < 2 ^ 64)
    (hapart : ∀ a ∈ free ++ chunks, Apart a 8 newMem (8 + n.toNat * mp.elemSize.toNat)) : ∃ bytes head,
      mp.growNewMem newMem n =
        { mp with elemCount := mp.elemCount + n, freeList := head, rawMemList := newMem, bytes := bytes } ∧
      Chained bytes.next (pointer head) ((strided (newMem + 8) mp.elemSize.toNat n.toNat).reverse ++ free) ∧
      Chained bytes.next (pointer newMem) (newMem :: chunks) := by
  obtain ⟨hltf,hltc⟩ := List.forall_mem_append.mp hlt
  obtain ⟨hapf,hapc⟩ := List.forall_mem_append.mp hapart
  have hhead : mp.rawMemList < 2 ^ 64 := by
    rw [Bytes.chained_head hraw]
    cases chunks with
    | nil => simp
    | cons c cs => exact hltc c List.mem_cons_self
  have hraw₁ := Bytes.chained_push hraw hne hhead fun c hc =>
    (hapc c hc).mono (Nat.le_refl c) (Nat.le_refl _) (Nat.le_refl _) (by omega)
  have hfree₁ := (Bytes.writeWord_within mp.bytes newMem mp.rawMemList).chained hfree fun a ha =>
    (hapf a ha).mono (Nat.le_refl a) (Nat.le_refl _) (Nat.le_refl _) (by omega)
  let mp₁ : PoolMemory := { mp with bytes := mp.bytes.writeWord newMem mp.rawMemList, rawMemList := newMem }
  obtain ⟨bytes,head,hrun,hwithin,hchain⟩ := @fill_upto mp₁ n (newMem + 8) free hprod hsize (by omega)
    (by simp only [mp₁]; omega) hfree₁ hltf
    (fun a ha => (hapf a ha).mono (Nat.le_refl a) (Nat.le_refl _) (by omega) (by simp only [mp₁]; omega)) n.toNat (Nat.le_refl _)
  refine ⟨bytes,head,?_,hchain,?_⟩
  · rw [growNewMem, if_neg hne]
    simp only [fillFreeList, mp₁] at hrun ⊢
    rw [hrun]
  · apply hwithin.chained hraw₁
    intro c hc
    rcases List.mem_cons.mp hc with rfl | hc
    · exact Or.inl (Nat.le_refl _)
    · exact (hapc c hc).mono (Nat.le_refl c) (Nat.le_refl _) (by omega) (by simp only [mp₁]; omega)

end Fill

end PoolMemory

end LogStats
