import LogStats.Containers.PoolPartition

/-! # The arithmetic of growing pools

A pool triples each time it grows, and the bytes of the new chunk are a product of 32 bits.
When it wraps the chunk is smaller than the list that is threaded through it.
-/
namespace LogStats

namespace PoolMemory

/-- A growth of a pool with `total` elements asks for the bytes it needs, counts right, and
keeps to the chunk that it gets. -/
structure GrowsExactly (mp : PoolMemory) (total : ℕ) : Prop where
  asked : mp.chunkBytes (mp.elemCount * 2) = 8 + (mp.elemCount * 2).toNat * mp.elemSize.toNat
  counted : ∀ newMem, newMem ≠ 0 → (mp.growNewMem newMem (mp.elemCount * 2)).elemCount.toNat = total + 2 * total
  inside : ∀ newMem i, i < (mp.elemCount * 2).toNat → newMem + 8 ≤ mp.elemAt (newMem + 8) i ∧
    mp.elemAt (newMem + 8) i + mp.elemSize.toNat ≤ newMem + mp.chunkBytes (mp.elemCount * 2)

/-- Growths that succeed, with the addresses of their chunks. -/
def growAll (mp : PoolMemory) (news : List ℕ) : PoolMemory :=
  news.foldl (fun mp newMem => mp.growNewMem newMem (mp.elemCount * 2)) mp

section Growth
variable {mp : PoolMemory} {total : ℕ} {news : List ℕ}

theorem growAll_elemSize : (mp.growAll news).elemSize = mp.elemSize := by
  induction news generalizing mp with
  | nil => rfl
  | cons newMem news ih => exact (@ih (mp.growNewMem newMem (mp.elemCount * 2))).trans growNewMem_elemSize

/-- What 32 bits show of the number that has tripled with each chunk. -/
theorem growAll_elemCount (hcount : mp.elemCount.toNat = total % 2 ^ 32) (hnews : ∀ a ∈ news, a ≠ 0) :
    (mp.growAll news).elemCount.toNat = total * 3 ^ news.length % 2 ^ 32 := by
  induction news generalizing mp total with
  | nil => rw [List.length_nil, Nat.pow_zero, Nat.mul_one, growAll, List.foldl_nil, hcount]
  | cons newMem news ih =>
    have hstep : (mp.growNewMem newMem (mp.elemCount * 2)).elemCount.toNat = total * 3 % 2 ^ 32 := by
      rw [growNewMem_elemCount (hnews newMem List.mem_cons_self), UInt32.toNat_add, UInt32.toNat_mul, hcount]
      simp only [UInt32.reduceToNat]
      omega
    have hrest := ih hstep fun a ha => hnews a (List.mem_cons_of_mem newMem ha)
    rw [List.length_cons, Nat.pow_succ', ← Nat.mul_assoc]
    exact hrest

theorem growsExactly_of_lt (hcount : mp.elemCount.toNat = total % 2 ^ 32) (hsize : 8 ≤ mp.elemSize.toNat)
    (hprod : 2 * total * mp.elemSize.toNat < 2 ^ 32) : mp.GrowsExactly total := by
  have hmul := Nat.mul_le_mul_left (2 * total) hsize
  have htwo : (mp.elemCount * 2).toNat = 2 * total := by
    rw [twice_toNat (by omega), hcount]
    omega
  have hask : mp.chunkBytes (mp.elemCount * 2) = 8 + (mp.elemCount * 2).toNat * mp.elemSize.toNat := by
    rw [chunkBytes, UInt32.toNat_mul, Nat.mod_eq_of_lt (by rwa [htwo])]
  refine ⟨hask,fun newMem hne => ?_,fun newMem i hi => ?_⟩
  · rw [growNewMem_elemCount hne, UInt32.toNat_add, htwo, hcount]
    omega
  · have hat := @elemAt_eq mp (mp.elemCount * 2) (by rwa [htwo]) (newMem + 8) i hi
    have hlast := Nat.mul_le_mul_right mp.elemSize.toNat (Nat.succ_le_of_lt hi)
    rw [Nat.succ_mul] at hlast
    rw [hat, hask]
    omega

theorem lt_of_growsExactly (hcount : mp.elemCount.toNat = total % 2 ^ 32) (h : mp.GrowsExactly total) :
    2 * total * mp.elemSize.toNat < 2 ^ 32 := by
  have hthree := h.counted 1 (by decide)
  have hlt := (mp.growNewMem 1 (mp.elemCount * 2)).elemCount.toNat_lt
  have htwo : (mp.elemCount * 2).toNat = 2 * total := by
    rw [twice_toNat (by omega), hcount]
    omega
  have hask := h.asked
  have hbytes := (mp.elemCount * 2 * mp.elemSize).toNat_lt
  rw [chunkBytes, htwo] at hask
  omega

/-- Where the product wraps, the last element that 32 bits can reach is not inside the chunk. -/
theorem outside_of_wrap (hpos : 0 < mp.elemSize.toNat) {n : UInt32} (hwrap : 2 ^ 32 ≤ n.toNat * mp.elemSize.toNat) (newMem : ℕ) :
    ∃ i < n.toNat, newMem + mp.chunkBytes n < mp.elemAt (newMem + 8) i + mp.elemSize.toNat := by
  have hdiv := Nat.div_add_mod (2 ^ 32 - 1) mp.elemSize.toNat
  have hmod := Nat.mod_lt (2 ^ 32 - 1) hpos
  have hbytes := (n * mp.elemSize).toNat_lt
  obtain ⟨i,hi⟩ : ∃ i, i = (2 ^ 32 - 1) / mp.elemSize.toNat := ⟨_,rfl⟩
  rw [← hi, Nat.mul_comm] at hdiv
  have hlt : i < n.toNat := by
    by_contra hge
    have hmul := Nat.mul_le_mul_right mp.elemSize.toNat (Nat.le_of_not_lt hge)
    omega
  refine ⟨i,hlt,?_⟩
  have hn := n.toNat_lt
  rw [elemAt, chunkBytes, UInt32.toNat_mul (UInt32.ofNat i), UInt32.toNat_ofNat', Nat.mod_eq_of_lt (by omega : i < 2 ^ 32),
    Nat.mod_eq_of_lt (by omega)]
  omega

end Growth

end PoolMemory

/-! ## Pools as they are created -/

open PoolMemory

theorem firstCount_lt (elemCount : UInt32) : firstCount elemCount < 2 ^ 32 := by
  rw [← firstCount_eq]
  exact UInt32.toNat_lt _

/-- A pool as it is created, where its elements have a size of 32 bits. -/
theorem create_fixed {newMem : ℕ} (bytes : Bytes) {elemSize : UInt32} (elemCount : UInt32) (needsAutoGrow : Bool)
    (hne : newMem ≠ 0) (hsize : paddedSize elemSize.toNat < 2 ^ 32) :
    (PoolMemory.memPoolCreate newMem bytes elemSize elemCount needsAutoGrow).elemSize.toNat = paddedSize elemSize.toNat ∧
    (PoolMemory.memPoolCreate newMem bytes elemSize elemCount needsAutoGrow).elemCount.toNat = firstCount elemCount := by
  obtain ⟨size,count,hsize',hcount,hrun,-⟩ := create_grown elemCount hsize
  rw [hrun, growNewMem_elemSize, growNewMem_elemCount hne, UInt32.zero_add]
  exact ⟨hsize',hcount⟩

/-- After any number of growths the next one is exact if and only if its elements take less
than 2 ^ 32 bytes. -/
theorem memPool_grows_exactly_iff {newMem : ℕ} (bytes : Bytes) {elemSize elemCount : UInt32} (hne : newMem ≠ 0)
    (hprod : firstCount elemCount * paddedSize elemSize.toNat < 2 ^ 32) (news : List ℕ) (hnews : ∀ a ∈ news, a ≠ 0) :
    ((PoolMemory.memPoolCreate newMem bytes elemSize elemCount true).growAll news).GrowsExactly
        (firstCount elemCount * 3 ^ news.length) ↔
      2 * (firstCount elemCount * 3 ^ news.length) * paddedSize elemSize.toNat < 2 ^ 32 := by
  obtain ⟨hsize,hcount⟩ := create_fixed bytes elemCount true hne (paddedSize_lt hprod)
  generalize PoolMemory.memPoolCreate newMem bytes elemSize elemCount true = mp at hsize hcount
  have hcount' := growAll_elemCount (hcount.trans (Nat.mod_eq_of_lt (firstCount_lt elemCount)).symm) hnews
  have hsize' : (mp.growAll news).elemSize.toNat = paddedSize elemSize.toNat := by rw [growAll_elemSize, hsize]
  constructor
  · intro h
    rw [← hsize']
    exact lt_of_growsExactly hcount' h
  · intro hlt
    rw [← hsize'] at hlt
    exact growsExactly_of_lt hcount' (hsize' ▸ eight_le_paddedSize _) hlt

/-- Addresses of chunks that are far apart. -/
def farChunks (k : ℕ) : List ℕ := (List.range k).map fun i => (i + 1) * 2 ^ 36

theorem farChunks_spec (k : ℕ) : (farChunks k).length = k ∧ ∀ a ∈ farChunks k, a ≠ 0 := by
  refine ⟨by rw [farChunks, List.length_map, List.length_range],?_⟩
  intro a ha
  obtain ⟨i,-,rfl⟩ := List.mem_map.mp ha
  exact Nat.mul_ne_zero (Nat.succ_ne_zero i) (by decide)

/-- The pool of the values of a name tree grows nine times and is ready for the tenth. -/
theorem memPool_grows_exactly_iff_nine :
    ((PoolMemory.memPoolCreate 4096 (fun _ => 0) 48 1024 true).growAll (farChunks 9)).GrowsExactly (1024 * 3 ^ 9) := by
  obtain ⟨hlen,hnews⟩ := farChunks_spec 9
  have h := memPool_grows_exactly_iff (fun _ => 0) (show 4096 ≠ 0 by decide)
    (show firstCount 1024 * paddedSize (48 : UInt32).toNat < 2 ^ 32 by decide) (farChunks 9) hnews
  rw [hlen] at h
  exact h.mpr (by decide)

/-- Its eleventh growth asks for 1509785608 bytes where 5804752904 are needed, and leaves the
chunk. -/
theorem memPool_growth_wraps : ∃ mp,
    mp = (PoolMemory.memPoolCreate 4096 (fun _ => 0) 48 1024 true).growAll (farChunks 10) ∧
    ¬mp.GrowsExactly (1024 * 3 ^ 10) ∧ mp.chunkBytes (mp.elemCount * 2) = 1509785608 ∧
    8 + (mp.elemCount * 2).toNat * mp.elemSize.toNat = 5804752904 ∧
    ∃ i < (mp.elemCount * 2).toNat, 2 ^ 40 + mp.chunkBytes (mp.elemCount * 2) < mp.elemAt (2 ^ 40 + 8) i + mp.elemSize.toNat := by
  obtain ⟨hlen,hnews⟩ := farChunks_spec 10
  obtain ⟨mp₀,hmp₀⟩ : ∃ mp₀, mp₀ = PoolMemory.memPoolCreate 4096 (fun _ => 0) 48 1024 true := ⟨_,rfl⟩
  obtain ⟨hsize₀,hcount₀⟩ := create_fixed (fun _ => 0) 1024 true (show 4096 ≠ 0 by decide)
    (show paddedSize (48 : UInt32).toNat < 2 ^ 32 by decide)
  rw [← hmp₀] at hsize₀ hcount₀ ⊢
  have hcount := @growAll_elemCount mp₀ 1024 (farChunks 10) hcount₀ hnews
  rw [hlen] at hcount
  have hsize : (mp₀.growAll (farChunks 10)).elemSize.toNat = 48 := by
    rw [growAll_elemSize, hsize₀]
    decide
  have htwo : ((mp₀.growAll (farChunks 10)).elemCount * 2).toNat = 120932352 := by
    rw [UInt32.toNat_mul, hcount]
    decide
  refine ⟨_,rfl,fun h => ?_,?_,by rw [htwo, hsize],?_⟩
  · have hlt := lt_of_growsExactly hcount h
    rw [hsize] at hlt
    omega
  · rw [chunkBytes, UInt32.toNat_mul, htwo, hsize]
  · exact outside_of_wrap (by omega) (by rw [htwo, hsize]; decide) _

end LogStats
