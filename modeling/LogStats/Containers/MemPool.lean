import Mathlib.Data.List.Perm.Basic
import Mathlib.Data.List.Nodup
import Mathlib.Data.List.Range
import Mathlib.Tactic.Linarith

/-! # The element pool of dig_mem_pool.c

Sizes and counts are 32 bits wide, as in the source. The links of the free list
are kept as a list. malloc returns addresses never used before, or NULL where the
flag says so. A chunk whose size wraps is too small for its elements; growing by
such a chunk is undefined.
-/
namespace LogStats

structure MemPool where
  elemSize : UInt32
  elemCount : UInt32
  freeList : List ℕ
  rawMemList : List ℕ
  needsAutoGrow : Bool
  /-- The address the next `malloc` returns. -/
  brk : ℕ

/-- `ALIGN_PAD` with 8-byte pointers. -/
def alignPad (size : UInt32) : UInt32 := if size % 8 = 0 then 0 else (size ||| 7) + 1 - size

def MemPool.chunkBytes (mp : MemPool) (elemCount : UInt32) : ℕ := 8 + (elemCount * mp.elemSize).toNat

def MemPool.elemAt (mp : MemPool) (rawMem i : ℕ) : ℕ := rawMem + (UInt32.ofNat i * mp.elemSize).toNat

def fillFreeList (mp : MemPool) (rawMem : ℕ) (elemCount : UInt32) : List ℕ :=
  (List.range elemCount.toNat).foldl (fun freeList i => mp.elemAt rawMem i :: freeList) mp.freeList

def growNewMem (malloc : Bool) (mp : MemPool) (newElemCount : UInt32) : Option MemPool :=
  if malloc = false then some mp
  else if newElemCount.toNat * mp.elemSize.toNat < 2 ^ 32 then
    some { mp with
      rawMemList := mp.brk :: mp.rawMemList
      freeList := fillFreeList mp (mp.brk + 8) newElemCount
      elemCount := mp.elemCount + newElemCount
      brk := mp.brk + mp.chunkBytes newElemCount }
  else none

def memPoolCreate (malloc : Bool) (elemSize elemCount : UInt32) (needsAutoGrow : Bool) : Option MemPool :=
  let size := if 8 < elemSize then elemSize else 8
  growNewMem malloc ⟨size + alignPad size,0,[],[],needsAutoGrow,1⟩ (if elemCount = 0 then 20 else elemCount)

def memPoolAlloc (malloc : Bool) (mp : MemPool) : Option (MemPool × Option ℕ) :=
  let grown := if mp.freeList = [] ∧ mp.needsAutoGrow = true then growNewMem malloc mp (mp.elemCount * 2)
    else some mp
  grown.map fun mp =>
    match mp.freeList with
    | [] => (mp,none)
    | e :: next => ({ mp with freeList := next },some e)

/-- `mem_pool_free`, whose ASSERT refuses NULL. -/
def memPoolFree (mp : MemPool) (mem : ℕ) : Option MemPool :=
  if mem = 0 then none else some { mp with freeList := mem :: mp.freeList }

theorem twice_toNat {n : UInt32} (h : n.toNat < 2 ^ 31) : (n * 2).toNat = n.toNat * 2 := by
  rw [UInt32.toNat_mul]
  simp only [UInt32.reduceToNat]
  omega

/-! ## Who owns an element -/

/-- `out` are the elements handed out and not given back. -/
structure MemPool.Outstanding (mp : MemPool) (out : List ℕ) : Prop where
  nodup : (out ++ mp.freeList).Nodup
  nonnull : ∀ a ∈ out ++ mp.freeList, a ≠ 0
  below : ∀ a ∈ out ++ mp.freeList, a < mp.brk
  length_eq : (out ++ mp.freeList).length = mp.elemCount.toNat
  size_ge : 8 ≤ mp.elemSize.toNat
  count_lt : mp.elemCount.toNat < 2 ^ 31

theorem MemPool.Outstanding.perm {mp : MemPool} {out out' : List ℕ} (h : mp.Outstanding out)
    (hp : out'.Perm out) : mp.Outstanding out' := by
  have hall : (out' ++ mp.freeList).Perm (out ++ mp.freeList) := hp.append_right _
  exact ⟨hall.nodup_iff.mpr h.nodup,fun a ha => h.nonnull a (hall.mem_iff.mp ha),
    fun a ha => h.below a (hall.mem_iff.mp ha),hall.length_eq.trans h.length_eq,h.size_ge,h.count_lt⟩

theorem fillFreeList_eq (mp : MemPool) (rawMem : ℕ) (n : UInt32) :
    fillFreeList mp rawMem n = ((List.range n.toNat).map (mp.elemAt rawMem)).reverse ++ mp.freeList := by
  unfold fillFreeList
  generalize mp.freeList = fl
  generalize List.range n.toNat = is
  induction is generalizing fl with
  | nil => rfl
  | cons i is ih => simp [ih]

section Growth
variable {mp : MemPool} {n : UInt32}

theorem MemPool.elemAt_eq (h : n.toNat * mp.elemSize.toNat < 2 ^ 32) (rawMem : ℕ) {i : ℕ} (hi : i < n.toNat) :
    mp.elemAt rawMem i = rawMem + i * mp.elemSize.toNat := by
  have hn := n.toNat_lt
  have hmul : i * mp.elemSize.toNat ≤ n.toNat * mp.elemSize.toNat := Nat.mul_le_mul_right _ hi.le
  have hi32 : i % 2 ^ 32 = i := Nat.mod_eq_of_lt (by omega)
  simp only [elemAt, UInt32.toNat_mul, UInt32.toNat_ofNat', hi32]
  rw [Nat.mod_eq_of_lt (by omega)]

theorem growNewMem_some {mp' : MemPool} (h : growNewMem true mp n = some mp') :
    n.toNat * mp.elemSize.toNat < 2 ^ 32 ∧ mp'.freeList = fillFreeList mp (mp.brk + 8) n ∧
      mp'.elemCount = mp.elemCount + n ∧ mp'.elemSize = mp.elemSize ∧ mp'.needsAutoGrow = mp.needsAutoGrow ∧
      mp'.brk = mp.brk + 8 + n.toNat * mp.elemSize.toNat := by
  simp only [growNewMem, Bool.true_eq_false, if_false] at h
  split at h
  · rename_i hlt
    cases h
    refine ⟨hlt,rfl,rfl,rfl,rfl,?_⟩
    simp only [MemPool.chunkBytes, UInt32.toNat_mul, Nat.mod_eq_of_lt hlt, Nat.add_assoc]
  · cases h

/-- A new chunk's elements join the free list. -/
theorem growNewMem_outstanding {mp' : MemPool} {out : List ℕ} (h : mp.Outstanding out)
    (hn : mp.elemCount.toNat + n.toNat < 2 ^ 31) (hg : growNewMem true mp n = some mp') :
    mp'.Outstanding out := by
  obtain ⟨hlt,hfree,hcount,hsize,-,hbrk⟩ := growNewMem_some hg
  have haddr : ∀ i < n.toNat, mp.elemAt (mp.brk + 8) i = mp.brk + 8 + i * mp.elemSize.toNat :=
    fun i hi => mp.elemAt_eq hlt _ hi
  have hnew : ∀ a ∈ (List.range n.toNat).map (mp.elemAt (mp.brk + 8)), mp.brk + 8 ≤ a ∧ a < mp'.brk := by
    intro a ha
    obtain ⟨i,hi,rfl⟩ := List.mem_map.mp ha
    have hi := List.mem_range.mp hi
    have hmul : (i + 1) * mp.elemSize.toNat ≤ n.toNat * mp.elemSize.toNat := Nat.mul_le_mul_right _ hi
    have hge := h.size_ge
    rw [haddr i hi, hbrk]
    rw [Nat.succ_mul] at hmul
    omega
  have hnodup : ((List.range n.toNat).map (mp.elemAt (mp.brk + 8))).Nodup := by
    apply (List.nodup_map_iff_inj_on List.nodup_range).mpr
    intro i hi j hj he
    rw [haddr i (List.mem_range.mp hi), haddr j (List.mem_range.mp hj)] at he
    have hge := h.size_ge
    exact Nat.eq_of_mul_eq_mul_right (show 0 < mp.elemSize.toNat by omega) (by omega)
  have hperm : (out ++ mp'.freeList).Perm
      ((List.range n.toNat).map (mp.elemAt (mp.brk + 8)) ++ (out ++ mp.freeList)) := by
    rw [hfree, fillFreeList_eq]
    apply (List.perm_append_comm_assoc _ _ _).trans
    exact (List.reverse_perm _).append_right _
  have hcount' : mp'.elemCount.toNat = mp.elemCount.toNat + n.toNat := by
    rw [hcount, UInt32.toNat_add, Nat.mod_eq_of_lt (by omega)]
  refine ⟨hperm.nodup_iff.mpr ?_,?_,?_,?_,hsize ▸ h.size_ge,by omega⟩
  · refine List.nodup_append.mpr ⟨hnodup,h.nodup,?_⟩
    rintro a ha b hb rfl
    have hold := h.below a hb
    have hlow := (hnew a ha).1
    omega
  · intro a ha
    rcases List.mem_append.mp (hperm.mem_iff.mp ha) with hl | hr
    · have hlow := (hnew a hl).1
      omega
    · exact h.nonnull a hr
  · intro a ha
    rcases List.mem_append.mp (hperm.mem_iff.mp ha) with hl | hr
    · exact (hnew a hl).2
    · have hold := h.below a hr
      omega
  · rw [hperm.length_eq, List.length_append, h.length_eq, List.length_map, List.length_range, hcount']
    omega

end Growth

theorem memPoolFree_outstanding {mp : MemPool} {out : List ℕ} {a : ℕ} (h : mp.Outstanding out) (ha : a ∈ out) :
    ∃ mp', memPoolFree mp a = some mp' ∧ mp'.Outstanding (out.erase a) := by
  have h0 : a ≠ 0 := h.nonnull a (List.mem_append_left _ ha)
  have hperm : (out.erase a ++ a :: mp.freeList).Perm (out ++ mp.freeList) :=
    List.perm_middle.trans ((List.perm_cons_erase ha).symm.append_right _)
  let mp' : MemPool := { mp with freeList := a :: mp.freeList }
  refine ⟨mp',by simp [memPoolFree, h0, mp'],hperm.nodup_iff.mpr h.nodup,?_,?_,hperm.length_eq.trans h.length_eq,
    h.size_ge,h.count_lt⟩
  · exact fun b hb => h.nonnull b (hperm.mem_iff.mp hb)
  · exact fun b hb => h.below b (hperm.mem_iff.mp hb)

/-- Where the bytes of a growth do not wrap its counts do not either. -/
theorem MemPool.Outstanding.tripled {mp : MemPool} {out : List ℕ} (h : mp.Outstanding out)
    (hlt : (mp.elemCount * 2).toNat * mp.elemSize.toNat < 2 ^ 32) :
    (mp.elemCount * 2).toNat = mp.elemCount.toNat * 2 ∧ mp.elemCount.toNat + (mp.elemCount * 2).toNat < 2 ^ 31 := by
  have h8 := Nat.mul_le_mul_left (mp.elemCount * 2).toNat h.size_ge
  have htwo := twice_toNat h.count_lt
  exact ⟨htwo,by omega⟩

/-- The pool as `mem_pool_alloc` finds it once it has grown where it must. -/
theorem grown_outstanding {malloc : Bool} {mp mp₁ : MemPool} {out : List ℕ} (h : mp.Outstanding out)
    (hg : growNewMem malloc mp (mp.elemCount * 2) = some mp₁) : mp₁.Outstanding out := by
  cases malloc with
  | false =>
    obtain rfl : mp = mp₁ := by simpa [growNewMem] using hg
    exact h
  | true =>
    obtain ⟨hlt,-⟩ := growNewMem_some hg
    exact growNewMem_outstanding h (h.tripled hlt).2 hg

theorem memPoolAlloc_outstanding {malloc : Bool} {mp mp' : MemPool} {out : List ℕ} {r : Option ℕ}
    (h : mp.Outstanding out) (ha : memPoolAlloc malloc mp = some (mp',r)) : mp'.Outstanding (r.toList ++ out) := by
  obtain ⟨mp₁,hg,hr⟩ := Option.map_eq_some_iff.mp ha
  have h₁ : mp₁.Outstanding out := by
    split at hg
    · exact grown_outstanding h hg
    · exact Option.some_inj.mp hg ▸ h
  split at hr
  · cases hr
    exact h₁
  · rename_i e next he
    cases hr
    have hperm : (([e] ++ out) ++ next).Perm (out ++ mp₁.freeList) := by
      rw [he]
      exact List.perm_middle.symm
    refine ⟨hperm.nodup_iff.mpr h₁.nodup,?_,?_,hperm.length_eq.trans h₁.length_eq,h₁.size_ge,h₁.count_lt⟩
    · exact fun b hb => h₁.nonnull b (hperm.mem_iff.mp hb)
    · exact fun b hb => h₁.below b (hperm.mem_iff.mp hb)

/-! ## What an allocation returns

Only growing by a chunk whose size wraps is undefined.
-/

section Alloc
variable {malloc : Bool} {mp : MemPool}

def MemPool.Gives (malloc : Bool) (mp : MemPool) : Prop :=
  mp.freeList ≠ [] ∨ (mp.needsAutoGrow = true ∧ malloc = true ∧ mp.elemCount * 2 ≠ 0 ∧
    (mp.elemCount * 2).toNat * mp.elemSize.toNat < 2 ^ 32)

def MemPool.Refuses (malloc : Bool) (mp : MemPool) : Prop :=
  mp.freeList = [] ∧ (mp.needsAutoGrow = false ∨ malloc = false ∨ mp.elemCount * 2 = 0)

instance : Decidable (mp.Gives malloc) := inferInstanceAs (Decidable (_ ∨ _))
instance : Decidable (mp.Refuses malloc) := inferInstanceAs (Decidable (_ ∧ _))

theorem memPoolAlloc_gives (h : mp.Gives malloc) :
    ∃ mp' e, memPoolAlloc malloc mp = some (mp',some e) := by
  by_cases hf : mp.freeList = []
  · rcases h with hne | ⟨hgrow,hm,hcount,hlt⟩
    · exact absurd hf hne
    · obtain ⟨mp₁,hg⟩ : ∃ mp₁, growNewMem malloc mp (mp.elemCount * 2) = some mp₁ := by
        simp only [growNewMem, hm, Bool.true_eq_false, if_false, if_pos hlt]
        exact ⟨_,rfl⟩
      have hfree : mp₁.freeList ≠ [] := by
        rw [hm] at hg
        obtain ⟨-,hfree,-⟩ := growNewMem_some hg
        have hpos : (mp.elemCount * 2).toNat ≠ 0 := fun h0 => hcount (UInt32.toNat_inj.mp h0)
        rw [hfree, fillFreeList_eq, hf, List.append_nil]
        simpa using hpos
      obtain ⟨e,next,he⟩ := List.exists_cons_of_ne_nil hfree
      refine ⟨{ mp₁ with freeList := next },e,?_⟩
      simp only [memPoolAlloc, hf, hgrow, and_self, if_true, hg, Option.map_some, he]
  · obtain ⟨e,next,he⟩ := List.exists_cons_of_ne_nil hf
    refine ⟨{ mp with freeList := next },e,?_⟩
    simp only [memPoolAlloc, he, List.cons_ne_nil, false_and, if_false, Option.map_some]

theorem memPoolAlloc_refuses (h : mp.Refuses malloc) : ∃ mp', memPoolAlloc malloc mp = some (mp',none) := by
  obtain ⟨hf,hcase⟩ := h
  by_cases hgrow : mp.needsAutoGrow = true
  · obtain ⟨mp₁,hg,hf₁⟩ : ∃ mp₁, growNewMem malloc mp (mp.elemCount * 2) = some mp₁ ∧ mp₁.freeList = [] := by
      cases malloc with
      | false => exact ⟨mp,rfl,hf⟩
      | true =>
        have hzero : mp.elemCount * 2 = 0 := by simpa [hgrow] using hcase
        have hlt : (0 : UInt32).toNat * mp.elemSize.toNat < 2 ^ 32 := by simp
        simp only [growNewMem, hzero, Bool.true_eq_false, if_false, if_pos hlt]
        refine ⟨_,rfl,?_⟩
        simp [fillFreeList, hf]
    exact ⟨mp₁,by simp only [memPoolAlloc, hf, hgrow, and_self, if_true, hg, Option.map_some, hf₁]⟩
  · exact ⟨mp,by simp [memPoolAlloc, hf, hgrow]⟩

theorem memPoolAlloc_undefined (hg : ¬mp.Gives malloc) (hr : ¬mp.Refuses malloc) : memPoolAlloc malloc mp = none := by
  have hf : mp.freeList = [] := by
    by_contra hne
    exact hg (Or.inl hne)
  have hcase : mp.needsAutoGrow = true ∧ malloc = true ∧ mp.elemCount * 2 ≠ 0 := by
    by_contra hno
    apply hr
    refine ⟨hf,?_⟩
    simp only [not_and_or, Bool.not_eq_true, not_not] at hno
    exact hno
  obtain ⟨hgrow,hm,hcount⟩ := hcase
  have hwrap : ¬(mp.elemCount * 2).toNat * mp.elemSize.toNat < 2 ^ 32 :=
    fun hlt => hg (Or.inr ⟨hgrow,hm,hcount,hlt⟩)
  simp only [memPoolAlloc, hf, hgrow, and_self, if_true, growNewMem, hm, Bool.true_eq_false, if_false, if_neg hwrap,
    Option.map_none]

end Alloc

/-! ## Where an allocation succeeds

A pool created with 1024 elements triples each time it grows. With elements of at
most 48 bytes that is defined until 1024 * 3 ^ 10 elements are handed out.
-/

structure MemPool.Tripled (mp : MemPool) : Prop where
  count : ∃ k, mp.elemCount.toNat = 1024 * 3 ^ k
  size_le : mp.elemSize.toNat ≤ 48
  grows : mp.needsAutoGrow = true

def poolLimit : ℕ := 1024 * 3 ^ 10

theorem tripled_grow {mp mp' : MemPool} {out : List ℕ} (h : mp.Outstanding out) (ht : mp.Tripled)
    (hg : growNewMem true mp (mp.elemCount * 2) = some mp') : mp'.Tripled := by
  obtain ⟨hlt,-,hcount,hsize,hgrow,-⟩ := growNewMem_some hg
  obtain ⟨k,hk⟩ := ht.count
  obtain ⟨htwo,hsum⟩ := h.tripled hlt
  refine ⟨⟨k + 1,?_⟩,hsize ▸ ht.size_le,hgrow ▸ ht.grows⟩
  rw [hcount, UInt32.toNat_add, htwo, Nat.mod_eq_of_lt (by omega), hk, Nat.pow_succ]
  omega

theorem memPoolAlloc_some {mp : MemPool} {out : List ℕ} (h : mp.Outstanding out) (ht : mp.Tripled)
    (hlen : out.length < poolLimit) :
    ∃ mp' e, memPoolAlloc true mp = some (mp',some e) ∧ mp'.Tripled := by
  cases hf : mp.freeList with
  | cons e next =>
    let mp' : MemPool := { mp with freeList := next }
    exact ⟨mp',e,by simp [memPoolAlloc, hf, mp'],⟨ht.count,ht.size_le,ht.grows⟩⟩
  | nil =>
    obtain ⟨k,hk⟩ := ht.count
    have hlen' := h.length_eq
    rw [hf, List.append_nil] at hlen'
    have hk10 : k < 10 := by
      by_contra hge
      have hpow : 3 ^ 10 ≤ 3 ^ k := Nat.pow_le_pow_right (by omega) (by omega)
      unfold poolLimit at hlen
      omega
    have hpow : 3 ^ k ≤ 3 ^ 9 := Nat.pow_le_pow_right (by omega) (by omega)
    have hc := h.count_lt
    have htwo := twice_toNat hc
    have hmul := Nat.mul_le_mul_left (mp.elemCount * 2).toNat ht.size_le
    have hlt : (mp.elemCount * 2).toNat * mp.elemSize.toNat < 2 ^ 32 := by omega
    obtain ⟨mp₁,hg⟩ : ∃ mp₁, growNewMem true mp (mp.elemCount * 2) = some mp₁ := by
      simp only [growNewMem, Bool.true_eq_false, if_false, if_pos hlt]
      exact ⟨_,rfl⟩
    have h₁ := grown_outstanding h hg
    have hne : mp₁.freeList ≠ [] := by
      intro hnil
      have hl₁ := h₁.length_eq
      obtain ⟨-,-,hcount,-⟩ := growNewMem_some hg
      have hpos : 0 < 3 ^ k := Nat.pow_pos (by omega)
      rw [hnil, List.append_nil, hcount, UInt32.toNat_add, htwo, Nat.mod_eq_of_lt (by omega)] at hl₁
      omega
    obtain ⟨e,next,he⟩ := List.exists_cons_of_ne_nil hne
    have ht₁ := tripled_grow h ht hg
    let mp' : MemPool := { mp₁ with freeList := next }
    exact ⟨mp',e,by simp [memPoolAlloc, hf, ht.grows, hg, he, mp'],⟨ht₁.count,ht₁.size_le,ht₁.grows⟩⟩

theorem memPoolCreate_spec (elemSize : UInt32) (h8 : 8 < elemSize) (hpad : elemSize % 8 = 0)
    (hle : elemSize.toNat ≤ 48) :
    ∃ mp, memPoolCreate true elemSize 1024 true = some mp ∧ mp.Outstanding [] ∧ mp.Tripled := by
  let mp₀ : MemPool := ⟨elemSize,0,[],[],true,1⟩
  have hsize : 8 < elemSize.toNat := UInt32.lt_iff_toNat_lt.mp h8
  have h₀ : mp₀.Outstanding [] := ⟨by simp [mp₀],by simp [mp₀],by simp [mp₀],by simp [mp₀],hsize.le,by simp [mp₀]⟩
  have hlt : (1024 : UInt32).toNat * mp₀.elemSize.toNat < 2 ^ 32 := by
    simp only [UInt32.reduceToNat, mp₀]
    omega
  obtain ⟨mp,hg⟩ : ∃ mp, growNewMem true mp₀ 1024 = some mp := by
    simp only [growNewMem, Bool.true_eq_false, if_false, if_pos hlt]
    exact ⟨_,rfl⟩
  obtain ⟨-,-,hcount,hs,hgrow,-⟩ := growNewMem_some hg
  refine ⟨mp,?_,growNewMem_outstanding h₀ (by simp [mp₀]) hg,⟨0,?_⟩,hs ▸ hle,hgrow⟩
  · have h1024 : (1024 : UInt32) ≠ 0 := by decide
    simpa only [memPoolCreate, if_pos h8, alignPad, if_pos hpad, UInt32.add_zero, if_neg h1024] using hg
  · simp [hcount, mp₀]

end LogStats
