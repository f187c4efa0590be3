import LogStats.Containers.LruList
import LogStats.Library.Recency
import Mathlib.Data.Fintype.EquivFin

/-! # The LRU list as a sequence

The nodes with their data from header to tail are what a list stands for. Each
operation acts on that sequence, whatever address that is not in use malloc returns.
The count is an int, so that no list has 2^31 nodes.
-/
namespace LogStats

open LruList

inductive LruOp where
  | insert (data : ℕ)
  | moveToFirst (node : ℕ)
  | delete (node : ℕ)
  | removeTail

/-- The greatest int. -/
def intMax : ℤ := 2 ^ 31 - 1

/-- A call with what it returns: a new node, or the data of the last one, or nothing. -/
def lruStep (l : LruList) : LruOp → Option (LruList × ℕ)
  | .insert data =>
    -- the greatest int cannot be counted up
    if l.count = intMax then none
    else (lruListInsert true l data).bind fun p => p.2.map fun node => (p.1,node)
  | .moveToFirst node => (lruListMoveToFirst l node).map fun l => (l,0)
  | .delete node => (lruListDelete l node).map fun l => (l,0)
  | .removeTail => some (lruListRemoveTail l)

namespace LruOp

/-- What the caller owes: a node that is in the list, and data. -/
def Live (seq : List (ℕ × ℕ)) : LruOp → Prop
  | insert data => data ≠ 0
  | moveToFirst node => node ∈ seq.map Prod.fst
  | delete node => node ∈ seq.map Prod.fst
  | removeTail => True

/-- Whether the count of an int has room for the call. -/
def Fits (seq : List (ℕ × ℕ)) : LruOp → Prop
  | insert _ => (seq.length : ℤ) < intMax
  | moveToFirst _ => True
  | delete _ => True
  | removeTail => True

/-- The sequence after a call that returned `r`. -/
def apply (seq : List (ℕ × ℕ)) (r : ℕ) : LruOp → List (ℕ × ℕ)
  | insert data => (r,data) :: seq
  | moveToFirst node => toFront node seq
  | delete node => without node seq
  | removeTail => seq.dropLast

/-- A new node is none of the others; the tail removed gives its data, and an empty list NULL. -/
def Returns (seq : List (ℕ × ℕ)) (r : ℕ) : LruOp → Prop
  | insert _ => r ≠ 0 ∧ r ∉ seq.map Prod.fst
  | moveToFirst _ => True
  | delete _ => True
  | removeTail => r = (seq.getLast?.map Prod.snd).getD 0

end LruOp

/-- The lists reachable with the sequences they stand for. -/
inductive LruReach : LruList → List (ℕ × ℕ) → Prop
  | create (mem : ℕ → LruNode) : LruReach (lruListCreate mem) []
  | step {l l' : LruList} {seq : List (ℕ × ℕ)} {op : LruOp} {b r : ℕ} (h : LruReach l seq)
      (hb : b ≠ 0) (hfree : b ∉ seq.map Prod.fst) (hlive : op.Live seq)
      (hs : lruStep { l with brk := b } op = some (l',r)) : LruReach l' (op.apply seq r)

/-- Read along either link the list is the sequence. -/
structure LruList.Shows (l : LruList) (seq : List (ℕ × ℕ)) : Prop where
  forward : ∀ n, seq.length ≤ n → follow l.nextOf 0 n l.header = seq.map Prod.fst
  backward : ∀ n, seq.length ≤ n → follow l.prevOf 0 n l.tail = (seq.map Prod.fst).reverse
  data_eq : ∀ p ∈ seq, l.dataOf p.1 = p.2
  count_eq : l.count = seq.length
  count_le : l.count ≤ intMax
  header_null : l.header = 0 ↔ seq = []
  tail_null : l.tail = 0 ↔ seq = []

/-- What every operation keeps. -/
structure LruList.Keeps (l : LruList) (seq : List (ℕ × ℕ)) : Prop where
  chain : l.Chain (seq.map Prod.fst)
  data_eq : ∀ p ∈ seq, l.dataOf p.1 = p.2
  length_le : (seq.length : ℤ) ≤ intMax

namespace LruList

variable {l : LruList} {seq : List (ℕ × ℕ)}

theorem Keeps.count_length (h : l.Keeps seq) : l.count = seq.length := by
  rw [h.chain.count_eq, List.length_map]

theorem Keeps.shows (h : l.Keeps seq) : l.Shows seq where
  forward n hn := by
    rw [h.chain.header_eq]
    exact follow_next h.chain.linked h.chain.nonnull (by simpa using hn)
  backward n hn := by
    rw [h.chain.tail_eq]
    exact follow_prev h.chain.linked h.chain.nonnull (by simpa using hn)
  data_eq := h.data_eq
  count_eq := h.count_length
  count_le := h.count_length ▸ h.length_le
  header_null := by
    constructor
    · intro hh
      by_contra hne
      exact h.chain.header_nonnull (by simpa using hne) hh
    · rintro rfl
      exact h.chain.header_eq
  tail_null := by
    constructor
    · intro ht
      by_contra hne
      exact h.chain.tail_nonnull (by simpa using hne) ht
    · rintro rfl
      exact h.chain.tail_eq

theorem Keeps.create (mem : ℕ → LruNode) : (lruListCreate mem).Keeps [] :=
  ⟨(lruListCreate_represents mem).chain,fun _ hp => absurd hp List.not_mem_nil,by decide⟩

/-- A node in the list splits the sequence. -/
theorem exists_middle {a : ℕ} (h : a ∈ seq.map Prod.fst) : ∃ xs b ys, seq = xs ++ (a,b) :: ys := by
  obtain ⟨⟨a,b⟩,hp,rfl⟩ := List.mem_map.mp h
  obtain ⟨xs,ys,hseq⟩ := List.append_of_mem hp
  exact ⟨xs,b,ys,hseq⟩

/-- The next node may be anywhere that is not in use. -/
theorem Keeps.step (h : l.Keeps seq) {b : ℕ} (hb : b ≠ 0) (hfree : b ∉ seq.map Prod.fst) {op : LruOp}
    (hlive : op.Live seq) (hfits : op.Fits seq) : ∃ l' r, lruStep { l with brk := b } op = some (l',r) ∧ op.Returns seq r ∧
      l'.Keeps (op.apply seq r) := by
  have hlength := h.length_le
  have hc : ({ l with brk := b } : LruList).Chain (seq.map Prod.fst) :=
    ⟨h.chain.nodup,h.chain.nonnull,h.chain.linked,h.chain.header_eq,h.chain.tail_eq,h.chain.count_eq⟩
  cases op with
  | insert data =>
    obtain ⟨l',hrun,hchain,-,hdata,hsame⟩ := lruListInsert_chain hc hb hfree hlive
    have hroom : l.count ≠ intMax := h.count_length ▸ hfits.ne
    refine ⟨l',b,?_,⟨hb,hfree⟩,hchain,?_,?_⟩
    · simp [lruStep, hrun, hroom]
    · intro p hp
      rcases List.mem_cons.mp hp with rfl | hp
      · exact hdata
      · exact (hsame p.1 (List.mem_map_of_mem hp)).trans (h.data_eq p hp)
    · rw [LruOp.apply, List.length_cons, Nat.cast_succ]
      exact hfits
  | moveToFirst node =>
    obtain ⟨xs,v,ys,rfl⟩ := exists_middle hlive
    have hnd := h.chain.nodup
    rw [List.map_append, List.map_cons] at hc
    obtain ⟨l',hrun,hchain,-,hdata⟩ := lruListMoveToFirst_chain hc
    refine ⟨l',0,by simp [lruStep, hrun],trivial,?_⟩
    rw [LruOp.apply, toFront_middle hnd]
    refine ⟨by simpa using hchain,fun p hp => ?_,by rwa [← List.perm_middle.length_eq]⟩
    rw [hdata]
    exact h.data_eq p (List.perm_middle.symm.subset hp)
  | delete node =>
    obtain ⟨xs,v,ys,rfl⟩ := exists_middle hlive
    have hnd := h.chain.nodup
    rw [List.map_append, List.map_cons] at hc
    obtain ⟨l',hrun,hchain,-,hdata⟩ := lruListDelete_chain hc
    refine ⟨l',0,by simp [lruStep, hrun],trivial,?_⟩
    rw [LruOp.apply, without_middle hnd]
    refine ⟨by simpa using hchain,fun p hp => ?_,?_⟩
    · rw [hdata]
      exact h.data_eq p (List.perm_middle.symm.subset (List.mem_cons_of_mem _ hp))
    · rw [List.perm_middle.length_eq, List.length_cons] at hlength
      omega
  | removeTail =>
    rcases seq.eq_nil_or_concat with rfl | ⟨xs,⟨a,v⟩,rfl⟩
    · refine ⟨_,0,?_,rfl,hc,h.data_eq,hlength⟩
      rw [lruStep, lruListRemoveTail_nil hc]
    · rw [List.concat_eq_append, List.map_append] at hc
      obtain ⟨l',hrun,hchain,-,hdata⟩ := lruListRemoveTail_chain hc
      have hv : l.dataOf a = v := h.data_eq (a,v) (by simp)
      refine ⟨l',v,?_,by simp [LruOp.Returns],?_⟩
      · rw [lruStep, hrun]
        exact congrArg (fun r => some (l',r)) hv
      · rw [LruOp.apply, List.concat_eq_append, List.dropLast_concat]
        refine ⟨hchain,fun p hp => ?_,?_⟩
        · rw [hdata]
          exact h.data_eq p (by simp [hp])
        · rw [List.concat_eq_append, List.length_append, List.length_singleton] at hlength
          omega

/-- A call that is answered had room. -/
theorem Keeps.fits (h : l.Keeps seq) {b : ℕ} {op : LruOp} {p : LruList × ℕ}
    (hs : lruStep { l with brk := b } op = some p) : op.Fits seq := by
  cases op with
  | insert data =>
    have hroom : l.count ≠ intMax := by
      intro hfull
      rw [lruStep, if_pos hfull] at hs
      cases hs
    rw [h.count_length] at hroom
    exact lt_of_le_of_ne h.length_le hroom
  | moveToFirst => trivial
  | delete => trivial
  | removeTail => trivial

end LruList

theorem LruReach.keeps {l : LruList} {seq : List (ℕ × ℕ)} (h : LruReach l seq) : l.Keeps seq := by
  induction h with
  | create mem => exact Keeps.create mem
  | step _ hb hfree hlive hs ih =>
    obtain ⟨l',r,hrun,-,hkeep⟩ := ih.step hb hfree hlive (ih.fits hs)
    obtain ⟨rfl,rfl⟩ := Prod.mk.inj (Option.some_inj.mp (hs.symm.trans hrun))
    exact hkeep

/-- Every reachable list shows its sequence, and every call on it that its count has room for
does to the sequence what it says. -/
theorem lruReach_shows {l : LruList} {seq : List (ℕ × ℕ)} (h : LruReach l seq) :
    l.Shows seq ∧ ∀ op b, op.Live seq → op.Fits seq → b ≠ 0 → b ∉ seq.map Prod.fst →
      ∃ l' r, lruStep { l with brk := b } op = some (l',r) ∧ op.Returns seq r ∧ l'.Shows (op.apply seq r) := by
  refine ⟨h.keeps.shows,fun op b hlive hfits hb hfree => ?_⟩
  obtain ⟨l',r,hs,hret,hkeep⟩ := h.keeps.step hb hfree hlive hfits
  exact ⟨l',r,hs,hret,hkeep.shows⟩

/-- Two nodes, of which the older one is moved to the front and the other one removed. -/
theorem lruReach_shows_moved : ∃ l, LruReach l [(1,7)] ∧ l.Shows [(1,7)] := by
  have hone := @LruReach.step _ _ _ (.insert 7) 1 _ (LruReach.create (fun _ => ⟨0,0,0⟩)) one_ne_zero
    List.not_mem_nil (show (7 : ℕ) ≠ 0 by decide) rfl
  have htwo := @LruReach.step _ _ _ (.insert 8) 2 _ hone two_ne_zero (by decide) (show (8 : ℕ) ≠ 0 by decide) rfl
  have hmoved := @LruReach.step _ _ _ (.moveToFirst 1) 3 _ htwo three_ne_zero (by decide)
    (List.mem_cons_of_mem _ List.mem_cons_self) rfl
  have hrest := @LruReach.step _ _ _ .removeTail 3 _ hmoved three_ne_zero (by decide) trivial rfl
  exact ⟨_,hrest,(lruReach_shows hrest).1⟩

/-- There are lists of any length that the count can show. -/
theorem lruReach_length (n : ℕ) (hn : (n : ℤ) ≤ intMax) : ∃ l seq, LruReach l seq ∧ seq.length = n := by
  induction n with
  | zero => exact ⟨_,[],LruReach.create fun _ => ⟨0,0,0⟩,rfl⟩
  | succ n ih =>
    rw [Nat.cast_succ] at hn
    obtain ⟨l,seq,hreach,hlen⟩ := ih (by omega)
    obtain ⟨b,hb⟩ := Infinite.exists_notMem_finset (insert 0 (seq.map Prod.fst).toFinset)
    rw [Finset.mem_insert, List.mem_toFinset, not_or] at hb
    have hfits : (LruOp.insert 1).Fits seq := by
      rw [LruOp.Fits, hlen]
      omega
    have hlive : (LruOp.insert 1).Live seq := one_ne_zero
    obtain ⟨l',r,hs,-,-⟩ := hreach.keeps.step hb.1 hb.2 hlive hfits
    exact ⟨l',_,hreach.step hb.1 hb.2 hlive hs,congrArg (· + 1) hlen⟩

/-- Behind 2^31 - 1 nodes none can be put in front. -/
theorem lruReach_full : ∃ l seq, LruReach l seq ∧ ∀ data b, lruStep { l with brk := b } (.insert data) = none := by
  obtain ⟨l,seq,hreach,hlen⟩ := lruReach_length (2 ^ 31 - 1) (by decide)
  refine ⟨l,seq,hreach,fun data b => ?_⟩
  have hfull : l.count = intMax := by
    rw [hreach.keeps.count_length, hlen]
    rfl
  rw [lruStep, if_pos hfull]

end LogStats
