import LogStats.Library.LinkedChain
import Mathlib.Logic.Function.Basic
import Mathlib.Tactic.Linarith

/-! # The doubly linked LRU list of zip_lru_list.c

Addresses are numbers, 0 is NULL. `malloc` returns the next address never used
before, or NULL where the flag says so; `free` leaves the cell's bytes behind.
Failed ASSERTs are `none`. The count is an int; `lruStep` stops where it cannot be counted
up, and the trees never come there: their pools stop growing long before, and a view alone
takes half a megabyte.
-/
namespace LogStats

structure LruNode where
  prev : ℕ
  next : ℕ
  data : ℕ

structure LruList where
  header : ℕ
  tail : ℕ
  count : ℤ
  mem : ℕ → LruNode
  /-- The address the next `malloc` returns. -/
  brk : ℕ

namespace LruList

def prevOf (l : LruList) (a : ℕ) : ℕ := (l.mem a).prev
def nextOf (l : LruList) (a : ℕ) : ℕ := (l.mem a).next
def dataOf (l : LruList) (a : ℕ) : ℕ := (l.mem a).data

def setPrev (l : LruList) (a p : ℕ) : LruList :=
  { l with mem := Function.update l.mem a { l.mem a with prev := p } }

def setNext (l : LruList) (a n : ℕ) : LruList :=
  { l with mem := Function.update l.mem a { l.mem a with next := n } }

variable (l : LruList) (a p n x : ℕ)

@[simp] theorem setPrev_header : (l.setPrev a p).header = l.header := rfl
@[simp] theorem setPrev_tail : (l.setPrev a p).tail = l.tail := rfl
@[simp] theorem setPrev_count : (l.setPrev a p).count = l.count := rfl
@[simp] theorem setPrev_brk : (l.setPrev a p).brk = l.brk := rfl
@[simp] theorem setNext_header : (l.setNext a n).header = l.header := rfl
@[simp] theorem setNext_tail : (l.setNext a n).tail = l.tail := rfl
@[simp] theorem setNext_count : (l.setNext a n).count = l.count := rfl
@[simp] theorem setNext_brk : (l.setNext a n).brk = l.brk := rfl
@[simp] theorem prevOf_setPrev : (l.setPrev a p).prevOf x = if x = a then p else l.prevOf x := by
  by_cases h : x = a <;> simp [setPrev, prevOf, h]
@[simp] theorem nextOf_setPrev : (l.setPrev a p).nextOf x = l.nextOf x := by
  by_cases h : x = a <;> simp [setPrev, nextOf, h]
@[simp] theorem dataOf_setPrev : (l.setPrev a p).dataOf x = l.dataOf x := by
  by_cases h : x = a <;> simp [setPrev, dataOf, h]
@[simp] theorem prevOf_setNext : (l.setNext a n).prevOf x = l.prevOf x := by
  by_cases h : x = a <;> simp [setNext, prevOf, h]
@[simp] theorem nextOf_setNext : (l.setNext a n).nextOf x = if x = a then n else l.nextOf x := by
  by_cases h : x = a <;> simp [setNext, nextOf, h]
@[simp] theorem dataOf_setNext : (l.setNext a n).dataOf x = l.dataOf x := by
  by_cases h : x = a <;> simp [setNext, dataOf, h]

/-- `node->next = header; header->prev = node; header = node`, in both callers. -/
def linkFront (node : ℕ) : LruList := { (l.setNext node l.header).setPrev l.header node with header := node }

@[simp] theorem linkFront_header : (l.linkFront a).header = a := rfl
@[simp] theorem linkFront_tail : (l.linkFront a).tail = l.tail := rfl
@[simp] theorem linkFront_count : (l.linkFront a).count = l.count := rfl
@[simp] theorem linkFront_brk : (l.linkFront a).brk = l.brk := rfl
@[simp] theorem prevOf_linkFront : (l.linkFront a).prevOf x = if x = l.header then a else l.prevOf x := by
  by_cases h : x = l.header <;> by_cases ha : x = a <;> simp_all [linkFront, setPrev, setNext, prevOf]
@[simp] theorem nextOf_linkFront : (l.linkFront a).nextOf x = if x = a then l.header else l.nextOf x := by
  by_cases h : x = l.header <;> by_cases ha : x = a <;> simp_all [linkFront, setPrev, setNext, nextOf]
@[simp] theorem dataOf_linkFront : (l.linkFront a).dataOf x = l.dataOf x := by
  by_cases h : x = l.header <;> by_cases ha : x = a <;> simp_all [linkFront, setPrev, setNext, dataOf]

end LruList

def lruListCreate (mem : ℕ → LruNode) : LruList := ⟨0,0,0,mem,1⟩

/-- `lru_list_insert`: the new node, or nothing the caller may use when malloc fails. -/
def lruListInsert (malloc : Bool) (l : LruList) (data : ℕ) : Option (LruList × Option ℕ) :=
  if data = 0 then none
  else if malloc = false then some (l,none)
  else
    let node := l.brk
    let l := { l with brk := l.brk + 1, mem := Function.update l.mem node ⟨0,0,data⟩ }
    if l.header = 0 ∧ l.tail = 0 then
      some ({ l with header := node, tail := node, count := l.count + 1 },some node)
    else if l.header ≠ 0 ∧ l.tail ≠ 0 then
      some ({ l.linkFront node with count := l.count + 1 },some node)
    else none

def lruListMoveToFirst (l : LruList) (node : ℕ) : Option LruList :=
  if node = 0 then none
  else if node = l.header then some l
  else
    let l := l.setNext (l.prevOf node) (l.nextOf node)
    let l := if node = l.tail then { l with tail := l.prevOf node }
      else l.setPrev (l.nextOf node) (l.prevOf node)
    some ((l.setPrev node 0).linkFront node)

def lruListDelete (l : LruList) (node : ℕ) : Option LruList :=
  if node = 0 then none
  else
    let l := if node = l.header then
        if l.nextOf l.header ≠ 0 then
          { l.setPrev (l.nextOf l.header) 0 with header := l.nextOf l.header }
        else { l with header := 0, tail := 0 }
      else if node = l.tail then
        { l.setNext (l.prevOf node) 0 with tail := l.prevOf node }
      else (l.setNext (l.prevOf node) (l.nextOf node)).setPrev (l.nextOf node) (l.prevOf node)
    some { l with count := l.count - 1 }

/-- `lru_list_remove_tail`: the data of the last node, NULL for the empty list. -/
def lruListRemoveTail (l : LruList) : LruList × ℕ :=
  if l.tail = 0 then (l,0)
  else
    let prevList := l.prevOf l.tail
    let rest := if prevList ≠ 0 then { l.setNext prevList 0 with tail := prevList }
      else { l with header := 0, tail := 0 }
    ({ rest with count := rest.count - 1 },l.dataOf l.tail)

/-! ## The sequence a list stands for -/

namespace LruList

/-- `xs` are the nodes from header to tail. -/
structure Represents (l : LruList) (xs : List ℕ) : Prop where
  nodup : xs.Nodup
  nonnull : ∀ x ∈ xs, x ≠ 0
  below : ∀ x ∈ xs, x < l.brk
  brk_pos : 0 < l.brk
  linked : Linked l.prevOf l.nextOf 0 xs 0
  header_eq : l.header = xs.headD 0
  tail_eq : l.tail = xs.getLastD 0
  count_eq : l.count = xs.length

/-- `Represents` but for where the allocator stands. -/
structure Chain (l : LruList) (xs : List ℕ) : Prop where
  nodup : xs.Nodup
  nonnull : ∀ x ∈ xs, x ≠ 0
  linked : Linked l.prevOf l.nextOf 0 xs 0
  header_eq : l.header = xs.headD 0
  tail_eq : l.tail = xs.getLastD 0
  count_eq : l.count = xs.length

theorem Represents.chain {l : LruList} {xs : List ℕ} (h : l.Represents xs) : l.Chain xs :=
  ⟨h.nodup,h.nonnull,h.linked,h.header_eq,h.tail_eq,h.count_eq⟩

theorem Chain.represents {l : LruList} {xs : List ℕ} (h : l.Chain xs) (hbelow : ∀ x ∈ xs, x < l.brk)
    (hpos : 0 < l.brk) : l.Represents xs :=
  ⟨h.nodup,h.nonnull,hbelow,hpos,h.linked,h.header_eq,h.tail_eq,h.count_eq⟩

/-- The operations leave the data of every other node alone. -/
def SameData (l l' : LruList) (xs : List ℕ) : Prop := ∀ x ∈ xs, l'.dataOf x = l.dataOf x

end LruList

theorem lruListCreate_represents (mem : ℕ → LruNode) : (lruListCreate mem).Represents [] :=
  ⟨List.nodup_nil,by simp,by simp,Nat.one_pos,trivial,rfl,rfl,rfl⟩

open LruList

/-- Linking a node in front of a non-empty chain. -/
theorem linkFront_linked {l : LruList} {xs : List ℕ} {a b : ℕ} (hne : xs ≠ []) (hnd : (a :: xs).Nodup)
    (hl : Linked l.prevOf l.nextOf b xs 0) (hh : l.header = xs.headD 0) (ha : l.prevOf a = 0) :
    Linked (l.linkFront a).prevOf (l.linkFront a).nextOf 0 (a :: xs) 0 := by
  obtain ⟨hax,hndx⟩ := List.nodup_cons.mp hnd
  obtain ⟨y,ys,rfl⟩ := List.exists_cons_of_ne_nil hne
  have hhy : l.header = y := hh
  have hay : a ≠ y := fun h => hax (h ▸ List.mem_cons_self)
  refine ⟨by simp [hhy, hay, ha],by simp [hhy],hl.change hndx ?_ ?_ ?_ ?_⟩
  · intro x hx
    obtain rfl : y = x := Option.some.inj hx
    simp [hhy]
  · intro x _ hx
    have hxy : x ≠ y := by rintro rfl; exact hx rfl
    simp [hhy, hxy]
  · intro x hx
    have hxa : x ≠ a := by rintro rfl; exact hax (List.mem_of_getLast? hx)
    rw [nextOf_linkFront, if_neg hxa]
    exact hl.last_next hx
  · intro x hx _
    have hxa : x ≠ a := by rintro rfl; exact hax hx
    simp [hxa]

theorem LruList.Chain.tail_nonnull {l : LruList} {xs : List ℕ} (h : l.Chain xs) (hne : xs ≠ []) : l.tail ≠ 0 := by
  rcases xs.eq_nil_or_concat with rfl | ⟨ys,y,rfl⟩
  · exact absurd rfl hne
  · rw [h.tail_eq]
    simpa using h.nonnull y (by simp)

theorem LruList.Chain.header_nonnull {l : LruList} {xs : List ℕ} (h : l.Chain xs) (hne : xs ≠ []) :
    l.header ≠ 0 := by
  obtain ⟨y,ys,rfl⟩ := List.exists_cons_of_ne_nil hne
  rw [h.header_eq]
  exact h.nonnull y List.mem_cons_self

/-- The new node may be at any address that is not in use. -/
theorem lruListInsert_chain {l : LruList} {xs : List ℕ} (h : l.Chain xs) (hbrk : l.brk ≠ 0) (hfresh : l.brk ∉ xs)
    {data : ℕ} (hd : data ≠ 0) :
    ∃ l', lruListInsert true l data = some (l',some l.brk) ∧ l'.Chain (l.brk :: xs) ∧ l'.brk = l.brk + 1 ∧
      l'.dataOf l.brk = data ∧ SameData l l' xs := by
  have hnonnull : ∀ x ∈ l.brk :: xs, x ≠ 0 := by
    intro x hx
    rcases List.mem_cons.mp hx with rfl | hx
    · exact hbrk
    · exact h.nonnull x hx
  have hnodup : (l.brk :: xs).Nodup := List.nodup_cons.mpr ⟨hfresh,h.nodup⟩
  by_cases hne : xs = []
  · subst hne
    have hh : l.header = 0 := h.header_eq
    have ht : l.tail = 0 := h.tail_eq
    let l' : LruList := ⟨l.brk,l.brk,l.count + 1,Function.update l.mem l.brk ⟨0,0,data⟩,l.brk + 1⟩
    have hrun : lruListInsert true l data = some (l',some l.brk) := by simp [lruListInsert, hd, hh, ht, l']
    refine ⟨l',hrun,⟨hnodup,hnonnull,?_,rfl,?_,?_⟩,rfl,?_,?_⟩
    · simp [l', prevOf, nextOf]
    · simp [l']
    · simp [l', h.count_eq]
    · simp [l', dataOf]
    · simp [SameData]
  · have hh := h.header_nonnull hne
    have ht := h.tail_nonnull hne
    let l₁ : LruList := { l with brk := l.brk + 1, mem := Function.update l.mem l.brk ⟨0,0,data⟩ }
    let l' : LruList := { l₁.linkFront l.brk with count := l.count + 1 }
    have hrun : lruListInsert true l data = some (l',some l.brk) := by
      simp [lruListInsert, hd, hh, ht, l', l₁]
    have hother : ∀ x ∈ xs, l₁.mem x = l.mem x := by
      intro x hx
      have hne : x ≠ l.brk := by rintro rfl; exact hfresh hx
      simp [l₁, hne]
    have hlinked : Linked l₁.prevOf l₁.nextOf 0 xs 0 := h.linked.congr
      (fun x hx => congrArg LruNode.prev (hother x hx)) (fun x hx => congrArg LruNode.next (hother x hx))
    refine ⟨l',hrun,⟨hnodup,hnonnull,?_,rfl,?_,?_⟩,rfl,?_,?_⟩
    · exact linkFront_linked hne hnodup hlinked h.header_eq (by simp [l₁, prevOf])
    · obtain ⟨y,ys,rfl⟩ := List.exists_cons_of_ne_nil hne
      simpa [l', l₁] using h.tail_eq
    · simp [l', h.count_eq]
    · change (l₁.linkFront l.brk).dataOf l.brk = data
      rw [dataOf_linkFront]
      simp [l₁, dataOf]
    · intro x hx
      change (l₁.linkFront l.brk).dataOf x = l.dataOf x
      rw [dataOf_linkFront]
      exact congrArg LruNode.data (hother x hx)

theorem lruListInsert_spec {l : LruList} {xs : List ℕ} (h : l.Represents xs) {data : ℕ} (hd : data ≠ 0) :
    ∃ l', lruListInsert true l data = some (l',some l.brk) ∧ l'.Represents (l.brk :: xs) ∧
      l'.dataOf l.brk = data ∧ SameData l l' xs := by
  obtain ⟨l',hrun,hchain,hbrk,hdata,hsame⟩ :=
    lruListInsert_chain h.chain h.brk_pos.ne' (fun hm => (h.below _ hm).false) hd
  refine ⟨l',hrun,hchain.represents ?_ (by omega),hdata,hsame⟩
  intro x hx
  rcases List.mem_cons.mp hx with rfl | hx
  · omega
  · have := h.below x hx
    omega

/-- `l'` is `l` with the node between `xs` and `ys` taken out of the links; the count is still to be set. -/
structure LruList.Unlinked (l l' : LruList) (xs ys : List ℕ) : Prop where
  header_eq : l'.header = (xs ++ ys).headD 0
  tail_eq : l'.tail = (xs ++ ys).getLastD 0
  count_eq : l'.count = l.count
  brk_eq : l'.brk = l.brk
  data_eq : l'.dataOf = l.dataOf
  prev_eq : ∀ x, l'.prevOf x = if ys.head? = some x then xs.getLastD 0 else l.prevOf x
  next_eq : ∀ x, l'.nextOf x = if xs.getLast? = some x then ys.headD 0 else l.nextOf x

/-- Only the sequence and the links change when a node leaves a list. -/
theorem LruList.Unlinked.chain {l l' : LruList} {xs ys : List ℕ} {a : ℕ} (hu : l.Unlinked l' xs ys)
    (h : l.Chain (xs ++ a :: ys)) : LruList.Chain { l' with count := l'.count - 1 } (xs ++ ys) := by
  have hsub : ∀ x ∈ xs ++ ys, x ∈ xs ++ a :: ys := by
    intro x hx
    rcases List.mem_append.mp hx with hx | hx
    · exact List.mem_append_left _ hx
    · exact List.mem_append_right _ (List.mem_cons_of_mem _ hx)
  refine ⟨?_,fun x hx => h.nonnull x (hsub x hx),?_,hu.header_eq,hu.tail_eq,?_⟩
  · exact h.nodup.sublist (List.Sublist.append_left (List.sublist_cons_self a ys) xs)
  · exact h.linked.unlink h.nodup (fun x hx => (hu.prev_eq x).trans (if_pos hx))
      (fun x _ hx => (hu.prev_eq x).trans (if_neg hx)) (fun x hx => (hu.next_eq x).trans (if_pos hx))
      (fun x _ hx => (hu.next_eq x).trans (if_neg hx))
  · change l'.count - 1 = _
    rw [hu.count_eq, h.count_eq]
    simp only [List.length_append, List.length_cons]
    omega

/-! The four ways in which a node is unlinked. -/

section Unlinking
variable {l : LruList} {xs ys : List ℕ} {a x y : ℕ}

theorem unlinked_only (l : LruList) : l.Unlinked { l with header := 0, tail := 0 } [] [] where
  header_eq := rfl
  tail_eq := rfl
  count_eq := rfl
  brk_eq := rfl
  data_eq := rfl
  prev_eq _ := rfl
  next_eq _ := rfl

theorem unlinked_first (h : l.Chain (a :: y :: ys)) : l.Unlinked { l.setPrev y 0 with header := y } [] (y :: ys) where
  header_eq := rfl
  tail_eq := by
    change l.tail = _
    rw [h.tail_eq]
    simp
  count_eq := rfl
  brk_eq := rfl
  data_eq := funext (dataOf_setPrev l y 0)
  prev_eq z := by
    change (l.setPrev y 0).prevOf z = _
    simp [eq_comm]
  next_eq z := nextOf_setPrev l y 0 z

theorem unlinked_last (h : l.Chain (xs.concat x ++ [a])) : l.Unlinked { l.setNext x 0 with tail := x } (xs.concat x) [] where
  header_eq := by
    change l.header = _
    rw [h.header_eq]
    cases xs <;> simp
  tail_eq := by simp
  count_eq := rfl
  brk_eq := rfl
  data_eq := funext (dataOf_setNext l x 0)
  prev_eq z := prevOf_setNext l x 0 z
  next_eq z := by
    change (l.setNext x 0).nextOf z = _
    simp [eq_comm]

theorem unlinked_middle (h : l.Chain (xs.concat x ++ a :: y :: ys)) :
    l.Unlinked ((l.setNext x y).setPrev y x) (xs.concat x) (y :: ys) where
  header_eq := by
    change l.header = _
    rw [h.header_eq]
    cases xs <;> simp
  tail_eq := by
    change l.tail = _
    rw [h.tail_eq]
    simp
  count_eq := rfl
  brk_eq := rfl
  data_eq := by
    funext z
    simp
  prev_eq z := by simp [eq_comm]
  next_eq z := by simp [eq_comm]

end Unlinking

/-- The links around a node of a list. -/
theorem LruList.Chain.around {l : LruList} {xs ys : List ℕ} {a : ℕ} (h : l.Chain (xs ++ a :: ys)) :
    l.prevOf a = xs.getLastD 0 ∧ l.nextOf a = ys.headD 0 := by
  obtain ⟨-,hp,hn,-⟩ := (linked_middle 0 xs a ys 0).mp h.linked
  exact ⟨hp,hn⟩

theorem LruList.Chain.header_ne {l : LruList} {xs ys : List ℕ} {a : ℕ} (h : l.Chain (xs ++ a :: ys))
    (hne : xs ≠ []) : a ≠ l.header := by
  obtain ⟨x,xs,rfl⟩ := List.exists_cons_of_ne_nil hne
  have hx : l.header = x := h.header_eq
  rw [hx]
  rintro rfl
  exact (List.nodup_cons.mp h.nodup).1 (by simp)

theorem LruList.Chain.tail_ne {l : LruList} {xs ys : List ℕ} {a : ℕ} (h : l.Chain (xs ++ a :: ys))
    (hne : ys ≠ []) : a ≠ l.tail := by
  rcases ys.eq_nil_or_concat with rfl | ⟨ys,y,rfl⟩
  · exact absurd rfl hne
  · have happ : xs ++ a :: ys.concat y = (xs ++ a :: ys) ++ [y] := by simp
    have hy : l.tail = y := by
      rw [h.tail_eq, happ, List.getLastD_concat]
    rw [hy]
    rintro rfl
    exact (List.nodup_cons.mp (List.nodup_append.mp h.nodup).2.1).1 (by simp)

theorem lruListRemoveTail_chain {l : LruList} {xs : List ℕ} {a : ℕ} (h : l.Chain (xs ++ [a])) :
    ∃ l', lruListRemoveTail l = (l',l.dataOf a) ∧ l'.Chain xs ∧ l'.brk = l.brk ∧ l'.dataOf = l.dataOf := by
  have htail : l.tail = a := by simpa using h.tail_eq
  have ha : a ≠ 0 := h.nonnull a (by simp)
  obtain ⟨hprev,-⟩ := h.around
  have hrun : ∃ l₁, lruListRemoveTail l = ({ l₁ with count := l₁.count - 1 },l.dataOf a) ∧ l.Unlinked l₁ xs [] := by
    rcases xs.eq_nil_or_concat with rfl | ⟨xs,x,rfl⟩
    · have hp : l.prevOf a = 0 := hprev
      exact ⟨_,by simp [lruListRemoveTail, htail, ha, hp],unlinked_only l⟩
    · have hx : x ≠ 0 := h.nonnull x (by simp)
      have hp : l.prevOf a = x := by simpa using hprev
      exact ⟨_,by simp [lruListRemoveTail, htail, ha, hp, hx],unlinked_last h⟩
  obtain ⟨l₁,hrun,hu⟩ := hrun
  have hchain := hu.chain h
  rw [List.append_nil] at hchain
  exact ⟨_,hrun,hchain,hu.brk_eq,hu.data_eq⟩

theorem lruListRemoveTail_nil {l : LruList} (h : l.Chain []) : lruListRemoveTail l = (l,0) := by
  have ht : l.tail = 0 := h.tail_eq
  simp [lruListRemoveTail, ht]

theorem lruListDelete_unlinked {l : LruList} {xs ys : List ℕ} {a : ℕ} (h : l.Chain (xs ++ a :: ys)) :
    ∃ l₁, lruListDelete l a = some { l₁ with count := l₁.count - 1 } ∧ l.Unlinked l₁ xs ys := by
  have ha : a ≠ 0 := h.nonnull a (by simp)
  obtain ⟨hprev,hnext⟩ := h.around
  rcases xs.eq_nil_or_concat with rfl | ⟨xs,x,rfl⟩
  · have hhead : l.header = a := h.header_eq
    cases ys with
    | nil =>
      have hn : l.nextOf a = 0 := hnext
      exact ⟨_,by simp [lruListDelete, ha, hhead, hn],unlinked_only l⟩
    | cons y ys =>
      have hn : l.nextOf a = y := hnext
      have hy : y ≠ 0 := h.nonnull y (by simp)
      exact ⟨_,by simp [lruListDelete, ha, hhead, hn, hy],unlinked_first h⟩
  · have hx : l.prevOf a = x := by simpa using hprev
    have hhead : a ≠ l.header := h.header_ne (by simp)
    cases ys with
    | nil =>
      have htail : l.tail = a := by simpa using h.tail_eq
      exact ⟨_,by simp [lruListDelete, ha, hhead, htail, hx],unlinked_last h⟩
    | cons y ys =>
      have hn : l.nextOf a = y := hnext
      have htail : a ≠ l.tail := h.tail_ne (by simp)
      exact ⟨_,by simp [lruListDelete, ha, hhead, htail, hx, hn],unlinked_middle h⟩

theorem lruListDelete_chain {l : LruList} {xs ys : List ℕ} {a : ℕ} (h : l.Chain (xs ++ a :: ys)) :
    ∃ l', lruListDelete l a = some l' ∧ l'.Chain (xs ++ ys) ∧ l'.brk = l.brk ∧ l'.dataOf = l.dataOf := by
  obtain ⟨l₁,hrun,hu⟩ := lruListDelete_unlinked h
  exact ⟨_,hrun,hu.chain h,hu.brk_eq,hu.data_eq⟩

/-- A node that is not the first is unlinked, and then put in front. -/
theorem lruListMoveToFirst_unlinked {l : LruList} {xs ys : List ℕ} {a : ℕ} (h : l.Chain (xs ++ a :: ys))
    (hxs : xs ≠ []) : ∃ l₁, lruListMoveToFirst l a = some ((l₁.setPrev a 0).linkFront a) ∧ l.Unlinked l₁ xs ys := by
  have ha : a ≠ 0 := h.nonnull a (by simp)
  have hhead : a ≠ l.header := h.header_ne hxs
  obtain ⟨hprev,hnext⟩ := h.around
  obtain ⟨xs,x,rfl⟩ := xs.eq_nil_or_concat.resolve_left hxs
  have hx : l.prevOf a = x := by simpa using hprev
  cases ys with
  | nil =>
    have htail : l.tail = a := by simpa using h.tail_eq
    have hn : l.nextOf a = 0 := hnext
    exact ⟨_,by simp [lruListMoveToFirst, ha, hhead, htail, hx, hn],unlinked_last h⟩
  | cons y ys =>
    have hn : l.nextOf a = y := hnext
    have htail : a ≠ l.tail := h.tail_ne (by simp)
    have hax : a ≠ x := by
      rintro rfl
      exact (List.nodup_append.mp h.nodup).2.2 a (by simp) a List.mem_cons_self rfl
    exact ⟨_,by simp [lruListMoveToFirst, ha, hhead, htail, hx, hn, hax],unlinked_middle h⟩

theorem lruListMoveToFirst_chain {l : LruList} {xs ys : List ℕ} {a : ℕ} (h : l.Chain (xs ++ a :: ys)) :
    ∃ l', lruListMoveToFirst l a = some l' ∧ l'.Chain (a :: (xs ++ ys)) ∧ l'.brk = l.brk ∧ l'.dataOf = l.dataOf := by
  have ha : a ≠ 0 := h.nonnull a (by simp)
  by_cases hxs : xs = []
  · subst hxs
    have hhead : l.header = a := h.header_eq
    exact ⟨l,by simp [lruListMoveToFirst, ha, hhead],h,rfl,rfl⟩
  · obtain ⟨l₁,hrun,hu⟩ := lruListMoveToFirst_unlinked h hxs
    have hrest := hu.chain h
    have hnd : (a :: (xs ++ ys)).Nodup := (List.perm_middle.nodup_iff).mp h.nodup
    have hmem : ∀ z ∈ a :: (xs ++ ys), z ∈ xs ++ a :: ys := fun z hz => List.perm_middle.mem_iff.mpr hz
    have hne : xs ++ ys ≠ [] := fun hnil => hxs (List.append_eq_nil_iff.mp hnil).1
    have hlinked : Linked (l₁.setPrev a 0).prevOf (l₁.setPrev a 0).nextOf 0 (xs ++ ys) 0 := by
      refine hrest.linked.congr (fun z hz => ?_) (fun z _ => nextOf_setPrev l₁ a 0 z)
      have hza : z ≠ a := by
        rintro rfl
        exact (List.nodup_cons.mp hnd).1 hz
      rw [prevOf_setPrev, if_neg hza]
      rfl
    refine ⟨_,hrun,⟨hnd,fun z hz => h.nonnull z (hmem z hz),?_,rfl,?_,?_⟩,hu.brk_eq,?_⟩
    · exact linkFront_linked hne hnd hlinked hu.header_eq (by simp)
    · change l₁.tail = _
      rw [hu.tail_eq]
      obtain ⟨b,bs,hcons⟩ := List.exists_cons_of_ne_nil hne
      rw [hcons, List.getLastD_cons, List.getLastD_cons, List.getLastD_cons]
    · change l₁.count = _
      rw [hu.count_eq, h.count_eq]
      simp
      omega
    · funext z
      rw [dataOf_linkFront, dataOf_setPrev, hu.data_eq]

/-! What stays in a list stays below the allocator. -/

theorem LruList.Represents.of_chain {l l' : LruList} {xs ys : List ℕ} (h : l.Represents xs) (hc : l'.Chain ys)
    (hbrk : l'.brk = l.brk) (hsub : ∀ y ∈ ys, y ∈ xs) : l'.Represents ys :=
  hc.represents (fun y hy => hbrk ▸ h.below y (hsub y hy)) (hbrk ▸ h.brk_pos)

theorem lruListRemoveTail_spec {l : LruList} {xs : List ℕ} {a : ℕ} (h : l.Represents (xs ++ [a])) :
    ∃ l', lruListRemoveTail l = (l',l.dataOf a) ∧ l'.Represents xs ∧ l'.dataOf = l.dataOf := by
  obtain ⟨l',hrun,hchain,hbrk,hdata⟩ := lruListRemoveTail_chain h.chain
  exact ⟨l',hrun,h.of_chain hchain hbrk (fun y hy => List.mem_append_left _ hy),hdata⟩

theorem lruListDelete_spec {l : LruList} {xs ys : List ℕ} {a : ℕ} (h : l.Represents (xs ++ a :: ys)) :
    ∃ l', lruListDelete l a = some l' ∧ l'.Represents (xs ++ ys) ∧ l'.dataOf = l.dataOf := by
  obtain ⟨l',hrun,hchain,hbrk,hdata⟩ := lruListDelete_chain h.chain
  refine ⟨l',hrun,h.of_chain hchain hbrk ?_,hdata⟩
  intro y hy
  exact List.perm_middle.symm.subset (List.mem_cons_of_mem _ hy)

theorem lruListMoveToFirst_spec {l : LruList} {xs ys : List ℕ} {a : ℕ} (h : l.Represents (xs ++ a :: ys)) :
    ∃ l', lruListMoveToFirst l a = some l' ∧ l'.Represents (a :: (xs ++ ys)) ∧ l'.dataOf = l.dataOf := by
  obtain ⟨l',hrun,hchain,hbrk,hdata⟩ := lruListMoveToFirst_chain h.chain
  exact ⟨l',hrun,h.of_chain hchain hbrk (fun y hy => List.perm_middle.symm.subset hy),hdata⟩

end LogStats
