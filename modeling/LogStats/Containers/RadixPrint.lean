import LogStats.Containers.RadixMap
import LogStats.Containers.RadixSubnet
import LogStats.Library.WordWalk

/-! # Printing a radix tree and reading it back

`radix_tree_print` writes a line for each node with a value: `ip is`, the subnet, eight
dashes and what a function writes of the value. `radix_tree_walk` calls a function on each
value. From the subnets of the lines with their values, given to `radix_tree_insert_subnet` in
any order, a new tree has the same prefixes. Every allocation succeeds in the runs.
-/
namespace LogStats

variable {V : Type*}

/-- A line that is printed: the address in the order of the host, and what `func` is called on. -/
structure RadixLine (V : Type*) where
  ip : BitVec 32
  mask : ℕ
  value : V

/-- The part `%s/%d` of a line, for `ip_addr` and `mask`. -/
def RadixLine.subnet (line : RadixLine V) : CString :=
  inetNtop (storeWord (htonl (UInt32.ofBitVec line.ip))) ++ ⟨[47],by decide⟩ ++ decimal (Int32.ofNat line.mask)

/-- `ip` and the line of a node; the shift by 32 for a value at the root is `none`. -/
def radixTreePrintLine (value : Option V) (ip : BitVec 32) (mask : ℕ) : Option (BitVec 32 × List (RadixLine V)) :=
  match value with
  | none => some (ip,[])
  | some value =>
    if mask = 0 then none
    else
      let code : BitVec 32 := -1
      let ip := ip &&& code <<< (32 - mask)
      some (ip,[⟨ip,mask,value⟩])

/-- The lines below a node, down to a depth. -/
def radixTreePrintHelper (t : RadixTree V) : ℕ → ℕ → BitVec 32 → ℕ → Option (List (RadixLine V))
  | 0, _, _, _ => none
  | fuel + 1, node, ip, mask =>
    (radixTreePrintLine (t.node node).value ip mask).bind fun (ip,line) =>
    (match (t.node node).left with
      | none => some []
      | some left => radixTreePrintHelper t fuel left ip (mask + 1)).bind fun left =>
    (match (t.node node).right with
      | none => some []
      | some right => radixTreePrintHelper t fuel right (ip ||| topBit >>> mask) (mask + 1)).bind fun right =>
    some (line ++ (left ++ right))

def radixTreePrint (t : RadixTree V) (fuel : ℕ) : Option (List (RadixLine V)) := radixTreePrintHelper t fuel t.root 0 0

/-- The values in the order in which `value_function` is called on them. -/
def radixTreeWalkHelper (t : RadixTree V) : ℕ → ℕ → Option (List V)
  | 0, _ => none
  | fuel + 1, node =>
    (match (t.node node).left with
      | none => some []
      | some left => radixTreeWalkHelper t fuel left).bind fun left =>
    (match (t.node node).right with
      | none => some []
      | some right => radixTreeWalkHelper t fuel right).bind fun right =>
    some (left ++ ((t.node node).value.toList ++ right))

def radixTreeWalk (t : RadixTree V) (fuel : ℕ) : Option (List V) := radixTreeWalkHelper t fuel t.root

/-! ## The key of a word -/

/-- The first address that starts with a word. -/
def keyOf (w : List Bool) : BitVec 32 := BitVec.ofNat 32 (blockFirst 32 w)

section KeyOf
variable {w : List Bool} {b : Bool}

theorem toNat_keyOf (h : w.length ≤ 32) : (keyOf w).toNat = blockFirst 32 w := by
  have hlt := (block_within (n := 32) (w := []) (u := w) (by simpa using h)).2
  rw [List.nil_append, show blockFirst 32 [] = 0 from rfl, show blockSize 32 [] = 2 ^ 32 from rfl, Nat.zero_add] at hlt
  have hpos := @blockSize_pos w 32
  rw [keyOf, BitVec.toNat_ofNat]
  exact Nat.mod_eq_of_lt (by omega)

theorem keyOf_nil : keyOf [] = 0 := rfl

theorem keyOf_false (h : w.length < 32) : keyOf (w ++ [false]) = keyOf w := by
  rw [keyOf, keyOf, blockFirst_snoc h, Bool.toNat_false, Nat.zero_mul, Nat.add_zero]

theorem keyOf_true (h : w.length < 32) : keyOf (w ++ [true]) = keyOf w ||| topBit >>> w.length := by
  apply BitVec.eq_of_toNat_eq
  have hsize : blockSize 32 (w ++ [true]) = 2 ^ (31 - w.length) := by
    rw [blockSize, List.length_append, List.length_singleton]
    congr 1
    omega
  have hlow : blockSize 32 (w ++ [true]) < 2 ^ (32 - w.length) := by
    rw [hsize]
    exact Nat.pow_lt_pow_right (by decide) (by omega)
  rw [toNat_keyOf (by rw [List.length_append, List.length_singleton]; omega), blockFirst_snoc h, BitVec.toNat_or,
    toNat_keyOf h.le, topBit_shift _ h, BitVec.toNat_twoPow_of_lt (by omega), ← hsize, Bool.toNat_true, Nat.one_mul,
    blockFirst, Nat.mul_comm, Nat.two_pow_add_eq_or_of_lt hlow]

theorem keyOf_snoc (h : w.length < 32) : keyOf (w ++ [b]) = if b then keyOf w ||| topBit >>> w.length else keyOf w := by
  cases b with
  | false => exact keyOf_false h
  | true => exact keyOf_true h

/-- Behind the word there are zeros. -/
theorem keyOf_low {i : ℕ} (h : w.length ≤ 32) (hi : w.length ≤ i) : (keyOf w).getMsbD i = false := by
  by_cases h32 : i < 32
  · have hnot : ¬32 - 1 - i ≥ 32 - w.length := by omega
    rw [BitVec.getMsbD_eq_getLsbD, BitVec.getLsbD, toNat_keyOf h, blockFirst, Nat.mul_comm, Nat.testBit_two_pow_mul,
      decide_eq_false hnot, Bool.false_and, Bool.and_false]
  · exact BitVec.getMsbD_of_ge _ _ (by omega)

theorem keyOf_masked (h : w.length ≤ 32) : keyOf w &&& (-1 : BitVec 32) <<< (32 - w.length) = keyOf w := by
  apply BitVec.eq_of_getMsbD_eq
  intro i hi
  rw [BitVec.getMsbD_and]
  by_cases hin : w.length ≤ i
  · rw [keyOf_low h hin, Bool.false_and]
  · rw [show (-1 : BitVec 32) = BitVec.allOnes 32 from rfl, BitVec.getMsbD_shiftLeft, BitVec.getMsbD_allOnes,
      decide_eq_true (by omega), Bool.and_true]

theorem bits_or {key x : BitVec 32} {n : ℕ} (hx : ∀ i < n, x.getMsbD i = false) : bits (key ||| x) n = bits key n := by
  refine List.map_congr_left fun i hi => ?_
  rw [BitVec.getMsbD_or, hx i (List.mem_range.mp hi), Bool.or_false]

theorem bits_keyOf (h : w.length ≤ 32) : bits (keyOf w) w.length = w := by
  induction w using List.reverseRecOn with
  | nil => rfl
  | append_singleton w b ih =>
    rw [List.length_append, List.length_singleton] at h
    have hw := ih (by omega)
    have hlow := keyOf_low (w := w) (i := w.length) (by omega) le_rfl
    rw [List.length_append, List.length_singleton, bits_succ]
    cases b with
    | false => rw [keyOf_false h, hw, hlow]
    | true =>
      have hbit : ∀ i < 32, (topBit >>> w.length).getMsbD i = decide (i = w.length) := by
        intro i hi
        rw [topBit_shift _ h, BitVec.getMsbD_twoPow, decide_eq_true (by omega : 31 - w.length < 32), Bool.true_and,
          decide_eq_decide]
        omega
      rw [keyOf_true h, bits_or fun i hi => by rw [hbit i (by omega), decide_eq_false (by omega)], hw, BitVec.getMsbD_or,
        hbit _ h, decide_eq_true rfl, Bool.or_true]

end KeyOf

/-! ## What is printed and what is walked -/

namespace RadixTree

section Traversals
variable {t : RadixTree V} {M : PrefixMap V} {place : List Bool → Option ℕ} {free : List ℕ} {w : List Bool} {a fuel : ℕ}

theorem preorder_none (hw : place w = none) : preorder place fuel w = [] := by
  cases fuel with
  | zero => rfl
  | succ fuel => rw [preorder, hw, Option.isSome_none, if_neg Bool.false_ne_true]

theorem inorder_none (hw : place w = none) : inorder place fuel w = [] := by
  cases fuel with
  | zero => rfl
  | succ fuel => rw [inorder, hw, Option.isSome_none, if_neg Bool.false_ne_true]

/-- The line of a word that the map has a value for. -/
def lineAt (M : PrefixMap V) (w : List Bool) : Option (RadixLine V) := (M w).map fun v => ⟨keyOf w,w.length,v⟩

theorem Holds.printHelper_eq (h : t.Holds M place free) (hw : place w = some a) (hfuel : 33 ≤ w.length + fuel) :
    radixTreePrintHelper t fuel a (keyOf w) w.length = some ((preorder place fuel w).filterMap (lineAt M)) := by
  induction fuel generalizing w a with
  | zero =>
    have hdepth := h.depth_le w a hw
    omega
  | succ fuel ih =>
    have hdepth := h.depth_le w a hw
    have hside : ∀ b, (match t.child a b with
        | none => some []
        | some c => radixTreePrintHelper t fuel c (if b then keyOf w ||| topBit >>> w.length else keyOf w) (w.length + 1)) =
        some ((preorder place fuel (w ++ [b])).filterMap (lineAt M)) := by
      intro b
      rw [h.tree.child_eq w a hw b]
      cases hb : place (w ++ [b]) with
      | none => rw [preorder_none hb]; rfl
      | some c =>
        have hlen := h.depth_le _ c hb
        have hnext := ih hb (by rw [List.length_append, List.length_singleton]; omega)
        rw [List.length_append, List.length_singleton] at hlen hnext
        rw [keyOf_snoc (by omega)] at hnext
        exact hnext
    have hleft := hside false
    have hright := hside true
    simp only [child, Bool.false_eq_true, ↓reduceIte] at hleft hright
    have hline : radixTreePrintLine (M w) (keyOf w) w.length = some (keyOf w,(lineAt M w).toList) := by
      cases hM : M w with
      | none => simp only [radixTreePrintLine, lineAt, hM, Option.map_none, Option.toList_none]
      | some v =>
        have hne : w.length ≠ 0 := fun hzero => by
          rw [List.length_eq_zero_iff.mp hzero, h.root_none] at hM
          cases hM
        simp only [radixTreePrintLine, lineAt, hM, if_neg hne, keyOf_masked hdepth, Option.map_some, Option.toList_some]
    have hlist : (preorder place (fuel + 1) w).filterMap (lineAt M) = (lineAt M w).toList ++
        ((preorder place fuel (w ++ [false])).filterMap (lineAt M) ++ (preorder place fuel (w ++ [true])).filterMap (lineAt M)) := by
      rw [preorder, hw, Option.isSome_some, if_pos rfl, ← List.filterMap_append]
      cases hl : lineAt M w with
      | none => rw [List.filterMap_cons_none hl]; rfl
      | some line => rw [List.filterMap_cons_some hl]; rfl
    rw [radixTreePrintHelper, ← held_some hw, h.held_eq w, hline, hlist]
    simp only [Option.bind_some, hleft, hright]

theorem Holds.walkHelper_eq (h : t.Holds M place free) (hw : place w = some a) (hfuel : 33 ≤ w.length + fuel) :
    radixTreeWalkHelper t fuel a = some ((inorder place fuel w).filterMap M) := by
  induction fuel generalizing w a with
  | zero =>
    have hdepth := h.depth_le w a hw
    omega
  | succ fuel ih =>
    have hside : ∀ b, (match t.child a b with
        | none => some []
        | some c => radixTreeWalkHelper t fuel c) = some ((inorder place fuel (w ++ [b])).filterMap M) := by
      intro b
      rw [h.tree.child_eq w a hw b]
      cases hb : place (w ++ [b]) with
      | none => rw [inorder_none hb]; rfl
      | some c => exact ih hb (by rw [List.length_append, List.length_singleton]; omega)
    have hleft := hside false
    have hright := hside true
    simp only [child, Bool.false_eq_true, ↓reduceIte] at hleft hright
    rw [radixTreeWalkHelper, hleft, hright, inorder, hw, Option.isSome_some, if_pos rfl, List.filterMap_append,
      ← held_some hw, h.held_eq w]
    cases hM : M w with
    | none => rw [List.filterMap_cons_none hM]; rfl
    | some v => rw [List.filterMap_cons_some hM]; rfl

end Traversals

end RadixTree

open RadixTree

/-- The order of the lines: by address, the shorter prefixes first. -/
def RadixLine.Before (a b : RadixLine V) : Prop := a.ip.toNat < b.ip.toNat ∨ a.ip = b.ip ∧ a.mask < b.mask

/-- Twice the middle of the addresses that a line stands for. -/
def RadixLine.middle (line : RadixLine V) : ℕ := 2 * line.ip.toNat + 2 ^ (32 - line.mask)

/-- The word of a line. -/
def RadixLine.word (line : RadixLine V) : List Bool := bits line.ip line.mask

instance : Std.Irrefl (RadixLine.Before (V := V)) := ⟨fun a h => h.elim (lt_irrefl a.ip.toNat) fun h => lt_irrefl a.mask h.2⟩

instance : Std.Antisymm (RadixLine.Before (V := V)) := ⟨fun a b hab hba => by
  exfalso
  rcases hab with hab | ⟨heq,hab⟩ <;> rcases hba with hba | ⟨heq',hba⟩
  · exact lt_asymm hab hba
  · exact lt_irrefl _ (heq' ▸ hab)
  · exact lt_irrefl _ (heq ▸ hba)
  · exact lt_asymm hab hba⟩

/-- The lines are those of a map, each once and in order. -/
structure Listed (M : PrefixMap V) (lines : List (RadixLine V)) : Prop where
  sorted : lines.Pairwise RadixLine.Before
  mem_iff : ∀ line, line ∈ lines ↔ ∃ w, M w = some line.value ∧ line.ip = keyOf w ∧ line.mask = w.length
  short : ∀ w, M w ≠ none → 1 ≤ w.length ∧ w.length ≤ 32

namespace Listed
variable {M : PrefixMap V} {lines lines' : List (RadixLine V)} {line : RadixLine V}

/-- A map has one list. -/
theorem unique (h : Listed M lines) (h' : Listed M lines') : lines = lines' :=
  h.sorted.eq_of_mem_iff h'.sorted fun line => (h.mem_iff line).trans (h'.mem_iff line).symm

theorem word_eq (h : Listed M lines) (hline : line ∈ lines) :
    M line.word = some line.value ∧ line.ip = keyOf line.word ∧ line.mask = line.word.length ∧ 1 ≤ line.mask ∧ line.mask ≤ 32 := by
  obtain ⟨w,hM,hip,hmask⟩ := (h.mem_iff line).mp hline
  have hlen := h.short w (by rw [hM]; exact Option.some_ne_none _)
  have hword : line.word = w := by rw [RadixLine.word, hip, hmask, bits_keyOf hlen.2]
  rw [hword]
  exact ⟨hM,hip,hmask,hmask ▸ hlen⟩

theorem nodup (h : Listed M lines) : (lines.map RadixLine.word).Nodup := by
  refine List.Nodup.map_on ?_ h.sorted.nodup
  intro a ha b hb heq
  obtain ⟨hMa,hipa,hmaska,-⟩ := h.word_eq ha
  obtain ⟨hMb,hipb,hmaskb,-⟩ := h.word_eq hb
  obtain ⟨ip,mask,value⟩ := a
  obtain ⟨ip',mask',value'⟩ := b
  rw [heq] at hMa hipa hmaska
  obtain rfl := Option.some.inj (hMa.symm.trans hMb)
  obtain rfl : ip = ip' := hipa.trans hipb.symm
  obtain rfl : mask = mask' := hmaska.trans hmaskb.symm
  rfl

end Listed

section Listing
variable {t : RadixTree V} {M : PrefixMap V} {place : List Bool → Option ℕ} {free : List ℕ}

theorem RadixTree.Holds.listed (h : t.Holds M place free) : Listed M ((preorder place 33 []).filterMap (lineAt M)) where
  sorted := by
    rw [List.pairwise_filterMap]
    refine (preorder_sorted (n := 32) (by decide)).imp ?_
    intro w u hwu line hline line' hline'
    obtain ⟨v,hw,rfl⟩ := Option.map_eq_some_iff.mp hline
    obtain ⟨v',hu,rfl⟩ := Option.map_eq_some_iff.mp hline'
    have hw32 := h.bounded w (by rw [PrefixMap.mem_stored, hw]; exact Option.some_ne_none v)
    have hu32 := h.bounded u (by rw [PrefixMap.mem_stored, hu]; exact Option.some_ne_none v')
    rw [BlockBefore, ← toNat_keyOf hw32, ← toNat_keyOf hu32] at hwu
    rcases hwu with hlt | ⟨heq,hlen⟩
    · exact Or.inl hlt
    · exact Or.inr ⟨BitVec.eq_of_toNat_eq heq,hlen⟩
  mem_iff line := by
    rw [List.mem_filterMap]
    constructor
    · rintro ⟨w,-,hline⟩
      obtain ⟨v,hw,rfl⟩ := Option.map_eq_some_iff.mp hline
      exact ⟨w,hw,rfl,rfl⟩
    · rintro ⟨w,hw,hip,hmask⟩
      obtain ⟨ip,mask,value⟩ := line
      obtain rfl : ip = keyOf w := hip
      obtain rfl : mask = w.length := hmask
      have hM : M w ≠ none := by
        rw [hw]
        exact Option.some_ne_none value
      obtain ⟨a,ha⟩ := @Placed.placed_of_held V t place w (by rw [h.held_eq]; exact hM)
      refine ⟨w,(mem_preorder h.tree.closed).mpr ⟨w,rfl,by rw [ha]; exact Option.some_ne_none a,?_⟩,by rw [lineAt, hw]; rfl⟩
      exact Nat.lt_succ_of_le (h.depth_le w a ha)
  short w hw := by
    refine ⟨?_,h.bounded w hw⟩
    by_contra hlen
    obtain rfl : w = [] := List.length_eq_zero_iff.mp (by omega)
    exact hw h.root_none

theorem RadixTree.Holds.print_eq (h : t.Holds M place free) :
    ∃ lines, radixTreePrint t 33 = some lines ∧ Listed M lines := by
  refine ⟨_,?_,h.listed⟩
  have hprint := h.printHelper_eq h.root_eq (show 33 ≤ ([] : List Bool).length + 33 by simp)
  rwa [keyOf_nil] at hprint

end Listing

/-! ## Reading the lines back -/

/-- The subnets of the lines are inserted with their values one after the other, as long as each
insertion succeeds. -/
def radixTreeLoad (t : RadixTree V) : List (RadixLine V) → Option (RadixTree V)
  | [] => some t
  | line :: lines =>
    match radixTreeInsertSubnet true t line.subnet line.value with
    | some (.tree .succeed,t) => radixTreeLoad t lines
    | _ => none

section Loading
variable {t : RadixTree V} {M : PrefixMap V} {place : List Bool → Option ℕ} {free : List ℕ} {line : RadixLine V}

theorem RadixLine.names (h : 1 ≤ line.mask ∧ line.mask ≤ 32) : NamesSubnet line.subnet line.ip line.mask := by
  have hint : (Int32.ofNat line.mask).toInt = line.mask := Int32.toInt_ofNat_of_lt (by omega)
  have hbytes : decimalBytes (Int32.ofNat line.mask) = digitBytes line.mask := by
    rw [decimalBytes, hint, if_neg (by omega), Int.natAbs_natCast]
  refine ⟨digitBytes line.mask,fun b hb => isDigit_of_mem hb,?_,?_,?_⟩
  · rw [numeral_digitBytes, MaskNumeral]
    omega
  · rw [RadixLine.subnet, CString.bytes_append, CString.bytes_append, List.append_assoc]
    exact congrArg (fun bs => (inetNtop (keyQuad line.ip)).bytes ++ 47 :: bs) hbytes
  · rw [numeral_digitBytes]
    omega

/-- A text that names a prefix is that prefix. -/
theorem insertSubnet_names {s : CString} {key : BitVec 32} {mask : ℕ} (h : NamesSubnet s key mask) (malloc : Bool)
    (t : RadixTree V) (info : V) : radixTreeInsertSubnet malloc t s info =
      some (.tree (radixTreeInsertNode malloc t key mask info).1,(radixTreeInsertNode malloc t key mask info).2) := by
  obtain ⟨htrim,-,hle⟩ := trim_names h
  rw [radixTreeInsertSubnet, htrim, Option.map_some]
  simp only [Int32.toInt_ofNat_of_lt (show mask < 2 ^ 31 by omega), Int.toNat_natCast]

theorem removeSubnet_names {s : CString} {key : BitVec 32} {mask : ℕ} (h : NamesSubnet s key mask) (t : RadixTree V) :
    radixTreeRemoveSubnet t s = (radixTreeDeleteNode t key mask).map fun (result,t) => (.tree result,t) := by
  obtain ⟨htrim,-,hle⟩ := trim_names h
  rw [radixTreeRemoveSubnet, htrim, Option.bind_some]
  simp only [Int32.toInt_ofNat_of_lt (show mask < 2 ^ 31 by omega), Int.toNat_natCast]

/-- Lines of prefixes that the tree does not have are all taken. -/
theorem RadixTree.Holds.load (h : t.Holds M place free) (lines : List (RadixLine V))
    (hnodup : (lines.map RadixLine.word).Nodup)
    (hlines : ∀ line ∈ lines, 1 ≤ line.mask ∧ line.mask ≤ 32 ∧ M line.word = none) :
    ∃ t' M' place' free', radixTreeLoad t lines = some t' ∧ t'.Holds M' place' free' ∧
      ∀ w v, M' w = some v ↔ M w = some v ∨ ∃ line ∈ lines, line.word = w ∧ line.value = v := by
  induction lines generalizing t M place free with
  | nil => exact ⟨t,M,place,free,rfl,h,by simp⟩
  | cons line lines ih =>
    obtain ⟨hlow,hhigh,hnone⟩ := hlines line List.mem_cons_self
    rw [List.map_cons, List.nodup_cons] at hnodup
    have hadded := @RadixTree.insert_absent V t M place free line.ip line.mask line.value h ⟨hlow,hhigh⟩ hnone
    obtain ⟨t₁,place₁,free₁,hinsert,h₁⟩ := hadded
    have hother : ∀ l ∈ lines, l.word ≠ line.word := fun l hl heq => hnodup.1 (heq ▸ List.mem_map_of_mem hl)
    obtain ⟨t',M',place',free',hload,h',hM'⟩ := ih h₁ hnodup.2 fun l hl => by
      obtain ⟨hl1,hl2,hl3⟩ := hlines l (List.mem_cons_of_mem _ hl)
      exact ⟨hl1,hl2,by rw [PrefixMap.assign_of_ne (show l.word ≠ bits line.ip line.mask from hother l hl), hl3]⟩
    refine ⟨t',M',place',free',?_,h',?_⟩
    · rw [radixTreeLoad, insertSubnet_names (RadixLine.names ⟨hlow,hhigh⟩), hinsert]
      exact hload
    · intro w v
      rw [hM']
      by_cases hw : w = line.word
      · subst hw
        rw [show bits line.ip line.mask = line.word from rfl, PrefixMap.assign_self, hnone]
        constructor
        · rintro (hv | ⟨l,hl,heq,-⟩)
          · exact Or.inr ⟨line,List.mem_cons_self,rfl,Option.some.inj hv⟩
          · exact absurd heq (hother l hl)
        · rintro (hv | ⟨l,hl,heq,hv⟩)
          · cases hv
          · rcases List.mem_cons.mp hl with rfl | hl
            · exact Or.inl (congrArg some hv)
            · exact absurd heq (hother l hl)
      · rw [PrefixMap.assign_of_ne (show w ≠ bits line.ip line.mask from hw)]
        refine or_congr_right ⟨fun ⟨l,hl,heq⟩ => ⟨l,List.mem_cons_of_mem _ hl,heq⟩,?_⟩
        rintro ⟨l,hl,heq,hv⟩
        rcases List.mem_cons.mp hl with rfl | hl
        · exact absurd heq.symm hw
        · exact ⟨l,hl,heq,hv⟩

end Loading

/-! ## Runs -/

/-- A request with the text of a subnet. -/
inductive SubnetCall (V : Type*) where
  | insert (subnet : CString) (info : V)
  | remove (subnet : CString)

def SubnetCall.subnet : SubnetCall V → CString
  | .insert subnet _ => subnet
  | .remove subnet => subnet

def subnetStep (t : RadixTree V) (call : SubnetCall V) : Option (RadixTree V) :=
  match call with
  | .insert subnet info => (radixTreeInsertSubnet true t subnet info).map Prod.snd
  | .remove subnet => (radixTreeRemoveSubnet t subnet).map Prod.snd

/-- What a request does to the map of the prefixes: nothing where the text names none. -/
def PrefixMap.subnetStep (M : PrefixMap V) (call : SubnetCall V) : PrefixMap V :=
  match trimBinarySubnet call.subnet with
  | some (some (mask,key)) =>
    match call with
    | .insert _ info =>
      if (M (bits key mask.toInt.toNat)).isSome then M else M.assign (bits key mask.toInt.toNat) (some info)
    | .remove _ => M.assign (bits key mask.toInt.toNat) none
  | _ => M

section SubnetRuns
variable {t : RadixTree V} {M : PrefixMap V} {place : List Bool → Option ℕ} {free : List ℕ}

theorem subnetStep_holds (h : t.Holds M place free) {call : SubnetCall V} (hcall : ¬OverrunsSubnet call.subnet) :
    ∃ t' place' free', subnetStep t call = some t' ∧ t'.Holds (M.subnetStep call) place' free' := by
  rcases htrim : trimBinarySubnet call.subnet with - | - | ⟨mask,key⟩
  · exact absurd (trim_eq_none.mp htrim) hcall
  · refine ⟨t,place,free,?_,by rw [PrefixMap.subnetStep, htrim]; exact h⟩
    cases call with
    | insert subnet info => rw [subnetStep, radixTreeInsertSubnet, show trimBinarySubnet subnet = some none from htrim]; rfl
    | remove subnet => rw [subnetStep, radixTreeRemoveSubnet, show trimBinarySubnet subnet = some none from htrim]; rfl
  · obtain ⟨n,rfl,hnames⟩ := trim_eq_some.mp htrim
    have hrange := (trim_names hnames).2
    have hn : (Int32.ofNat n).toInt.toNat = n := by
      rw [Int32.toInt_ofNat_of_lt (show n < 2 ^ 31 by omega), Int.toNat_natCast]
    rw [PrefixMap.subnetStep, htrim]
    simp only [hn]
    cases call with
    | insert subnet info =>
      obtain ⟨t',place',free',hstep,h'⟩ := radixStep_holds h (.insert key ⟨n,hrange⟩ info)
      refine ⟨t',place',free',?_,h'⟩
      rw [subnetStep, insertSubnet_names (show NamesSubnet subnet key n from hnames)]
      exact hstep
    | remove subnet =>
      obtain ⟨t',place',free',hstep,h'⟩ := radixStep_holds h (.delete key ⟨n,hrange⟩)
      refine ⟨t',place',free',?_,h'⟩
      rw [subnetStep, removeSubnet_names (show NamesSubnet subnet key n from hnames), Option.map_map]
      exact hstep

theorem subnetRun_holds (h : t.Holds M place free) {calls : List (SubnetCall V)}
    (hcalls : ∀ call ∈ calls, ¬OverrunsSubnet call.subnet) :
    ∃ t' place' free', run subnetStep t calls = some t' ∧ t'.Holds (calls.foldl PrefixMap.subnetStep M) place' free' := by
  induction calls generalizing t M place free with
  | nil => exact ⟨t,place,free,rfl,h⟩
  | cons call calls ih =>
    obtain ⟨t₁,place₁,free₁,hstep,h₁⟩ := subnetStep_holds h (hcalls call List.mem_cons_self)
    rw [run_cons_some hstep]
    exact ih h₁ fun c hc => hcalls c (List.mem_cons_of_mem _ hc)

end SubnetRuns

/-- A search by text is one for the address that it names, if any. -/
theorem RadixTree.Behaves.findStr {t : RadixTree V} {M : PrefixMap V} (h : t.Behaves M) (strip : CString) {fuel : ℕ}
    (hfuel : 33 ≤ fuel) : radixTreeFindStr t strip fuel =
      some ((inetPton strip).bind fun myin => M.longest (bits (ntohl (loadWord myin)).toBitVec) 32) := by
  rw [radixTreeFindStr]
  cases inetPton strip with
  | none => rfl
  | some myin => exact h.find _ fuel hfuel

/-- In every run of insertions and removals by text the lines that are printed are those of the
stored prefixes, each once and in the order of the addresses, and from the subnets of the lines
with their values, in any order, a new tree is built that prints the same lines and answers every
search the same. -/
theorem radixTree_print_reload (calls : List (SubnetCall V)) (hcalls : ∀ call ∈ calls, ¬OverrunsSubnet call.subnet) :
    ∃ t lines, run subnetStep radixTreeCreate calls = some t ∧ radixTreePrint t 33 = some lines ∧
      Listed (calls.foldl PrefixMap.subnetStep .empty) lines ∧ t.Behaves (calls.foldl PrefixMap.subnetStep .empty) ∧
      ∀ lines', lines'.Perm lines → ∃ t', radixTreeLoad radixTreeCreate lines' = some t' ∧
        radixTreePrint t' 33 = some lines ∧ t'.Behaves (calls.foldl PrefixMap.subnetStep .empty) ∧
        ∀ strip fuel, 33 ≤ fuel → radixTreeFindStr t' strip fuel = radixTreeFindStr t strip fuel := by
  obtain ⟨t,place,free,hrun,h⟩ := subnetRun_holds create_holds hcalls
  generalize calls.foldl PrefixMap.subnetStep .empty = M at h ⊢
  obtain ⟨lines,hprint,hlisted⟩ := h.print_eq
  refine ⟨t,lines,hrun,hprint,hlisted,h.behaves,fun lines' hperm => ?_⟩
  obtain ⟨t',M',place',free',hload,h',hM'⟩ := create_holds.load lines' ((hperm.map _).nodup_iff.mpr hlisted.nodup)
    fun line hline => by
      obtain ⟨-,-,-,hlow,hhigh⟩ := hlisted.word_eq (hperm.mem_iff.mp hline)
      exact ⟨hlow,hhigh,rfl⟩
  have hsame : M' = M := by
    funext w
    refine Option.ext fun v => (hM' w v).trans ⟨?_,fun hw => ?_⟩
    · rintro (hv | ⟨line,hline,rfl,rfl⟩)
      · cases hv
      · exact (hlisted.word_eq (hperm.mem_iff.mp hline)).1
    · have hlen := hlisted.short w (by rw [hw]; exact Option.some_ne_none v)
      exact Or.inr ⟨⟨keyOf w,w.length,v⟩,hperm.mem_iff.mpr ((hlisted.mem_iff _).mpr ⟨w,hw,rfl,rfl⟩),bits_keyOf hlen.2,rfl⟩
  subst hsame
  obtain ⟨lines₁,hprint₁,hlisted₁⟩ := h'.print_eq
  exact ⟨t',hload,by rw [hprint₁, hlisted₁.unique hlisted],h'.behaves,fun strip fuel hfuel => by
    rw [h'.behaves.findStr strip hfuel, h.behaves.findStr strip hfuel]⟩

/-- `10.0.0.5/8` and `10.64.0.0/10` are inserted, and `10.0.0.0/8` is removed. -/
def subnetsTen : List (SubnetCall ℕ) :=
  [.insert ⟨[49,48,46,48,46,48,46,53,47,56],by decide⟩ 1,.insert ⟨[49,48,46,54,52,46,48,46,48,47,49,48],by decide⟩ 2,
    .remove ⟨[49,48,46,48,46,48,46,48,47,56],by decide⟩]

theorem subnetsTen_short : ∀ call ∈ subnetsTen, ¬OverrunsSubnet call.subnet := by
  intro call hcall
  apply not_overruns
  revert call
  decide

theorem radixTree_print_reload_ten : ∃ t lines, run subnetStep radixTreeCreate subnetsTen = some t ∧
    radixTreePrint t 33 = some lines ∧ ∃ t', radixTreeLoad radixTreeCreate lines.reverse = some t' ∧
      radixTreePrint t' 33 = some lines := by
  obtain ⟨t,lines,hrun,hprint,-,-,hload⟩ := radixTree_print_reload subnetsTen subnetsTen_short
  obtain ⟨t',hload',hprint',-⟩ := hload lines.reverse lines.reverse_perm
  exact ⟨t,lines,hrun,hprint,t',hload',hprint'⟩

/-- The value of every stored prefix is walked over once, in the order of the middles of what the
prefixes stand for. -/
theorem radixTree_walk_once (calls : List (SubnetCall V)) (hcalls : ∀ call ∈ calls, ¬OverrunsSubnet call.subnet) :
    ∃ (t : RadixTree V) (lines visited : List (RadixLine V)), run subnetStep radixTreeCreate calls = some t ∧
      radixTreePrint t 33 = some lines ∧ Listed (calls.foldl PrefixMap.subnetStep .empty) lines ∧
      radixTreeWalk t 33 = some (visited.map RadixLine.value) ∧ visited.Perm lines ∧
      visited.Pairwise fun a b => a.middle < b.middle := by
  obtain ⟨t,place,free,hrun,h⟩ := subnetRun_holds create_holds hcalls
  generalize calls.foldl PrefixMap.subnetStep .empty = M at h
  refine ⟨t,(preorder place 33 []).filterMap (lineAt M),(inorder place 33 []).filterMap (lineAt M),hrun,?_,h.listed,?_,
    (inorder_perm place 33 []).filterMap _,?_⟩
  · have hprint := h.printHelper_eq h.root_eq (show 33 ≤ ([] : List Bool).length + 33 by simp)
    rwa [keyOf_nil] at hprint
  · rw [List.map_filterMap, radixTreeWalk, h.walkHelper_eq h.root_eq (by simp)]
    congr 2
    funext w
    rw [lineAt, Option.map_map]
    exact Option.map_id'.symm
  · rw [List.pairwise_filterMap]
    refine (inorder_sorted (n := 32) (by decide)).imp ?_
    intro w u hwu line hline line' hline'
    obtain ⟨v,hw,rfl⟩ := Option.map_eq_some_iff.mp hline
    obtain ⟨v',hu,rfl⟩ := Option.map_eq_some_iff.mp hline'
    have hw32 := h.bounded w (by rw [PrefixMap.mem_stored, hw]; exact Option.some_ne_none v)
    have hu32 := h.bounded u (by rw [PrefixMap.mem_stored, hu]; exact Option.some_ne_none v')
    rw [RadixLine.middle, RadixLine.middle, toNat_keyOf hw32, toNat_keyOf hu32]
    exact hwu

theorem radixTree_walk_once_ten : ∃ (t : RadixTree ℕ) (lines visited : List (RadixLine ℕ)),
    run subnetStep radixTreeCreate subnetsTen = some t ∧
      radixTreePrint t 33 = some lines ∧ Listed (subnetsTen.foldl PrefixMap.subnetStep .empty) lines ∧
      radixTreeWalk t 33 = some (visited.map RadixLine.value) ∧ visited.Perm lines ∧
      visited.Pairwise fun a b => a.middle < b.middle :=
  radixTree_walk_once subnetsTen subnetsTen_short

end LogStats
