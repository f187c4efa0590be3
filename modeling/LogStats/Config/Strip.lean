import LogStats.Library.CString
import LogStats.Library.Words

/-! # strip works in place

`strip` writes a NUL over the spaces at the end and moves what stands behind the leading spaces down byte by
byte, so that source and destination overlap. Within the string that was there it leaves the string without its
outer spaces; what is behind the terminator stays.
-/
namespace LogStats

/-- Where the first loop stops when it has `n` bytes in front of it: one behind the last that is no space. -/
def stripEnd (buf : List UInt8) : ℕ → ℕ
  | 0 => 0
  | n + 1 => if buf.getD n 0 = 32 then stripEnd buf n else n + 1

/-- The loop that copies the byte `off` further on, the terminator included. -/
def copyDown (off : ℕ) : ℕ → List UInt8 → ℕ → List UInt8
  | 0, buf, _ => buf
  | fuel + 1, buf, i =>
    let b := buf.getD (off + i) 0
    if b = 0 then buf.set i b else copyDown off fuel (buf.set i b) (i + 1)

/-- `strip(src)`, for the memory from `src` on. -/
def stripBuffer (src : List UInt8) : List UInt8 :=
  let src := src.set (stripEnd src (CString.read src).strlen) 0
  copyDown (src.findIdx (· != 32)) src.length src 0

theorem trim_subset {xs : List UInt8} : trim 32 xs ⊆ xs := by
  intro b hb
  exact (List.rdropWhile_prefix (p := (· == 32)) xs).subset ((List.dropWhile_suffix _).subset hb)

/-- What `strip` makes of a string. -/
def strip (s : CString) : CString := ⟨trim 32 s.bytes,fun h => s.nulFree (trim_subset h)⟩

section Strip
variable {w r : List UInt8} {fuel : ℕ}

theorem getD_append_cons (a : List UInt8) (b : UInt8) : (a ++ b :: r).getD a.length 0 = b := by
  simp [List.getD_eq_getElem?_getD]

theorem set_append_cons (a : List UInt8) (b c : UInt8) : (a ++ b :: r).set a.length c = a ++ c :: r := by
  simp

theorem stripEnd_append (w r : List UInt8) : stripEnd (w ++ r) w.length = (w.rdropWhile (· == 32)).length := by
  induction w using List.reverseRecOn generalizing r with
  | nil => rfl
  | append_singleton w b ih =>
    rw [List.append_assoc, List.singleton_append, List.length_append, List.length_singleton, stripEnd, getD_append_cons]
    by_cases hspace : b = 32
    · subst hspace
      rw [if_pos rfl, ih, List.rdropWhile_concat_pos _ _ _ (by simp)]
    · rw [if_neg hspace, List.rdropWhile_concat_neg _ _ _ (by simpa using hspace), List.length_append,
        List.length_singleton]

/-- The copied part grows by one byte of `w` in each round, and as many bytes lie between it and the rest of
`w` as before. -/
theorem copyDown_spec (a pre : List UInt8) (hw : (0 : UInt8) ∉ w) (hfuel : w.length < fuel) : ∃ junk,
    copyDown pre.length fuel (a ++ (pre ++ w ++ 0 :: r)) a.length = a ++ (w ++ 0 :: (junk ++ r)) ∧
      junk.length = pre.length := by
  induction w generalizing a pre fuel with
  | nil =>
    obtain ⟨fuel,rfl⟩ : ∃ k, fuel = k + 1 := ⟨fuel - 1,by omega⟩
    have hbyte : (a ++ (pre ++ [] ++ 0 :: r)).getD (pre.length + a.length) 0 = 0 := by
      rw [List.append_nil, ← List.append_assoc, Nat.add_comm, ← List.length_append]
      exact getD_append_cons _ _
    rw [copyDown, hbyte]
    cases pre with
    | nil =>
      refine ⟨[],?_,rfl⟩
      simp
    | cons d pre =>
      refine ⟨pre ++ [0],?_,by simp⟩
      simp
  | cons c w ih =>
    obtain ⟨hc,hw⟩ := not_or.mp (List.mem_cons.not.mp hw)
    obtain ⟨fuel,rfl⟩ : ∃ k, fuel = k + 1 := ⟨fuel - 1,by omega⟩
    obtain ⟨d,mid,hmid⟩ := List.exists_cons_of_ne_nil (List.append_ne_nil_of_right_ne_nil pre (List.cons_ne_nil c []))
    have hbyte : (a ++ (pre ++ c :: w ++ 0 :: r)).getD (pre.length + a.length) 0 = c := by
      rw [List.append_assoc pre, ← List.append_assoc a, Nat.add_comm, ← List.length_append]
      exact getD_append_cons _ _
    have hset : (a ++ (pre ++ c :: w ++ 0 :: r)).set a.length c = (a ++ [c]) ++ (mid ++ w ++ 0 :: r) := by
      have hshift : pre ++ c :: w = d :: (mid ++ w) := by
        rw [← List.cons_append, ← hmid, List.append_assoc, List.singleton_append]
      rw [hshift, List.cons_append, set_append_cons]
      simp
    have hlen : mid.length = pre.length := by
      have := congrArg List.length hmid
      simpa using this.symm
    obtain ⟨junk,hrun,hjunk⟩ := ih (a ++ [c]) mid hw (by simpa using hfuel)
    refine ⟨junk,?_,hjunk.trans hlen⟩
    rw [copyDown, hbyte, if_neg (Ne.symm hc), hset]
    rw [hlen, List.length_append, List.length_singleton] at hrun
    rw [hrun]
    simp

theorem findIdx_spaces (w r : List UInt8) :
    (w ++ 0 :: r).findIdx (· != 32) = (w.takeWhile (· == 32)).length := by
  induction w with
  | nil => rfl
  | cons c w ih =>
    rw [List.cons_append, List.findIdx_cons]
    by_cases hspace : c = 32
    · subst hspace
      rw [List.takeWhile_cons_of_pos (by simp), List.length_cons, ih]
      rfl
    · rw [List.takeWhile_cons_of_neg (by simpa using hspace)]
      have hb : (c != 32) = true := by simpa using hspace
      rw [hb]
      rfl

/-- In memory `strip` is what it is on strings. -/
theorem stripBuffer_spec (s : CString) (rest : List UInt8) : ∃ junk,
    stripBuffer (s.bytes ++ 0 :: rest) = (strip s).bytes ++ 0 :: (junk ++ rest) ∧
      junk.length + (strip s).strlen = s.strlen := by
  obtain ⟨spaces,hspaces⟩ := List.rdropWhile_prefix (p := (· == 32)) s.bytes
  obtain ⟨d,tail,htail⟩ := List.exists_cons_of_ne_nil
    (List.append_ne_nil_of_right_ne_nil spaces (List.cons_ne_nil (0 : UInt8) []))
  -- the front without the spaces at the end, cut where the leading ones stop
  have hfront := List.takeWhile_append_dropWhile (p := (· == 32)) (l := s.bytes.rdropWhile (· == 32))
  have hset : (s.bytes ++ 0 :: rest).set (stripEnd (s.bytes ++ 0 :: rest) s.strlen) 0 =
      s.bytes.rdropWhile (· == 32) ++ 0 :: (tail ++ rest) := by
    have hbytes : s.bytes ++ 0 :: rest = s.bytes.rdropWhile (· == 32) ++ d :: (tail ++ rest) := by
      rw [← List.cons_append, ← htail]
      conv_lhs => rw [← hspaces]
      simp
    rw [CString.strlen, stripEnd_append, hbytes, set_append_cons]
  have hnul : (0 : UInt8) ∉ (s.bytes.rdropWhile (· == 32)).dropWhile (· == 32) := (strip s).nulFree
  have hfuel : ((s.bytes.rdropWhile (· == 32)).dropWhile (· == 32)).length < (s.bytes ++ 0 :: rest).length := by
    have hlen := congrArg List.length hspaces
    have hlen' := congrArg List.length hfront
    simp only [List.length_append, List.length_cons] at hlen hlen' ⊢
    omega
  obtain ⟨junk,hrun,hjunk⟩ := copyDown_spec (r := tail ++ rest) [] ((s.bytes.rdropWhile (· == 32)).takeWhile (· == 32))
    hnul hfuel
  refine ⟨junk ++ tail,?_,?_⟩
  · rw [List.nil_append, hfront, List.nil_append, List.length_nil] at hrun
    have hlen : (s.bytes.rdropWhile (· == 32) ++ 0 :: (tail ++ rest)).length = (s.bytes ++ 0 :: rest).length := by
      rw [← hset, List.length_set]
    simp only [stripBuffer, CString.read_bytes_append, hset, findIdx_spaces, hlen, hrun, List.append_assoc]
    rfl
  · have hlen := congrArg List.length hspaces
    have hlen' := congrArg List.length hfront
    have hlen'' := congrArg List.length htail
    change (junk ++ tail).length + ((s.bytes.rdropWhile (· == 32)).dropWhile (· == 32)).length = s.bytes.length
    simp only [List.length_append, List.length_cons, List.length_nil] at hlen hlen' hlen'' ⊢
    omega

end Strip

end LogStats
