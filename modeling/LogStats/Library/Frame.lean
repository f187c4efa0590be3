import LogStats.Library.CString

/-! # Frames of a byte stream

A frame is a length of four bytes, most significant first, and as many bytes. What a
frame carries is read by a function that may refuse it, and decoding stops at the first
frame that is refused or not complete.
-/
namespace LogStats

def beBytes (n : ℕ) : List UInt8 := (leBytes 4 n).reverse
def ofBeBytes (bs : List UInt8) : ℕ := ofLeBytes bs.reverse

@[simp] theorem length_beBytes (n : ℕ) : (beBytes n).length = 4 := by simp [beBytes]

theorem ofLeBytes_leBytes {k n : ℕ} (h : n < 256 ^ k) : ofLeBytes (leBytes k n) = n := by
  induction k generalizing n with
  | zero =>
    obtain rfl : n = 0 := by simpa using h
    rfl
  | succ k ih =>
    have hdiv : n / 256 < 256 ^ k := by
      rw [Nat.pow_succ] at h
      omega
    simp only [leBytes, ofLeBytes, ih hdiv, UInt8.toNat_ofNat']
    omega

theorem ofBeBytes_beBytes {n : ℕ} (h : n < 2 ^ 32) : ofBeBytes (beBytes n) = n := by
  rw [ofBeBytes, beBytes, List.reverse_reverse, ofLeBytes_leBytes (by omega)]

theorem beBytes_ofBeBytes {bs : List UInt8} (h : bs.length = 4) : beBytes (ofBeBytes bs) = bs := by
  have hle := leBytes_ofLeBytes bs.reverse
  rw [List.length_reverse, h] at hle
  rw [beBytes, ofBeBytes, hle, List.reverse_reverse]

theorem ofBeBytes_lt {bs : List UInt8} (h : bs.length = 4) : ofBeBytes bs < 2 ^ 32 := by
  have hlt := ofLeBytes_lt bs.reverse
  rw [List.length_reverse, h] at hlt
  exact lt_of_lt_of_eq hlt (by norm_num)

def frame (payload : List UInt8) : List UInt8 := beBytes payload.length ++ payload

section Decode
variable {β : Type*} (accept : List UInt8 → Option β)

/-- What the complete frames that the stream starts with carry. -/
def frames (stream : List UInt8) : List β :=
  let rest := stream.drop 4
  let n := ofBeBytes (stream.take 4)
  if _h : stream.length < 4 ∨ rest.length < n then []
  else
    match accept (rest.take n) with
    | none => []
    | some b => b :: frames (rest.drop n)
termination_by stream.length
decreasing_by
  simp only [List.length_drop]
  omega

/-- The stream is made of complete frames that are all accepted. -/
def WellFramed (stream : List UInt8) : Prop :=
  ∃ payloads : List (List UInt8), stream = payloads.flatMap frame ∧
    ∀ payload ∈ payloads, payload.length < 2 ^ 32 ∧ (accept payload).isSome

variable {accept} {stream payload rest : List UInt8} {b : β}

theorem WellFramed.nil : WellFramed accept [] := ⟨[],rfl,by simp⟩

theorem WellFramed.cons (hlen : payload.length < 2 ^ 32) (hb : accept payload = some b) (h : WellFramed accept rest) :
    WellFramed accept (frame payload ++ rest) := by
  obtain ⟨payloads,rfl,hall⟩ := h
  exact ⟨payload :: payloads,rfl,List.forall_mem_cons.mpr ⟨⟨hlen,by simp [hb]⟩,hall⟩⟩

theorem frames_nil : frames accept [] = [] := by
  rw [frames]
  simp

/-- What is read of a stream that starts with a frame. -/
theorem frames_step (hlen : payload.length < 2 ^ 32) (rest : List UInt8) :
    frames accept (frame payload ++ rest) = (accept payload).elim [] fun b => b :: frames accept rest := by
  have htake : (frame payload ++ rest).take 4 = beBytes payload.length := by simp [frame]
  have hdrop : (frame payload ++ rest).drop 4 = payload ++ rest := by simp [frame]
  rw [frames]
  simp only [htake, hdrop, ofBeBytes_beBytes hlen, List.take_left, List.drop_left]
  rw [dif_neg (by simp [frame])]
  cases accept payload with
  | none => rfl
  | some b => rfl

theorem frames_frame (hlen : payload.length < 2 ^ 32) (hb : accept payload = some b) (rest : List UInt8) :
    frames accept (frame payload ++ rest) = b :: frames accept rest := by
  rw [frames_step hlen, hb, Option.elim_some]

/-- A stream with four bytes or more starts with a frame, or it ends before the frame does. -/
theorem frame_cases (h : 4 ≤ stream.length) :
    (∃ payload rest, payload.length < 2 ^ 32 ∧ stream = frame payload ++ rest) ∨
      (stream.drop 4).length < ofBeBytes (stream.take 4) := by
  have htake : (stream.take 4).length = 4 := by simp [h]
  by_cases hshort : (stream.drop 4).length < ofBeBytes (stream.take 4)
  · exact Or.inr hshort
  · refine Or.inl ⟨(stream.drop 4).take (ofBeBytes (stream.take 4)),(stream.drop 4).drop (ofBeBytes (stream.take 4)),?_,?_⟩
    · rw [List.length_take, min_eq_left (Nat.not_lt.mp hshort)]
      exact ofBeBytes_lt htake
    · rw [frame, List.length_take, min_eq_left (Nat.not_lt.mp hshort), beBytes_ofBeBytes htake, List.append_assoc,
        List.take_append_drop, List.take_append_drop]

theorem frames_refused (hlen : payload.length < 2 ^ 32) (hb : accept payload = none) (rest : List UInt8) :
    frames accept (frame payload ++ rest) = [] := by
  rw [frames_step hlen, hb, Option.elim_none]

theorem frames_short (h : stream.length < 4 ∨ (stream.drop 4).length < ofBeBytes (stream.take 4)) :
    frames accept stream = [] := by
  rw [frames]
  exact dif_pos h

end Decode

end LogStats
