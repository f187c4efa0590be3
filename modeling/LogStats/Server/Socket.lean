import LogStats.Library.Frame
import LogStats.Server.Commands

/-! # Reading and answering requests, zip_socket.c and socket_thread

The client sends a stream of bytes and closes the connection behind it. What a call of
`read` or `write` does is up to the kernel, and so is how many calls it takes; after the
given ones a call moves all that it is asked for. A call of `read` does not fail, and the
memory for a payload is there.
-/
namespace LogStats

/-- A call of `read` is interrupted, or it moves at most `n + 1` bytes. -/
inductive SysCall where
  | interrupted
  | moves (n : ℕ)

/-- A call of `write` may also fail. -/
inductive WriteCall where
  | interrupted
  | moves (n : ℕ)
  | fails

/-- The loop of `socket_read` with `leftLen` bytes to go: what is read, and what is then
still to come. A call that moves no byte has met the end of the stream. -/
def socketRead : List SysCall → ℕ → List UInt8 → List UInt8 × List UInt8
  | [], leftLen, stream => (stream.take leftLen,stream.drop leftLen)
  | call :: calls, leftLen, stream =>
    if leftLen = 0 then ([],stream)
    else match call with
      | .interrupted => socketRead calls leftLen stream
      | .moves n =>
        let got := stream.take (min (n + 1) leftLen)
        if got = [] then ([],stream)
        else
          let (more,rest) := socketRead calls (leftLen - got.length) (stream.drop got.length)
          (got ++ more,rest)

/-- The loop of `socket_write`: the bytes that it writes. It returns when a call fails, and
what it returns is not looked at. -/
def socketWrite : List WriteCall → List UInt8 → List UInt8
  | [], buffer => buffer
  | call :: calls, buffer =>
    if buffer = [] then []
    else match call with
      | .interrupted => socketWrite calls buffer
      | .moves n => buffer.take (n + 1) ++ socketWrite calls (buffer.drop (n + 1))
      | .fails => []

/-- How many bytes these calls of `write` move when there are enough. -/
def moved (calls : List WriteCall) : ℕ :=
  (calls.map fun call => match call with
    | .moves n => n + 1
    | _ => 0).sum

/-- No call fails while some of `len` bytes are left. -/
def Carries (calls : List WriteCall) (len : ℕ) : Prop :=
  ∀ before after, calls = before ++ .fails :: after → len ≤ moved before

/-- However the kernel splits it, `socket_read` reads what is asked for, or what there is. -/
theorem socketRead_eq (calls : List SysCall) (leftLen : ℕ) (stream : List UInt8) :
    socketRead calls leftLen stream = (stream.take leftLen,stream.drop leftLen) := by
  induction calls generalizing leftLen stream with
  | nil => rfl
  | cons call calls ih =>
    by_cases hzero : leftLen = 0
    · simp [socketRead.eq_def, hzero]
    · cases call with
      | interrupted => simp only [socketRead, if_neg hzero, ih]
      | moves n =>
        have hlen : (stream.take (min (n + 1) leftLen)).length = min (min (n + 1) leftLen) stream.length :=
          List.length_take
        by_cases hend : stream.take (min (n + 1) leftLen) = []
        · have hnil : stream = [] := by
            rw [hend, List.length_nil] at hlen
            exact List.eq_nil_of_length_eq_zero (by omega)
          simp [socketRead, hzero, hnil]
        · simp only [socketRead, if_neg hzero, if_neg hend, ih]
          have hself : stream.take (min (n + 1) leftLen) = stream.take (stream.take (min (n + 1) leftLen)).length := by
            rw [hlen, ← List.take_eq_take_min]
          generalize hk : (stream.take (min (n + 1) leftLen)).length = k at *
          have hadd : k + (leftLen - k) = leftLen := by omega
          rw [hself, ← List.take_add, List.drop_drop, hadd]

section Carries
variable {call : WriteCall} {calls : List WriteCall} {len : ℕ}

theorem moved_cons : moved (call :: calls) = moved [call] + moved calls := by simp [moved]

theorem carries_nil : Carries [] len := fun before after h => by simp at h

theorem carries_zero : Carries calls 0 := fun _ _ _ => Nat.zero_le _

/-- The first call does not fail, or there is nothing left for it. -/
theorem carries_cons : Carries (call :: calls) len ↔ (call = .fails → len = 0) ∧ Carries calls (len - moved [call]) := by
  constructor
  · intro h
    constructor
    · rintro rfl
      exact Nat.le_zero.mp (h [] calls rfl)
    · rintro before after rfl
      have hle := h (call :: before) after rfl
      rw [moved_cons] at hle
      omega
  · rintro ⟨hfirst,hrest⟩ before after he
    rcases List.cons_eq_append_iff.mp he with ⟨rfl,hfails⟩ | ⟨before,rfl,hcalls⟩
    · rw [hfirst (List.cons.inj hfails).1.symm]
      exact Nat.zero_le _
    · have hle := hrest before after hcalls
      rw [moved_cons]
      omega

end Carries

/-- What `socket_write` writes is the start of the buffer. -/
theorem socketWrite_prefix (calls : List WriteCall) (buffer : List UInt8) : socketWrite calls buffer <+: buffer := by
  induction calls generalizing buffer with
  | nil => exact List.prefix_refl buffer
  | cons call calls ih =>
    by_cases hnil : buffer = []
    · simp [socketWrite, hnil]
    · cases call with
      | interrupted => simpa only [socketWrite, if_neg hnil] using ih buffer
      | moves n =>
        have happend := (List.prefix_append_right_inj (buffer.take (n + 1))).mpr (ih (buffer.drop (n + 1)))
        rw [List.take_append_drop] at happend
        simpa only [socketWrite, if_neg hnil] using happend
      | fails => simp only [socketWrite, if_neg hnil, List.nil_prefix]

theorem socketWrite_eq_iff (calls : List WriteCall) (buffer : List UInt8) :
    socketWrite calls buffer = buffer ↔ Carries calls buffer.length := by
  induction calls generalizing buffer with
  | nil => exact iff_of_true rfl carries_nil
  | cons call calls ih =>
    by_cases hnil : buffer = []
    · rw [hnil]
      exact iff_of_true (by simp [socketWrite]) carries_zero
    · cases call with
      | interrupted =>
        rw [carries_cons, socketWrite, if_neg hnil, and_iff_right (by simp)]
        exact ih buffer
      | moves n =>
        have hrest := ih (buffer.drop (n + 1))
        rw [List.length_drop] at hrest
        rw [carries_cons, and_iff_right (by simp), show moved [.moves n] = n + 1 from rfl, ← hrest]
        simp only [socketWrite, if_neg hnil]
        constructor
        · intro h
          exact List.append_cancel_left (h.trans (List.take_append_drop _ _).symm)
        · intro h
          rw [h, List.take_append_drop]
      | fails =>
        rw [carries_cons, List.length_eq_zero_iff, socketWrite, if_neg hnil]
        exact iff_of_false (Ne.symm hnil) (fun h => hnil (h.1 rfl))

end LogStats
