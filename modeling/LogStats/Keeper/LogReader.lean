import LogStats.Library.CString
import LogStats.Library.Run
import Mathlib.Logic.Function.Basic

/-! # How main.c follows the log

The files are told apart by their inodes. Between the steps of `main` bytes become visible at
the end of a file, or another file takes the name of the log. A step is a call of `fgets`
together with what its result leads to; the sleep between two polls is no step.
-/
namespace LogStats

/-- The bytes that `fgets` takes: up to a newline, or as many as there is room for. -/
def fgetsBytes : ℕ → List UInt8 → List UInt8
  | 0, _ => []
  | _, [] => []
  | n + 1, b :: bs => if b = 10 then [b] else b :: fgetsBytes n bs

/-- `fgets(strbuf, size, file)` for what is left of the stream, `none` for NULL. -/
def fgets (size : ℕ) (stream : List UInt8) : Option (List UInt8) :=
  if stream = [] then none else some (fgetsBytes (size - 1) stream)

structure LogReader where
  content : ℕ → List UInt8
  filename : ℕ
  file : ℕ
  offset : ℕ
  passed : List CString

inductive ReaderEvent where
  | write (inode : ℕ) (bytes : List UInt8)
  | rotate (inode : ℕ)
  | turn
deriving DecidableEq

namespace LogReader

/-- `fopen` and `fseek(file, 0, SEEK_END)` -/
def start (content : ℕ → List UInt8) (filename : ℕ) : LogReader :=
  ⟨content,filename,filename,(content filename).length,[]⟩

def unread (s : LogReader) : List UInt8 := (s.content s.file).drop s.offset

/-- A turn of the loop of `main`. At the end of the file it waits, or opens the file that has
the name now. -/
def step (s : LogReader) : ReaderEvent → LogReader
  | .write inode bytes => { s with content := Function.update s.content inode (s.content inode ++ bytes) }
  | .rotate inode => { s with filename := inode }
  | .turn =>
    match fgets 1024 s.unread with
    | some strbuf => { s with offset := s.offset + strbuf.length, passed := s.passed ++ [CString.read (strbuf ++ [0])] }
    | none => if s.filename = s.file then s else { s with file := s.filename, offset := 0 }

/-- What becomes visible in a file. -/
def written (inode : ℕ) : List ReaderEvent → List UInt8
  | [] => []
  | .write i bytes :: es => if i = inode then bytes ++ written inode es else written inode es
  | .rotate _ :: es => written inode es
  | .turn :: es => written inode es

def NoRotation (es : List ReaderEvent) : Prop := ∀ inode, .rotate inode ∉ es

/-- No line is caught half written: what is unread is nothing or has the end of a line. -/
def Unbroken (s : LogReader) (e : ReaderEvent) : Prop := e = .turn → s.unread = [] ∨ 10 ∈ s.unread

instance (s : LogReader) (e : ReaderEvent) : Decidable (s.Unbroken e) := inferInstanceAs (Decidable (_ → _))

end LogReader

/-! ## Lines -/

def newline : CString := ⟨[10],by decide⟩

/-- A line without its end, short enough for the buffer. -/
def ShortLine (l : CString) : Prop := 10 ∉ l.bytes ∧ l.strlen ≤ 1022

instance (l : CString) : Decidable (ShortLine l) := inferInstanceAs (Decidable (_ ∧ _))

/-- What a file with these lines holds. -/
def joined (lines : List CString) : List UInt8 := lines.flatMap fun l => (l ++ newline).bytes

section Lines
variable {l : CString} {lines : List CString} {bs rest : List UInt8} {n : ℕ} {b : UInt8}

@[simp] theorem joined_nil : joined [] = [] := rfl

theorem joined_cons : joined (l :: lines) = l.bytes ++ 10 :: joined lines := by
  simp [joined, newline]

theorem fgetsBytes_line (hbs : 10 ∉ bs) (hn : bs.length < n) : fgetsBytes n (bs ++ 10 :: rest) = bs ++ [10] := by
  induction bs generalizing n with
  | nil =>
    obtain ⟨n,rfl⟩ : ∃ k, n = k + 1 := ⟨n - 1,by simp at hn; omega⟩
    simp [fgetsBytes]
  | cons b bs ih =>
    obtain ⟨n,rfl⟩ : ∃ k, n = k + 1 := ⟨n - 1,by simp at hn; omega⟩
    obtain ⟨hb,hbs⟩ := not_or.mp (List.mem_cons.not.mp hbs)
    rw [List.cons_append, fgetsBytes, if_neg (Ne.symm hb), ih hbs (by simpa using hn), List.cons_append]

theorem mem_fgetsBytes (h : b ∈ fgetsBytes n bs) : b ∈ bs := by
  induction bs generalizing n with
  | nil => cases n <;> cases h
  | cons a bs ih =>
    cases n with
    | zero => cases h
    | succ n =>
      rw [fgetsBytes] at h
      split at h
      · rw [List.mem_singleton.mp h]
        exact List.mem_cons_self
      · rcases List.mem_cons.mp h with rfl | h
        · exact List.mem_cons_self
        · exact List.mem_cons_of_mem _ (ih h)

theorem mem_read (h : b ∈ (CString.read bs).bytes) : b ∈ bs := (List.takeWhile_prefix _).subset h

/-- What is unread in the middle of a line, if it goes on past its end. -/
theorem line_of_newline {u w : List UInt8} (h : u ++ w = l.bytes ++ 10 :: rest) (hl : 10 ∉ l.bytes) (hu : 10 ∈ u) :
    ∃ u', u = l.bytes ++ 10 :: u' ∧ u' ++ w = rest := by
  rcases List.append_eq_append_iff.mp h with ⟨x,hx,-⟩ | ⟨x,hx,hw⟩
  · exact absurd (hx ▸ List.mem_append_left x hu) hl
  · cases x with
    | nil =>
      rw [List.append_nil] at hx
      exact absurd (hx ▸ hu) hl
    | cons b x =>
      obtain ⟨rfl,hrest⟩ := List.cons.inj hw
      exact ⟨x,hx,hrest.symm⟩

end Lines

/-! ## Runs without rotation -/

namespace LogReader
variable {s : LogReader} {lines : List CString} {l : CString} {es : List ReaderEvent} {inode n : ℕ} {bytes rest : List UInt8}

/-- The log has kept its name, and it is read up to some place. -/
structure Following (s : LogReader) : Prop where
  named : s.filename = s.file
  offset_le : s.offset ≤ (s.content s.file).length

theorem start_following (content : ℕ → List UInt8) (filename : ℕ) : (start content filename).Following := ⟨rfl,le_rfl⟩

theorem start_unread (content : ℕ → List UInt8) (filename : ℕ) : (start content filename).unread = [] :=
  List.drop_length

/-- The step that finds nothing. -/
theorem step_of_nil (h : s.Following) (hu : s.unread = []) : s.step .turn = s := by
  simp [step, fgets, hu, h.named]

/-- The step that finds bytes. -/
theorem step_of_ne (hu : s.unread ≠ []) : s.step .turn = { s with
    offset := s.offset + (fgetsBytes 1023 s.unread).length,
    passed := s.passed ++ [CString.read (fgetsBytes 1023 s.unread ++ [0])] } := by
  simp [step, fgets, hu]

/-- A whole line is passed as it is. -/
theorem step_line (h : s.Following) (hl : ShortLine l) (hu : s.unread = l.bytes ++ 10 :: rest) :
    (s.step .turn).Following ∧ (s.step .turn).file = s.file ∧ (s.step .turn).unread = rest ∧
      (s.step .turn).passed = s.passed ++ [l ++ newline] := by
  have hne : s.unread ≠ [] := by simp [hu]
  have hbytes : fgetsBytes 1023 s.unread = (l ++ newline).bytes := by
    rw [hu, fgetsBytes_line hl.1 (Nat.lt_succ_of_le hl.2)]
    rfl
  have hlen : (l ++ newline).bytes.length ≤ s.unread.length := by
    rw [hu]
    simp [newline]
  have hrest : s.unread.drop (l ++ newline).bytes.length = rest := by
    rw [hu]
    simp [newline]
  rw [step_of_ne hne, hbytes, CString.read_bytes_append]
  refine ⟨⟨h.named,?_⟩,rfl,?_,rfl⟩
  · rw [unread, List.length_drop] at hlen
    have hle := h.offset_le
    change s.offset + (l ++ newline).bytes.length ≤ (s.content s.file).length
    omega
  · rw [← hrest, unread, unread, List.drop_drop]

theorem write_following (h : s.Following) : (s.step (.write inode bytes)).Following ∧
    (s.step (.write inode bytes)).unread = s.unread ++ if inode = s.file then bytes else [] := by
  by_cases hfile : inode = s.file
  · subst hfile
    refine ⟨⟨h.named,?_⟩,?_⟩
    · have hle := h.offset_le
      simp [step]
      omega
    · simp only [step, unread, Function.update_self, if_true]
      exact List.drop_append_of_le_length h.offset_le
  · refine ⟨⟨h.named,?_⟩,?_⟩
    · simpa [step, Function.update_of_ne (Ne.symm hfile)] using h.offset_le
    · simp [step, unread, Function.update_of_ne (Ne.symm hfile), hfile]

/-- What was passed stays passed. -/
theorem passed_prefix (s : LogReader) (es : List ReaderEvent) : s.passed <+: (es.foldl step s).passed := by
  induction es generalizing s with
  | nil => exact List.prefix_rfl
  | cons e es ih =>
    refine List.IsPrefix.trans ?_ (ih (s.step e))
    cases e with
    | write inode bytes => exact List.prefix_rfl
    | rotate inode => exact List.prefix_rfl
    | turn =>
      simp only [step]
      split
      · exact List.prefix_append _ _
      · split
        · exact List.prefix_rfl
        · exact List.prefix_rfl

/-- Enough steps pass all the lines that are there. -/
theorem drain (h : s.Following) (hlines : ∀ l ∈ lines, ShortLine l) (hu : s.unread = joined lines)
    (hn : lines.length ≤ n) :
    ((List.replicate n ReaderEvent.turn).foldl step s).passed = s.passed ++ lines.map (· ++ newline) := by
  induction n generalizing s lines with
  | zero =>
    obtain rfl : lines = [] := List.length_eq_zero_iff.mp (Nat.le_zero.mp hn)
    simp
  | succ n ih =>
    rw [List.replicate_succ, List.foldl_cons]
    cases lines with
    | nil =>
      rw [step_of_nil h hu]
      exact ih h hlines hu (Nat.zero_le n)
    | cons l lines =>
      rw [joined_cons] at hu
      obtain ⟨hnext,-,hunread,hpassed⟩ := step_line h (hlines l List.mem_cons_self) hu
      rw [ih hnext (fun k hk => hlines k (List.mem_cons_of_mem _ hk)) hunread (Nat.le_of_succ_le_succ hn), hpassed]
      simp

/-- From any state between two lines or in one, the lines that are left are passed whole if
and only if none is caught half written. -/
theorem follow_iff (h : s.Following) (hlines : ∀ l ∈ lines, ShortLine l) (hes : NoRotation es)
    (hu : s.unread ++ written s.file es = joined lines) (hn : lines.length ≤ n) :
    ((es ++ List.replicate n ReaderEvent.turn).foldl step s).passed = s.passed ++ lines.map (· ++ newline) ↔
      Along (fun s e => some (s.step e)) Unbroken s es := by
  induction es generalizing s lines with
  | nil =>
    rw [written, List.append_nil] at hu
    rw [List.nil_append, drain h hlines hu hn]
    exact iff_of_true rfl trivial
  | cons e es ih =>
    have hes' : NoRotation es := fun inode hin => hes inode (List.mem_cons_of_mem e hin)
    rw [List.cons_append, List.foldl_cons, along_cons_some rfl]
    cases e with
    | rotate inode => exact absurd List.mem_cons_self (hes inode)
    | write inode bytes =>
      obtain ⟨hnext,hunread⟩ := @write_following s inode bytes h
      have hu' : (s.step (.write inode bytes)).unread ++ written s.file es = joined lines := by
        rw [hunread, ← hu, written, List.append_assoc]
        split <;> simp
      exact (ih hnext hlines hes' hu' hn).trans (and_iff_right fun heq => by cases heq).symm
    | turn =>
      rw [written] at hu
      by_cases hnil : s.unread = []
      · rw [step_of_nil h hnil, ih h hlines hes' hu hn]
        exact (and_iff_right fun _ => Or.inl hnil).symm
      · cases lines with
        | nil => exact absurd (List.append_eq_nil_iff.mp hu).1 hnil
        | cons l lines =>
          obtain ⟨hl,hrest⟩ := List.forall_mem_cons.mp hlines
          rw [joined_cons] at hu
          by_cases hbreak : 10 ∈ s.unread
          · obtain ⟨u,hunread,hu'⟩ := line_of_newline hu hl.1 hbreak
            obtain ⟨hnext,hfile,hafter,hpassed⟩ := step_line h hl hunread
            have hstep := @ih (s.step .turn) lines hnext hrest hes' (by rw [hafter, hfile, hu']) (by simp at hn; omega)
            rw [hpassed] at hstep
            rw [List.map_cons, List.append_cons, hstep]
            exact (and_iff_right fun _ => Or.inr hbreak).symm
          · -- a piece of a line has been passed, and no line is without its end
            apply iff_of_false
            · intro heq
              have hprefix := passed_prefix (s.step .turn) (es ++ List.replicate n ReaderEvent.turn)
              rw [heq, step_of_ne hnil, List.prefix_append_right_inj, List.map_cons] at hprefix
              have hpiece := (List.cons_prefix_cons.mp hprefix).1
              have hin : (10 : UInt8) ∈ (CString.read (fgetsBytes 1023 s.unread ++ [0])).bytes := by
                rw [hpiece]
                simp [newline]
              rcases List.mem_append.mp (mem_read hin) with hin | hin
              · exact hbreak (mem_fgetsBytes hin)
              · exact absurd hin (by decide)
            · exact fun hok => (hok.1 rfl).elim hnil hbreak

end LogReader

/-- The strings that `main` passes on are the lines of the log, whatever the order in which its
bytes become visible, if and only if no line is caught half written. -/
theorem main_passes_lines_iff (content : ℕ → List UInt8) (filename : ℕ) (lines : List CString)
    (hlines : ∀ l ∈ lines, ShortLine l) (es : List ReaderEvent) (hes : LogReader.NoRotation es)
    (hwritten : LogReader.written filename es = joined lines) (n : ℕ) (hn : lines.length ≤ n) :
    ((es ++ List.replicate n ReaderEvent.turn).foldl LogReader.step (LogReader.start content filename)).passed =
        lines.map (· ++ newline) ↔
      Along (fun s e => some (LogReader.step s e)) LogReader.Unbroken (LogReader.start content filename) es := by
  have hstart := LogReader.start_following content filename
  have hu : (LogReader.start content filename).unread ++ LogReader.written filename es = joined lines := by
    rw [LogReader.start_unread, List.nil_append, hwritten]
  exact LogReader.follow_iff hstart hlines hes hu hn

/-- Two lines of one letter, written whole. -/
theorem main_passes_lines_iff_two :
    ((([.write 1 [97,10],.turn,.write 1 [98,10]] : List ReaderEvent) ++ List.replicate 2 ReaderEvent.turn).foldl LogReader.step
      (LogReader.start (fun _ => []) 1)).passed = [⟨[97],by decide⟩ ++ newline,⟨[98],by decide⟩ ++ newline] := by
  apply (main_passes_lines_iff (fun _ => []) 1 [⟨[97],by decide⟩,⟨[98],by decide⟩] (by decide) _ _ (by decide) 2 (by decide)).mpr
  · decide
  · intro inode
    simp

/-- A line of two letters that is read when the first has been written is passed in two pieces. -/
theorem main_passes_pieces : ∃ (lines : List CString) (es : List ReaderEvent), (∀ l ∈ lines, ShortLine l) ∧
    LogReader.NoRotation es ∧ LogReader.written 1 es = joined lines ∧
    ∀ n, 1 ≤ n → ((es ++ List.replicate n ReaderEvent.turn).foldl LogReader.step (LogReader.start (fun _ => []) 1)).passed ≠
      lines.map (· ++ newline) := by
  refine ⟨[⟨[97,98],by decide⟩],[.write 1 [97],.turn,.write 1 [98,10],.turn],by decide,fun inode => by simp,by decide,?_⟩
  intro n _ heq
  have hprefix := LogReader.passed_prefix (([.write 1 [97],.turn,.write 1 [98,10],.turn] : List ReaderEvent).foldl
    LogReader.step (LogReader.start (fun _ => []) 1)) (List.replicate n ReaderEvent.turn)
  rw [← List.foldl_append, heq] at hprefix
  exact absurd hprefix (by decide)

end LogStats
