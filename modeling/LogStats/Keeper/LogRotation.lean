import LogStats.Keeper.LogReader

/-! # How main.c follows a log that is rotated

Here each call of `main` is a step of its own, and between two calls the name server may write
a line, give up the name of the log, create another file with that name, or go over to that
file. `main` tells files apart by the low 32 bits of their inodes. It never clears the
end-of-file indicator: whether `fgets` goes on behind an end of the file that it has met is up
to the library.
-/
namespace LogStats

/-- `(int)ptr->st_ino` -/
def getInode (stIno : ℕ) : Int32 := Int32.ofNat stIno

/-- What `main` does next. -/
inductive FollowPhase where
  /-- `lstat` behind `fopen` -/
  | opened
  /-- `fgets` -/
  | reading
  /-- `lstat` at the end of the file -/
  | ended
  /-- `fopen` behind `fclose` -/
  | closed
  /-- `exit(1)` was called. -/
  | exited
deriving DecidableEq

/-- The files by their inodes, what has the name of the log, what the name server writes to,
and the variables of `main` with the strings that were passed on. -/
structure LogFollower where
  content : ℕ → List UInt8
  filename : Option ℕ
  log : ℕ
  file : ℕ
  offset : ℕ
  /-- The end-of-file indicator of the open file. -/
  eof : Bool
  /-- Whether `fgets` heeds it, as the C standard says; not every library does. -/
  sticky : Bool
  sbuf : ℕ
  lastInode : Int32
  phase : FollowPhase
  passed : List CString

inductive FollowEvent where
  | line (l : CString)
  | unlink
  | create (inode : ℕ)
  | reopen
  | turn
deriving DecidableEq

namespace LogFollower

/-- Behind the first `fopen` and `fseek`; `sbuf` and `last_inode` are not set yet. -/
def start (sticky : Bool) (content : ℕ → List UInt8) (filename sbuf : ℕ) (lastInode : Int32) : LogFollower :=
  ⟨content,some filename,filename,filename,(content filename).length,false,sticky,sbuf,lastInode,.opened,[]⟩

def unread (s : LogFollower) : List UInt8 := (s.content s.file).drop s.offset

/-- `fgets(strbuf, 1024, file)` -/
def gets (s : LogFollower) : Option (List UInt8) := if s.sticky && s.eof then none else fgets 1024 s.unread

/-- Whether the call met the end of the file: there was room for more than it read. -/
def meetsEnd (strbuf : List UInt8) : Bool := strbuf.getLast? ≠ some 10 ∧ strbuf.length < 1023

/-- `lstat(argv[1], &sbuf)`, which leaves `sbuf` as it is where there is no such file. -/
def lstat (s : LogFollower) : ℕ := s.filename.getD s.sbuf

/-- The next call of `main`. -/
def turn (s : LogFollower) : LogFollower :=
  match s.phase with
  | .opened => { s with sbuf := s.lstat, lastInode := getInode s.lstat, phase := .reading }
  | .reading =>
    match s.gets with
    | some strbuf => { s with
        offset := s.offset + strbuf.length
        eof := s.eof || meetsEnd strbuf
        passed := s.passed ++ [CString.read (strbuf ++ [0])] }
    | none => { s with eof := true, phase := .ended }
  | .ended => { s with sbuf := s.lstat, phase := if getInode s.lstat = s.lastInode then .reading else .closed }
  | .closed =>
    match s.filename with
    | none => { s with phase := .exited }
    | some inode => { s with file := inode, offset := 0, eof := false, phase := .opened }
  | .exited => s

def step (s : LogFollower) : FollowEvent → LogFollower
  | .line l => { s with content := Function.update s.content s.log (s.content s.log ++ (l ++ newline).bytes) }
  | .unlink => { s with filename := none }
  | .create inode => { s with filename := some inode, content := Function.update s.content inode [] }
  | .reopen => { s with log := s.filename.getD s.log }
  | .turn => s.turn

def linesOf (es : List FollowEvent) : List CString :=
  es.filterMap fun
    | .line l => some l
    | _ => none

/-- The log has another file than the one that is open. -/
def Behind (s : LogFollower) : Prop := s.filename ≠ none ∧ s.filename ≠ some s.file

instance (s : LogFollower) : Decidable s.Behind := inferInstanceAs (Decidable (_ ∧ _))

/-- A line is written to the file with the name or to the one that is still open; a file is
replaced while it is read, and by one that looks different; nothing was added to a replaced
file behind the end that was met. -/
def InTime (s : LogFollower) : FollowEvent → Prop
  | .line l => ShortLine l ∧ (s.filename = some s.log ∨ s.file = s.log ∧ s.phase ≠ .closed)
  | .unlink => (s.phase = .reading ∨ s.phase = .ended) ∧ ¬s.Behind
  | .create inode => (s.phase = .reading ∨ s.phase = .ended) ∧ ¬s.Behind ∧ getInode inode ≠ getInode s.file
  | .reopen => True
  | .turn => s.phase = .ended → s.Behind → s.unread = []

instance (s : LogFollower) : ∀ e, Decidable (s.InTime e)
  | .line l => inferInstanceAs (Decidable (ShortLine l ∧ (s.filename = some s.log ∨ s.file = s.log ∧ s.phase ≠ .closed)))
  | .unlink => inferInstanceAs (Decidable ((s.phase = .reading ∨ s.phase = .ended) ∧ ¬s.Behind))
  | .create inode =>
    inferInstanceAs (Decidable ((s.phase = .reading ∨ s.phase = .ended) ∧ ¬s.Behind ∧ getInode inode ≠ getInode s.file))
  | .reopen => isTrue trivial
  | .turn => inferInstanceAs (Decidable (s.phase = .ended → s.Behind → s.unread = []))

/-- What was written is what was passed, the lines left in the open file, and those of the file
that replaced it. -/
structure Kept (s : LogFollower) (written old new : List CString) : Prop where
  written_eq : s.passed ++ (old ++ new).map (· ++ newline) = written.map (· ++ newline)
  short : ∀ l ∈ old ++ new, ShortLine l
  unread_eq : s.unread = joined old
  offset_le : s.offset ≤ (s.content s.file).length
  behind : ∀ i, s.filename = some i → i ≠ s.file → s.content i = joined new ∧ getInode i ≠ getInode s.file
  new_nil : ¬s.Behind ∨ s.log = s.file → new = []
  opened : s.phase = .opened → s.filename = some s.file
  stat : s.phase = .reading ∨ s.phase = .ended → s.lastInode = getInode s.file ∧ getInode s.sbuf = s.lastInode
  closed : s.phase = .closed → old = [] ∧ s.Behind
  running : s.phase ≠ .exited
  heedless : s.sticky = false

section Steps
variable {s : LogFollower} {written old new : List CString} {l : CString} {inode : ℕ}

theorem gets_heedless (h : s.sticky = false) : s.gets = fgets 1024 s.unread := by
  rw [gets, h, Bool.false_and, if_neg Bool.false_ne_true]

theorem start_kept (content : ℕ → List UInt8) (filename sbuf : ℕ) (lastInode : Int32) :
    (start false content filename sbuf lastInode).Kept [] [] [] where
  written_eq := rfl
  short l hl := by cases hl
  unread_eq := List.drop_length
  offset_le := le_rfl
  behind i hi hne := absurd (Option.some.inj hi).symm hne
  new_nil _ := rfl
  opened _ := rfl
  stat h := by rcases h with h | h <;> cases h
  closed h := by cases h
  running h := by cases h
  heedless := rfl

theorem joined_concat (lines : List CString) (l : CString) : joined (lines ++ [l]) = joined lines ++ (l ++ newline).bytes := by
  rw [joined, List.flatMap_append, List.flatMap_singleton, joined]

theorem not_behind_iff : ¬s.Behind ↔ s.filename = none ∨ s.filename = some s.file := by
  rw [Behind, not_and_or, not_not, not_not]

theorem Kept.line (h : s.Kept written old new) (hl : s.InTime (.line l)) :
    ∃ old' new', (s.step (.line l)).Kept (written ++ [l]) old' new' := by
  obtain ⟨hshort,hto⟩ := hl
  by_cases hlog : s.log = s.file
  · obtain rfl : new = [] := h.new_nil (Or.inr hlog)
    refine ⟨old ++ [l],[],?_,?_,?_,?_,?_,fun _ => rfl,h.opened,h.stat,?_,h.running,h.heedless⟩
    · have heq := h.written_eq
      rw [List.append_nil] at heq ⊢
      rw [List.map_append, List.map_append, ← List.append_assoc, ← heq]
      rfl
    · intro k hk
      rw [List.append_nil, List.mem_append, List.mem_singleton] at hk
      rcases hk with hk | rfl
      · exact h.short k (List.mem_append_left _ hk)
      · exact hshort
    · rw [joined_concat, ← h.unread_eq]
      simp only [step, unread, hlog, Function.update_self]
      exact List.drop_append_of_le_length h.offset_le
    · simp only [step, hlog, Function.update_self, List.length_append]
      exact h.offset_le.trans (Nat.le_add_right _ _)
    · intro i hi hne
      obtain ⟨hcontent,hinode⟩ := h.behind i hi hne
      refine ⟨?_,hinode⟩
      rw [← hcontent]
      exact Function.update_of_ne (fun heq => hne (heq.trans hlog)) _ _
    · intro hclosed
      obtain ⟨-,-,hbehind⟩ := h.closed hclosed
      rcases hto with hto | ⟨-,hto⟩
      · exact absurd (hto.trans (congrArg some hlog)) hbehind
      · exact absurd hclosed hto
  · obtain hname : s.filename = some s.log := hto.resolve_right fun hfile => hlog hfile.1.symm
    refine ⟨old,new ++ [l],?_,?_,?_,?_,?_,?_,h.opened,h.stat,h.closed,h.running,h.heedless⟩
    · have heq := congrArg (· ++ [l ++ newline]) h.written_eq
      simpa [step] using heq
    · intro k hk
      rw [← List.append_assoc, List.mem_append, List.mem_singleton] at hk
      rcases hk with hk | rfl
      · exact h.short k hk
      · exact hshort
    · rw [← h.unread_eq]
      simp only [step, unread, Function.update_of_ne (Ne.symm hlog)]
    · simpa only [step, Function.update_of_ne (Ne.symm hlog)] using h.offset_le
    · intro i hi hne
      obtain rfl : s.log = i := Option.some.inj (hname.symm.trans hi)
      obtain ⟨hcontent,hinode⟩ := h.behind s.log hname hne
      refine ⟨?_,hinode⟩
      rw [joined_concat, ← hcontent]
      exact Function.update_self ..
    · rintro (hnot | heq)
      · rcases not_behind_iff.mp hnot with hnone | hsame
        · exact absurd (hname.symm.trans hnone) (Option.some_ne_none _)
        · exact absurd (Option.some.inj (hname.symm.trans hsame)) hlog
      · exact absurd heq hlog

theorem Kept.unlink (h : s.Kept written old new) (hs : s.InTime .unlink) : (s.step .unlink).Kept written old new := by
  obtain ⟨hphase,hbehind⟩ := hs
  refine ⟨h.written_eq,h.short,h.unread_eq,h.offset_le,fun i hi => (by cases hi),fun _ => h.new_nil (Or.inl hbehind),?_,h.stat,
    fun hclosed => absurd (h.closed hclosed).2 hbehind,h.running,h.heedless⟩
  intro hopened
  rcases hphase with hphase | hphase <;> exact absurd (hopened.symm.trans hphase) (by decide)

theorem Kept.create (h : s.Kept written old new) (hs : s.InTime (.create inode)) :
    (s.step (.create inode)).Kept written old new := by
  obtain ⟨hphase,hbehind,hinode⟩ := hs
  have hne : inode ≠ s.file := fun heq => hinode (heq ▸ rfl)
  obtain rfl := h.new_nil (Or.inl hbehind)
  have hsame : (s.step (.create inode)).content s.file = s.content s.file := Function.update_of_ne (Ne.symm hne) _ _
  refine ⟨h.written_eq,h.short,?_,?_,?_,fun _ => rfl,?_,h.stat,fun hclosed => absurd (h.closed hclosed).2 hbehind,h.running,h.heedless⟩
  · rw [← h.unread_eq]
    exact congrArg (List.drop s.offset) hsame
  · exact h.offset_le.trans_eq (congrArg List.length hsame.symm)
  · intro i hi _
    obtain rfl := Option.some.inj hi
    exact ⟨Function.update_self ..,hinode⟩
  · intro hopened
    rcases hphase with hphase | hphase <;> exact absurd (hopened.symm.trans hphase) (by decide)

theorem Kept.reopen (h : s.Kept written old new) : (s.step .reopen).Kept written old new := by
  refine ⟨h.written_eq,h.short,h.unread_eq,h.offset_le,h.behind,?_,h.opened,h.stat,h.closed,h.running,h.heedless⟩
  rintro (hnot | hlog)
  · exact h.new_nil (Or.inl hnot)
  · by_cases hbehind : s.Behind
    · obtain ⟨i,hi⟩ := Option.ne_none_iff_exists'.mp hbehind.1
      have hlog : s.filename.getD s.log = s.file := hlog
      rw [hi, Option.getD_some] at hlog
      exact absurd (hi.trans (congrArg some hlog)) hbehind.2
    · exact h.new_nil (Or.inl hbehind)

/-- What a turn leaves of the lines that are to be passed, and of the turns that it takes. -/
def rank (s : LogFollower) (old new : List CString) : ℕ :=
  match s.phase with
  | .opened => old.length + 1
  | .reading => old.length + if s.Behind then new.length + 4 else 0
  | .ended => if s.Behind then new.length + 3 else old.length + 1
  | .closed => new.length + 2
  | .exited => 0

theorem joined_eq_nil {lines : List CString} (h : joined lines = []) : lines = [] := by
  cases lines with
  | nil => rfl
  | cons l lines =>
    rw [joined_cons] at h
    exact absurd h (by simp)

theorem Kept.turn_opened (h : s.Kept written old new) (hphase : s.phase = .opened) :
    s.turn.Kept written old new ∧ s.turn.rank old new < s.rank old new := by
  have hname := h.opened hphase
  have hbehind : ¬s.Behind := fun hb => hb.2 hname
  have hstat : s.lstat = s.file := by rw [lstat, hname, Option.getD_some]
  have hturn : s.turn = { s with sbuf := s.file, lastInode := getInode s.file, phase := .reading } := by
    rw [LogFollower.turn, hphase, ← hstat]
  rw [hturn]
  refine ⟨⟨h.written_eq,h.short,h.unread_eq,h.offset_le,h.behind,h.new_nil,fun hne => (by cases hne),fun _ => ⟨rfl,rfl⟩,
    fun hne => (by cases hne),fun hne => (by cases hne),h.heedless⟩,?_⟩
  have hsame : ¬Behind { s with sbuf := s.file, lastInode := getInode s.file, phase := .reading } := hbehind
  simp only [rank, hphase, if_neg hsame]
  omega

/-- A whole line is passed, or the end is met. -/
theorem Kept.turn_reading (h : s.Kept written old new) (hphase : s.phase = .reading) :
    ∃ old', s.turn.Kept written old' new ∧ (old ++ new ≠ [] → s.turn.rank old' new < s.rank old new) := by
  cases old with
  | nil =>
    have hturn : s.turn = { s with eof := true, phase := .ended } := by
      rw [LogFollower.turn, hphase]
      simp only [gets_heedless h.heedless, fgets, h.unread_eq, joined_nil, if_true]
    refine ⟨[],?_,fun hne => ?_⟩
    · rw [hturn]
      exact ⟨h.written_eq,h.short,h.unread_eq,h.offset_le,h.behind,h.new_nil,fun hne => (by cases hne),
        fun _ => h.stat (Or.inl hphase),fun hne => (by cases hne),fun hne => (by cases hne),h.heedless⟩
    · by_cases hbehind : s.Behind
      · have hsame : Behind { s with eof := true, phase := .ended } := hbehind
        rw [hturn]
        simp only [rank, hphase, if_pos hsame, if_pos hbehind, List.length_nil]
        omega
      · exact absurd (h.new_nil (Or.inl hbehind)) hne
  | cons l old =>
    obtain ⟨hl,hrest⟩ := List.forall_mem_cons.mp (show ∀ k ∈ l :: (old ++ new), ShortLine k from h.short)
    have hunread : s.unread = l.bytes ++ 10 :: joined old := h.unread_eq.trans joined_cons
    have hbytes : fgetsBytes 1023 s.unread = (l ++ newline).bytes := by
      rw [hunread, fgetsBytes_line hl.1 (Nat.lt_succ_of_le hl.2)]
      rfl
    have hturn : s.turn = { s with
        offset := s.offset + (l ++ newline).bytes.length,
        eof := s.eof || meetsEnd (l ++ newline).bytes,
        passed := s.passed ++ [l ++ newline] } := by
      have hne : s.unread ≠ [] := by simp [hunread]
      rw [LogFollower.turn, hphase]
      simp only [gets_heedless h.heedless, fgets, if_neg hne, hbytes, CString.read_bytes_append]
    have hdrop : s.unread.drop (l ++ newline).bytes.length = joined old := by
      rw [hunread]
      simp [newline]
    have hlen : (l ++ newline).bytes.length ≤ s.unread.length := by
      rw [hunread]
      simp [newline]
    refine ⟨old,?_,fun _ => ?_⟩
    · rw [hturn]
      refine ⟨?_,hrest,?_,?_,h.behind,h.new_nil,fun hne => absurd (hphase.symm.trans hne) (by decide),fun _ => h.stat (Or.inl hphase),
        fun hne => absurd (hphase.symm.trans hne) (by decide),h.running,h.heedless⟩
      · rw [← h.written_eq, List.append_assoc]
        rfl
      · rw [← hdrop, unread, unread, List.drop_drop]
      · have hle := h.offset_le
        rw [unread, List.length_drop] at hlen
        change s.offset + (l ++ newline).bytes.length ≤ (s.content s.file).length
        omega
    · rw [hturn]
      simp only [rank, hphase, List.length_cons]
      have hsame : Behind { s with
          offset := s.offset + (l ++ newline).bytes.length,
          eof := s.eof || meetsEnd (l ++ newline).bytes,
          passed := s.passed ++ [l ++ newline],
          phase := .reading } ↔ s.Behind := Iff.rfl
      simp only [hsame]
      omega

theorem Kept.turn_ended (h : s.Kept written old new) (hs : s.InTime .turn) (hphase : s.phase = .ended) :
    s.turn.Kept written old new ∧ s.turn.rank old new < s.rank old new := by
  obtain ⟨hlast,hsbuf⟩ := h.stat (Or.inr hphase)
  by_cases hbehind : s.Behind
  · obtain ⟨i,hi⟩ := Option.ne_none_iff_exists'.mp hbehind.1
    have hne : i ≠ s.file := fun heq => hbehind.2 (hi.trans (congrArg some heq))
    have hstat : s.lstat = i := by rw [lstat, hi, Option.getD_some]
    have hdiffer : getInode i ≠ s.lastInode := by
      rw [hlast]
      exact (h.behind i hi hne).2
    have hold : old = [] := joined_eq_nil (h.unread_eq.symm.trans (hs hphase hbehind))
    have hturn : s.turn = { s with sbuf := i, phase := .closed } := by
      rw [LogFollower.turn, hphase]
      simp only [hstat, if_neg hdiffer]
    rw [hturn]
    refine ⟨⟨h.written_eq,h.short,h.unread_eq,h.offset_le,h.behind,h.new_nil,fun hne => (by cases hne),
      fun hne => hne.elim (fun hne => (by cases hne)) fun hne => (by cases hne),fun _ => ⟨hold,hbehind⟩,fun hne => (by cases hne),
      h.heedless⟩,?_⟩
    simp only [rank, hphase, if_pos hbehind]
    omega
  · have hstat : getInode s.lstat = s.lastInode := by
      rcases not_behind_iff.mp hbehind with hnone | hsame
      · rw [lstat, hnone, Option.getD_none, hsbuf]
      · rw [lstat, hsame, Option.getD_some, hlast]
    have hturn : s.turn = { s with sbuf := s.lstat, phase := .reading } := by
      rw [LogFollower.turn, hphase]
      simp only [if_pos hstat]
    rw [hturn]
    refine ⟨⟨h.written_eq,h.short,h.unread_eq,h.offset_le,h.behind,h.new_nil,fun hne => (by cases hne),fun _ => ⟨hlast,hstat⟩,
      fun hne => (by cases hne),fun hne => (by cases hne),h.heedless⟩,?_⟩
    have hsame : ¬Behind { s with sbuf := s.lstat, phase := .reading } := hbehind
    simp only [rank, hphase, if_neg hbehind, if_neg hsame]
    omega

/-- The file that has the name now is opened, and what was new is what is in it. -/
theorem Kept.turn_closed (h : s.Kept written old new) (hphase : s.phase = .closed) :
    s.turn.Kept written new [] ∧ s.turn.rank new [] < s.rank old new := by
  obtain ⟨rfl,hbehind⟩ := h.closed hphase
  obtain ⟨i,hi⟩ := Option.ne_none_iff_exists'.mp hbehind.1
  have hne : i ≠ s.file := fun heq => hbehind.2 (hi.trans (congrArg some heq))
  have hturn : s.turn = { s with file := i, offset := 0, eof := false, phase := .opened } := by
    rw [LogFollower.turn, hphase]
    simp only [hi]
  rw [hturn]
  refine ⟨⟨?_,?_,(h.behind i hi hne).1,Nat.zero_le _,?_,fun _ => rfl,fun _ => hi,
    fun hne => hne.elim (fun hne => (by cases hne)) fun hne => (by cases hne),fun hne => (by cases hne),fun hne => (by cases hne),
    h.heedless⟩,?_⟩
  · rw [List.append_nil]
    exact h.written_eq
  · rw [List.append_nil]
    exact h.short
  · intro j hj hdiffer
    exact absurd (Option.some.inj (hj.symm.trans hi)) hdiffer
  · simp only [rank, hphase]
    omega

theorem Kept.turn (h : s.Kept written old new) (hs : s.InTime .turn) :
    ∃ old' new', s.turn.Kept written old' new' ∧ (old ++ new ≠ [] → s.turn.rank old' new' < s.rank old new) := by
  cases hphase : s.phase with
  | exited => exact absurd hphase h.running
  | opened => exact ⟨old,new,(h.turn_opened hphase).1,fun _ => (h.turn_opened hphase).2⟩
  | reading =>
    obtain ⟨old',h',hrank⟩ := h.turn_reading hphase
    exact ⟨old',new,h',hrank⟩
  | ended => exact ⟨old,new,(h.turn_ended hs hphase).1,fun _ => (h.turn_ended hs hphase).2⟩
  | closed => exact ⟨new,[],(h.turn_closed hphase).1,fun _ => (h.turn_closed hphase).2⟩

/-- A step that is in time keeps what was written. -/
theorem Kept.of_step {e : FollowEvent} (h : s.Kept written old new) (hs : s.InTime e) :
    ∃ old' new', (s.step e).Kept (written ++ linesOf [e]) old' new' := by
  cases e with
  | line l => exact h.line hs
  | unlink => exact ⟨old,new,by simpa [linesOf] using h.unlink hs⟩
  | create inode => exact ⟨old,new,by simpa [linesOf] using h.create hs⟩
  | reopen => exact ⟨old,new,by simpa [linesOf] using h.reopen⟩
  | turn =>
    obtain ⟨old',new',h',-⟩ := h.turn hs
    exact ⟨old',new',by simpa [linesOf] using show (s.step .turn).Kept written old' new' from h'⟩

end Steps

section Runs
variable {s : LogFollower} {written old new : List CString} {es : List FollowEvent} {n : ℕ}

theorem Kept.of_run (h : s.Kept written old new) (hes : Along (fun s e => some (s.step e)) InTime s es) :
    ∃ old' new', (es.foldl step s).Kept (written ++ linesOf es) old' new' := by
  induction es generalizing s written old new with
  | nil => exact ⟨old,new,by simpa [linesOf] using h⟩
  | cons e es ih =>
    obtain ⟨hs,hrest⟩ := (along_cons_some rfl).mp hes
    obtain ⟨old₁,new₁,h₁⟩ := h.of_step hs
    obtain ⟨old',new',h'⟩ := ih h₁ hrest
    refine ⟨old',new',?_⟩
    rw [List.append_assoc] at h'
    rw [linesOf, ← List.singleton_append, List.filterMap_append]
    exact h'

theorem turn_passed (s : LogFollower) : s.passed <+: s.turn.passed := by
  rw [turn]
  split
  · exact List.prefix_rfl
  · split
    · exact List.prefix_append _ _
    · exact List.prefix_rfl
  · exact List.prefix_rfl
  · split <;> exact List.prefix_rfl
  · exact List.prefix_rfl

theorem Kept.passed_prefix (h : s.Kept written old new) : s.passed <+: written.map (· ++ newline) :=
  ⟨(old ++ new).map (· ++ newline),h.written_eq⟩

theorem turns_passed (s : LogFollower) (n : ℕ) : s.passed <+: ((List.replicate n FollowEvent.turn).foldl step s).passed := by
  induction n generalizing s with
  | zero => exact List.prefix_rfl
  | succ n ih => exact (turn_passed s).trans (ih s.turn)

theorem linesOf_turns (n : ℕ) : linesOf (List.replicate n .turn) = [] := by
  simp [linesOf]

theorem Kept.done (h : s.Kept written old new) (hnil : old ++ new = []) : s.passed = written.map (· ++ newline) := by
  have heq := h.written_eq
  rwa [hnil, List.map_nil, List.append_nil] at heq

theorem Kept.rank_pos (h : s.Kept written old new) (hne : old ++ new ≠ []) : 0 < s.rank old new := by
  have hrunning := h.running
  cases hphase : s.phase <;> simp only [rank, hphase]
  · exact Nat.succ_pos _
  · by_cases hbehind : s.Behind
    · rw [if_pos hbehind]
      omega
    · rw [h.new_nil (Or.inl hbehind), List.append_nil] at hne
      exact (List.length_pos_of_ne_nil hne).trans_le (Nat.le_add_right _ _)
  · split <;> omega
  · omega
  · exact absurd hphase hrunning

/-- The turns that the rank counts pass everything. -/
theorem Kept.drain (h : s.Kept written old new) (hes : Along (fun s e => some (s.step e)) InTime s (List.replicate n .turn))
    (hn : s.rank old new ≤ n) : ((List.replicate n FollowEvent.turn).foldl step s).passed = written.map (· ++ newline) := by
  induction n generalizing s old new with
  | zero =>
    by_cases hnil : old ++ new = []
    · exact h.done hnil
    · have hpos := h.rank_pos hnil
      omega
  | succ n ih =>
    by_cases hnil : old ++ new = []
    · -- nothing is left, and no more is passed than was written
      obtain ⟨old',new',h'⟩ := h.of_run hes
      rw [linesOf_turns, List.append_nil] at h'
      have hmore := turns_passed s (n + 1)
      rw [h.done hnil] at hmore
      exact (hmore.eq_of_length_le h'.passed_prefix.length_le).symm
    · obtain ⟨hs,hrest⟩ := (along_cons_some rfl).mp hes
      obtain ⟨old',new',h',hrank⟩ := h.turn hs
      have hless : s.turn.rank old' new' ≤ n := Nat.le_of_lt_succ ((hrank hnil).trans_le hn)
      exact ih h' hrest hless

theorem Kept.rank_le (h : s.Kept written old new) : s.rank old new ≤ written.length + 4 := by
  have hlen := congrArg List.length h.written_eq
  simp only [List.length_append, List.length_map] at hlen
  cases hphase : s.phase <;> simp only [rank, hphase]
  · omega
  · split <;> omega
  · split <;> omega
  · omega
  · omega

/-! ## A rotation that is not seen -/

/-- The file that has the name looks like the last one that was open, and is not the open one,
of which there are `lines` to read. -/
structure Deaf (s : LogFollower) (i file : ℕ) (passed lines : List CString) : Prop where
  file_eq : s.file = file
  log_ne : s.log ≠ file
  reads : ∃ done old, lines = done ++ old ∧ s.unread = joined old ∧ s.passed = passed ++ done.map (· ++ newline)
  named : s.filename = none ∨ s.filename = some i
  phase : s.phase = .opened ∨ (s.phase = .reading ∨ s.phase = .ended) ∧ s.lastInode = getInode s.sbuf ∧
    (s.filename = some i → s.lastInode = getInode i)

section Deaf
variable {i file : ℕ} {passed lines : List CString}

theorem Deaf.lstat_eq (h : s.Deaf i file passed lines) :
    s.filename = none ∧ s.lstat = s.sbuf ∨ s.filename = some i ∧ s.lstat = i := by
  rcases h.named with hnone | hsome
  · exact Or.inl ⟨hnone,by rw [lstat, hnone, Option.getD_none]⟩
  · exact Or.inr ⟨hsome,by rw [lstat, hsome, Option.getD_some]⟩

/-- One of the lines is read, or none. -/
theorem Deaf.turn_reading (h : s.Deaf i file passed lines) (hshort : ∀ l ∈ lines, ShortLine l) (hphase : s.phase = .reading) :
    s.turn.Deaf i file passed lines := by
  obtain ⟨done,old,rfl,hunread,hpassed⟩ := h.reads
  obtain ⟨-,hlast,hname⟩ := h.phase.resolve_left fun hopened => by rw [hphase] at hopened; cases hopened
  cases hgets : s.gets with
  | none =>
    have hturn : s.turn = { s with eof := true, phase := .ended } := by
      rw [LogFollower.turn, hphase]
      simp only [hgets]
    rw [hturn]
    exact ⟨h.file_eq,h.log_ne,⟨done,old,rfl,hunread,hpassed⟩,h.named,Or.inr ⟨Or.inr rfl,hlast,hname⟩⟩
  | some strbuf =>
    have hturn : s.turn = { s with
        offset := s.offset + strbuf.length
        eof := s.eof || meetsEnd strbuf
        passed := s.passed ++ [CString.read (strbuf ++ [0])] } := by
      rw [LogFollower.turn, hphase]
      simp only [hgets]
    have hfgets : fgets 1024 s.unread = some strbuf := by
      rw [gets] at hgets
      split at hgets
      · cases hgets
      · exact hgets
    rw [hunread] at hfgets
    cases old with
    | nil => rw [joined_nil, fgets, if_pos rfl] at hfgets; cases hfgets
    | cons l old =>
      obtain ⟨hl,hlen⟩ := hshort l (by simp)
      have hline : strbuf = (l ++ newline).bytes := by
        rw [fgets, if_neg (by rw [joined_cons]; simp), joined_cons, fgetsBytes_line hl (Nat.lt_succ_of_le hlen)] at hfgets
        exact (Option.some.inj hfgets).symm
      have hrest : (s.content s.file).drop (s.offset + strbuf.length) = joined old := by
        rw [← List.drop_drop, ← unread, hunread, hline, joined_cons]
        simp [newline]
      rw [hturn]
      refine ⟨h.file_eq,h.log_ne,⟨done ++ [l],old,by simp,hrest,?_⟩,h.named,Or.inr ⟨Or.inl hphase,hlast,hname⟩⟩
      simp only [hpassed, hline, CString.read_bytes_append, List.map_append, List.append_assoc]
      rfl

theorem Deaf.of_turn (h : s.Deaf i file passed lines) (hshort : ∀ l ∈ lines, ShortLine l) :
    s.turn.Deaf i file passed lines := by
  rcases h.phase with hphase | ⟨hphase | hphase,hlast,hname⟩
  · have hturn : s.turn = { s with sbuf := s.lstat, lastInode := getInode s.lstat, phase := .reading } := by
      rw [turn, hphase]
    rw [hturn]
    refine ⟨h.file_eq,h.log_ne,h.reads,h.named,Or.inr ⟨Or.inl rfl,rfl,fun hsome => ?_⟩⟩
    change getInode s.lstat = getInode i
    rw [lstat, show s.filename = some i from hsome, Option.getD_some]
  · exact h.turn_reading hshort hphase
  · have hstat : getInode s.lstat = s.lastInode := by
      rcases h.lstat_eq with ⟨-,heq⟩ | ⟨hsome,heq⟩
      · rw [heq, hlast]
      · rw [heq, hname hsome]
    have hturn : s.turn = { s with sbuf := s.lstat, phase := .reading } := by
      rw [turn, hphase]
      simp only [if_pos hstat]
    rw [hturn]
    exact ⟨h.file_eq,h.log_ne,h.reads,h.named,Or.inr ⟨Or.inl rfl,hstat.symm,hname⟩⟩

theorem Deaf.of_step {e : FollowEvent} (h : s.Deaf i file passed lines) (hshort : ∀ l ∈ lines, ShortLine l) (hi : i ≠ file)
    (he : ∀ inode, e ≠ .create inode) : (s.step e).Deaf i file passed lines := by
  cases e with
  | line l =>
    obtain ⟨done,old,hlines,hunread,hpassed⟩ := h.reads
    refine ⟨h.file_eq,h.log_ne,⟨done,old,hlines,?_,hpassed⟩,h.named,h.phase⟩
    have hne : s.file ≠ s.log := fun heq => h.log_ne (heq.symm.trans h.file_eq)
    rw [← hunread, unread, unread]
    exact congrArg (List.drop s.offset) (Function.update_of_ne hne _ _)
  | unlink =>
    refine ⟨h.file_eq,h.log_ne,h.reads,Or.inl rfl,h.phase.imp_right ?_⟩
    exact fun ⟨hphase,hlast,_⟩ => ⟨hphase,hlast,fun hsome => nomatch hsome⟩
  | create inode => exact absurd rfl (he inode)
  | reopen =>
    refine ⟨h.file_eq,?_,h.reads,h.named,h.phase⟩
    change s.filename.getD s.log ≠ file
    rcases h.named with hnone | hsome
    · rw [hnone, Option.getD_none]
      exact h.log_ne
    · rw [hsome, Option.getD_some]
      exact hi
  | turn => exact h.of_turn hshort

theorem Deaf.of_run (h : s.Deaf i file passed lines) (hshort : ∀ l ∈ lines, ShortLine l) (hi : i ≠ file)
    (hes : ∀ inode, .create inode ∉ es) : (es.foldl step s).Deaf i file passed lines := by
  induction es generalizing s with
  | nil => exact h
  | cons e es ih =>
    refine ih (h.of_step hshort hi fun inode heq => ?_) fun inode hin => hes inode (List.mem_cons_of_mem e hin)
    exact hes inode (heq ▸ List.mem_cons_self)

end Deaf

/-! ## A library that heeds the indicator -/

theorem step_heeded {e : FollowEvent} (hsticky : s.sticky = true) (heof : s.eof = true) (hphase : s.phase ≠ .closed) :
    (s.step e).passed = s.passed ∧ (s.step e).sticky = true ∧ (s.step e).eof = true := by
  cases e with
  | turn =>
    have hgets : s.gets = none := by rw [gets, hsticky, heof, Bool.and_self, if_pos rfl]
    change s.turn.passed = s.passed ∧ s.turn.sticky = true ∧ s.turn.eof = true
    rw [turn]
    split
    · exact ⟨rfl,hsticky,heof⟩
    · rw [hgets]
      exact ⟨rfl,hsticky,rfl⟩
    · exact ⟨rfl,hsticky,heof⟩
    · rename_i hclosed
      exact absurd hclosed hphase
    · exact ⟨rfl,hsticky,heof⟩
  | line l => exact ⟨rfl,hsticky,heof⟩
  | unlink => exact ⟨rfl,hsticky,heof⟩
  | create inode => exact ⟨rfl,hsticky,heof⟩
  | reopen => exact ⟨rfl,hsticky,heof⟩

/-- Behind an end of the file nothing is passed, until the file is closed. -/
theorem run_heeded (hsticky : s.sticky = true) (heof : s.eof = true)
    (hes : Along (fun s e => some (s.step e)) (fun s _ => s.phase ≠ .closed) s es) :
    (es.foldl step s).passed = s.passed := by
  induction es generalizing s with
  | nil => rfl
  | cons e es ih =>
    obtain ⟨hphase,hrest⟩ := (along_cons_some rfl).mp hes
    obtain ⟨hpassed,hsticky',heof'⟩ := @step_heeded s e hsticky heof hphase
    exact (ih hsticky' heof' hrest).trans hpassed

end Runs

end LogFollower

open LogFollower

/-- Over rotations, and however the steps of `main` and of the name server interleave, the lines that
are passed on are those that were written, in order and each once, up to some place; when
the name server pauses, all of them are passed. This is so where `fgets` goes on behind an end of
the file; where it heeds the indicator nothing is passed from an end of the file on until the
file is closed. -/
theorem log_rotation_exactly_once (content : ℕ → List UInt8) (filename sbuf : ℕ) (lastInode : Int32) (es : List FollowEvent)
    (hes : Along (fun s e => some (LogFollower.step s e)) InTime (start false content filename sbuf lastInode) es) :
    (es.foldl LogFollower.step (start false content filename sbuf lastInode)).passed <+: (linesOf es).map (· ++ newline) ∧
    (∀ n, (linesOf es).length + 4 ≤ n →
      Along (fun s e => some (LogFollower.step s e)) InTime (start false content filename sbuf lastInode)
        (es ++ List.replicate n .turn) →
      ((es ++ List.replicate n FollowEvent.turn).foldl LogFollower.step (start false content filename sbuf lastInode)).passed =
        (linesOf es).map (· ++ newline)) ∧
    ∀ s : LogFollower, s.sticky = true → s.eof = true → ∀ es',
      Along (fun s e => some (LogFollower.step s e)) (fun s _ => s.phase ≠ .closed) s es' →
      (es'.foldl LogFollower.step s).passed = s.passed := by
  obtain ⟨old,new,h⟩ := (start_kept content filename sbuf lastInode).of_run hes
  rw [List.nil_append] at h
  refine ⟨h.passed_prefix,fun n hn hturns => ?_,fun s hsticky heof es' hes' => run_heeded hsticky heof hes'⟩
  rw [List.foldl_append]
  exact h.drain ((along_append_total _ _).mp hturns).2 (h.rank_le.trans hn)

/-- One line before a rotation and one behind it. -/
theorem log_rotation_exactly_once_two :
    (([.turn,.line ⟨[97],by decide⟩,.unlink,.create 2,.reopen,.line ⟨[98],by decide⟩] ++ List.replicate 6 .turn :
      List FollowEvent).foldl LogFollower.step (start false (fun _ => []) 1 0 0)).passed =
      [⟨[97],by decide⟩ ++ newline,⟨[98],by decide⟩ ++ newline] :=
  (log_rotation_exactly_once (fun _ => []) 1 0 0
    [.turn,.line ⟨[97],by decide⟩,.unlink,.create 2,.reopen,.line ⟨[98],by decide⟩] (by decide)).2.1 6 (by decide) (by decide)

/-- A rotation between `fopen` and `lstat` is not seen: once the name server writes to the new
file, and until the log is rotated again, only the lines that were in the open file before are
passed on, whatever is written. -/
theorem log_rotation_unseen {s : LogFollower} {i : ℕ} {lines : List CString} (hphase : s.phase = .opened)
    (hname : s.filename = some i) (hi : i ≠ s.file) (hlog : s.log ≠ s.file) (hunread : s.unread = joined lines)
    (hshort : ∀ l ∈ lines, ShortLine l) (es : List FollowEvent) (hes : ∀ inode, .create inode ∉ es) :
    (es.foldl LogFollower.step s).file = s.file ∧
      ∃ n, (es.foldl LogFollower.step s).passed = s.passed ++ (lines.take n).map (· ++ newline) := by
  have hdeaf : s.Deaf i s.file s.passed lines :=
    ⟨rfl,hlog,⟨[],lines,rfl,hunread,(List.append_nil _).symm⟩,Or.inr hname,Or.inl hphase⟩
  have hrun := hdeaf.of_run hshort hi hes
  obtain ⟨done,old,hlines,-,hpassed⟩ := hrun.reads
  refine ⟨hrun.file_eq,done.length,?_⟩
  rw [hpassed, hlines, List.take_left]

/-- Behind `fopen` a line is written and then the log is rotated. -/
def staleOpening : LogFollower :=
  ([.line ⟨[98],by decide⟩,.create 3,.reopen] : List FollowEvent).foldl LogFollower.step (start true (fun _ => []) 2 1 1)

theorem log_rotation_unseen_stale :
    (([.line ⟨[97],by decide⟩,.turn,.turn,.turn,.turn] : List FollowEvent).foldl LogFollower.step staleOpening).file = 2 ∧
    ∃ n, (([.line ⟨[97],by decide⟩,.turn,.turn,.turn,.turn] : List FollowEvent).foldl LogFollower.step staleOpening).passed =
      [] ++ (([⟨[98],by decide⟩] : List CString).take n).map (· ++ newline) :=
  @log_rotation_unseen staleOpening 3 [⟨[98],by decide⟩] rfl rfl (by decide) (by decide) (by decide) (by decide)
    [.line ⟨[97],by decide⟩,.turn,.turn,.turn,.turn] (by simp)

end LogStats
