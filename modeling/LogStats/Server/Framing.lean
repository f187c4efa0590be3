import LogStats.Server.Socket

/-! # The frames that socket_thread handles

Two readings of a connection: the loop of `socket_thread`, and the commands of the
complete frames in the stream, one after the other, with a reply frame each. They agree,
however the kernel splits the stream, if and only if the stream has nothing else in it,
the commands return, and the writes of their replies do not fail.
-/
namespace LogStats

/-- What was packed for a reply; its length is returned as an int. -/
abbrev Packed := { bytes : List UInt8 // bytes.length < 2 ^ 31 }

/-- What is done between lock and unlock, `none` where that is undefined. -/
abbrev Command (κ : Type) := κ → StatsRequest → Option (κ × Packed)

/-- What the thread meets in one round: the array that the header is read to, the calls of
the kernel, and what other threads do before it has the lock. -/
structure Round (κ : Type) where
  temp : List UInt8
  headerCalls : List SysCall
  payloadCalls : List SysCall
  prefixCalls : List WriteCall
  resultCalls : List WriteCall
  others : κ → κ
  temp_length : temp.length = 4

/-- A connection ends by being closed, by a request that is NULL, or in a command. -/
inductive Ending where
  | closed
  | nullRequest
  | undefined

/-- What has happened on a connection: the commands that were given, and the bytes written. -/
structure Session (κ : Type) where
  state : κ
  handled : List StatsRequest
  output : List UInt8
  ending : Ending

def Session.after {κ : Type} (session : Session κ) (request : StatsRequest) (written : List UInt8) : Session κ :=
  { session with handled := request :: session.handled, output := written ++ session.output }

/-- The command of `socket_thread` on the keeper. -/
def socketCommand (memory : CommandMemory) (pack : Reply → List UInt8) : Command HouseKeeper := fun keeper request => do
  let (keeper,reply) ← executeCommand memory keeper request
  let bytes := (reply.map pack).getD []
  if h : bytes.length < 2 ^ 31 then some (keeper,⟨bytes,h⟩) else none

section Thread
variable {κ : Type} (unpack : List UInt8 → Option StatsRequest) (command : Command κ) (rounds : ℕ → Round κ)

/-- What is written behind a command. -/
def Round.written {κ : Type} (round : Round κ) (result : Packed) : List UInt8 :=
  socketWrite round.prefixCalls (beBytes result.val.length) ++ socketWrite round.resultCalls result.val

/-- The loop of `socket_thread`. A header that is cut short leaves the rest of `temp`. -/
def socketThreadLoop : ℕ → ℕ → κ → List UInt8 → Option (Session κ)
  | 0, _, _, _ => none
  | fuel + 1, i, state, stream =>
    let round := rounds i
    let (header,rest) := socketRead round.headerCalls 4 stream
    if header.length ≤ 0 then some ⟨state,[],[],.closed⟩
    else
      let prefixLen := ofBeBytes (header ++ round.temp.drop header.length)
      let (buffer,rest) := socketRead round.payloadCalls prefixLen rest
      match unpack buffer with
      | none => some ⟨state,[],[],.nullRequest⟩
      | some request =>
        match command (round.others state) request with
        | none => some ⟨round.others state,[request],[],.undefined⟩
        | some (state,result) =>
          (socketThreadLoop fuel (i + 1) state rest).map fun session => session.after request (round.written result)

/-- Every round reads a byte of the stream. -/
def socketThread (state : κ) (stream : List UInt8) : Option (Session κ) :=
  socketThreadLoop unpack command rounds (stream.length + 1) 0 state stream

/-- The commands of the requests, one reply frame each, and then the connection is closed. -/
def serve : ℕ → κ → List StatsRequest → Option (Session κ)
  | _, state, [] => some ⟨state,[],[],.closed⟩
  | i, state, request :: requests =>
    match command ((rounds i).others state) request with
    | none => none
    | some (state,result) => (serve (i + 1) state requests).map fun session => session.after request (frame result.val)

/-- The thread serves the complete frames of the stream and nothing else. -/
def Framed (state : κ) (stream : List UInt8) : Prop :=
  ∃ session, serve command rounds 0 state (frames unpack stream) = some session ∧
    socketThread unpack command rounds state stream = some session

/-- Each command returns when its turn comes, and no write fails before the reply is out. -/
def Answerable : ℕ → κ → List StatsRequest → Prop
  | _, _, [] => True
  | i, state, request :: requests =>
    ∃ state' result, command ((rounds i).others state) request = some (state',result) ∧
      Carries (rounds i).prefixCalls 4 ∧ Carries (rounds i).resultCalls result.val.length ∧
      Answerable (i + 1) state' requests

end Thread

section Rounds
variable {κ : Type} {unpack : List UInt8 → Option StatsRequest} {command : Command κ} {rounds : ℕ → Round κ}
variable {fuel i : ℕ} {state : κ} {stream payload rest : List UInt8} {request : StatsRequest}

/-- The reply frame is written if no write fails. -/
theorem Round.written_of_carries {round : Round κ} {result : Packed} (hsize : Carries round.prefixCalls 4)
    (hresult : Carries round.resultCalls result.val.length) : round.written result = frame result.val := by
  rw [← length_beBytes result.val.length, ← socketWrite_eq_iff] at hsize
  rw [Round.written, hsize, (socketWrite_eq_iff _ _).mpr hresult, frame]

/-- If as much is written as the reply frame has, no write failed. -/
theorem Round.written_length (round : Round κ) (result : Packed) :
    (round.written result).length ≤ (frame result.val).length ∧
      ((round.written result).length = (frame result.val).length →
        Carries round.prefixCalls 4 ∧ Carries round.resultCalls result.val.length) := by
  have hsize := socketWrite_prefix round.prefixCalls (beBytes result.val.length)
  have hresult := socketWrite_prefix round.resultCalls result.val
  have hle := hsize.length_le
  have hle' := hresult.length_le
  rw [Round.written, frame, List.length_append, List.length_append]
  refine ⟨by omega,fun heq => ⟨?_,?_⟩⟩
  · rw [← length_beBytes result.val.length, ← socketWrite_eq_iff]
    exact hsize.eq_of_length (by omega)
  · rw [← socketWrite_eq_iff]
    exact hresult.eq_of_length (by omega)

theorem socketThreadLoop_nil :
    socketThreadLoop unpack command rounds (fuel + 1) i state [] = some ⟨state,[],[],.closed⟩ := by
  simp [socketThreadLoop, socketRead_eq]

/-- A round that reads a frame. -/
theorem socketThreadLoop_frame (hlen : payload.length < 2 ^ 32) (hunpack : unpack payload = some request) :
    socketThreadLoop unpack command rounds (fuel + 1) i state (frame payload ++ rest) =
      match command ((rounds i).others state) request with
      | none => some ⟨(rounds i).others state,[request],[],.undefined⟩
      | some (state,result) => (socketThreadLoop unpack command rounds fuel (i + 1) state rest).map fun session =>
          session.after request ((rounds i).written result) := by
  have htake : (frame payload ++ rest).take 4 = beBytes payload.length := by simp [frame]
  have hdrop : (frame payload ++ rest).drop 4 = payload ++ rest := by simp [frame]
  have htemp : (rounds i).temp.drop 4 = [] := List.drop_eq_nil_of_le (rounds i).temp_length.le
  simp only [socketThreadLoop, socketRead_eq, htake, hdrop, length_beBytes, htemp, List.append_nil,
    ofBeBytes_beBytes hlen, List.take_left, List.drop_left, hunpack]
  rw [if_neg (by decide)]

/-- A round that reads anything else ends in a NULL request, or it gives a command. -/
theorem socketThreadLoop_broken (hne : stream ≠ []) {session : Session κ}
    (h : socketThreadLoop unpack command rounds fuel i state stream = some session) :
    session.handled ≠ [] ∨ session.ending = .nullRequest := by
  cases fuel with
  | zero => cases h
  | succ fuel =>
    have hheader : ¬(stream.take 4).length ≤ 0 := by
      rw [List.length_take]
      have hpos := List.length_pos_iff.mpr hne
      omega
    simp only [socketThreadLoop, socketRead_eq, if_neg hheader] at h
    split at h
    · exact Or.inr (congrArg Session.ending (Option.some_inj.mp h)).symm
    · split at h
      · obtain rfl := Option.some_inj.mp h
        exact Or.inl (List.cons_ne_nil _ _)
      · obtain ⟨session,-,rfl⟩ := Option.map_eq_some_iff.mp h
        exact Or.inl (List.cons_ne_nil _ _)

/-- The run lemma: a stream of accepted frames is served, if it can be answered. -/
theorem socketThreadLoop_wellFramed {payloads : List (List UInt8)}
    (h : ∀ payload ∈ payloads, payload.length < 2 ^ 32 ∧ (unpack payload).isSome)
    (hfuel : (payloads.flatMap frame).length < fuel)
    (hanswer : Answerable command rounds i state (frames unpack (payloads.flatMap frame))) :
    ∃ session, serve command rounds i state (frames unpack (payloads.flatMap frame)) = some session ∧
      socketThreadLoop unpack command rounds fuel i state (payloads.flatMap frame) = some session := by
  induction payloads generalizing fuel i state with
  | nil =>
    obtain ⟨fuel,rfl⟩ := Nat.exists_eq_succ_of_ne_zero (Nat.ne_of_gt hfuel)
    rw [List.flatMap_nil, socketThreadLoop_nil, frames_nil, serve]
    exact ⟨_,rfl,rfl⟩
  | cons payload payloads ih =>
    obtain ⟨⟨hlen,hsome⟩,hrest⟩ := List.forall_mem_cons.mp h
    obtain ⟨request,hunpack⟩ := Option.isSome_iff_exists.mp hsome
    obtain ⟨fuel,rfl⟩ := Nat.exists_eq_succ_of_ne_zero (Nat.ne_of_gt (lt_of_le_of_lt (Nat.zero_le _) hfuel))
    rw [List.flatMap_cons, frame, List.length_append, List.length_append, length_beBytes] at hfuel
    rw [List.flatMap_cons, frames_frame hlen hunpack] at hanswer ⊢
    obtain ⟨state',result,hcommand,hsize,hresult,hanswer⟩ := hanswer
    obtain ⟨session,hserve,hloop⟩ := ih hrest (show (payloads.flatMap frame).length < fuel by omega) hanswer
    refine ⟨session.after request (frame result.val),?_,?_⟩
    · simp only [serve, hcommand, hserve, Option.map_some]
    · rw [socketThreadLoop_frame hlen hunpack]
      simp only [hcommand, hloop, Option.map_some, Round.written_of_carries hsize hresult]

/-- What is written is never more than the replies. Where it is as much and the same requests
are handled, the stream has nothing else in it and the commands were answered. -/
theorem wellFramed_of_loop {session served : Session κ}
    (hloop : socketThreadLoop unpack command rounds fuel i state stream = some session)
    (hserve : serve command rounds i state (frames unpack stream) = some served)
    (hhandled : session.handled = served.handled) (hending : session.ending = served.ending) :
    session.output.length ≤ served.output.length ∧ (session.output.length = served.output.length →
      WellFramed unpack stream ∧ Answerable command rounds i state (frames unpack stream)) := by
  induction fuel generalizing i state stream session served with
  | zero => cases hloop
  | succ fuel ih =>
    by_cases hne : stream = []
    · rw [hne, socketThreadLoop_nil, Option.some_inj] at hloop
      rw [← hloop, hne, frames_nil]
      exact ⟨Nat.zero_le _,fun _ => ⟨.nil,trivial⟩⟩
    · by_cases hempty : frames unpack stream = []
      · rw [hempty, serve, Option.some_inj] at hserve
        rw [← hserve] at hhandled hending
        rcases socketThreadLoop_broken hne hloop with hsome | hnull
        · exact absurd hhandled hsome
        · rw [hnull] at hending
          cases hending
      · by_cases hshort : stream.length < 4
        · exact absurd (frames_short (Or.inl hshort)) hempty
        · rcases frame_cases (Nat.not_lt.mp hshort) with ⟨payload,rest,hlen,rfl⟩ | hcut
          · cases hunpack : unpack payload with
            | none => exact absurd (frames_refused hlen hunpack rest) hempty
            | some request =>
              rw [socketThreadLoop_frame hlen hunpack] at hloop
              rw [frames_frame hlen hunpack, serve] at hserve
              cases hcommand : command ((rounds i).others state) request with
              | none => simp [hcommand] at hserve
              | some p =>
                obtain ⟨state',result⟩ := p
                simp only [hcommand] at hloop hserve
                obtain ⟨session,hloop₁,rfl⟩ := Option.map_eq_some_iff.mp hloop
                obtain ⟨served,hserve₁,rfl⟩ := Option.map_eq_some_iff.mp hserve
                obtain ⟨hle,hrest⟩ := ih hloop₁ hserve₁ (List.cons.inj hhandled).2 hending
                obtain ⟨hle',hcarries⟩ := (rounds i).written_length result
                simp only [Session.after, List.length_append]
                refine ⟨by omega,fun heq => ?_⟩
                obtain ⟨hframed,hanswer⟩ := hrest (by omega)
                obtain ⟨hsize,hresult⟩ := hcarries (by omega)
                rw [frames_frame hlen hunpack]
                exact ⟨.cons hlen hunpack hframed,state',result,hcommand,hsize,hresult,hanswer⟩
          · exact absurd (frames_short (Or.inr hcut)) hempty

end Rounds

/-- The thread serves the complete frames of a stream and nothing else, if and only if there
is nothing else in it and every reply gets out. -/
theorem framed_iff {κ : Type} (unpack : List UInt8 → Option StatsRequest) (command : Command κ) (rounds : ℕ → Round κ)
    (state : κ) (stream : List UInt8) : Framed unpack command rounds state stream ↔
      WellFramed unpack stream ∧ Answerable command rounds 0 state (frames unpack stream) := by
  constructor
  · rintro ⟨session,hserve,hloop⟩
    exact (wellFramed_of_loop hloop hserve rfl rfl).2 rfl
  · rintro ⟨⟨payloads,rfl,hall⟩,hanswer⟩
    exact socketThreadLoop_wellFramed hall (Nat.lt_succ_self _) hanswer

/-- The quietest surroundings: no call is split, and each command is answered with nothing. -/
def quietRound : Round Unit := ⟨[0,0,0,0],[],[],[],[],id,rfl⟩

def quietCommand : Command Unit := fun state _ => some (state,⟨[],by decide⟩)

/-- A header that is cut short after two bytes: the empty payload, which unpack refuses for
want of its fields, is taken for a request. -/
theorem framed_fails : ∃ (unpack : List UInt8 → Option StatsRequest) (stream : List UInt8),
    unpack [] = none ∧ stream.length = 2 ∧ ¬Framed unpack quietCommand (fun _ => quietRound) () stream := by
  refine ⟨fun _ => none,[0,0],rfl,rfl,?_⟩
  rintro ⟨session,hserve,hloop⟩
  rw [frames_short (Or.inl (by decide)), serve, Option.some_inj] at hserve
  rw [← hserve] at hloop
  cases hloop

end LogStats
