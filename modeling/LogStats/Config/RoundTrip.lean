import LogStats.Config.ConfigLine

/-! # What config_output writes and config_create reads back

All lines but that of the sockets fit into the buffer of 1024 bytes. A longer one comes in pieces, each without
its last byte: the sockets of the first piece are read, and in the others a `=` is asked for.
-/
namespace LogStats

/-- No newline, and no blank at either end. -/
structure Unpadded (s : CString) : Prop where
  oneLine : 10 ∉ s.bytes
  head : s.bytes.head? ≠ some 32
  last : s.bytes.getLast? ≠ some 32

instance (s : CString) : Decidable (Unpadded s) :=
  decidable_of_iff (10 ∉ s.bytes ∧ s.bytes.head? ≠ some 32 ∧ s.bytes.getLast? ≠ some 32)
    ⟨fun h => ⟨h.1,h.2.1,h.2.2⟩,fun h => ⟨h.oneLine,h.head,h.last⟩⟩

/-- What may be written. -/
structure Config.Writable (conf : Config) : Prop where
  ethDev : Unpadded conf.ethDev.val
  serverIp : Unpadded conf.serverIp.val
  homeDir : Unpadded conf.homeDir.val
  filePrefix : Unpadded conf.filePrefix.val
  logIp : Unpadded conf.logIp.val
  sockets : ∀ sock ∈ conf.redisUnixSock.val, sock.bytes ≠ [] ∧ 32 ∉ sock.bytes ∧ 10 ∉ sock.bytes

/-! ## One call of fgets after the other -/

section Calls
variable {size fuel n : ℕ} {stream bs rest : List UInt8} {b : UInt8} {lines : List CString}

theorem fgetsBytes_full (hbs : 10 ∉ bs) : fgetsBytes bs.length (bs ++ rest) = bs := by
  induction bs with
  | nil => cases rest <;> rfl
  | cons b bs ih =>
    obtain ⟨hb,hbs⟩ := not_or.mp (List.mem_cons.not.mp hbs)
    rw [List.length_cons, List.cons_append, fgetsBytes, if_neg (Ne.symm hb), ih hbs]

theorem fgetsBytes_ne_nil (h : stream ≠ []) : fgetsBytes (n + 1) stream ≠ [] := by
  obtain ⟨b,bs,rfl⟩ := List.exists_cons_of_ne_nil h
  rw [fgetsBytes]
  split
  · exact List.cons_ne_nil b []
  · exact List.cons_ne_nil b _

/-- More fuel than there are bytes makes no difference. -/
theorem fgetsAll_fuel (h : stream.length ≤ fuel) : fgetsAll (n + 2) fuel stream = fgetsAll (n + 2) stream.length stream := by
  induction fuel using Nat.strong_induction_on generalizing stream with
  | _ fuel ih =>
    cases fuel with
    | zero => rw [Nat.le_zero.mp h]
    | succ fuel =>
      cases stream with
      | nil => rfl
      | cons b bs =>
        have hsome : fgets (n + 2) (b :: bs) = some (fgetsBytes (n + 1) (b :: bs)) := if_neg (List.cons_ne_nil b bs)
        have hpos : 0 < (fgetsBytes (n + 1) (b :: bs)).length :=
          List.length_pos_iff.mpr (fgetsBytes_ne_nil (List.cons_ne_nil b bs))
        have hdrop : ((b :: bs).drop (fgetsBytes (n + 1) (b :: bs)).length).length ≤ bs.length := by
          rw [List.length_drop, List.length_cons]
          omega
        rw [List.length_cons] at h
        simp only [List.length_cons, fgetsAll, hsome]
        rw [ih fuel (by omega) (by omega), ← ih bs.length (by omega) hdrop]

theorem fileLines_cons (h : stream ≠ []) :
    fileLines stream = fgetsBytes 1023 stream :: fileLines (stream.drop (fgetsBytes 1023 stream).length) := by
  obtain ⟨b,bs,rfl⟩ := List.exists_cons_of_ne_nil h
  have hsome : fgets 1024 (b :: bs) = some (fgetsBytes 1023 (b :: bs)) := if_neg h
  have hpos : 0 < (fgetsBytes 1023 (b :: bs)).length := List.length_pos_iff.mpr (fgetsBytes_ne_nil h)
  have hdrop : ((b :: bs).drop (fgetsBytes 1023 (b :: bs)).length).length ≤ bs.length := by
    rw [List.length_drop, List.length_cons]
    omega
  rw [fileLines, List.length_cons, fgetsAll, hsome]
  exact congrArg (fgetsBytes 1023 (b :: bs) :: ·) (fgetsAll_fuel hdrop)

/-- The line with its end comes from one call, if there is room for it. -/
theorem fileLines_line (hbs : 10 ∉ bs) (hlen : bs.length ≤ 1022) :
    fileLines (bs ++ 10 :: rest) = (bs ++ [10]) :: fileLines rest := by
  have hsplit : bs ++ 10 :: rest = (bs ++ [10]) ++ rest := List.append_cons bs 10 rest
  rw [fileLines_cons (by simp), fgetsBytes_line hbs (by omega), hsplit, List.drop_left]

/-- A full buffer. -/
theorem fileLines_full (hbs : 10 ∉ bs) (hlen : bs.length = 1023) : fileLines (bs ++ rest) = bs :: fileLines rest := by
  have hne : bs ++ rest ≠ [] := by
    intro h
    rw [(List.append_eq_nil_iff.mp h).1] at hlen
    cases hlen
  have hfull : fgetsBytes 1023 (bs ++ rest) = bs := hlen ▸ fgetsBytes_full hbs
  rw [fileLines_cons hne, hfull, List.drop_left]

end Calls

/-! ## Reading on -/

/-- What the loop of `config_create` makes of the rest of the file. -/
def Config.readOn (conf : Config) (stream : List UInt8) : Option Config := (fileLines stream).foldlM configLine conf

section Reading
variable {conf conf' : Config} {s : CString} {bs rest : List UInt8} {b : UInt8}

theorem readOn_line (hs : ShortLine s) : conf.readOn (s.bytes ++ 10 :: rest) = (conf.readLine s).bind (·.readOn rest) := by
  rw [Config.readOn, fileLines_line hs.1 hs.2, List.foldlM_cons, configLine_eq conf s (by decide)]
  rfl

theorem readOn_full (hs : 10 ∉ s.bytes) (hlen : s.strlen = 1022) (hb : b ≠ 0) (hline : b ≠ 10) :
    conf.readOn (s.bytes ++ b :: rest) = (conf.readLine s).bind (·.readOn rest) := by
  have hnewline : (10 : UInt8) ∉ s.bytes ++ [b] := by
    intro h
    rcases List.mem_append.mp h with h | h
    · exact hs h
    · exact hline (List.mem_singleton.mp h).symm
  have hfull : (s.bytes ++ [b]).length = 1023 := by
    rw [List.length_append, List.length_singleton]
    exact congrArg (· + 1) hlen
  rw [Config.readOn, List.append_cons, fileLines_full hnewline hfull, List.foldlM_cons, configLine_eq conf s hb]
  rfl

theorem readOn_lines {lines : List CString} (h : ∀ l ∈ lines, ShortLine l) :
    conf.readOn (joined lines ++ rest) = (lines.foldlM Config.readLine conf).bind (·.readOn rest) := by
  induction lines generalizing conf with
  | nil => rfl
  | cons l lines ih =>
    obtain ⟨hl,hlines⟩ := List.forall_mem_cons.mp h
    rw [joined_cons, List.append_assoc, List.cons_append, readOn_line hl, List.foldlM_cons]
    change _ = ((conf.readLine l).bind fun c => lines.foldlM Config.readLine c).bind _
    rw [Option.bind_assoc]
    congr
    funext c
    exact ih hlines

/-- Read in pieces, a line that is not blank adds less to the sockets than it has. -/
theorem readOn_pieces (hnul : 0 ∉ bs) (hline : 10 ∉ bs) (h : conf.readOn (bs ++ 10 :: rest) = some conf') :
    ∃ conf₁ : Config, conf₁.readOn rest = some conf' ∧
      conf₁.socketBytes + min 1 (solid 32 bs) ≤ conf.socketBytes + solid 32 bs := by
  induction hlen : bs.length using Nat.strong_induction_on generalizing bs conf with
  | _ n ih =>
    by_cases hshort : bs.length ≤ 1022
    · rw [readOn_line (s := ⟨bs,hnul⟩) ⟨hline,hshort⟩] at h
      obtain ⟨conf₁,hread,hrest⟩ := Option.bind_eq_some_iff.mp h
      exact ⟨conf₁,hrest,readLine_socketBytes_le hread⟩
    · obtain ⟨b,back,hback⟩ := List.exists_cons_of_ne_nil (List.ne_nil_of_length_pos
        (by rw [List.length_drop]; omega : 0 < (bs.drop 1022).length))
      have hsplit : bs = bs.take 1022 ++ b :: back := by rw [← hback, List.take_append_drop]
      have hfront : (bs.take 1022).length = 1022 := List.length_take_of_le (by omega)
      generalize bs.take 1022 = front at hsplit hfront
      subst hsplit
      simp only [List.mem_append, List.mem_cons, not_or] at hnul hline
      rw [List.append_assoc, List.cons_append,
        readOn_full (s := ⟨front,hnul.1⟩) hline.1 hfront (Ne.symm hnul.2.1) (Ne.symm hline.2.1)] at h
      obtain ⟨conf₀,hread,hrest⟩ := Option.bind_eq_some_iff.mp h
      have hstep : conf₀.socketBytes + min 1 (solid 32 front) ≤ conf.socketBytes + solid 32 front :=
        readLine_socketBytes_le hread
      obtain ⟨conf₁,hrest,hle⟩ := ih back.length (by rw [← hlen, List.length_append, List.length_cons]; omega) hnul.2.2 hline.2.2 hrest rfl
      refine ⟨conf₁,hrest,?_⟩
      rw [solid_append, solid_cons]
      split <;> omega

end Reading

/-! ## Values -/

section Values
variable {conf c : Config} {s : CString} {k : ConfigKey} {socks : List CString}

theorem strip_unpadded (h : Unpadded s) : strip s = s := CString.ext (trim_eq_self h.head h.last)

theorem decimal_unpadded (z : Int32) : Unpadded (decimal z) where
  oneLine := notMem_decimalBytes (by decide) (by decide)
  head h := notMem_decimalBytes (by decide) (by decide) (List.mem_of_mem_head? h)
  last h := notMem_decimalBytes (by decide) (by decide) (List.mem_of_mem_getLast? h)

/-- Every value but the sockets is short and has nothing that `strip` would take. -/
theorem shown_plain (h : conf.Writable) (hk : k ≠ .redisSockPath) :
    Unpadded (conf.shown k) ∧ (conf.shown k).strlen ≤ 127 := by
  cases k with
  | redisSockPath => exact absurd rfl hk
  | ethDev => exact ⟨h.ethDev,(Nat.le_of_lt_succ conf.ethDev.property).trans (by decide)⟩
  | serverIp => exact ⟨h.serverIp,(Nat.le_of_lt_succ conf.serverIp.property).trans (by decide)⟩
  | homeDir => exact ⟨h.homeDir,Nat.le_of_lt_succ conf.homeDir.property⟩
  | filePrefix => exact ⟨h.filePrefix,Nat.le_of_lt_succ conf.filePrefix.property⟩
  | logIp => exact ⟨h.logIp,(Nat.le_of_lt_succ conf.logIp.property).trans (by decide)⟩
  | enableAuto | serverPort | serverMgrPort | maxLine | fileSizeLimit | maxFileCount =>
    exact ⟨decimal_unpadded _,(length_decimalBytes _).trans (by decide)⟩

theorem mem_printedLine {b : UInt8} (h : b ∈ (printedLine conf k).bytes) :
    b ∈ k.name.bytes ∨ b ∈ (text " = ").bytes ∨ b ∈ (conf.shown k).bytes := by
  rcases List.mem_append.mp h with h | h
  · exact (List.mem_append.mp h).imp_right Or.inl
  · exact Or.inr (Or.inr h)

theorem printedLine_short (h : conf.Writable) (hk : k ≠ .redisSockPath) : ShortLine (printedLine conf k) := by
  obtain ⟨hplain,hlen⟩ := shown_plain h hk
  obtain ⟨-,-,-,-,hname,hnamelen⟩ := k.name_plain
  refine ⟨?_,?_⟩
  · intro hnewline
    rcases mem_printedLine hnewline with hmem | hmem | hmem
    · exact hname hmem
    · exact absurd hmem (by decide)
    · exact hplain.oneLine hmem
  · have htext : (text " = ").strlen = 3 := by decide
    rw [printedLine, CString.strlen_append, CString.strlen_append, htext]
    omega

theorem readLine_shown (h : conf.Writable) (hk : k ≠ .redisSockPath) (c : Config) :
    c.readLine (printedLine conf k) = c.assign (conf.shown k) k := by
  rw [printedLine, readLine_printed, strip_unpadded (shown_plain h hk).1]

theorem strcpy_val {size : ℕ} (s : CharArray size) : strcpy size s.val = some s := dif_pos s.property

/-- The keys whose lines come before that of the sockets. -/
def frontKeys : List ConfigKey :=
  [.ethDev,.serverIp,.serverPort,.serverMgrPort,.maxLine,.homeDir,.enableAuto,.filePrefix,.fileSizeLimit,.maxFileCount]

theorem joined_append (ls ls' : List CString) : joined (ls ++ ls') = joined ls ++ joined ls' := List.flatMap_append

theorem configOutput_eq (conf : Config) : configOutput conf = joined (frontKeys.map (printedLine conf)) ++
    ((printedLine conf .redisSockPath).bytes ++ 10 :: joined [printedLine conf .logIp]) := by
  have hkeys : printedKeys = frontKeys ++ [.redisSockPath,.logIp] := rfl
  rw [configOutput, hkeys, List.map_append, joined_append]
  exact congrArg (_ ++ ·) joined_cons

theorem readLines_front (h : conf.Writable) (c : Config) : (frontKeys.map (printedLine conf)).foldlM Config.readLine c =
    some { conf with filename := c.filename, redisUnixSock := c.redisUnixSock, logIp := c.logIp } := by
  have hread : ∀ k ∈ frontKeys, ∀ c : Config, c.readLine (printedLine conf k) = c.assign (conf.shown k) k := by
    intro k hk c
    apply readLine_shown h
    rintro rfl
    exact absurd hk (by decide)
  simp only [frontKeys, List.forall_mem_cons] at hread
  obtain ⟨h₁,h₂,h₃,h₄,h₅,h₆,h₇,h₈,h₉,h₁₀,-⟩ := hread
  simp only [frontKeys, List.map_cons, List.map_nil, List.foldlM_cons, List.foldlM_nil, h₁, h₂, h₃, h₄, h₅, h₆, h₇, h₈, h₉,
    h₁₀, Config.assign, Config.shown, strcpy_val, atoi_decimal, Option.map_some, Option.bind_eq_bind, Option.bind_some]
  rfl

/-- The last line does not touch the sockets. -/
theorem readOn_logIp (h : conf.Writable) (c : Config) :
    c.readOn (joined [printedLine conf .logIp]) = some { c with logIp := conf.logIp } := by
  rw [joined_cons, readOn_line (printedLine_short h (by decide)), readLine_shown h (by decide)]
  simp only [Config.assign, Config.shown, strcpy_val, Option.map_some, Option.bind_some]
  rfl

/-! ## Sockets -/

theorem shown_sockets (conf : Config) : (conf.shown .redisSockPath).bytes =
    (conf.redisUnixSock.val.map CString.bytes).flatMap (· ++ [32]) := by
  have hgen : ∀ socks : List CString, (socks.foldr (fun sock socks => sock ++ text " " ++ socks) (text "")).bytes =
      (socks.map CString.bytes).flatMap (· ++ [32]) := by
    intro socks
    induction socks with
    | nil => rfl
    | cons sock socks ih =>
      have hspace : (text " ").bytes = [32] := by decide
      rw [List.foldr_cons, CString.bytes_append, CString.bytes_append, hspace, ih, List.map_cons, List.flatMap_cons]
  exact hgen conf.redisUnixSock.val

/-- How long the line of the sockets is behind the `=` and its blanks. -/
theorem shown_sockets_strlen (conf : Config) :
    (conf.shown .redisSockPath).strlen = (conf.redisUnixSock.val.map fun sock => sock.strlen + 1).sum := by
  rw [CString.strlen, shown_sockets, List.length_flatMap, List.map_map]
  apply congrArg List.sum
  apply List.map_congr_left
  intro sock _
  exact List.length_append

theorem sockets_words (h : conf.Writable) : ∀ w ∈ conf.redisUnixSock.val.map CString.bytes, w ≠ [] ∧ 32 ∉ w := by
  intro w hw
  obtain ⟨sock,hsock,rfl⟩ := List.mem_map.mp hw
  exact ⟨(h.sockets sock hsock).1,(h.sockets sock hsock).2.1⟩

theorem words_sockets (h : conf.Writable) :
    words 32 (conf.shown .redisSockPath).bytes = conf.redisUnixSock.val.map CString.bytes := by
  rw [shown_sockets, words_flatMap (sockets_words h)]

theorem shown_sockets_oneLine (h : conf.Writable) : 10 ∉ (conf.shown .redisSockPath).bytes := by
  rw [shown_sockets]
  intro hmem
  obtain ⟨w,hw,hmem⟩ := List.mem_flatMap.mp hmem
  obtain ⟨sock,hsock,rfl⟩ := List.mem_map.mp hw
  rcases List.mem_append.mp hmem with hmem | hmem
  · exact (h.sockets sock hsock).2.2 hmem
  · exact absurd hmem (by decide)

theorem socketBytes_eq (h : conf.Writable) : conf.socketBytes = solid 32 (conf.shown .redisSockPath).bytes := by
  rw [← sum_words, words_sockets h, List.map_map]
  rfl

theorem strtok_of_words (h : words 32 s.bytes = socks.map CString.bytes) : strtok s = socks := by
  have hmap : strtok s = (words 32 s.bytes).map CString.read := rfl
  rw [hmap, h, List.map_map]
  have hid : CString.read ∘ CString.bytes = id := funext CString.read_bytes
  rw [hid, List.map_id]

/-- A text with the words of the sockets gives the sockets. -/
theorem assign_sockets {c : Config} {v : CString} (hc : c.redisUnixSock = noSockets)
    (hv : words 32 v.bytes = conf.redisUnixSock.val.map CString.bytes) :
    c.assign (strip v) .redisSockPath = some { c with redisUnixSock := conf.redisUnixSock } := by
  have htokens : strtok (strip v) = conf.redisUnixSock.val := strtok_of_words (words_trim.trans hv)
  have hadd : addSockets noSockets conf.redisUnixSock.val = some conf.redisUnixSock := dif_pos conf.redisUnixSock.property
  simp only [Config.assign, hc, htokens, hadd, Option.map_some]

theorem sockets_name_plain (s : CString) : (ConfigKey.redisSockPath.name ++ text " = " ++ s).strlen = s.strlen + 18 := by
  have hname : (ConfigKey.redisSockPath.name ++ text " = ").strlen = 18 := by decide +kernel
  rw [CString.strlen_append, hname, Nat.add_comm]

theorem sockets_oneLine (hs : 10 ∉ s.bytes) : 10 ∉ (ConfigKey.redisSockPath.name ++ text " = " ++ s).bytes := by
  intro hmem
  rcases List.mem_append.mp hmem with hmem | hmem
  · exact absurd hmem (by decide +kernel)
  · exact hs hmem

theorem shown_sockets_last (hpos : 0 < (conf.shown .redisSockPath).strlen) : ∃ v : CString,
    (conf.shown .redisSockPath).bytes = v.bytes ++ [32] := by
  have hbytes := shown_sockets conf
  cases hw : conf.redisUnixSock.val.map CString.bytes using List.reverseRecOn with
  | nil =>
    rw [hw] at hbytes
    rw [CString.strlen, hbytes] at hpos
    exact absurd hpos (lt_irrefl 0)
  | append_singleton ws w =>
    rw [hw, List.flatMap_append, List.flatMap_singleton, ← List.append_assoc] at hbytes
    refine ⟨⟨ws.flatMap (· ++ [32]) ++ w,?_⟩,hbytes⟩
    intro hnul
    exact (conf.shown .redisSockPath).nulFree (hbytes ▸ List.mem_append_left [32] hnul)

theorem readOn_newline (c : Config) (rest : List UInt8) : c.readOn (10 :: rest) = c.readOn rest := by
  have hempty : (text "").bytes = [] := rfl
  have hline : c.readOn ((text "").bytes ++ 10 :: rest) = (c.readLine (text "")).bind (·.readOn rest) :=
    readOn_line (by decide)
  rwa [hempty, List.nil_append, Config.readLine, if_pos (Or.inl hempty), Option.bind_some] at hline

/-- The line of the sockets fits, but for its end perhaps. -/
theorem readOn_sockets (h : conf.Writable) (hc : c.redisUnixSock = noSockets) (rest : List UInt8)
    (hsum : (conf.shown .redisSockPath).strlen ≤ 1005) :
    c.readOn ((printedLine conf .redisSockPath).bytes ++ 10 :: rest) =
      Config.readOn { c with redisUnixSock := conf.redisUnixSock } rest := by
  rcases Nat.lt_or_eq_of_le hsum with hlt | heq
  · have hshort : ShortLine (printedLine conf .redisSockPath) := by
      refine ⟨sockets_oneLine (shown_sockets_oneLine h),?_⟩
      rw [printedLine, sockets_name_plain]
      omega
    rw [readOn_line hshort, printedLine, readLine_printed, assign_sockets hc (words_sockets h), Option.bind_some]
  · -- the buffer ends with the blank behind the last socket, and the newline is a line of its own
    have hpos : 0 < (conf.shown .redisSockPath).strlen := by omega
    obtain ⟨v,hv⟩ := shown_sockets_last hpos
    have hbytes : (printedLine conf .redisSockPath).bytes ++ 10 :: rest =
        (ConfigKey.redisSockPath.name ++ text " = " ++ v).bytes ++ 32 :: 10 :: rest := by
      rw [printedLine, CString.bytes_append, hv, CString.bytes_append _ v]
      simp
    have hlen : v.strlen = 1004 := by
      rw [CString.strlen, hv, List.length_append] at heq
      exact Nat.succ.inj heq
    have hline : 10 ∉ v.bytes := fun hmem => shown_sockets_oneLine h (hv ▸ List.mem_append_left [32] hmem)
    have hwords : words 32 v.bytes = conf.redisUnixSock.val.map CString.bytes := by
      rw [← words_sockets h, hv, words_concat_sep]
    rw [hbytes, readOn_full (sockets_oneLine hline) (by rw [sockets_name_plain, hlen]) (by decide) (by decide),
      readLine_printed, assign_sockets hc hwords, Option.bind_some, readOn_newline]

/-- Where the buffer ends in a longer line: behind the last byte that is kept there is more of a socket. -/
theorem shown_sockets_cut (h : conf.Writable) (hsum : 1006 ≤ (conf.shown .redisSockPath).strlen) :
    ∃ (v : CString) (b : UInt8) (back : List UInt8), (conf.shown .redisSockPath).bytes = v.bytes ++ b :: back ∧
      v.strlen = 1004 ∧ 0 < solid 32 (b :: back) := by
  have hlen : 1006 ≤ (conf.shown .redisSockPath).bytes.length := hsum
  have hpos : 0 < ((conf.shown .redisSockPath).bytes.drop 1004).length := by
    rw [List.length_drop]
    omega
  obtain ⟨b,back,hback⟩ := List.exists_cons_of_ne_nil (List.ne_nil_of_length_pos hpos)
  have hsplit : (conf.shown .redisSockPath).bytes = ((conf.shown .redisSockPath).take 1004).bytes ++ b :: back := by
    rw [← hback]
    exact (List.take_append_drop 1004 _).symm
  refine ⟨(conf.shown .redisSockPath).take 1004,b,back,hsplit,List.length_take_of_le (by omega),?_⟩
  have hback_len : 2 ≤ (b :: back).length := by
    rw [← hback, List.length_drop]
    omega
  have hflat : (conf.redisUnixSock.val.map CString.bytes).flatMap (· ++ [32]) =
      ((conf.shown .redisSockPath).take 1004).bytes ++ b :: back := by rw [← shown_sockets, hsplit]
  exact solid_suffix_pos (sockets_words h) hflat hback_len

/-- Of a longer line at least one byte of a socket is lost. -/
theorem readOn_sockets_long (h : conf.Writable) (hc : c.redisUnixSock = noSockets) (rest : List UInt8)
    (hsum : 1006 ≤ (conf.shown .redisSockPath).strlen) {conf' : Config}
    (hread : c.readOn ((printedLine conf .redisSockPath).bytes ++ 10 :: rest) = some conf') :
    ∃ c' : Config, c'.readOn rest = some conf' ∧ c'.socketBytes < conf.socketBytes := by
  obtain ⟨v,b,back,hsplit,hv,hlost⟩ := shown_sockets_cut h hsum
  have htotal : conf.socketBytes = solid 32 v.bytes + solid 32 (b :: back) := by
    rw [socketBytes_eq h, hsplit, solid_append]
  have hline := shown_sockets_oneLine h
  have hnul := (conf.shown .redisSockPath).nulFree
  rw [hsplit] at hline hnul
  simp only [List.mem_append, List.mem_cons, not_or] at hline hnul
  have hbytes : (printedLine conf .redisSockPath).bytes ++ 10 :: rest =
      (ConfigKey.redisSockPath.name ++ text " = " ++ v).bytes ++ b :: (back ++ 10 :: rest) := by
    rw [printedLine, CString.bytes_append, hsplit, CString.bytes_append _ v]
    simp
  rw [hbytes, readOn_full (sockets_oneLine hline.1) (by rw [sockets_name_plain, hv]) (Ne.symm hnul.2.1)
    (Ne.symm hline.2.1)] at hread
  -- the first piece adds what it has of the sockets, the others less than they have
  obtain ⟨c₁,hfirst,hread⟩ := Option.bind_eq_some_iff.mp hread
  have hadd : c₁.socketBytes ≤ c.socketBytes + solid 32 v.bytes := by
    rw [readLine_printed] at hfirst
    have hle := assign_socketBytes_le hfirst
    have hstrip : solid 32 (strip v).bytes = solid 32 v.bytes := solid_trim
    omega
  have hnone : c.socketBytes = 0 := by
    rw [Config.socketBytes, hc]
    rfl
  obtain ⟨c',hrest,hle⟩ := readOn_pieces hnul.2.2 hline.2.2 hread
  refine ⟨c',hrest,?_⟩
  rw [solid_cons] at hlost htotal
  by_cases hb : b = 32
  · rw [if_pos hb] at hlost htotal
    omega
  · rw [if_neg hb] at htotal
    omega

theorem configCreate_eq (memory : Config) (filename : CharArray 100) (stream : List UInt8) :
    configCreate memory filename.val (some stream) =
      Config.readOn { memory with filename := filename, redisUnixSock := noSockets } stream := by
  unfold configCreate
  rw [strcpy_val]
  rfl

/-- Up to the line of the sockets everything is read back. -/
theorem readBack_front (h : conf.Writable) (memory : Config) :
    configCreate memory conf.filename.val (some (configOutput conf)) =
      Config.readOn { conf with redisUnixSock := noSockets, logIp := memory.logIp }
        ((printedLine conf .redisSockPath).bytes ++ 10 :: joined [printedLine conf .logIp]) := by
  have hshort : ∀ l ∈ frontKeys.map (printedLine conf), ShortLine l := by
    intro l hl
    obtain ⟨k,hk,rfl⟩ := List.mem_map.mp hl
    apply printedLine_short h
    rintro rfl
    exact absurd hk (by decide)
  rw [configCreate_eq, configOutput_eq, readOn_lines hshort, readLines_front h, Option.bind_some]

/-- Too many bytes of sockets: what is read back, if anything, has fewer of them. -/
theorem readBack_long (h : conf.Writable) (memory : Config)
    (hlong : 1005 < (conf.redisUnixSock.val.map fun sock => sock.strlen + 1).sum) {conf' : Config}
    (hread : configCreate memory conf.filename.val (some (configOutput conf)) = some conf') :
    conf'.socketBytes < conf.socketBytes := by
  rw [← shown_sockets_strlen] at hlong
  rw [readBack_front h] at hread
  obtain ⟨c',hrest,hlt⟩ := readOn_sockets_long h rfl _ hlong hread
  rw [readOn_logIp h] at hrest
  obtain rfl := Option.some_inj.mp hrest
  exact hlt

/-- What was written is read back if and only if the sockets with a blank behind each have at most 1005 bytes. -/
theorem configCreate_configOutput_iff (h : conf.Writable) (memory : Config) :
    configCreate memory conf.filename.val (some (configOutput conf)) = some conf ↔
      (conf.redisUnixSock.val.map fun sock => sock.strlen + 1).sum ≤ 1005 := by
  constructor
  · intro hread
    by_contra hlong
    exact lt_irrefl _ (readBack_long h memory (not_le.mp hlong) hread)
  · intro hfits
    rw [← shown_sockets_strlen] at hfits
    rw [readBack_front h, readOn_sockets h rfl _ hfits, readOn_logIp h]

/-- A configuration with these sockets. -/
def plainConfig (socks : Sockets) : Config where
  filename := ⟨text "log.conf",by decide⟩
  ethDev := ⟨text "eth0",by decide⟩
  serverIp := ⟨text "127.0.0.1",by decide⟩
  serverPort := 9999
  serverMgrPort := -1
  maxLine := 1000
  enableAuto := 0
  homeDir := ⟨text "/var/log dir=1",by decide⟩
  filePrefix := ⟨text "",by decide⟩
  maxFileCount := 10
  fileSizeLimit := 2147483647
  redisUnixSock := socks
  logIp := ⟨text "10.0.0.1",by decide⟩

theorem plainConfig_writable {socks : Sockets}
    (h : ∀ sock ∈ socks.val, sock.bytes ≠ [] ∧ 32 ∉ sock.bytes ∧ 10 ∉ sock.bytes) : (plainConfig socks).Writable where
  ethDev := (by decide : Unpadded (text "eth0"))
  serverIp := (by decide : Unpadded (text "127.0.0.1"))
  homeDir := (by decide : Unpadded (text "/var/log dir=1"))
  filePrefix := (by decide : Unpadded (text ""))
  logIp := (by decide : Unpadded (text "10.0.0.1"))
  sockets := h

def twoSockets : Sockets := ⟨[text "/tmp/a.sock",text "/tmp/b=c"],by decide⟩

theorem configCreate_configOutput_two : configCreate (plainConfig noSockets) (text "log.conf")
    (some (configOutput (plainConfig twoSockets))) = some (plainConfig twoSockets) :=
  (configCreate_configOutput_iff (plainConfig_writable (by decide)) (plainConfig noSockets)).mpr (by decide)

/-- As many sockets as there are places, with eleven bytes each. -/
def allSockets : Sockets := ⟨List.replicate redisInstance (text "/tmp/r.sock"),List.length_replicate.le⟩

theorem configCreate_configOutput_loses : (plainConfig allSockets).Writable ∧
    ∀ conf', configCreate (plainConfig noSockets) (text "log.conf") (some (configOutput (plainConfig allSockets))) =
      some conf' → conf'.redisUnixSock ≠ allSockets := by
  have hwritable : (plainConfig allSockets).Writable := by
    apply plainConfig_writable
    intro sock hsock
    rw [List.eq_of_mem_replicate hsock]
    decide
  refine ⟨hwritable,?_⟩
  intro conf' hread hsame
  have hlong : 1005 < ((plainConfig allSockets).redisUnixSock.val.map fun sock => sock.strlen + 1).sum := by
    decide +kernel
  have hlt := readBack_long hwritable (plainConfig noSockets) hlong hread
  rw [Config.socketBytes, hsame] at hlt
  exact lt_irrefl _ hlt

end Values

end LogStats
