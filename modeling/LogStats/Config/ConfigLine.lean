import LogStats.Config.LogConfig
import Mathlib.Algebra.Order.BigOperators.Group.List

/-! # One line of the configuration

What the body of the loop does in its buffer is cut down to strings, for a line as `config_output` prints it,
and to how much of a line can end up in the list of sockets.
-/
namespace LogStats

def CString.take (s : CString) (n : ℕ) : CString := ⟨s.bytes.take n,fun h => s.nulFree (List.mem_of_mem_take h)⟩

/-- The body of the loop on the string that is left when the last byte is cut off. -/
def Config.readLine (conf : Config) (s : CString) : Option Config :=
  if s.bytes = [] ∨ s.bytes.head? = some 35 then some conf
  else (strip s).strchr 61 |>.bind fun p => conf.set (strip ((strip s).take p)) (strip ((strip s).drop (p + 1)))

section ConfigLine
variable {conf conf' : Config} {s : CString} {b : UInt8} {p : ℕ} {k : ConfigKey}

theorem strchr_eq_some (h : s.strchr b = some p) :
    ∃ front back, s.bytes = front ++ b :: back ∧ front.length = p := by
  obtain ⟨hlt,heq,-⟩ := List.findIdx?_eq_some_iff_getElem.mp h
  refine ⟨s.bytes.take p,s.bytes.drop (p + 1),?_,List.length_take_of_le hlt.le⟩
  rw [← beq_iff_eq.mp heq, ← List.drop_eq_getElem_cons hlt, List.take_append_drop]

theorem CString.take_append (front rest : List UInt8) (h : s.bytes = front ++ rest) : (s.take front.length).bytes = front := by
  change s.bytes.take front.length = front
  rw [h, List.take_left]

theorem CString.drop_append (front back : List UInt8) (h : s.bytes = front ++ b :: back) :
    (s.drop (front.length + 1)).bytes = back := by
  change s.bytes.drop (front.length + 1) = back
  rw [h, ← List.drop_drop, List.drop_left]
  rfl

/-- Key and value are stripped in the same memory: the key first, and nothing behind its terminator moves. -/
theorem split_spec (junk : List UInt8) (hp : s.strchr b = some p) :
    CString.read (stripBuffer ((s.bytes ++ 0 :: junk).set p 0)) = strip (s.take p) ∧
    CString.read (stripBuffer ((stripBuffer ((s.bytes ++ 0 :: junk).set p 0)).drop (p + 1))) =
      strip (s.drop (p + 1)) := by
  obtain ⟨front,back,hsplit,rfl⟩ := strchr_eq_some hp
  have hkey := CString.take_append front (b :: back) hsplit
  have hvalue := CString.drop_append front back hsplit
  have hset : (s.bytes ++ 0 :: junk).set front.length 0 =
      (s.take front.length).bytes ++ 0 :: ((s.drop (front.length + 1)).bytes ++ 0 :: junk) := by
    rw [hkey, hvalue, hsplit, List.append_assoc, List.cons_append, set_append_cons]
  obtain ⟨junk₁,hstrip,hlen⟩ := stripBuffer_spec (s.take front.length) ((s.drop (front.length + 1)).bytes ++ 0 :: junk)
  obtain ⟨junk₂,hstrip₂,-⟩ := stripBuffer_spec (s.drop (front.length + 1)) junk
  rw [hset, hstrip]
  refine ⟨CString.read_bytes_append _ _,?_⟩
  have hplace : front.length + 1 = ((strip (s.take front.length)).bytes ++ 0 :: junk₁).length := by
    rw [CString.strlen, CString.strlen, hkey] at hlen
    rw [List.length_append, List.length_cons]
    omega
  have hdrop : ((strip (s.take front.length)).bytes ++ 0 :: (junk₁ ++ ((s.drop (front.length + 1)).bytes ++ 0 :: junk))).drop
      (front.length + 1) = (s.drop (front.length + 1)).bytes ++ 0 :: junk := by
    rw [← List.cons_append, ← List.append_assoc]
    nth_rewrite 1 [hplace]
    exact List.drop_left
  rw [hdrop, hstrip₂, CString.read_bytes_append]

theorem configLine_eq (conf : Config) (s : CString) (hb : b ≠ 0) : configLine conf (s.bytes ++ [b]) = conf.readLine s := by
  have hnul : (0 : UInt8) ∉ s.bytes ++ [b] := by
    intro h
    rcases List.mem_append.mp h with h | h
    · exact s.nulFree h
    · exact hb (List.mem_singleton.mp h).symm
  have hread : CString.read (s.bytes ++ [b] ++ [0]) = ⟨s.bytes ++ [b],hnul⟩ := CString.read_bytes_append ⟨_,hnul⟩ []
  have hlen : CString.strlen ⟨s.bytes ++ [b],hnul⟩ = s.bytes.length + 1 := List.length_append
  unfold configLine Config.readLine
  simp only [hread, hlen, Nat.add_sub_cancel]
  by_cases hempty : s.bytes = []
  · rw [if_pos (by simp [hempty]), if_pos (Or.inl hempty)]
  · have hpos := List.length_pos_iff.mpr hempty
    have hhead : (s.bytes ++ [b] ++ [0]).head? = s.bytes.head? := by
      rw [List.append_assoc, List.head?_append_of_ne_nil _ hempty]
    rw [if_neg (by omega), hhead]
    by_cases hcomment : s.bytes.head? = some 35
    · rw [if_pos hcomment, if_pos (Or.inr hcomment)]
    · rw [if_neg hcomment, if_neg (by simp [hempty, hcomment])]
      have hset : (s.bytes ++ [b] ++ [0]).set s.bytes.length 0 = s.bytes ++ 0 :: [0] := by
        rw [List.append_assoc]
        exact set_append_cons s.bytes b 0
      obtain ⟨junk,hstrip,-⟩ := stripBuffer_spec s [0]
      rw [hset, hstrip, CString.read_bytes_append]
      cases hp : (strip s).strchr 61 with
      | none => rfl
      | some p =>
        obtain ⟨hkey,hvalue⟩ := split_spec (junk ++ [0]) hp
        simp only [hkey, hvalue, Option.bind_some]

/-! ## Lines as they are printed -/

theorem ConfigKey.find_name (k : ConfigKey) :
    (comparedKeys.find? fun k' => CString.strcmp k'.name k.name = 0) = some k := by
  cases k <;> decide +kernel

theorem Config.set_name (conf : Config) (k : ConfigKey) (p : CString) : conf.set k.name p = conf.assign p k := by
  rw [Config.set, k.find_name]

/-- A key is no comment and has neither blanks nor `=`. -/
theorem ConfigKey.name_plain (k : ConfigKey) : k.name.bytes ≠ [] ∧ k.name.bytes.head? ≠ some 35 ∧ 32 ∉ k.name.bytes ∧
    61 ∉ k.name.bytes ∧ 10 ∉ k.name.bytes ∧ k.name.strlen ≤ 15 := by
  cases k <;> decide +kernel

theorem ConfigKey.trim_name (k : ConfigKey) : trim 32 k.name.bytes = k.name.bytes := by
  obtain ⟨-,-,hblank,-⟩ := k.name_plain
  apply trim_eq_self
  · exact fun h => hblank (List.mem_of_mem_head? h)
  · exact fun h => hblank (List.mem_of_mem_getLast? h)

theorem strip_printed (k : ConfigKey) (v : CString) : (strip (k.name ++ text " = " ++ v)).bytes =
    (k.name.bytes ++ [32]) ++ 61 :: (32 :: v.bytes).rdropWhile (· == 32) := by
  obtain ⟨hne,-,hblank,-⟩ := k.name_plain
  have hbytes : (k.name ++ text " = " ++ v).bytes = (k.name.bytes ++ [32]) ++ 61 :: (32 :: v.bytes) := by
    have htext : (text " = ").bytes = [32,61,32] := by decide
    simp [htext]
  change trim 32 (k.name ++ text " = " ++ v).bytes = _
  rw [hbytes, trim, rdropWhile_append_solid (by decide)]
  obtain ⟨c,cs,hc⟩ := List.exists_cons_of_ne_nil hne
  have hsolid : c ≠ 32 := by
    rintro rfl
    exact hblank (hc ▸ List.mem_cons_self)
  rw [hc, List.cons_append, List.cons_append, List.dropWhile_cons_of_neg (by simpa using hsolid)]

/-- A line as it is printed assigns what stands behind the `=` without its outer spaces. -/
theorem readLine_printed (conf : Config) (k : ConfigKey) (v : CString) :
    conf.readLine (k.name ++ text " = " ++ v) = conf.assign (strip v) k := by
  obtain ⟨hne,hcomment,-,hequals,-⟩ := k.name_plain
  have hstrip := strip_printed k v
  have hfront : (61 : UInt8) ∉ k.name.bytes ++ [32] := by simpa using hequals
  have hkey : strip ((strip (k.name ++ text " = " ++ v)).take (k.name.bytes ++ [32]).length) = k.name := by
    apply CString.ext
    change trim 32 (CString.take _ _).bytes = _
    rw [CString.take_append _ _ hstrip, trim_concat_sep, k.trim_name]
  have hvalue : strip ((strip (k.name ++ text " = " ++ v)).drop ((k.name.bytes ++ [32]).length + 1)) = strip v := by
    apply CString.ext
    change trim 32 (CString.drop _ _).bytes = trim 32 v.bytes
    rw [CString.drop_append _ _ hstrip, trim_rdropWhile, trim_cons_sep]
  rw [Config.readLine, if_neg, CString.strchr_split hstrip hfront, Option.bind_some, hkey, hvalue, Config.set_name]
  rintro (hempty | hhead)
  · simp [hne] at hempty
  · apply hcomment
    rw [← hhead]
    simp [List.head?_append_of_ne_nil _ hne]

/-! ## What a line can add -/

/-- How many bytes the names of the sockets have. -/
def Config.socketBytes (conf : Config) : ℕ := (conf.redisUnixSock.val.map CString.strlen).sum

theorem strtok_bytes_le (p : CString) : ((strtok p).map CString.strlen).sum ≤ solid 32 p.bytes := by
  rw [← sum_words, strtok, List.map_map]
  apply List.sum_le_sum
  intro w _
  exact (List.takeWhile_prefix _).length_le

theorem assign_socketBytes_le {p : CString} (h : conf.assign p k = some conf') :
    conf'.socketBytes ≤ conf.socketBytes + solid 32 p.bytes := by
  cases k with
  | redisSockPath =>
    obtain ⟨socks,hadd,rfl⟩ := Option.map_eq_some_iff.mp h
    unfold addSockets at hadd
    split at hadd
    · obtain rfl := Option.some_inj.mp hadd
      change ((conf.redisUnixSock.val ++ strtok p).map CString.strlen).sum ≤ _
      rw [List.map_append, List.sum_append]
      exact Nat.add_le_add_left (strtok_bytes_le p) _
    · cases hadd
  | ethDev | serverIp | homeDir | filePrefix | logIp =>
    obtain ⟨s,-,rfl⟩ := Option.map_eq_some_iff.mp h
    exact Nat.le_add_right _ _
  | enableAuto | serverPort | serverMgrPort | maxLine | fileSizeLimit | maxFileCount =>
    obtain rfl := Option.some_inj.mp h
    exact Nat.le_add_right _ _

theorem set_socketBytes_le {key p : CString} (h : conf.set key p = some conf') :
    conf'.socketBytes ≤ conf.socketBytes + solid 32 p.bytes := by
  unfold Config.set at h
  split at h
  · exact assign_socketBytes_le h
  · obtain rfl := Option.some_inj.mp h
    exact Nat.le_add_right _ _

/-- The `=` of a line is in no socket's name: unless it is blank, a line adds less than it has. -/
theorem readLine_socketBytes_le (h : conf.readLine s = some conf') :
    conf'.socketBytes + min 1 (solid 32 s.bytes) ≤ conf.socketBytes + solid 32 s.bytes := by
  unfold Config.readLine at h
  split at h
  · obtain rfl := Option.some_inj.mp h
    omega
  · obtain ⟨p,hp,hset⟩ := Option.bind_eq_some_iff.mp h
    obtain ⟨front,back,hsplit,rfl⟩ := strchr_eq_some hp
    have hadd := set_socketBytes_le hset
    have hvalue : solid 32 (strip ((strip s).drop (front.length + 1))).bytes = solid 32 back := by
      change solid 32 (trim 32 (CString.drop _ _).bytes) = _
      rw [CString.drop_append _ _ hsplit, solid_trim]
    have hline : solid 32 s.bytes = solid 32 front + (1 + solid 32 back) := by
      have hstrip : solid 32 (strip s).bytes = solid 32 s.bytes := solid_trim
      rw [← hstrip, hsplit, solid_append, solid_cons, if_neg (by decide)]
    omega

end ConfigLine

end LogStats
