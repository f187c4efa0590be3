import LogStats.Keeper.Accounts

/-! # Which lines handle_string_log can take apart

The test of the line looks at four of the tokens, the last one the eleventh, and what
follows uses the eighteenth as well. A line with too few tokens for that is undefined once
it has passed the test.
-/
namespace LogStats

/-- The tokens that `ptr` points to. -/
def lineTokens (line : CString) : List CString := (strtok line).take spNum

/-- The line passes the test: there are eleven tokens, and the one for the view ends in a colon. -/
def Accepted (line : CString) : Prop :=
  rcodeP < (lineTokens line).length ∧ ((lineTokens line)[viewP]?.bind fun view => view.bytes.getLast?) = some 58

instance (line : CString) : Decidable (Accepted line) := inferInstanceAs (Decidable (_ ∧ _))

/-- The tokens that an accepted line needs are there, and the two names fit their buffers. -/
def Complete (line : CString) : Prop :=
  ∃ view zone, (lineTokens line)[viewP]? = some view ∧ (lineTokens line)[zoneP]? = some zone ∧
    (keyword (chop view) (chop zone)).strlen < keywordLen ∧ (totalKeyword (chop zone)).strlen < keywordLen

/-- Where the parts of a line come from. -/
structure LogLine.FromTokens (l : LogLine) (ptr : List CString) : Prop where
  view : ∃ s, ptr[viewP]? = some s ∧ s.bytes = l.view.bytes ++ [58]
  zone : ∃ s b, ptr[zoneP]? = some s ∧ s.bytes = l.zone.bytes ++ [b]
  domain : ptr[domainP]? = some l.domain
  ip : ptr[cipP]? = some l.ip
  rtype : ptr[rtypeP]? = some l.rtype
  rcode : ptr[rcodeP]? = some l.rcode

/-- Either the line leaves every keeper as it is, or its tokens are there and go into the
two calls of `log_handle`. -/
def Parsed (line : CString) : Prop :=
  (handleTokens line = some none ∧ ∀ alloc totalAlloc keeper, handleStringLog alloc totalAlloc keeper line = some keeper) ∨
    ∃ l : LogLine, handleTokens line = some (some l) ∧ l.FromTokens (lineTokens line) ∧
      ∀ alloc totalAlloc keeper, handleStringLog alloc totalAlloc keeper line =
        (logHandle alloc keeper l.record).bind fun keeper => logHandle totalAlloc keeper l.totalRecord

/-! ## Tokens -/

theorem mem_of_mem_splitOnP {p : UInt8 → Bool} {xs x : List UInt8} (hx : x ∈ xs.splitOnP p) : ∀ b ∈ x, b ∈ xs := by
  induction xs generalizing x with
  | nil =>
    obtain rfl : x = [] := by simpa using hx
    exact fun b hb => hb
  | cons a xs ih =>
    rw [List.splitOnP_cons_eq_if_modifyHead] at hx
    split at hx
    · rcases List.mem_cons.mp hx with rfl | hx
      · exact fun b hb => absurd hb List.not_mem_nil
      · exact fun b hb => List.mem_cons_of_mem a (ih hx b hb)
    · cases hs : xs.splitOnP p with
      | nil => exact absurd hs (List.splitOnP_ne_nil p xs)
      | cons y ys =>
        rw [hs, List.modifyHead_cons] at hx
        rw [hs] at ih
        rcases List.mem_cons.mp hx with rfl | hx
        · intro b hb
          rcases List.mem_cons.mp hb with rfl | hb
          · exact List.mem_cons_self
          · exact List.mem_cons_of_mem a (ih List.mem_cons_self b hb)
        · exact fun b hb => List.mem_cons_of_mem a (ih (List.mem_cons_of_mem y hx) b hb)

theorem strtok_ne_nil {line token : CString} (h : token ∈ strtok line) : token.bytes ≠ [] := by
  obtain ⟨x,hx,rfl⟩ := List.mem_map.mp h
  obtain ⟨hx,hne⟩ := List.mem_filter.mp hx
  obtain ⟨b,rest,rfl⟩ := List.exists_cons_of_ne_nil (of_decide_eq_true hne)
  have hb : b ≠ 0 := by
    rintro rfl
    exact line.nulFree (mem_of_mem_splitOnP hx 0 List.mem_cons_self)
  simp [CString.read, hb]

theorem lineTokens_ne_nil {line token : CString} {i : ℕ} (h : (lineTokens line)[i]? = some token) : token.bytes ≠ [] :=
  strtok_ne_nil (List.mem_of_mem_take (List.mem_of_getElem? h))

theorem chop_concat {s : CString} (h : s.bytes ≠ []) : s.bytes = (chop s).bytes ++ [s.bytes.getLast h] :=
  (List.dropLast_concat_getLast h).symm

/-! ## The test and what follows it -/

section Line
variable {line : CString}

theorem handleTokens_cases (hlen : line.strlen < recordLen) :
    (¬Accepted line ∧ handleTokens line = some none) ∨
      ∃ view ip rcode rtype domain, (lineTokens line)[viewP]? = some view ∧ (lineTokens line)[cipP]? = some ip ∧
        (lineTokens line)[rcodeP]? = some rcode ∧ (lineTokens line)[rtypeP]? = some rtype ∧
        (lineTokens line)[domainP]? = some domain ∧ view.bytes.getLast? = some 58 ∧ Accepted line ∧
        handleTokens line = (lineTokens line)[zoneP]?.bind fun zone =>
          let l : LogLine := ⟨chop view,chop zone,domain,ip,rtype,rcode⟩
          if keywordLen ≤ l.record.view.strlen ∨ keywordLen ≤ l.totalRecord.view.strlen then none else some (some l) := by
  have hshort : ¬recordLen ≤ line.strlen := by omega
  by_cases hmany : rcodeP < (lineTokens line).length
  · have hget : ∀ i, i ≤ rcodeP → ∃ token, (lineTokens line)[i]? = some token := fun i hi =>
      ⟨_,List.getElem?_eq_getElem (lt_of_le_of_lt hi hmany)⟩
    obtain ⟨view,hview⟩ := hget viewP (by decide)
    obtain ⟨ip,hip⟩ := hget cipP (by decide)
    obtain ⟨rcode,hrcode⟩ := hget rcodeP le_rfl
    obtain ⟨rtype,hrtype⟩ := hget rtypeP (by decide)
    obtain ⟨domain,hdomain⟩ := hget domainP (by decide)
    have hunfold : handleTokens line = if view.bytes.getLast? ≠ some 58 then some none else
        (lineTokens line)[zoneP]?.bind fun zone =>
          let l : LogLine := ⟨chop view,chop zone,domain,ip,rtype,rcode⟩
          if keywordLen ≤ l.record.view.strlen ∨ keywordLen ≤ l.totalRecord.view.strlen then none else some (some l) := by
      rw [lineTokens] at hview hip hrcode hrtype hdomain
      simp only [handleTokens, if_neg hshort, hview, hip, hrcode, hrtype, hdomain]
      rfl
    by_cases hcolon : view.bytes.getLast? = some 58
    · refine Or.inr ⟨view,ip,rcode,rtype,domain,hview,hip,hrcode,hrtype,hdomain,hcolon,⟨hmany,?_⟩,?_⟩
      · rw [hview, Option.bind_some, hcolon]
      · rw [hunfold, if_neg (not_not.mpr hcolon)]
    · refine Or.inl ⟨fun ha => hcolon ?_,by rw [hunfold, if_pos hcolon]⟩
      have hlast := ha.2
      rwa [hview, Option.bind_some] at hlast
  · refine Or.inl ⟨fun ha => hmany ha.1,?_⟩
    have hnone : (lineTokens line)[rcodeP]? = none := List.getElem?_eq_none (by omega)
    rw [lineTokens] at hnone
    simp only [handleTokens, if_neg hshort, hnone]
    split
    · rename_i hno _
      cases hno
    · rfl

theorem Parsed.ne_none (h : Parsed line) : handleTokens line ≠ none := by
  rcases h with ⟨hrun,-⟩ | ⟨l,hrun,-⟩ <;> rw [hrun] <;> exact Option.some_ne_none _

theorem handleTokens_ignored (hlen : line.strlen < recordLen) (hna : ¬Accepted line) : handleTokens line = some none := by
  rcases handleTokens_cases hlen with ⟨-,hrun⟩ | ⟨_,_,_,_,_,_,_,_,_,_,_,ha,-⟩
  · exact hrun
  · exact absurd ha hna

/-- An accepted line that is not complete is undefined. -/
theorem handleTokens_none (hlen : line.strlen < recordLen) (ha : Accepted line) (hc : ¬Complete line) :
    handleTokens line = none := by
  rcases handleTokens_cases hlen with ⟨hno,-⟩ | ⟨view,ip,rcode,rtype,domain,hview,-,-,-,-,-,-,hrun⟩
  · exact absurd ha hno
  · rw [hrun]
    cases hzone : (lineTokens line)[zoneP]? with
    | none => rfl
    | some zone =>
      rw [Option.bind_some, if_pos]
      by_contra hfit
      rw [not_or, Nat.not_le, Nat.not_le] at hfit
      exact hc ⟨view,zone,hview,hzone,hfit.1,hfit.2⟩

/-- An accepted line that is complete gives its tokens to the two calls. -/
theorem handleTokens_complete (hlen : line.strlen < recordLen) (ha : Accepted line) (hc : Complete line) :
    ∃ l : LogLine, l.FromTokens (lineTokens line) ∧ handleTokens line = some (some l) := by
  rcases handleTokens_cases hlen with ⟨hno,-⟩ | ⟨view,ip,rcode,rtype,domain,hview,hip,hrcode,hrtype,hdomain,hcolon,-,hrun⟩
  · exact absurd ha hno
  · obtain ⟨view',zone,hview',hzone,hkey,htotal⟩ := hc
    obtain rfl : view = view' := Option.some_inj.mp (hview.symm.trans hview')
    have hv := chop_concat (lineTokens_ne_nil hview)
    rw [List.getLast?_eq_some_getLast (lineTokens_ne_nil hview), Option.some_inj] at hcolon
    rw [hcolon] at hv
    refine ⟨⟨chop view,chop zone,domain,ip,rtype,rcode⟩,⟨⟨view,hview,hv⟩,
      ⟨zone,_,hzone,chop_concat (lineTokens_ne_nil hzone)⟩,hdomain,hip,hrtype,hrcode⟩,?_⟩
    rw [hrun, hzone, Option.bind_some, if_neg]
    exact not_or.mpr ⟨Nat.not_le.mpr hkey,Nat.not_le.mpr htotal⟩

end Line

/-- A line is parsed if and only if it fails the test, or has the tokens that the rest of
the function uses and names that fit. -/
theorem parsing_total_iff (line : CString) (h : line.strlen < recordLen) :
    Parsed line ↔ ¬Accepted line ∨ Complete line := by
  constructor
  · intro hparsed
    by_contra hno
    rw [not_or, not_not] at hno
    exact hparsed.ne_none (handleTokens_none h hno.1 hno.2)
  · intro hor
    by_cases ha : Accepted line
    · obtain ⟨l,hl,hrun⟩ := handleTokens_complete h ha (hor.resolve_left (not_not.mpr ha))
      refine Or.inr ⟨l,hrun,hl,fun alloc totalAlloc keeper => ?_⟩
      rw [handleStringLog, hrun]
      rfl
    · refine Or.inl ⟨handleTokens_ignored h ha,fun alloc totalAlloc keeper => ?_⟩
      rw [handleStringLog, handleTokens_ignored h ha]
      rfl

/-- The line in the comment of `handle_string_log`. -/
def commentLine : CString :=
  text "02-Jul-2013 11:36:36.273 client 203.119.80.41 57867: view interval: www14998.test.com IN A NXDOMAIN + NS NE NT ND NC"

theorem parsing_total_iff_commentLine :
    commentLine.strlen < recordLen ∧ (Parsed commentLine ↔ ¬Accepted commentLine ∨ Complete commentLine) :=
  ⟨by decide +kernel,parsing_total_iff commentLine (by decide +kernel)⟩

/-- The line in the comment passes the test and has no eighteenth token. -/
theorem parsing_total_fails : commentLine.strlen < recordLen ∧ ¬Parsed commentLine :=
  ⟨by decide +kernel,fun h => h.ne_none (by decide +kernel)⟩

end LogStats
