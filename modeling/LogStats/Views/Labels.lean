import LogStats.Views.ViewStats

/-! # Labels of record types and return codes

A label is looked up in the table whose entries the reply lists for the counters. The
table of record types ends in a NULL that every label without an entry of its own reaches.
-/
namespace LogStats

/-- The names and counts that `_view_stats_result1` lists. -/
def viewStatsResult1 (array : List ℤ) (key : CString) : List (Option CString × ℤ) :=
  let pName := if CString.strcmp key (text "rcode") = 0 then RCODE else RTYPE
  (pName.zip array).filter fun entry => entry.2 ≠ 0

def viewStatsGetRcode (vs : ViewStats) : List (Option CString × ℤ) :=
  viewStatsResult1 ((List.finRange 7).map fun i => (vs.rcode i).toInt32.toInt) (text "rcode")

def viewStatsGetRtype (vs : ViewStats) : List (Option CString × ℤ) :=
  viewStatsResult1 ((List.finRange 12).map fun i => (vs.rtype i).toInt32.toInt) (text "rtype")

/-- The reply for counters of which only the one at `i` is not 0. -/
def Reports (maxNum : ℕ) (key : CString) (i : ℕ) (label : Option CString) : Prop :=
  ∀ n, n ≠ 0 → viewStatsResult1 ((List.replicate maxNum 0).set i n) key = [(label,n)]

def supportedRcodes : List CString :=
  ["NOERROR","FORMATERR","SERVFAIL","NXDOMAIN","NOTIMP","REFUSED"].map text

def supportedRtypes : List CString :=
  ["A","MX","AAAA","CNAME","NS","SOA","TXT","SPF","SRV","DNAME","NAPTR"].map text

/-- A label is counted where the reply has it, or `OTHER` if it is not a supported one. -/
def Classified (index : CString → Option ℕ) (maxNum : ℕ) (key : CString) (supported : List CString) (label : CString) :
    Prop :=
  ∃ i, index label = some i ∧ i < maxNum ∧ Reports maxNum key i (some (if label ∈ supported then label else text "OTHER"))

/-! ## Looking a label up -/

section Lookup
variable {maxNum i k : ℕ} {label entry : CString} {table : List (Option CString)}

theorem labelIndex_skip (h : label ≠ entry) :
    labelIndex maxNum label i (some entry :: table) = labelIndex maxNum label (i + 1) table := by
  have hne : ¬CString.strcmp label entry = 0 := fun he => h ((CString.strcmp_eq_zero _ _).mp he)
  rw [labelIndex, if_neg hne]

theorem labelIndex_found : labelIndex maxNum label i (some label :: table) = some i := by
  rw [labelIndex, if_pos ((CString.strcmp_eq_zero _ _).mpr rfl)]

/-- Without an entry in a table without NULLs the last counter is taken. -/
theorem labelIndex_default {labels : List CString} (h : label ∉ labels) :
    labelIndex maxNum label i (labels.map some) = some (maxNum - 1) := by
  induction labels generalizing i with
  | nil => rfl
  | cons entry rest ih =>
    obtain ⟨hne,hrest⟩ : label ≠ entry ∧ label ∉ rest := by simpa using h
    rw [List.map_cons, labelIndex_skip hne, ih hrest]

/-- Without an entry before the first NULL the search compares with it. -/
theorem labelIndex_null {labels : List CString} (h : label ∉ labels) :
    labelIndex maxNum label i (labels.map some ++ none :: table) = none := by
  induction labels generalizing i with
  | nil => rfl
  | cons entry rest ih =>
    obtain ⟨hne,hrest⟩ : label ≠ entry ∧ label ∉ rest := by simpa using h
    rw [List.map_cons, List.cons_append, labelIndex_skip hne, ih hrest]

/-- An entry that is there is found at its first place. -/
theorem labelIndex_entry {labels : List CString} (h : label ∈ labels) : ∃ k, k < labels.length ∧
    labels[k]? = some label ∧ labelIndex maxNum label i (labels.map some ++ table) = some (i + k) := by
  induction labels generalizing i with
  | nil => exact absurd h List.not_mem_nil
  | cons entry rest ih =>
    by_cases he : label = entry
    · subst he
      exact ⟨0,Nat.succ_pos _,rfl,labelIndex_found⟩
    · obtain ⟨k,hk,hget,hidx⟩ := ih (i := i + 1) ((List.mem_cons.mp h).resolve_left he)
      refine ⟨k + 1,Nat.succ_lt_succ hk,hget,?_⟩
      rw [List.map_cons, List.cons_append, labelIndex_skip he, hidx, Nat.add_assoc, Nat.add_comm 1]

end Lookup

/-! ## Reporting a counter -/

theorem zip_zeros (table : List (Option CString)) :
    ((table.zip (List.replicate table.length 0)).filter fun entry => entry.2 ≠ (0 : ℤ)) = [] := by
  rw [List.filter_eq_nil_iff]
  intro entry hentry
  have hzero : entry.2 = 0 := List.eq_of_mem_replicate (List.of_mem_zip hentry).2
  simp [hzero]

theorem zip_single {table : List (Option CString)} {i : ℕ} {label : Option CString} (h : table[i]? = some label) {n : ℤ}
    (hn : n ≠ 0) :
    ((table.zip ((List.replicate table.length 0).set i n)).filter fun entry => entry.2 ≠ 0) = [(label,n)] := by
  induction table generalizing i with
  | nil => simp at h
  | cons entry rest ih =>
    cases i with
    | zero =>
      obtain rfl : entry = label := by simpa using h
      have hrest := zip_zeros rest
      simp only [List.length_cons, List.replicate_succ, List.set_cons_zero, List.zip_cons_cons]
      rw [List.filter_cons_of_pos (by simpa using hn), hrest]
    | succ i =>
      have hrest := ih (i := i) (by simpa using h)
      simp only [List.length_cons, List.replicate_succ, List.set_cons_succ, List.zip_cons_cons]
      rw [List.filter_cons_of_neg (by simp), hrest]

theorem reports_rcode {i : ℕ} {label : Option CString} (h : RCODE[i]? = some label) :
    Reports rcodeMaxNum (text "rcode") i label := by
  intro n hn
  have hsingle := zip_single h hn
  have hkey : CString.strcmp (text "rcode") (text "rcode") = 0 := (CString.strcmp_eq_zero _ _).mpr rfl
  simp only [viewStatsResult1, if_pos hkey]
  exact hsingle

theorem reports_rtype {i : ℕ} {label : Option CString} (h : RTYPE[i]? = some label) :
    Reports rtypeMaxNum (text "rtype") i label := by
  intro n hn
  have hsingle := zip_single h hn
  have hkey : ¬CString.strcmp (text "rtype") (text "rcode") = 0 := by decide +kernel
  simp only [viewStatsResult1, if_neg hkey]
  exact hsingle

theorem Reports.unique {maxNum i : ℕ} {key : CString} {l l' : Option CString} (h : Reports maxNum key i l)
    (h' : Reports maxNum key i l') : l = l' := by
  have heq := (h 1 one_ne_zero).symm.trans (h' 1 one_ne_zero)
  exact congrArg Prod.fst (List.singleton_inj.mp heq)

/-! ## Which labels are classified -/

def rtypeLabels : List CString :=
  ["A","MX","AAAA","CNAME","NS","SOA","TXT","SPFSRV","DNAME","NAPTR","OTHER"].map text

theorem rtype_table : RTYPE = rtypeLabels.map some ++ [none] := by
  simp only [RTYPE, rtypeLabels, List.map_map]
  rfl

/-- Every return code is classified. -/
theorem rcode_classified (rcode : CString) :
    Classified rcodeIndex rcodeMaxNum (text "rcode") supportedRcodes rcode := by
  have htable : RCODE = supportedRcodes.map some ++ [some (text "OTHER")] := rfl
  by_cases hs : rcode ∈ supportedRcodes
  · obtain ⟨k,hk,hget,hidx⟩ : ∃ k, k < supportedRcodes.length ∧ supportedRcodes[k]? = some rcode ∧
        labelIndex rcodeMaxNum rcode 0 (supportedRcodes.map some ++ [some (text "OTHER")]) = some (0 + k) := labelIndex_entry hs
    rw [← htable, Nat.zero_add] at hidx
    refine ⟨k,hidx,lt_of_lt_of_le hk (by decide),?_⟩
    rw [if_pos hs]
    apply reports_rcode
    rw [htable, List.getElem?_append_left (by rwa [List.length_map]), List.getElem?_map, hget, Option.map_some]
  · refine ⟨6,?_,by decide,?_⟩
    · by_cases ho : rcode = text "OTHER"
      · rw [ho]
        decide +kernel
      · have hnot : rcode ∉ supportedRcodes ++ [text "OTHER"] := by
          rw [List.mem_append, List.mem_singleton]
          exact fun h => h.elim hs ho
        have hdefault : labelIndex rcodeMaxNum rcode 0 ((supportedRcodes ++ [text "OTHER"]).map some) = some (rcodeMaxNum - 1) :=
          labelIndex_default hnot
        exact hdefault
    · rw [if_neg hs]
      exact reports_rcode rfl

/-- A record type is classified if and only if it has an entry of its own in the table
that is not the one of two types run together. -/
theorem rtype_classified_iff (rtype : CString) :
    (Classified rtypeIndex rtypeMaxNum (text "rtype") supportedRtypes rtype ↔
      rtype ∈ rtypeLabels ∧ rtype ≠ text "SPFSRV") ∧
      Classified rcodeIndex rcodeMaxNum (text "rcode") supportedRcodes rtype := by
  refine ⟨?_,rcode_classified rtype⟩
  have hsupported : ∀ l ∈ rtypeLabels, l ≠ text "SPFSRV" → (if l ∈ supportedRtypes then l else text "OTHER") = l := by
    decide +kernel
  have hjoined : ¬text "SPFSRV" ∈ supportedRtypes := by decide +kernel
  have hother : ¬text "OTHER" = text "SPFSRV" := by decide +kernel
  by_cases hin : rtype ∈ rtypeLabels
  · obtain ⟨k,hk,hget,hidx⟩ : ∃ k, k < rtypeLabels.length ∧ rtypeLabels[k]? = some rtype ∧
        labelIndex rtypeMaxNum rtype 0 (rtypeLabels.map some ++ [none]) = some (0 + k) := labelIndex_entry hin
    rw [← rtype_table, Nat.zero_add] at hidx
    have hreports : Reports rtypeMaxNum (text "rtype") k (some rtype) := by
      apply reports_rtype
      rw [rtype_table, List.getElem?_append_left (by rwa [List.length_map]), List.getElem?_map, hget, Option.map_some]
    constructor
    · rintro ⟨i,hi,-,hrep⟩
      refine ⟨hin,?_⟩
      rintro rfl
      obtain rfl : k = i := Option.some_inj.mp (hidx.symm.trans hi)
      rw [if_neg hjoined] at hrep
      exact hother (Option.some_inj.mp (hrep.unique hreports))
    · rintro ⟨-,hne⟩
      refine ⟨k,hidx,lt_of_lt_of_le hk (by decide),?_⟩
      rwa [hsupported rtype hin hne]
  · refine iff_of_false ?_ (fun h => hin h.1)
    rintro ⟨i,hi,-⟩
    have hnull : rtypeIndex rtype = none := by
      rw [rtypeIndex, rtype_table]
      exact labelIndex_null hin
    rw [hnull] at hi
    cases hi

/-- The index of a supported type is never computed. -/
theorem rtype_classified_fails : ¬Classified rtypeIndex rtypeMaxNum (text "rtype") supportedRtypes (text "SRV") := by
  rintro ⟨i,hi,-⟩
  have hnone : rtypeIndex (text "SRV") = none := by decide +kernel
  rw [hnone] at hi
  cases hi

end LogStats
