import LogStats.NameTree.Delete
import Mathlib.Data.Rat.Defs

/-! # The statistics of one view, log_view_stats.c

Rates are rational numbers. `view_stats_create` sets the record up and ends without
the return statement for it; here it returns the record.
-/
namespace LogStats

/-- ASCII text without NULs. -/
def text (s : String) : CString where
  bytes := (s.toList.map fun c => UInt8.ofNat c.toNat).filter (· ≠ 0)
  nulFree := by simp

def rcodeMaxNum : ℕ := 7
def rtypeMaxNum : ℕ := 12
def maxViewLength : ℕ := 64
def rcodeNoerror : Fin 7 := 0
def rcodeServfail : Fin 7 := 2

def RCODE : List (Option CString) :=
  ["NOERROR","FORMATERR","SERVFAIL","NXDOMAIN","NOTIMP","REFUSED","OTHER"].map fun s => some (text s)

/-- The comma between the seventh and the eighth label is missing, so that the compiler
joins them and the last entry is NULL. -/
def RTYPE : List (Option CString) :=
  ["A","MX","AAAA","CNAME","NS","SOA","TXT","SPFSRV","DNAME","NAPTR","OTHER"].map (fun s => some (text s)) ++ [none]

/-- The loop of `rtype_index` and `rcode_index` from entry `i` on. -/
def labelIndex (maxNum : ℕ) (label : CString) : ℕ → List (Option CString) → Option ℕ
  | _, [] => some (maxNum - 1)
  | _, none :: _ => none
  | i, some entry :: rest => if CString.strcmp label entry = 0 then some i else labelIndex maxNum label (i + 1) rest

def rtypeIndex (rtype : CString) : Option ℕ := labelIndex rtypeMaxNum rtype 0 RTYPE
def rcodeIndex (rcode : CString) : Option ℕ := labelIndex rcodeMaxNum rcode 0 RCODE

structure ViewStats where
  name : CString
  nameTree : NameTree
  ipTree : NameTree
  qps : ℚ
  successRate : ℚ
  count : UInt32
  lastCount : UInt32
  rcode : Fin 7 → UInt32
  rtype : Fin 12 → UInt32

structure ViewStatsMemory where
  nameTree : NameTreeMemory
  ipTree : NameTreeMemory

/-- `view_stats_create`: NULL is `some none`. -/
def viewStatsCreate (malloc : Bool) (memory : ViewStatsMemory) (viewName : CString) : Option (Option ViewStats) :=
  if maxViewLength < viewName.strlen then some none
  else if malloc = false then some none
  else do
    let nameTree ← nameTreeCreate memory.nameTree
    let ipTree ← nameTreeCreate memory.ipTree
    -- the NUL behind 64 bytes lands in the pointer to the name tree
    if viewName.strlen = maxViewLength then none
    else some (some ⟨viewName,nameTree,ipTree,0,1,0,0,fun _ => 0,fun _ => 0⟩)

def sizeofViewStats : UInt32 := 176

/-- The sum that `view_stats_get_size` computes in 32 bits. -/
def viewStatsSize (nameTree ipTree : UInt64) : UInt32 := sizeofViewStats + nameTree.toUInt32 + ipTree.toUInt32

def viewStatsGetSize (vs : ViewStats) : UInt64 :=
  (viewStatsSize (nameTreeGetSize vs.nameTree) (nameTreeGetSize vs.ipTree)).toUInt64

/-- Each loop of `view_stats_set_memsize`, with the size of the record as a function of
the size of the tree it works on. -/
def setMemsizeLoop (size : UInt64 → UInt64) (expectSize : UInt64) : ℕ → NameTree → Option NameTree
  | 0, _ => none
  | fuel + 1, t =>
    if expectSize < size (nameTreeGetSize t) then do
      let (t,found) ← nameTreeEvict t
      if found then setMemsizeLoop size expectSize fuel t else some t
    else some t

/-- A round takes one node off the list, and the last one finds it empty. -/
def setMemsizeRounds (t : NameTree) : ℕ := t.lru.count.toNat + 1

def viewStatsSetMemsize (vs : ViewStats) (expectSize : UInt64) : Option ViewStats := do
  let nameTree ← setMemsizeLoop (fun size => (viewStatsSize size (nameTreeGetSize vs.ipTree)).toUInt64) expectSize
    (setMemsizeRounds vs.nameTree) vs.nameTree
  let ipTree ← setMemsizeLoop (fun size => (viewStatsSize (nameTreeGetSize nameTree) size).toUInt64) expectSize
    (setMemsizeRounds vs.ipTree) vs.ipTree
  some { vs with nameTree := nameTree, ipTree := ipTree }

def viewStatsInsertName (malloc : Mallocs) (vs : ViewStats) (name : CString) : Option ViewStats := do
  let (nameTree,_) ← nameTreeInsert malloc vs.nameTree name
  some { vs with nameTree := nameTree }

def viewStatsInsertIp (malloc : Mallocs) (vs : ViewStats) (ip : CString) : Option ViewStats := do
  let (ipTree,_) ← nameTreeInsert malloc vs.ipTree ip
  some { vs with ipTree := ipTree }

/-- `rcode[7]`, which the check lets pass, is `rtype[0]`. -/
def viewStatsRcodeIncrement (vs : ViewStats) (rcode : ℤ) : ViewStats :=
  if 7 < rcode ∨ rcode < 0 then vs
  else if h : rcode.toNat < 7 then
    { vs with rcode := Function.update vs.rcode ⟨rcode.toNat,h⟩ (vs.rcode ⟨rcode.toNat,h⟩ + 1) }
  else { vs with rtype := Function.update vs.rtype 0 (vs.rtype 0 + 1) }

/-- `rtype[12]`, which the check lets pass, is the padding at the end of the record. -/
def viewStatsRtypeIncrement (vs : ViewStats) (rtype : ℤ) : ViewStats :=
  if 12 < rtype ∨ rtype < 0 then vs
  else if h : rtype.toNat < 12 then
    { vs with rtype := Function.update vs.rtype ⟨rtype.toNat,h⟩ (vs.rtype ⟨rtype.toNat,h⟩ + 1) }
  else vs

/-! ## Labels -/

theorem labelIndex_lt {maxNum : ℕ} {label : CString} {table : List (Option CString)} {i k : ℕ}
    (hlen : i + table.length ≤ maxNum) (hpos : 0 < maxNum) (h : labelIndex maxNum label i table = some k) :
    k < maxNum := by
  induction table generalizing i with
  | nil =>
    obtain rfl := Option.some_inj.mp h
    omega
  | cons entry rest ih =>
    rw [List.length_cons] at hlen
    cases entry with
    | none => simp [labelIndex] at h
    | some entry =>
      simp only [labelIndex] at h
      split at h
      · obtain rfl := Option.some_inj.mp h
        omega
      · exact ih (by omega) h

theorem rcodeIndex_lt {rcode : CString} {i : ℕ} (h : rcodeIndex rcode = some i) : i < 7 :=
  labelIndex_lt (by simp [RCODE]) (by decide) h

theorem rtypeIndex_lt {rtype : CString} {i : ℕ} (h : rtypeIndex rtype = some i) : i < 12 :=
  labelIndex_lt (by simp [RTYPE]) (by decide) h

theorem viewStatsRcodeIncrement_lt (vs : ViewStats) {i : ℕ} (h : i < 7) :
    viewStatsRcodeIncrement vs i = { vs with rcode := Function.update vs.rcode ⟨i,h⟩ (vs.rcode ⟨i,h⟩ + 1) } := by
  have hout : ¬(7 < (i : ℤ) ∨ (i : ℤ) < 0) := by omega
  simp only [viewStatsRcodeIncrement, if_neg hout, Int.toNat_natCast, h, dite_true]

theorem viewStatsRtypeIncrement_lt (vs : ViewStats) {i : ℕ} (h : i < 12) :
    viewStatsRtypeIncrement vs i = { vs with rtype := Function.update vs.rtype ⟨i,h⟩ (vs.rtype ⟨i,h⟩ + 1) } := by
  have hout : ¬(12 < (i : ℤ) ∨ (i : ℤ) < 0) := by omega
  simp only [viewStatsRtypeIncrement, if_neg hout, Int.toNat_natCast, h, dite_true]

end LogStats
