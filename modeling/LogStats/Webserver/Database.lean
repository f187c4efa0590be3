import LogStats.Library.CString
import LogStats.Library.Calendar
import Mathlib.Logic.Function.Basic
import Mathlib.Tactic.Ring

/-! # The tables of return codes and record types, db_handler.py

A timestamp of fourteen digits is the number that it reads as: SQLite compares the texts,
and texts of one length are ordered as the numbers are. A row is only ever added here. A
name goes into a statement as it is, between single quotes in a query and between double
ones in an insertion.
-/
namespace LogStats

/-! ## Names in statements -/

/-- What is read of bytes that stand between two quotes `q`: two of these are one in the text.
A single one ends the text early, and with the rest of the bytes the statement is refused, or
it is another one. -/
def unquote (q : UInt8) : List UInt8 → Option (List UInt8)
  | [] => some []
  | b :: bs =>
    if b = q then
      match bs with
      | [] => none
      | c :: cs => if c = q then (unquote q cs).map (q :: ·) else none
    else (unquote q bs).map (b :: ·)

/-- The name that a query for the view compares with. -/
def asked (view : CString) : Option CString := (unquote 39 view.bytes).map CString.read

/-- The text that an insertion stores. -/
def stored (name : CString) : Option CString := (unquote 34 name.bytes).map CString.read

theorem unquote_plain {q : UInt8} {bs : List UInt8} (h : q ∉ bs) : unquote q bs = some bs := by
  fun_induction unquote q bs with
  | case1 => rfl
  | case2 => exact absurd List.mem_cons_self h
  | case3 => exact absurd List.mem_cons_self h
  | case4 => exact absurd List.mem_cons_self h
  | case5 b bs hne ih => rw [ih fun hin => h (List.mem_cons_of_mem b hin), Option.map_some]

theorem asked_plain {view : CString} (h : 39 ∉ view.bytes) : asked view = some view := by
  rw [asked, unquote_plain h, Option.map_some, CString.read_bytes]

theorem stored_plain {name : CString} (h : 34 ∉ name.bytes) : stored name = some name := by
  rw [stored, unquote_plain h, Option.map_some, CString.read_bytes]

/-! ## Tables -/

/-- What a `defaultdict(int)` holds, in the order of its keys, or a list of results. -/
abbrev Results := List (CString × ℤ)

structure PropertyRow where
  view : CString
  timestamp : ℕ
  label : CString
  queryNum : ℤ

inductive Property where
  | rcode
  | rtype
deriving DecidableEq

/-- The tables `rcode_history` and `rtype_history`, and those of whole days. -/
structure DB where
  history : Property → List PropertyRow
  oneDayHistory : Property → List PropertyRow

def DB.empty : DB := ⟨fun _ => [],fun _ => []⟩

def timeInterval : ℤ := 86400 * 5

/-- The row of one insertion. -/
def insertRow (view : CString) (dTime : ℕ) (rows : List PropertyRow) (info : CString × ℤ) : Option (List PropertyRow) :=
  (stored view).bind fun name => (stored info.1).map fun label => rows ++ [⟨name,dTime,label,info.2⟩]

/-- `_insert_property`; nothing is given where an insertion raises. -/
def insertProperty (view : CString) (dTime : ℕ) (rList : Results) (rows : List PropertyRow) : Option (List PropertyRow) :=
  rList.foldlM (insertRow view dTime) rows

/-- `map[result[0]] += int(result[1])` -/
def increment (map : Results) (result : CString × ℤ) : Results :=
  match map with
  | [] => [result]
  | entry :: rest => if entry.1 = result.1 then (entry.1,entry.2 + result.2) :: rest else entry :: increment rest result

def countResults (results : Results) : Results := results.foldl increment []

/-- The entries, those with the greatest values first. -/
def sortR (map : Results) : Results := map.mergeSort fun k v => decide (v.2 ≤ k.2)

def selectRows (rows : List PropertyRow) (name : CString) (vDate vEnd : ℕ) : Results :=
  (rows.filter fun row => row.view = name ∧ vDate ≤ row.timestamp ∧ row.timestamp < vEnd).map fun row =>
    (row.label,row.queryNum)

/-- The counts that the rows of a name have in a window. -/
def countRows (rows : List PropertyRow) (name : CString) (vDate vEnd : ℕ) : Results :=
  sortR (countResults (selectRows rows name vDate vEnd))

/-- `_get_property` -/
def getProperty (rows : List PropertyRow) (view : CString) (vDate vEnd : ℕ) : Option Results :=
  (asked view).map fun name => countRows rows name vDate vEnd

def getLatestTime (rows : List PropertyRow) : ℕ :=
  match (rows.map PropertyRow.timestamp).max? with
  | some timestamp => timestamp
  | none => 20130101010101

def getUnionResult (longResults recentResults : Results) (topn : ℕ) : Results :=
  (sortR (countResults (longResults ++ recentResults))).take topn

def lessThanSomeInterval (vDate vEnd : ℕ) (interval : ℤ) : Prop := (mktime vEnd : ℤ) - mktime vDate < interval

instance (vDate vEnd : ℕ) (interval : ℤ) : Decidable (lessThanSomeInterval vDate vEnd interval) :=
  inferInstanceAs (Decidable (_ < _))

/-- What `get_rcode` and `get_rtype` have in common. -/
def DB.getLong (db : DB) (p : Property) (view : CString) (vDate vEnd : ℕ) : Option Results :=
  if lessThanSomeInterval vDate vEnd timeInterval then getProperty (db.history p) view vDate vEnd
  else
    (getProperty (db.oneDayHistory p) view vDate vEnd).bind fun longResults =>
    (getProperty (db.history p) view (getLatestTime (db.oneDayHistory p)) vEnd).map fun recentResults =>
    getUnionResult longResults recentResults 1000

theorem getLong_of_long {db : DB} {p : Property} {view name : CString} {vDate vEnd : ℕ}
    (hlong : ¬lessThanSomeInterval vDate vEnd timeInterval) (hview : asked view = some name) :
    db.getLong p view vDate vEnd = some (getUnionResult (countRows (db.oneDayHistory p) name vDate vEnd)
      (countRows (db.history p) name (getLatestTime (db.oneDayHistory p)) vEnd) 1000) := by
  rw [DB.getLong, if_neg hlong, getProperty, getProperty, hview]
  rfl

def DB.getRcode (db : DB) (view : CString) (vDate vEnd : ℕ) : Option Results := db.getLong .rcode view vDate vEnd
def DB.getRtype (db : DB) (view : CString) (vDate vEnd : ℕ) : Option Results := db.getLong .rtype view vDate vEnd

def DB.insert (db : DB) (p : Property) (view : CString) (dTime : ℕ) (rList : Results) : Option DB :=
  (insertProperty view dTime rList (db.history p)).map fun rows =>
    { db with history := Function.update db.history p rows }

def DB.insertOneDay (db : DB) (p : Property) (view : CString) (dTime : ℕ) (rList : Results) : Option DB :=
  (insertProperty view dTime rList (db.oneDayHistory p)).map fun rows =>
    { db with oneDayHistory := Function.update db.oneDayHistory p rows }

/-- The rows that the results of a name make. -/
def resultRows (name : CString) (dTime : ℕ) (rList : Results) : List PropertyRow :=
  rList.map fun info => ⟨name,dTime,info.1,info.2⟩

/-- Labels without a quote go into the table as they are. -/
theorem insertProperty_eq {view name : CString} {dTime : ℕ} {rList : Results} {rows : List PropertyRow}
    (hname : stored view = some name) (hlabels : ∀ r ∈ rList, stored r.1 = some r.1) :
    insertProperty view dTime rList rows = some (rows ++ resultRows name dTime rList) := by
  unfold insertProperty
  induction rList generalizing rows with
  | nil => simp [resultRows]
  | cons r rList ih =>
    have hrow : insertRow view dTime rows r = some (rows ++ [⟨name,dTime,r.1,r.2⟩]) := by
      rw [insertRow, hname, hlabels r List.mem_cons_self]
      rfl
    rw [List.foldlM_cons, hrow, Option.bind_eq_bind, Option.bind_some,
      ih fun q hq => hlabels q (List.mem_cons_of_mem r hq)]
    simp [resultRows]

/-! ## Totals -/

/-- The sum of the values of a key. -/
def total (key : CString) (results : Results) : ℤ := ((results.filter fun r => r.1 = key).map Prod.snd).sum

section Totals
variable {key : CString} {xs ys : Results} {r : CString × ℤ} {rows rows' : List PropertyRow} {view : CString} {vDate vEnd : ℕ}

@[simp] theorem total_nil : total key [] = 0 := rfl

@[simp] theorem total_cons : total key (r :: xs) = (if r.1 = key then r.2 else 0) + total key xs := by
  unfold total
  by_cases h : r.1 = key <;> simp [h]

@[simp] theorem total_append : total key (xs ++ ys) = total key xs + total key ys := by
  simp [total, List.filter_append]

theorem total_perm (h : xs.Perm ys) : total key xs = total key ys := ((h.filter _).map _).sum_eq

theorem total_increment : total key (increment xs r) = total key xs + if r.1 = key then r.2 else 0 := by
  induction xs with
  | nil => simp [increment]
  | cons entry xs ih =>
    rw [increment]
    split
    · rename_i he
      simp only [total_cons, he]
      split <;> ring
    · simp only [total_cons, ih]
      ring

theorem total_countResults : total key (countResults xs) = total key xs := by
  suffices hgen : ∀ map, total key (xs.foldl increment map) = total key map + total key xs by
    rw [countResults, hgen, total_nil, zero_add]
  induction xs with
  | nil => simp
  | cons r xs ih =>
    intro map
    rw [List.foldl_cons, ih, total_increment, total_cons]
    ring

theorem total_sortR : total key (sortR xs) = total key xs := total_perm (List.mergeSort_perm _ _)

theorem total_countRows : total key (countRows rows view vDate vEnd) = total key (selectRows rows view vDate vEnd) := by
  rw [countRows, total_sortR, total_countResults]

/-! ## Keys -/

def keys (results : Results) : List CString := results.map Prod.fst

theorem keys_increment : keys (increment xs r) = if r.1 ∈ keys xs then keys xs else keys xs ++ [r.1] := by
  induction xs with
  | nil => simp [increment, keys]
  | cons entry xs ih =>
    rw [increment]
    split
    · rename_i he
      simp [keys, he]
    · rename_i he
      have hne : r.1 ≠ entry.1 := fun h => he h.symm
      simp only [keys, List.map_cons, List.mem_cons, hne, false_or] at ih ⊢
      rw [ih]
      split <;> simp_all

theorem countResults_keys : (keys (countResults xs)).Nodup ∧ ∀ key ∈ keys (countResults xs), key ∈ keys xs := by
  suffices hgen : ∀ map, (keys map).Nodup → (keys (xs.foldl increment map)).Nodup ∧
      ∀ key ∈ keys (xs.foldl increment map), key ∈ keys map ∨ key ∈ keys xs by
    obtain ⟨hnodup,hsub⟩ := hgen [] List.nodup_nil
    exact ⟨hnodup,fun key hkey => (hsub key hkey).resolve_left List.not_mem_nil⟩
  induction xs with
  | nil => exact fun map hmap => ⟨hmap,fun key hkey => Or.inl hkey⟩
  | cons r xs ih =>
    intro map hmap
    have hstep : (keys (increment map r)).Nodup ∧ ∀ key ∈ keys (increment map r), key ∈ keys map ∨ key = r.1 := by
      rw [keys_increment]
      split
      · exact ⟨hmap,fun key hkey => Or.inl hkey⟩
      · rename_i hno
        refine ⟨List.nodup_append.mpr ⟨hmap,List.nodup_singleton _,?_⟩,fun key hkey => ?_⟩
        · rintro a ha b hb rfl
          exact hno (List.mem_singleton.mp hb ▸ ha)
        · rcases List.mem_append.mp hkey with hkey | hkey
          · exact Or.inl hkey
          · exact Or.inr (List.mem_singleton.mp hkey)
    obtain ⟨hnodup,hsub⟩ := ih (increment map r) hstep.1
    refine ⟨hnodup,fun key hkey => ?_⟩
    rcases hsub key hkey with hkey | hkey
    · rcases hstep.2 key hkey with hkey | rfl
      · exact Or.inl hkey
      · exact Or.inr List.mem_cons_self
    · exact Or.inr (List.mem_cons_of_mem _ hkey)

theorem mem_keys_sortR : key ∈ keys (sortR xs) ↔ key ∈ keys xs := ((List.mergeSort_perm _ _).map _).mem_iff

theorem keys_countRows (h : key ∈ keys (countRows rows view vDate vEnd)) : ∃ row ∈ rows, row.label = key := by
  have hmem := countResults_keys.2 key (mem_keys_sortR.mp h)
  simp only [keys, selectRows, List.map_map, List.mem_map, List.mem_filter] at hmem
  obtain ⟨row,⟨hrow,-⟩,rfl⟩ := hmem
  exact ⟨row,hrow,rfl⟩

/-- Nothing is cut off where the keys are among `topn` ones. -/
theorem total_getUnionResult {known : List CString} {topn : ℕ} (hlen : known.length ≤ topn)
    (hx : ∀ k ∈ keys xs, k ∈ known) (hy : ∀ k ∈ keys ys, k ∈ known) :
    total key (getUnionResult xs ys topn) = total key xs + total key ys := by
  obtain ⟨hnodup,hsub⟩ := @countResults_keys (xs ++ ys)
  have hknown : ∀ k ∈ keys (countResults (xs ++ ys)), k ∈ known := by
    intro k hk
    have hmem := hsub k hk
    rw [keys, List.map_append] at hmem
    exact (List.mem_append.mp hmem).elim (hx k) (hy k)
  have hle : (countResults (xs ++ ys)).length ≤ known.length := by
    have hkeys := (hnodup.subperm hknown).length_le
    rwa [keys, List.length_map] at hkeys
  have htake : (sortR (countResults (xs ++ ys))).take topn = sortR (countResults (xs ++ ys)) := by
    apply List.take_of_length_le
    rw [sortR, List.length_mergeSort]
    exact hle.trans hlen
  rw [getUnionResult, htake, total_sortR, total_countResults, total_append]

theorem countResults_eq_nil : countResults xs = [] ↔ xs = [] := by
  refine ⟨fun h => ?_,fun h => by rw [h]; rfl⟩
  cases xs with
  | nil => rfl
  | cons r xs =>
    have hne : ∀ map, map ≠ [] → xs.foldl increment map ≠ [] := by
      clear h
      induction xs with
      | nil => exact fun map hmap => hmap
      | cons r xs ih =>
        refine fun map _ => ih (increment map r) ?_
        cases map with
        | nil => exact List.cons_ne_nil _ _
        | cons entry map =>
          rw [increment]
          split <;> exact List.cons_ne_nil _ _
    exact absurd h (hne [r] (List.cons_ne_nil _ _))

/-- A window has results where it has rows. -/
theorem countRows_eq_nil : countRows rows view vDate vEnd = [] ↔ selectRows rows view vDate vEnd = [] := by
  have hsort : sortR (countResults (selectRows rows view vDate vEnd)) = [] ↔
      countResults (selectRows rows view vDate vEnd) = [] :=
    ⟨fun h => List.nil_perm.mp (h ▸ List.mergeSort_perm _ _),fun h => by rw [h, sortR, List.mergeSort_nil]⟩
  rw [countRows, hsort, countResults_eq_nil]

end Totals

end LogStats
