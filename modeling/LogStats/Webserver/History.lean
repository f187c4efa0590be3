import LogStats.Views.ViewStats
import LogStats.Webserver.Database
import Mathlib.Algebra.BigOperators.Ring.Finset

/-! # Hourly and daily ticks, and queries over many days, log_server.py

A history is made of an hourly tick each hour, the first one an hour after `start`, and of
a daily tick right after every twenty-fourth of them, in a zone whose clocks are never
changed. Each is done to its end. The day that is saved at a daily tick is stamped with its
end, while a query takes it for the day that begins there.
-/
namespace LogStats

/-- The labels that a reply can have; NULL is packed as an empty text. -/
def Property.labels (p : Property) : List CString :=
  let table := match p with
    | .rcode => RCODE
    | .rtype => RTYPE
  table.map fun label => label.getD (text "")

/-- The views that `get_views` finds at a tick, with the replies of an hourly tick for each.
Every five minutes a rate is inserted for each view and every half an hour one is asked for:
a name that no statement can be made with ends the pass there, in front of the hourly tick. -/
structure Tick where
  views : List (CString × (Property → Results))
  known : ∀ v ∈ views, ∀ p, ∀ r ∈ v.2 p, r.1 ∈ p.labels
  readable : ∀ v ∈ views, (stored v.1).isSome ∧ (asked v.1).isSome

def wholePoint (time1 : ℕ) : ℕ :=
  let minute := time1 / 100 % 100
  time1 / 10000 * 10000 + (minute - minute % 5) * 100

def saveOneHourData (db : DB) (views : List (CString × (Property → Results))) (timestamp : ℕ) : Option DB :=
  views.foldlM (fun db v =>
    (db.insert .rcode v.1 timestamp (v.2 .rcode)).bind fun db =>
    db.insert .rtype v.1 timestamp (v.2 .rtype)) db

def saveOneDayData (db : DB) (views : List CString) (timestamp today : ℕ) : Option DB :=
  let startDate := wholePoint (strftime (today - 86400))
  let endDate := timestamp
  views.foldlM (fun db view =>
    (db.getRtype view startDate endDate).bind fun rtype =>
    (db.insertOneDay .rtype view timestamp rtype).bind fun db =>
    (db.getRcode view startDate endDate).bind fun rcode =>
    db.insertOneDay .rcode view timestamp rcode) db

/-- When the tick of an hour is. -/
def tickTime (start k : ℕ) : ℕ := start + 3600 * k

def saveTick (db : DB) (start k : ℕ) (tick : Tick) : Option DB :=
  let today := tickTime start k
  let timestamp := wholePoint (strftime today)
  (saveOneHourData db tick.views timestamp).bind fun db =>
  if k % 24 = 0 then saveOneDayData db (tick.views.map Prod.fst) timestamp today else some db

/-- The database after `n` hours. -/
def historyDb (start : ℕ) (ticks : ℕ → Tick) : ℕ → Option DB
  | 0 => some .empty
  | n + 1 => (historyDb start ticks n).bind fun db => saveTick db start (n + 1) (ticks (n + 1))

/-! ## What a tick adds -/

/-- The name that the rows of a view have. -/
def storedName (view : CString) : CString := (stored view).getD view

/-- The name whose rows a query for the view finds. -/
def askedName (view : CString) : CString := (asked view).getD view

/-- The results that an hourly tick saves under a name. -/
def Tick.saved (tick : Tick) (p : Property) (name : CString) : Results :=
  (tick.views.filter fun v => storedName v.1 = name).flatMap fun v => v.2 p

/-- The names whose days are saved under a name. -/
def listedNames (views : List CString) (name : CString) : List CString :=
  (views.filter fun view => storedName view = name).map askedName

/-- How often a daily tick saves the day of a name `w` under a name. -/
def Tick.listed (tick : Tick) (name w : CString) : ℕ := (listedNames (tick.views.map Prod.fst) name).count w

/-- The timestamp of a tick. -/
def stamp (start k : ℕ) : ℕ := strftime (tickTime start k)

section Stamps
variable {start j k : ℕ}

theorem stamp_strictMono (start : ℕ) : StrictMono (stamp start) :=
  strftime_strictMono.comp fun _ _ h => by simp only [tickTime]; omega

theorem stamp_le : stamp start j ≤ stamp start k ↔ j ≤ k := (stamp_strictMono start).le_iff_le

theorem stamp_lt : stamp start j < stamp start k ↔ j < k := (stamp_strictMono start).lt_iff_lt

theorem wholePoint_strftime {t : ℕ} (h : t % 300 = 0) : wholePoint (strftime t) = strftime t := by
  have hminute : t % 3600 / 60 % 5 = 0 := by omega
  have hsecond : t % 60 = 0 := by omega
  simp only [wholePoint, strftime]
  omega

theorem wholePoint_tickTime (h : start % 300 = 0) : wholePoint (strftime (tickTime start k)) = stamp start k :=
  wholePoint_strftime (by rw [tickTime]; omega)

theorem tickTime_day : tickTime start (k + 24) - 86400 = tickTime start k := by
  rw [tickTime, tickTime]
  omega

/-- Whether days are far enough apart for the daily table. -/
theorem lessThanSomeInterval_stamp : lessThanSomeInterval (stamp start (24 * j)) (stamp start (24 * k)) timeInterval ↔
    k < j + 5 := by
  simp only [lessThanSomeInterval, stamp, mktime_strftime, tickTime, timeInterval]
  omega

end Stamps

section Rows
variable {rows rows' : List PropertyRow} {rList : Results} {name v key : CString} {dTime vDate vEnd : ℕ} {p : Property}
variable {db : DB}

theorem selectRows_append : selectRows (rows ++ rows') name vDate vEnd =
    selectRows rows name vDate vEnd ++ selectRows rows' name vDate vEnd := by
  simp [selectRows, List.filter_append]

theorem selectRows_resultRows : selectRows (resultRows v dTime rList) name vDate vEnd =
    if v = name ∧ vDate ≤ dTime ∧ dTime < vEnd then rList else [] := by
  simp only [selectRows, resultRows, List.filter_map, List.map_map]
  by_cases h : v = name ∧ vDate ≤ dTime ∧ dTime < vEnd
  · simp [h, Function.comp_def]
  · simp [h, Function.comp_def]

theorem stored_label (h : key ∈ p.labels) : stored key = some key := by
  have hplain : ∀ label ∈ p.labels, 34 ∉ label.bytes := by cases p <;> decide
  exact stored_plain (hplain key h)

theorem stored_eq (h : (stored v).isSome) : stored v = some (storedName v) := by
  obtain ⟨name,hname⟩ := Option.isSome_iff_exists.mp h
  rw [storedName, hname, Option.getD_some]

theorem asked_eq (h : (asked v).isSome) : asked v = some (askedName v) := by
  obtain ⟨name,hname⟩ := Option.isSome_iff_exists.mp h
  rw [askedName, hname, Option.getD_some]

/-- The rows of an hourly tick. -/
def hourRows (views : List (CString × (Property → Results))) (p : Property) (timestamp : ℕ) : List PropertyRow :=
  views.flatMap fun v => resultRows (storedName v.1) timestamp (v.2 p)

/-- The rows of a daily tick. -/
def dayRows (rows : List PropertyRow) (views : List CString) (startDate endDate : ℕ) : List PropertyRow :=
  views.flatMap fun view => resultRows (storedName view) endDate (countRows rows (askedName view) startDate endDate)

theorem saveOneHourData_eq {views : List (CString × (Property → Results))} (hstored : ∀ v ∈ views, (stored v.1).isSome)
    (hlabels : ∀ v ∈ views, ∀ p, ∀ r ∈ v.2 p, r.1 ∈ p.labels) : saveOneHourData db views dTime =
      some ⟨fun p => db.history p ++ hourRows views p dTime,db.oneDayHistory⟩ := by
  unfold saveOneHourData
  induction views generalizing db with
  | nil => simp [hourRows]
  | cons v views ih =>
    have hrows := fun p rows => @insertProperty_eq v.1 _ dTime (v.2 p) rows (stored_eq (hstored v List.mem_cons_self))
      fun r hr => stored_label (hlabels v List.mem_cons_self p r hr)
    have hview : (db.insert .rcode v.1 dTime (v.2 .rcode)).bind (fun db => db.insert .rtype v.1 dTime (v.2 .rtype)) =
        some ⟨fun p => db.history p ++ resultRows (storedName v.1) dTime (v.2 p),db.oneDayHistory⟩ := by
      simp only [DB.insert, hrows, Option.map_some, Option.bind_some]
      congr 2
      funext p
      cases p <;> simp
    rw [List.foldlM_cons, hview, Option.bind_eq_bind, Option.bind_some,
      ih (fun w hw => hstored w (List.mem_cons_of_mem v hw)) fun w hw => hlabels w (List.mem_cons_of_mem v hw)]
    simp [hourRows]

theorem countRows_labels (h : ∀ row ∈ rows, row.label ∈ p.labels) :
    ∀ r ∈ countRows rows name vDate vEnd, r.1 ∈ p.labels := by
  intro r hr
  obtain ⟨row,hrow,hlabel⟩ := keys_countRows (List.mem_map_of_mem hr)
  exact hlabel ▸ h row hrow

theorem saveOneDayData_eq {views : List CString} {today : ℕ}
    (hnames : ∀ view ∈ views, (stored view).isSome ∧ (asked view).isSome)
    (hlabels : ∀ p, ∀ row ∈ db.history p, row.label ∈ p.labels)
    (hday : lessThanSomeInterval (wholePoint (strftime (today - 86400))) dTime timeInterval) :
    saveOneDayData db views dTime today = some ⟨db.history,fun p =>
      db.oneDayHistory p ++ dayRows (db.history p) views (wholePoint (strftime (today - 86400))) dTime⟩ := by
  simp only [saveOneDayData]
  induction views generalizing db with
  | nil => simp [dayRows]
  | cons view views ih =>
    obtain ⟨hstored,hasked⟩ := hnames view List.mem_cons_self
    have hrows := fun p rows => @insertProperty_eq view _ dTime
      (countRows (db.history p) (askedName view) (wholePoint (strftime (today - 86400))) dTime) rows (stored_eq hstored)
      fun r hr => stored_label (countRows_labels (hlabels p) r hr)
    have hview : ((db.getRtype view (wholePoint (strftime (today - 86400))) dTime).bind fun rtype =>
        (db.insertOneDay .rtype view dTime rtype).bind fun db =>
        (db.getRcode view (wholePoint (strftime (today - 86400))) dTime).bind fun rcode =>
        db.insertOneDay .rcode view dTime rcode) = some ⟨db.history,fun p => db.oneDayHistory p ++
          resultRows (storedName view) dTime
            (countRows (db.history p) (askedName view) (wholePoint (strftime (today - 86400))) dTime)⟩ := by
      simp only [DB.getRtype, DB.getRcode, DB.getLong, hday, if_true, getProperty, asked_eq hasked, Option.map_some,
        Option.bind_some, DB.insertOneDay, hrows]
      congr 2
      funext p
      cases p <;> simp
    have hrest := fun db' => @ih db' fun w hw => hnames w (List.mem_cons_of_mem view hw)
    rw [List.foldlM_cons, hview, Option.bind_eq_bind, Option.bind_some]
    refine (hrest _ ?_).trans ?_
    · exact hlabels
    · simp [dayRows]

theorem selectRows_hourRows (tick : Tick) : selectRows (hourRows tick.views p dTime) name vDate vEnd =
    if vDate ≤ dTime ∧ dTime < vEnd then tick.saved p name else [] := by
  rw [Tick.saved]
  induction tick.views with
  | nil => simp [hourRows, selectRows]
  | cons v views ih =>
    rw [hourRows, List.flatMap_cons, ← hourRows, selectRows_append, selectRows_resultRows, ih]
    by_cases hv : storedName v.1 = name <;> by_cases ht : vDate ≤ dTime ∧ dTime < vEnd <;> simp [hv, ht]

theorem total_dayRows (views : List CString) {startDate endDate : ℕ} :
    total key (selectRows (dayRows rows views startDate endDate) name vDate vEnd) =
      if vDate ≤ endDate ∧ endDate < vEnd then
        ((listedNames views name).map fun w => total key (countRows rows w startDate endDate)).sum else 0 := by
  induction views with
  | nil => simp [dayRows, selectRows, listedNames]
  | cons v views ih =>
    rw [dayRows, List.flatMap_cons, ← dayRows, selectRows_append, total_append, selectRows_resultRows, ih]
    by_cases hv : storedName v = name <;> by_cases ht : vDate ≤ endDate ∧ endDate < vEnd <;>
      simp [listedNames, hv, ht]

theorem mem_dayRows {views : List CString} {startDate endDate t : ℕ} :
    t ∈ (dayRows rows views startDate endDate).map PropertyRow.timestamp ↔
      (∃ v ∈ views, countRows rows (askedName v) startDate endDate ≠ []) ∧ t = endDate := by
  simp only [dayRows, resultRows, List.map_flatMap, List.map_map, List.mem_flatMap, List.mem_map, Function.comp_apply]
  constructor
  · rintro ⟨v,hv,r,hr,rfl⟩
    exact ⟨⟨v,hv,List.ne_nil_of_mem hr⟩,rfl⟩
  · rintro ⟨⟨v,hv,hne⟩,rfl⟩
    obtain ⟨r,hr⟩ := List.exists_mem_of_ne_nil _ hne
    exact ⟨v,hv,r,hr,rfl⟩

end Rows

/-! ## Whole histories -/

/-- The hours that a daily tick saves; there is no tick at hour 0. -/
def dayHours (j : ℕ) : Finset ℕ := Finset.Ico (max 1 (24 * (j - 1))) (24 * j)

/-- Whether a daily tick saves any row, for whatever view. -/
def filled (ticks : ℕ → Tick) (p : Property) (j : ℕ) : Prop :=
  ∃ v ∈ (ticks (24 * j)).views, ∃ k ∈ dayHours j, (ticks k).saved p (askedName v.1) ≠ []

instance (ticks : ℕ → Tick) (p : Property) (j : ℕ) : Decidable (filled ticks p j) :=
  inferInstanceAs (Decidable (∃ _ ∈ _, ∃ _ ∈ _, _))

/-- Whether an hour is not before the latest time of the daily table. -/
def recent (start : ℕ) (ticks : ℕ → Tick) (p : Property) (n k : ℕ) : Prop :=
  (∀ j ∈ Finset.Icc 1 (n / 24), filled ticks p j → 24 * j ≤ k) ∧
    ((∀ j ∈ Finset.Icc 1 (n / 24), ¬filled ticks p j) → 20130101010101 ≤ stamp start k)

instance (start : ℕ) (ticks : ℕ → Tick) (p : Property) (n k : ℕ) : Decidable (recent start ticks p n k) :=
  inferInstanceAs (Decidable (_ ∧ _))

/-- The rows of `n` hourly ticks. -/
def historyRows (start : ℕ) (ticks : ℕ → Tick) (p : Property) : ℕ → List PropertyRow
  | 0 => []
  | n + 1 => historyRows start ticks p n ++ hourRows (ticks (n + 1)).views p (stamp start (n + 1))

/-- The rows of the daily ticks in `n` hours. -/
def oneDayRows (start : ℕ) (ticks : ℕ → Tick) (p : Property) : ℕ → List PropertyRow
  | 0 => []
  | n + 1 => oneDayRows start ticks p n ++ if (n + 1) % 24 = 0 then
      dayRows (historyRows start ticks p (n + 1)) ((ticks (n + 1)).views.map Prod.fst) (stamp start (n + 1 - 24))
        (stamp start (n + 1)) else []

def historyTables (start : ℕ) (ticks : ℕ → Tick) (n : ℕ) : DB :=
  ⟨fun p => historyRows start ticks p n,fun p => oneDayRows start ticks p n⟩

section History
variable {start n : ℕ} {ticks : ℕ → Tick} {p : Property} {name key : CString} {vDate vEnd : ℕ}

theorem historyRows_labels : ∀ row ∈ historyRows start ticks p n, row.label ∈ p.labels := by
  induction n with
  | zero => exact fun row hrow => absurd hrow List.not_mem_nil
  | succ n ih =>
    intro row hrow
    rcases List.mem_append.mp hrow with hrow | hrow
    · exact ih row hrow
    · simp only [hourRows, resultRows, List.mem_flatMap, List.mem_map] at hrow
      obtain ⟨v,hv,r,hr,rfl⟩ := hrow
      exact (ticks (n + 1)).known v hv p r hr

/-- No tick raises, and these are the tables. -/
theorem historyDb_eq (hstart : start % 300 = 0) : historyDb start ticks n = some (historyTables start ticks n) := by
  induction n with
  | zero => rfl
  | succ n ih =>
    have hreadable := (ticks (n + 1)).readable
    rw [historyDb, ih, Option.bind_some, saveTick, wholePoint_tickTime hstart,
      saveOneHourData_eq (fun v hv => (hreadable v hv).1) (ticks (n + 1)).known, Option.bind_some]
    by_cases hday : (n + 1) % 24 = 0
    · have htime : wholePoint (strftime (tickTime start (n + 1) - 86400)) = stamp start (n + 1 - 24) := by
        obtain ⟨k,hk⟩ : ∃ k, n + 1 = k + 24 := ⟨n + 1 - 24,by omega⟩
        rw [hk, tickTime_day, wholePoint_tickTime hstart, Nat.add_sub_cancel]
      have hless : lessThanSomeInterval (wholePoint (strftime (tickTime start (n + 1) - 86400))) (stamp start (n + 1))
          timeInterval := by
        rw [htime, lessThanSomeInterval, stamp, stamp, mktime_strftime, mktime_strftime, tickTime, tickTime, timeInterval]
        clear htime
        omega
      have hnames : ∀ view ∈ (ticks (n + 1)).views.map Prod.fst, (stored view).isSome ∧ (asked view).isSome := by
        intro view hview
        obtain ⟨v,hv,rfl⟩ := List.mem_map.mp hview
        exact hreadable v hv
      rw [if_pos hday, saveOneDayData_eq hnames (fun p => @historyRows_labels start (n + 1) ticks p) hless, htime]
      simp only [historyTables, historyRows, oneDayRows, hday, if_true]
    · simp only [historyTables, historyRows, oneDayRows, hday, if_false, List.append_nil]

theorem total_history : total key (selectRows (historyRows start ticks p n) name vDate vEnd) =
    ∑ k ∈ Finset.Icc 1 n, if vDate ≤ stamp start k ∧ stamp start k < vEnd then total key ((ticks k).saved p name) else 0 := by
  induction n with
  | zero => rfl
  | succ n ih =>
    rw [historyRows, selectRows_append, total_append, ih, selectRows_hourRows,
      Finset.sum_Icc_succ_top (Nat.le_add_left 1 n)]
    split <;> rfl

theorem history_eq_nil : selectRows (historyRows start ticks p n) name vDate vEnd = [] ↔
    ∀ k ∈ Finset.Icc 1 n, vDate ≤ stamp start k ∧ stamp start k < vEnd → (ticks k).saved p name = [] := by
  induction n with
  | zero => simp [historyRows, selectRows]
  | succ n ih =>
    rw [historyRows, selectRows_append, List.append_eq_nil_iff, ih, selectRows_hourRows,
      ← Finset.insert_Icc_right_eq_Icc_add_one (Nat.le_add_left 1 n), Finset.forall_mem_insert, ite_eq_right_iff, and_comm]

/-- The window of a daily tick. -/
theorem dayHours_window {j k : ℕ} (hj : 1 ≤ j) : k ∈ dayHours j ↔
    k ∈ Finset.Icc 1 (24 * j) ∧ stamp start (24 * (j - 1)) ≤ stamp start k ∧ stamp start k < stamp start (24 * j) := by
  rw [stamp_le, stamp_lt, dayHours, Finset.mem_Ico, Finset.mem_Icc]
  omega

theorem total_day {j : ℕ} (hj : 1 ≤ j) :
    total key (countRows (historyRows start ticks p (24 * j)) name (stamp start (24 * (j - 1))) (stamp start (24 * j))) =
      ∑ k ∈ dayHours j, total key ((ticks k).saved p name) := by
  rw [total_countRows, total_history, ← Finset.sum_filter]
  refine Finset.sum_congr (Finset.ext fun k => ?_) fun _ _ => rfl
  rw [Finset.mem_filter, dayHours_window hj]

theorem filled_iff (start : ℕ) {j : ℕ} (hj : 1 ≤ j) : filled ticks p j ↔
    ∃ v ∈ (ticks (24 * j)).views.map Prod.fst, countRows (historyRows start ticks p (24 * j)) (askedName v)
      (stamp start (24 * (j - 1))) (stamp start (24 * j)) ≠ [] := by
  have hview : ∀ w, countRows (historyRows start ticks p (24 * j)) w (stamp start (24 * (j - 1)))
      (stamp start (24 * j)) ≠ [] ↔ ∃ k ∈ dayHours j, (ticks k).saved p w ≠ [] := by
    intro w
    rw [Ne, countRows_eq_nil, history_eq_nil]
    push Not
    refine exists_congr fun k => ?_
    rw [@dayHours_window start j k hj, and_assoc, and_assoc, and_assoc]
  simp only [hview, List.mem_map, exists_exists_and_eq_and, filled]

/-- What holds at each daily tick, and is kept by the hours between, holds of every history. -/
theorem oneDayRows_induct {P : ℕ → List PropertyRow → Prop} (hzero : P 0 [])
    (hday : ∀ j rows, P j rows → P (j + 1) (rows ++ dayRows (historyRows start ticks p (24 * (j + 1)))
      ((ticks (24 * (j + 1))).views.map Prod.fst) (stamp start (24 * j)) (stamp start (24 * (j + 1))))) :
    P (n / 24) (oneDayRows start ticks p n) := by
  induction n with
  | zero => exact hzero
  | succ n ih =>
    rw [oneDayRows]
    by_cases h : (n + 1) % 24 = 0
    · have hn : n + 1 = 24 * (n / 24 + 1) := by omega
      have hstep := hday (n / 24) _ ih
      rw [← hn] at hstep
      rwa [if_pos h, show n + 1 - 24 = 24 * (n / 24) by omega, show (n + 1) / 24 = n / 24 + 1 by omega]
    · rwa [if_neg h, List.append_nil, show (n + 1) / 24 = n / 24 by omega]

theorem total_oneDayRows : total key (selectRows (oneDayRows start ticks p n) name vDate vEnd) =
    ∑ j ∈ Finset.Icc 1 (n / 24), if vDate ≤ stamp start (24 * j) ∧ stamp start (24 * j) < vEnd then
      ((listedNames ((ticks (24 * j)).views.map Prod.fst) name).map fun w =>
        ∑ k ∈ dayHours j, total key ((ticks k).saved p w)).sum else 0 := by
  refine @oneDayRows_induct start n ticks p (fun m rows => total key (selectRows rows name vDate vEnd) =
    ∑ j ∈ Finset.Icc 1 m, if vDate ≤ stamp start (24 * j) ∧ stamp start (24 * j) < vEnd then
      ((listedNames ((ticks (24 * j)).views.map Prod.fst) name).map fun w =>
        ∑ k ∈ dayHours j, total key ((ticks k).saved p w)).sum else 0) rfl fun j rows ih => ?_
  have hdays : ∀ w, ∑ k ∈ dayHours (j + 1), total key ((ticks k).saved p w) = total key
      (countRows (historyRows start ticks p (24 * (j + 1))) w (stamp start (24 * j)) (stamp start (24 * (j + 1)))) := by
    intro w
    rw [← @total_day start ticks p w key (j + 1) (Nat.le_add_left 1 j), Nat.add_sub_cancel]
  rw [selectRows_append, total_append, ih, total_dayRows, Finset.sum_Icc_succ_top (Nat.le_add_left 1 j)]
  simp only [hdays]

theorem mem_oneDayRows {t : ℕ} : t ∈ (oneDayRows start ticks p n).map PropertyRow.timestamp ↔
    ∃ j ∈ Finset.Icc 1 (n / 24), filled ticks p j ∧ t = stamp start (24 * j) := by
  refine @oneDayRows_induct start n ticks p (fun m rows => t ∈ rows.map PropertyRow.timestamp ↔
    ∃ j ∈ Finset.Icc 1 m, filled ticks p j ∧ t = stamp start (24 * j)) (by simp) fun j rows ih => ?_
  have hfilled := @filled_iff ticks p start (j + 1) (Nat.le_add_left 1 j)
  rw [Nat.add_sub_cancel] at hfilled
  rw [List.map_append, List.mem_append, ih, mem_dayRows, ← hfilled, ← Finset.insert_Icc_right_eq_Icc_add_one (Nat.le_add_left 1 j)]
  simp only [Finset.mem_insert, exists_eq_or_imp]
  exact or_comm

theorem getLatestTime_le {k : ℕ} : getLatestTime (oneDayRows start ticks p n) ≤ stamp start k ↔ recent start ticks p n k := by
  have hmem := fun t => @mem_oneDayRows start n ticks p t
  rw [getLatestTime, recent]
  split
  · rename_i latest hmax
    obtain ⟨hin,hle⟩ := List.max?_eq_some_iff.mp hmax
    obtain ⟨j,hj,hfilled,hlatest⟩ := (hmem latest).mp hin
    constructor
    · refine fun h => ⟨fun i hi hfill => ?_,fun hno => absurd hfilled (hno j hj)⟩
      exact stamp_le.mp ((hle _ ((hmem _).mpr ⟨i,hi,hfill,rfl⟩)).trans h)
    · rintro ⟨h,-⟩
      rw [hlatest]
      exact stamp_le.mpr (h j hj hfilled)
  · rename_i hmax
    have hnil := List.max?_eq_none_iff.mp hmax
    have hno : ∀ j ∈ Finset.Icc 1 (n / 24), ¬filled ticks p j := fun j hj hfill => by
      have hin := (hmem _).mpr ⟨j,hj,hfill,rfl⟩
      rw [hnil] at hin
      exact List.not_mem_nil hin
    exact ⟨fun h => ⟨fun j hj hfill => absurd hfill (hno j hj),fun _ => h⟩,fun h => h.2 hno⟩

theorem oneDayRows_labels : ∀ row ∈ oneDayRows start ticks p n, row.label ∈ p.labels := by
  refine @oneDayRows_induct start n ticks p (fun _ rows => ∀ row ∈ rows, row.label ∈ p.labels)
    (fun row hrow => absurd hrow List.not_mem_nil) fun j rows ih row hrow => ?_
  rcases List.mem_append.mp hrow with hrow | hrow
  · exact ih row hrow
  · simp only [dayRows, resultRows, List.mem_flatMap, List.mem_map] at hrow
    obtain ⟨v,-,r,hr,rfl⟩ := hrow
    exact countRows_labels historyRows_labels r hr

end History

/-! ## Queries over five days and more -/

/-- How often a query that asks for a name, from one daily tick to another, counts the rows
that an hour has under a name `w`. -/
def timesCounted (start : ℕ) (ticks : ℕ → Tick) (p : Property) (name w : CString) (a b n k : ℕ) : ℕ :=
  (∑ j ∈ Finset.Ico a b, if k ∈ dayHours j then (ticks (24 * j)).listed name w else 0) +
    if w = name ∧ k < 24 * b ∧ recent start ticks p n k then 1 else 0

/-- The query gives each key the total of the hourly table, and counts each row of the view in
the window once and no other. -/
structure Agrees (start : ℕ) (ticks : ℕ → Tick) (p : Property) (view : CString) (a b n : ℕ) : Prop where
  totals : ∃ db results, historyDb start ticks n = some db ∧
    db.getLong p view (stamp start (24 * a)) (stamp start (24 * b)) = some results ∧
    ∀ key, total key results =
      total key (selectRows (db.history p) view (stamp start (24 * a)) (stamp start (24 * b)))
  rows : ∀ name, asked view = some name → ∀ k ∈ Finset.Icc 1 n, ∀ w, (ticks k).saved p w ≠ [] →
    timesCounted start ticks p name w a b n k = if w = view ∧ 24 * a ≤ k ∧ k < 24 * b then 1 else 0

section Queries
variable {start n a b : ℕ} {ticks : ℕ → Tick} {p : Property} {view name w key : CString}

theorem labels_length (p : Property) : p.labels.length ≤ 1000 := by
  cases p <;> decide

/-- A day's rows are those of its hours. -/
theorem sum_dayHours {f : ℕ → ℤ} {j : ℕ} (hj : 24 * j ≤ n) :
    ∑ k ∈ dayHours j, f k = ∑ k ∈ Finset.Icc 1 n, if k ∈ dayHours j then f k else 0 := by
  rw [← Finset.sum_filter]
  refine Finset.sum_congr (Finset.ext fun k => ?_) fun _ _ => rfl
  rw [Finset.mem_filter, dayHours, Finset.mem_Ico, Finset.mem_Icc]
  omega

/-- A sum over a list, taken over any set of keys that has all of the list. -/
theorem sum_map_count {names : List CString} {s : Finset CString} (f : CString → ℤ) (h : ∀ v ∈ names, v ∈ s) :
    (names.map f).sum = ∑ v ∈ s, (names.count v : ℤ) * f v := by
  rw [Finset.sum_list_map_count]
  have hsub : names.toFinset ⊆ s := fun v hv => h v (List.mem_toFinset.mp hv)
  rw [Finset.sum_subset hsub]
  · exact Finset.sum_congr rfl fun v _ => nsmul_eq_mul _ _
  · intro v _ hv
    simp [List.count_eq_zero.mpr fun hin => hv (List.mem_toFinset.mpr hin)]

section Sums
variable {s : Finset CString}

/-- What a daily tick saves, name by name and hour by hour. -/
theorem sum_listed {j : ℕ} (hj : 24 * j ≤ n)
    (hlisted : ∀ v ∈ listedNames ((ticks (24 * j)).views.map Prod.fst) name, v ∈ s) :
    ((listedNames ((ticks (24 * j)).views.map Prod.fst) name).map fun v =>
      ∑ k ∈ dayHours j, total key ((ticks k).saved p v)).sum =
    ∑ k ∈ Finset.Icc 1 n, ∑ v ∈ s, ((if k ∈ dayHours j then (ticks (24 * j)).listed name v else 0 : ℕ) : ℤ) *
      total key ((ticks k).saved p v) := by
  rw [sum_map_count _ hlisted, Finset.sum_comm]
  refine Finset.sum_congr rfl fun v _ => ?_
  rw [sum_dayHours hj, Finset.mul_sum]
  refine Finset.sum_congr rfl fun k _ => ?_
  split
  · rfl
  · rw [mul_zero, Nat.cast_zero, zero_mul]

/-- What the query makes of the rows of each hour. -/
theorem total_getLong
    (hlisted : ∀ j ∈ Finset.Ico a b, ∀ v ∈ listedNames ((ticks (24 * j)).views.map Prod.fst) name, v ∈ s) (hs : name ∈ s)
    (hview : asked view = some name) (ha : 1 ≤ a) (hab : a + 5 ≤ b) (hb : 24 * b ≤ n) :
    ∃ results, (historyTables start ticks n).getLong p view (stamp start (24 * a)) (stamp start (24 * b)) = some results ∧
      ∀ key, total key results =
        ∑ k ∈ Finset.Icc 1 n, ∑ v ∈ s, timesCounted start ticks p name v a b n k * total key ((ticks k).saved p v) := by
  have hlong : ¬lessThanSomeInterval (stamp start (24 * a)) (stamp start (24 * b)) timeInterval := by
    rw [lessThanSomeInterval_stamp]
    omega
  have hkeys : ∀ {rows : List PropertyRow} {vDate vEnd : ℕ}, (∀ row ∈ rows, row.label ∈ p.labels) →
      ∀ k ∈ keys (countRows rows name vDate vEnd), k ∈ p.labels := fun hrows k hk => by
    obtain ⟨row,hrow,rfl⟩ := keys_countRows hk
    exact hrows row hrow
  refine ⟨_,getLong_of_long hlong hview,fun key => ?_⟩
  have hdays : total key (selectRows (oneDayRows start ticks p n) name (stamp start (24 * a)) (stamp start (24 * b))) =
      ∑ k ∈ Finset.Icc 1 n, ∑ v ∈ s,
        ((∑ j ∈ Finset.Ico a b, if k ∈ dayHours j then (ticks (24 * j)).listed name v else 0 : ℕ) : ℤ) *
          total key ((ticks k).saved p v) := by
    have hset : ((Finset.Icc 1 (n / 24)).filter fun j => stamp start (24 * a) ≤ stamp start (24 * j) ∧
        stamp start (24 * j) < stamp start (24 * b)) = Finset.Ico a b := by
      ext j
      rw [Finset.mem_filter, stamp_le, stamp_lt, Finset.mem_Icc, Finset.mem_Ico]
      omega
    have hday : ∀ j ∈ Finset.Ico a b, _ := fun j hj =>
      @sum_listed n ticks p name key s j (by rw [Finset.mem_Ico] at hj; omega) (hlisted j hj)
    rw [total_oneDayRows, ← Finset.sum_filter, hset, Finset.sum_congr rfl hday, Finset.sum_comm]
    refine Finset.sum_congr rfl fun k _ => ?_
    rw [Finset.sum_comm]
    refine Finset.sum_congr rfl fun v _ => ?_
    rw [Nat.cast_sum, Finset.sum_mul]
  have hhours : total key (selectRows (historyRows start ticks p n) name (getLatestTime (oneDayRows start ticks p n))
      (stamp start (24 * b))) = ∑ k ∈ Finset.Icc 1 n, ∑ v ∈ s,
        ((if v = name ∧ k < 24 * b ∧ recent start ticks p n k then 1 else 0 : ℕ) : ℤ) * total key ((ticks k).saved p v) := by
    rw [total_history]
    refine Finset.sum_congr rfl fun k _ => ?_
    rw [Finset.sum_eq_single_of_mem name hs]
    · simp only [getLatestTime_le, stamp_lt, and_comm, true_and]
      split <;> simp
    · intro v _ hne
      rw [if_neg fun h => hne h.1, Nat.cast_zero, zero_mul]
  rw [historyTables, total_getUnionResult (labels_length p) (hkeys oneDayRows_labels) (hkeys historyRows_labels),
    total_countRows, total_countRows, hdays, hhours, ← Finset.sum_add_distrib]
  refine Finset.sum_congr rfl fun k _ => ?_
  rw [← Finset.sum_add_distrib]
  refine Finset.sum_congr rfl fun v _ => ?_
  rw [timesCounted, Nat.cast_add, add_mul]

end Sums

/-- The rows of the view in the window. -/
theorem total_window : total key (selectRows ((historyTables start ticks n).history p) view (stamp start (24 * a))
    (stamp start (24 * b))) =
      ∑ k ∈ Finset.Icc 1 n, if 24 * a ≤ k ∧ k < 24 * b then total key ((ticks k).saved p view) else 0 := by
  rw [historyTables, total_history]
  simp only [stamp_le, stamp_lt]

theorem mem_dayHours {j k : ℕ} (hk : 1 ≤ k) : k ∈ dayHours j ↔ k / 24 + 1 = j := by
  rw [dayHours, Finset.mem_Ico]
  omega

theorem timesCounted_eq {k : ℕ} (hk : 1 ≤ k) : timesCounted start ticks p name w a b n k =
    (if a ≤ k / 24 + 1 ∧ k / 24 + 1 < b then (ticks (24 * (k / 24 + 1))).listed name w else 0) +
      if w = name ∧ k < 24 * b ∧ recent start ticks p n k then 1 else 0 := by
  simp only [timesCounted, mem_dayHours hk, Finset.sum_ite_eq, Finset.mem_Ico]

/-- The hours that are counted as they should be, day by day. -/
theorem timesCounted_window {k : ℕ} (ha : 1 ≤ a) (hab : a + 5 ≤ b) (hk : 1 ≤ k) :
    timesCounted start ticks p name w a b n k = (if w = view ∧ 24 * a ≤ k ∧ k < 24 * b then 1 else 0) ↔
      (k < 24 * (a - 1) → ¬(w = name ∧ recent start ticks p n k)) ∧
      (24 * (a - 1) ≤ k → k < 24 * a →
        (ticks (24 * a)).listed name w = 0 ∧ ¬(w = name ∧ recent start ticks p n k)) ∧
      (24 * a ≤ k → k < 24 * (b - 1) → (ticks (24 * (k / 24 + 1))).listed name w +
        (if w = name ∧ recent start ticks p n k then 1 else 0) = if w = view then 1 else 0) ∧
      (24 * (b - 1) ≤ k → k < 24 * b → (w = name ∧ recent start ticks p n k ↔ w = view)) := by
  rw [timesCounted_eq hk]
  rcases lt_or_ge k (24 * (a - 1)) with hbefore | hbefore
  · have hday : ¬a ≤ k / 24 + 1 := by omega
    have hwindow : ¬24 * a ≤ k := by omega
    have hend : k < 24 * b := by omega
    have hfirst : ¬24 * (a - 1) ≤ k := by omega
    have hlast : ¬24 * (b - 1) ≤ k := by omega
    by_cases hw : w = name <;> by_cases hr : recent start ticks p n k <;> simp [hbefore, hfirst, hday, hwindow, hend, hlast, hw, hr]
  rcases lt_or_ge k (24 * a) with hfirst | hfirst
  · have hday : k / 24 + 1 = a := by omega
    have hwindow : ¬24 * a ≤ k := by omega
    have hend : k < 24 * b := by omega
    have hlast : ¬24 * (b - 1) ≤ k := by omega
    have hlt : a < b := by omega
    by_cases hw : w = name <;> by_cases hr : recent start ticks p n k <;> simp [hbefore, hfirst, hday, hwindow, hend, hlast, hlt, hw, hr]
  have hnext : ¬k < 24 * (a - 1) := by omega
  rcases lt_or_ge k (24 * (b - 1)) with hinner | hinner
  · have hday : a ≤ k / 24 + 1 ∧ k / 24 + 1 < b := by omega
    have hend : k < 24 * b := by omega
    by_cases hw : w = name <;> by_cases hr : recent start ticks p n k <;> simp [hnext, hfirst, hinner, hday, hend, hw, hr]
  have hday : ¬k / 24 + 1 < b := by omega
  by_cases hend : k < 24 * b
  · by_cases hw : w = name <;> by_cases hr : recent start ticks p n k <;> by_cases hv : w = view <;> simp [hnext, hfirst, hinner, hday, hend, hw, hr, hv]
  · simp [hnext, hfirst, hinner, hday, hend]

/-- Rows that are counted once give the totals of the window. -/
theorem totals_of_rows (hview : asked view = some name) (ha : 1 ≤ a) (hab : a + 5 ≤ b) (hb : 24 * b ≤ n)
    (hrows : ∀ k ∈ Finset.Icc 1 n, ∀ w, (ticks k).saved p w ≠ [] →
      timesCounted start ticks p name w a b n k = if w = view ∧ 24 * a ≤ k ∧ k < 24 * b then 1 else 0) :
    ∃ results, (historyTables start ticks n).getLong p view (stamp start (24 * a)) (stamp start (24 * b)) = some results ∧
      ∀ key, total key results = total key (selectRows ((historyTables start ticks n).history p) view
        (stamp start (24 * a)) (stamp start (24 * b))) := by
  let s := {name,view} ∪ (Finset.Ico a b).biUnion fun j => (listedNames ((ticks (24 * j)).views.map Prod.fst) name).toFinset
  have hname : name ∈ s := Finset.mem_union_left _ (Finset.mem_insert_self _ _)
  have hmem : view ∈ s := Finset.mem_union_left _ (Finset.mem_insert_of_mem (Finset.mem_singleton_self _))
  have hlisted : ∀ j ∈ Finset.Ico a b, ∀ v ∈ listedNames ((ticks (24 * j)).views.map Prod.fst) name, v ∈ s :=
    fun j hj v hv => Finset.mem_union_right _ (Finset.mem_biUnion.mpr ⟨j,hj,List.mem_toFinset.mpr hv⟩)
  obtain ⟨results,hresults,htotals⟩ := @total_getLong start n a b ticks p view name s hlisted hname hview ha hab hb
  refine ⟨results,hresults,fun key => ?_⟩
  rw [htotals, total_window]
  refine Finset.sum_congr rfl fun k hk => ?_
  have hterm : ∀ v ∈ s, (timesCounted start ticks p name v a b n k : ℤ) * total key ((ticks k).saved p v) =
      if v = view then if 24 * a ≤ k ∧ k < 24 * b then total key ((ticks k).saved p v) else 0 else 0 := by
    intro v _
    by_cases hempty : (ticks k).saved p v = []
    · simp [hempty]
    · rw [hrows k hk v hempty]
      by_cases hv : v = view <;> by_cases hwindow : 24 * a ≤ k ∧ k < 24 * b <;> simp [hv, hwindow]
  rw [Finset.sum_congr rfl hterm, Finset.sum_ite_eq' s view, if_pos hmem]

end Queries

/-- A tick that finds one view with that many queries, each for an address and answered. -/
def answeredTick (queryNum : ℤ) : Tick where
  views := [(text "*",fun p => match p with
    | .rcode => [(text "NOERROR",queryNum)]
    | .rtype => [(text "A",queryNum)])]
  known v hv p r hr := by
    obtain rfl := List.mem_singleton.mp hv
    cases p <;> obtain rfl := List.mem_singleton.mp hr
    · exact (by decide : text "NOERROR" ∈ Property.rcode.labels)
    · exact (by decide : text "A" ∈ Property.rtype.labels)
  readable v hv := by
    obtain rfl := List.mem_singleton.mp hv
    exact (by decide : (stored (text "*")).isSome ∧ (asked (text "*")).isSome)

/-- A tick that finds one view without queries. -/
def quietTick : Tick where
  views := [(text "*",fun _ => [])]
  known v hv p r hr := by
    obtain rfl := List.mem_singleton.mp hv
    exact absurd hr List.not_mem_nil
  readable v hv := by
    obtain rfl := List.mem_singleton.mp hv
    exact (by decide : (stored (text "*")).isSome ∧ (asked (text "*")).isSome)

/-- A query over five days and more agrees with the hourly table where its statement asks for
some name and the rows of each hour are counted as they are to be: none of the days before,
once those of the view in the window, whether by the daily table or as recent ones. -/
theorem agrees_iff (start : ℕ) (ticks : ℕ → Tick) (p : Property) (view : CString) (a b n : ℕ)
    (hstart : start % 300 = 0) (ha : 1 ≤ a) (hab : a + 5 ≤ b) (hb : 24 * b ≤ n) :
    Agrees start ticks p view a b n ↔ ∃ name, asked view = some name ∧
      ∀ k ∈ Finset.Icc 1 n, ∀ w, (ticks k).saved p w ≠ [] →
        (k < 24 * (a - 1) → ¬(w = name ∧ recent start ticks p n k)) ∧
        (24 * (a - 1) ≤ k → k < 24 * a →
          (ticks (24 * a)).listed name w = 0 ∧ ¬(w = name ∧ recent start ticks p n k)) ∧
        (24 * a ≤ k → k < 24 * (b - 1) → (ticks (24 * (k / 24 + 1))).listed name w +
          (if w = name ∧ recent start ticks p n k then 1 else 0) = if w = view then 1 else 0) ∧
        (24 * (b - 1) ≤ k → k < 24 * b → (w = name ∧ recent start ticks p n k ↔ w = view)) := by
  constructor
  · rintro ⟨⟨db,results,-,hresults,-⟩,hrows⟩
    cases hview : asked view with
    | none =>
      have hlong : ¬lessThanSomeInterval (stamp start (24 * a)) (stamp start (24 * b)) timeInterval := by
        rw [lessThanSomeInterval_stamp]
        omega
      rw [DB.getLong, if_neg hlong, getProperty, hview] at hresults
      cases hresults
    | some name =>
      exact ⟨name,rfl,fun k hk w hsaved =>
        (timesCounted_window ha hab (Finset.mem_Icc.mp hk).1).mp (hrows name hview k hk w hsaved)⟩
  · rintro ⟨name,hview,h⟩
    have hrows : ∀ k ∈ Finset.Icc 1 n, ∀ w, (ticks k).saved p w ≠ [] →
        timesCounted start ticks p name w a b n k = if w = view ∧ 24 * a ≤ k ∧ k < 24 * b then 1 else 0 :=
      fun k hk w hsaved => (timesCounted_window ha hab (Finset.mem_Icc.mp hk).1).mpr (h k hk w hsaved)
    obtain ⟨results,hresults,htotals⟩ := totals_of_rows hview ha hab hb hrows
    refine ⟨⟨_,results,historyDb_eq hstart,hresults,htotals⟩,fun other hother => ?_⟩
    obtain rfl : name = other := Option.some.inj (hview.symm.trans hother)
    exact hrows

theorem asked_text : asked (text "*") = some (text "*") := asked_plain (by decide)

/-- One view makes rows under its own name. -/
theorem saved_answered {queryNum : ℤ} {p : Property} {w : CString} (h : (answeredTick queryNum).saved p w ≠ []) :
    w = text "*" := by
  by_contra hne
  apply h
  have hstored : storedName (text "*") = text "*" := by decide
  simp [Tick.saved, answeredTick, hstored, Ne.symm hne]

theorem saved_quiet {p : Property} {w : CString} : quietTick.saved p w = [] := by
  simp [Tick.saved, quietTick]

/-- Queries are only made from the second day to the fifth. -/
theorem agrees_iff_inner_days :
    Agrees 1388534400 (fun k => if 24 ≤ k ∧ k < 120 then answeredTick 1 else quietTick) .rcode (text "*") 1 6 144 := by
  refine (agrees_iff _ _ _ _ 1 6 144 (by decide) (by decide) (by decide) (by decide)).mpr
    ⟨text "*",asked_text,fun k hk w hsaved => ?_⟩
  obtain rfl : w = text "*" := by
    by_cases hinner : 24 ≤ k ∧ k < 120
    · rw [if_pos hinner] at hsaved
      exact saved_answered hsaved
    · rw [if_neg hinner, saved_quiet] at hsaved
      exact absurd rfl hsaved
  revert k
  decide +kernel

/-- With `k` queries in hour `k`, the day before the window is counted and its last day is not. -/
theorem agrees_fails : ¬Agrees 1388534400 (fun k => answeredTick k) .rcode (text "*") 1 6 144 := by
  rintro ⟨⟨db,results,hdb,hresults,htotals⟩,-⟩
  obtain rfl := Option.some.inj ((historyDb_eq (by decide)).symm.trans hdb)
  obtain ⟨results',hresults',htotals'⟩ := @total_getLong 1388534400 144 1 6 (fun k => answeredTick k) .rcode (text "*")
    (text "*") {text "*"} (by decide) (by decide) asked_text (by decide) (by decide) (by decide)
  obtain rfl := Option.some.inj (hresults'.symm.trans hresults)
  have heq := (htotals' (text "NOERROR")).symm.trans (htotals (text "NOERROR"))
  rw [total_window] at heq
  exact absurd heq (by decide +kernel)

end LogStats
