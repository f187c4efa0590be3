import LogStats.Webserver.StatsThread

/-! # Hourly snapshots of the counters

An hour is saved exactly when nothing comes between reading the counters of a view and
clearing them, no request of the hour fails, and no exception ends the pass between the rows
and the flush. Then every record that was counted is either in the counters or in one set of
rows.
-/
namespace LogStats

open ViewTree

/-! ## Counters and replies -/

/-- The counters of a view that these records were added to. -/
def tally (arrivals : List Arrival) : Counters :=
  { Counters.zero with
    rcode := fun i => UInt32.ofNat (arrivals.countP fun a => a.record.rcodeNumber = some i.val)
    rtype := fun j => UInt32.ofNat (arrivals.countP fun a => a.record.rtypeNumber = some j.val) }

/-- What the logger lists for these counters. -/
def Property.entries (p : Property) (c : Counters) : List (Option CString × ℤ) :=
  match p with
  | .rcode => viewStatsResult1 ((List.finRange 7).map fun i => (c.rcode i).toInt32.toInt) (text p.key)
  | .rtype => viewStatsResult1 ((List.finRange 12).map fun j => (c.rtype j).toInt32.toInt) (text p.key)

/-- The results are what the reply for the counters of these records says. -/
def Property.Lists (p : Property) (results : Results) (arrivals : List Arrival) : Prop :=
  propertyResults (some (.labels p.key (p.entries (tally arrivals)))) = some results

instance (p : Property) (results : Results) (arrivals : List Arrival) : Decidable (p.Lists results arrivals) :=
  inferInstanceAs (Decidable (_ = _))

/-- The views in the ledger are those of the live records, with their counts. -/
structure Ledger.Holds (l : Ledger) (live : List Arrival) : Prop where
  missing : ∀ name, l name = none ↔ ∀ a ∈ live, a.record.view ≠ name
  counts : ∀ name c, l name = some c → CountsOf live (fun a => a.record.view = name)
    (fun a => a.record.rcodeNumber) (fun a => a.record.rtypeNumber) c

section Holds
variable {l l' : Ledger} {live : List Arrival} {a : Arrival} {name : CString} {c : Counters} {p : Property}

theorem Ledger.Holds.empty : Ledger.empty.Holds [] where
  missing name := iff_of_true rfl fun a ha => absurd ha List.not_mem_nil
  counts name c hc := by cases hc

theorem Ledger.Holds.logged (h : l.Holds live) {i : Fin 7} {j : Fin 12} (hi : a.record.rcodeNumber = some i.val)
    (hj : a.record.rtypeNumber = some j.val) : (l.log a.record.view i j).Holds (live ++ [a]) where
  missing name := by
    by_cases hn : a.record.view = name
    · subst hn
      rw [Ledger.log_self]
      exact iff_of_false (by simp) fun hall => hall a (by simp) rfl
    · rw [Ledger.log_other l (Ne.symm hn), h.missing]
      simp [or_imp, forall_and, hn]
  counts name c hc := by
    by_cases hn : a.record.view = name
    · subst hn
      rw [Ledger.log_self, Option.some_inj] at hc
      rw [← hc]
      cases hold : l a.record.view with
      | none => exact (CountsOf.zero ((h.missing _).mp hold)).log rfl hi hj
      | some c₀ => exact (h.counts _ c₀ hold).log rfl hi hj
    · rw [Ledger.log_other l (Ne.symm hn)] at hc
      exact (h.counts name c hc).skip hn

theorem Ledger.Holds.ticked (h : l.Holds live) : l.tick.Holds live where
  missing name := by
    rw [← h.missing, Ledger.tick]
    split
    · exact Iff.rfl
    · exact Option.map_eq_none_iff
  counts name c hc := by
    rw [Ledger.tick] at hc
    split at hc
    · exact h.counts name c hc
    · obtain ⟨c₀,hc₀,rfl⟩ := Option.map_eq_some_iff.mp hc
      obtain ⟨hrcode,hrtype⟩ := h.counts name c₀ hc₀
      exact ⟨hrcode,hrtype⟩

/-- What is listed for a view are its live records. -/
theorem Ledger.Holds.entries_eq (h : l.Holds live) (hc : l name = some c) :
    p.entries c = p.entries (tally (live.filter fun a => a.record.view = name)) := by
  obtain ⟨hrcode,hrtype⟩ := h.counts name c hc
  have hsame : ∀ (index : Arrival → Option ℕ) (i : ℕ), countWith live (fun a => a.record.view = name) index i =
      (live.filter fun a => a.record.view = name).countP fun a => index a = some i := by
    intro index i
    rw [countWith, List.countP_filter]
    refine List.countP_congr fun a _ => ?_
    simp [and_comm]
  cases p with
  | rcode =>
    have hf : c.rcode = (tally (live.filter fun a => a.record.view = name)).rcode := funext fun i => by
      rw [hrcode i, hsame]
      rfl
    rw [Property.entries, Property.entries, hf]
  | rtype =>
    have hf : c.rtype = (tally (live.filter fun a => a.record.view = name)).rtype := funext fun j => by
      rw [hrtype j, hsame]
      rfl
    rw [Property.entries, Property.entries, hf]

/-- Nothing is listed for no records. -/
theorem Property.lists_nil (p : Property) : p.Lists [] [] := by
  cases p <;> decide +kernel

end Holds

/-! ## Requests at the logger -/

section Requests
variable {memory : CommandMemory} {keeper keeper' : HouseKeeper} {request : StatsRequest} {reply : Option Reply}
variable {outcome : Outcome} {cells : List ℕ} {d : ℤ} {view : CString} {p : Property}

theorem viewCommand_reads {vs : ViewStats} (hkey : ¬request.hasKey "flush")
    (hr : viewCommand memory keeper vs request = some (keeper',reply)) : keeper' = keeper := by
  simp only [viewCommand, if_neg hkey] at hr
  split_ifs at hr
  all_goals first
    | exact (Prod.mk.inj (Option.some_inj.mp hr)).1.symm
    | obtain ⟨_,_,he⟩ := Option.map_eq_some_iff.mp hr
      exact (Prod.mk.inj he).1.symm

theorem keeperCommand_reads {answer : Reply} (hkey : ¬request.hasKey "flush")
    (hr : keeperCommand memory keeper request = some (keeper',answer)) : keeper' = keeper := by
  simp only [keeperCommand, if_neg hkey] at hr
  split_ifs at hr
  · obtain ⟨_,_,he⟩ := Option.map_eq_some_iff.mp hr
    exact (Prod.mk.inj he).1.symm
  · exact (Prod.mk.inj (Option.some_inj.mp hr)).1.symm

/-- A request looks its view up first. -/
theorem executeCommand_cases (hr : executeCommand memory keeper request = some (keeper',reply)) :
    (viewTreeFind keeper.views request.view = some none ∧
      ∃ answer, keeperCommand memory keeper request = some (keeper',answer) ∧ reply = some answer) ∨
      ∃ a vs, viewTreeFind keeper.views request.view = some (some a) ∧
        keeper.views.stats (keeper.views.nodes a).vs = some vs ∧ viewCommand memory keeper vs request = some (keeper',reply) := by
  obtain ⟨found,hfind,hr⟩ := Option.bind_eq_some_iff.mp hr
  cases found with
  | none =>
    obtain ⟨⟨k,answer⟩,hk,he⟩ := Option.map_eq_some_iff.mp hr
    obtain ⟨rfl,rfl⟩ := Prod.mk.inj he
    exact Or.inl ⟨hfind,answer,hk,rfl⟩
  | some a =>
    obtain ⟨vs,hvs,hr⟩ := Option.bind_eq_some_iff.mp hr
    exact Or.inr ⟨a,vs,hfind,hvs,hr⟩

/-- Only a flush changes the keeper. -/
theorem executeCommand_reads (hkey : ¬request.hasKey "flush")
    (hr : executeCommand memory keeper request = some (keeper',reply)) : keeper' = keeper := by
  rcases executeCommand_cases hr with ⟨-,answer,hk,-⟩ | ⟨a,vs,-,-,hk⟩
  · exact keeperCommand_reads hkey hk
  · exact viewCommand_reads hkey hk

theorem sendRequest_reads (hkey : ¬request.hasKey "flush")
    (hr : sendRequest memory keeper request outcome = some (keeper',reply)) : keeper' = keeper := by
  cases outcome with
  | reply => exact executeCommand_reads hkey hr
  | lost =>
    obtain ⟨⟨k,answer⟩,hk,he⟩ := Option.map_eq_some_iff.mp hr
    obtain ⟨rfl,-⟩ := Prod.mk.inj he
    exact executeCommand_reads hkey hk
  | failed => exact (Prod.mk.inj (Option.some_inj.mp hr)).1.symm
  | late => exact (Prod.mk.inj (Option.some_inj.mp hr)).1.symm

/-- A request that is not answered has an empty reply. -/
theorem sendRequest_unanswered (hout : outcome ≠ .reply)
    (hr : sendRequest memory keeper request outcome = some (keeper',reply)) : reply = none := by
  cases outcome with
  | reply => exact absurd rfl hout
  | lost =>
    obtain ⟨_,_,he⟩ := Option.map_eq_some_iff.mp hr
    exact (Prod.mk.inj he).2.symm
  | failed => exact (Prod.mk.inj (Option.some_inj.mp hr)).2.symm
  | late => exact (Prod.mk.inj (Option.some_inj.mp hr)).2.symm

theorem flushRequest_keys : flushRequest.hasKey "flush" ∧ ¬flushRequest.hasKey "views" ∧ ¬flushRequest.hasKey "domaintopn" ∧
    ¬flushRequest.hasKey "iptopn" ∧ ¬flushRequest.hasKey "rcode" ∧ ¬flushRequest.hasKey "rtype" ∧
    ¬flushRequest.hasKey "qps" ∧ ¬flushRequest.hasKey "success_rate" := by
  decide +kernel

/-- A flush clears the keeper, whether there is a view of the name `*` or not. -/
theorem executeCommand_flush (hr : executeCommand memory keeper flushRequest = some (keeper',reply)) :
    keeper' = houseKeeperClearStats memory.views keeper := by
  obtain ⟨hflush,hviews,hdomain,hip,hrcode,hrtype,hqps,hrate⟩ := flushRequest_keys
  rcases executeCommand_cases hr with ⟨-,answer,hk,-⟩ | ⟨a,vs,-,-,hk⟩
  · rw [keeperCommand, if_neg hviews, if_pos hflush] at hk
    exact (Prod.mk.inj (Option.some_inj.mp hk)).1.symm
  · rw [viewCommand, if_neg hdomain, if_neg hip, if_neg hrcode, if_neg hrtype, if_neg hqps, if_neg hrate, if_pos hflush] at hk
    exact (Prod.mk.inj (Option.some_inj.mp hk)).1.symm

/-- The ledger shows what a lookup finds. -/
theorem find_ledger (h : keeper.views.OffBy d cells) {found : Option ℕ} (hr : viewTreeFind keeper.views view = some found) :
    keeper.ledger view = (found.bind fun a => keeper.views.stats (keeper.views.nodes a).vs).map ViewStats.counters := by
  obtain ⟨t,hwf,hviews⟩ := h
  rw [HouseKeeper.ledger]
  rw [hviews] at hr ⊢
  rcases hwf.find_cases hr with ⟨a,rfl,ha,rfl⟩ | ⟨rfl,hne⟩
  · rw [ledger_shift, hwf.ledger_of_mem ha]
    rfl
  · exact ledger_none hne

theorem propertyRequest_keys (view : CString) (p : Property) : ¬(propertyRequest view p).hasKey "views" ∧
    ¬(propertyRequest view p).hasKey "flush" ∧ ¬(propertyRequest view p).hasKey "domaintopn" ∧
    ¬(propertyRequest view p).hasKey "iptopn" ∧ ((propertyRequest view p).hasKey "rcode" ↔ p = .rcode) ∧
    ((propertyRequest view p).hasKey "rtype" ↔ p = .rtype) := by
  have hkeys : ∀ p : Property, ∀ key : String, (propertyRequest view p).hasKey key ↔
      CString.strcmp (text p.key) (text key) = 0 := fun _ _ => Iff.rfl
  simp only [hkeys]
  cases p <;> decide +kernel

/-- The reply for the counters of a view, or for one that is not there. -/
theorem executeCommand_property (h : keeper.views.OffBy d cells)
    (hr : executeCommand memory keeper (propertyRequest view p) = some (keeper',reply)) :
    (keeper.ledger view = none ∧ propertyResults reply = some []) ∨
      ∃ c, keeper.ledger view = some c ∧ reply = some (.labels p.key (p.entries c)) := by
  obtain ⟨hviews,hflush,hdomain,hip,hrcode,hrtype⟩ := propertyRequest_keys view p
  rcases executeCommand_cases hr with ⟨hfind,answer,hk,rfl⟩ | ⟨a,vs,hfind,hvs,hk⟩
  · rw [keeperCommand, if_neg hviews, if_neg hflush] at hk
    obtain ⟨-,rfl⟩ := Prod.mk.inj (Option.some_inj.mp hk)
    exact Or.inl ⟨find_ledger h hfind,rfl⟩
  · have hledger := find_ledger h hfind
    rw [Option.bind_some, hvs, Option.map_some] at hledger
    rw [viewCommand, if_neg hdomain, if_neg hip] at hk
    refine Or.inr ⟨vs.counters,hledger,?_⟩
    cases p with
    | rcode =>
      rw [if_pos (hrcode.mpr rfl)] at hk
      exact (Prod.mk.inj (Option.some_inj.mp hk)).2.symm
    | rtype =>
      rw [if_neg (fun he => nomatch hrcode.mp he), if_pos (hrtype.mpr rfl)] at hk
      exact (Prod.mk.inj (Option.some_inj.mp hk)).2.symm

/-- Unless there is a view of the name `*` the reply lists the views, each once. -/
theorem executeCommand_views (h : keeper.views.OffBy d cells) (hstar : keeper.ledger (text "*") = none)
    (hr : executeCommand memory keeper viewsRequest = some (keeper',reply)) :
    (replyNames reply).Nodup ∧ ∀ name, name ∈ replyNames reply ↔ keeper.ledger name ≠ none ∧ name.strlen ≠ 0 := by
  rcases executeCommand_cases hr with ⟨-,answer,hk,rfl⟩ | ⟨a,vs,hfind,hvs,-⟩
  · have hkey : viewsRequest.hasKey "views" := by decide +kernel
    rw [keeperCommand, if_pos hkey] at hk
    obtain ⟨reply,hviews,he⟩ := Option.map_eq_some_iff.mp hk
    obtain ⟨-,rfl⟩ := Prod.mk.inj he
    obtain ⟨t,hwf,hshift⟩ := h
    rw [returnAllViews] at hviews
    split at hviews
    · obtain rfl := Option.some_inj.mp hviews
      have hnames : (t.rbtree.elems.map fun a => (t.nodes a).name).Nodup :=
        (List.nodup_map_iff_inj_on hwf.elems_nodup).mpr fun a ha b hb he => hwf.name_inj ha hb he
      rw [HouseKeeper.ledger, hshift]
      refine ⟨hnames.filter _,fun name => ?_⟩
      simp only [replyNames, shift_rbtree, shift_nodes, ledger_shift, List.mem_filter, List.mem_map, decide_eq_true_eq]
      refine and_congr_left fun _ => ?_
      rcases hwf.name_cases name with ⟨a,ha,rfl,vs,-,-,-,hl⟩ | ⟨hne,-,hl⟩
      · exact iff_of_true ⟨a,ha,rfl⟩ (by simp [hl])
      · have hnone : ¬∃ a ∈ t.rbtree.elems, (t.nodes a).name = name := by
          rintro ⟨a,ha,he⟩
          exact hne a ha he
        exact iff_of_false hnone (by simp [hl])
    · cases hviews
  · have hledger := find_ledger h hfind
    rw [Option.bind_some, hvs, Option.map_some] at hledger
    have hnone : keeper.ledger viewsRequest.view = none := hstar
    rw [hnone] at hledger
    cases hledger

end Requests

/-! ## Hours that are saved exactly -/

/-- Which requests for the counters of a view are over. -/
def Stage.Asked : Stage → Property → Prop
  | .rtype, .rcode => True
  | .insert, _ => True
  | _, _ => False

instance (stage : Stage) (p : Property) : Decidable (stage.Asked p) := by
  cases stage <;> cases p <;> first | exact isTrue trivial | exact isFalse id

/-- If this pass ends with a flush, the counters of the view are read before it from here on. -/
def StatsThread.Awaits (t : StatsThread) (view : CString) : Prop :=
  match t.pc with
  | .asleep => True
  | .qps views _ _ => t.Hourly → view ∈ views
  | .successRate views _ _ => t.Hourly → view ∈ views
  | .oneHour current stage rest => view ∈ rest ∨ (view = current ∧ ¬stage.Asked .rcode ∧ ¬stage.Asked .rtype)
  | .flush => False

instance (t : StatsThread) (view : CString) : Decidable (t.Awaits view) := by
  unfold StatsThread.Awaits
  split <;> infer_instance

/-- `log_handle` has no record for the view and does not get one. -/
def Refused (alloc : LogAlloc) (keeper : HouseKeeper) (view : CString) : Prop :=
  (keeper.ledger view).isNone ∧ (alloc.stats = false ∨ maxViewLength < view.strlen)

instance (alloc : LogAlloc) (keeper : HouseKeeper) (view : CString) : Decidable (Refused alloc keeper view) :=
  inferInstanceAs (Decidable (_ ∧ _))

/-- The logger does not recycle memory. -/
def NoRecycling (s : Snapshots) : SnapshotEvent → Prop
  | .log alloc r => ¬LogRecycles alloc s.keeper r
  | _ => True

instance (s : Snapshots) (e : SnapshotEvent) : Decidable (NoRecycling s e) := by
  unfold NoRecycling
  split <;> infer_instance

/-- A view whose name is listed, and does not hide the list. -/
def ListedName (view : CString) : Prop := view.strlen ≠ 0 ∧ view ≠ text "*"

instance (view : CString) : Decidable (ListedName view) := inferInstanceAs (Decidable (_ ∧ _))

/-- No record in the counters is in a set of rows already. -/
def Unsaved (s : Snapshots) : Prop :=
  ∀ x ∈ s.saved, ∀ a ∈ x.arrivals .rcode ++ x.arrivals .rtype, ∀ b ∈ s.live, a.id ≠ b.id

instance (s : Snapshots) : Decidable (Unsaved s) := inferInstanceAs (Decidable (∀ x ∈ s.saved, _))

/-- What the counts of an hour take. A record is not added to counters that this hour's requests
have read, or do not read, before they are cleared. While there are live records, the request for
the views is answered and lists them all, those for the counters of a view that has some are
answered, and the flush is executed in its turn. An exception comes before the rows of the first
view that has live records. -/
def Undivided (s : Snapshots) : SnapshotEvent → Prop
  | .log alloc r => Refused alloc s.keeper r.view ∨ s.thread.Awaits r.view
  | .wake _ outcome _ => s.thread.Hourly → s.live = [] ∨ (outcome = .reply ∧ ∀ a ∈ s.live, ListedName a.record.view)
  | .request outcome _ =>
    match s.thread.pc with
    | .oneHour view .rcode _ => s.liveOf view = [] ∨ outcome = .reply
    | .oneHour view .rtype _ => s.liveOf view = [] ∨ outcome = .reply
    | .flush => s.live = [] ∨ outcome = .reply ∨ outcome = .lost
    | _ => True
  | .raise => Unsaved s
  | .insertRaises rcode rtype =>
    Unsaved s ∧ (s.thread.found .rcode).take rcode = [] ∧ (s.thread.found .rtype).take rtype = []
  | .lateFlush _ => s.live = [] ∨ s.thread.pc = .flush
  | _ => True

instance (s : Snapshots) (e : SnapshotEvent) : Decidable (Undivided s e) := by
  unfold Undivided
  cases e with
  | log alloc r => infer_instance
  | tick => infer_instance
  | wake timestamp outcome memory => infer_instance
  | request outcome memory =>
    dsimp only
    split <;> infer_instance
  | insert => infer_instance
  | raise => infer_instance
  | insertRaises rcode rtype => infer_instance
  | lateFlush memory => infer_instance

namespace Snapshots

/-- The records in the row sets. -/
def rows (s : Snapshots) (p : Property) : List Arrival := s.saved.flatMap fun x => x.arrivals p

/-- Every record is in the counters or in one set of rows. -/
structure Exact (s : Snapshots) : Prop where
  once : ∀ p, (s.live ++ s.rows p).Perm s.records
  distinct : (s.records.map Arrival.id).Nodup
  counters : s.keeper.ledger.Holds s.live
  results : ∀ x ∈ s.saved, ∀ p, p.Lists (x.results p) (x.arrivals p) ∧ ∀ a ∈ x.arrivals p, a.record.view = x.view

/-! ### What holds at each place -/

/-- The live records of the views in `done` are in the rows of this hour already. -/
def Split (s : Snapshots) (done : List CString) : Prop := ∀ p, ∃ old, (s.live ++ old).Perm s.records ∧
  (s.rows p).Perm (old ++ s.live.filter fun a => a.record.view ∈ done)

def Listed (s : Snapshots) (views : List CString) : Prop := views.Nodup ∧ ∀ a ∈ s.live, a.record.view ∈ views

/-- The thread has read the counters of the view. -/
def Read (s : Snapshots) (t : StatsThread) (p : Property) (view : CString) : Prop :=
  s.found p = s.liveOf view ∧ p.Lists (t.found p) (s.found p)

def Place (s : Snapshots) (t : StatsThread) : Prop :=
  match t.pc with
  | .asleep => s.Split []
  | .qps views _ _ => s.Split [] ∧ (t.Hourly → s.Listed views)
  | .successRate views _ _ => s.Split [] ∧ (t.Hourly → s.Listed views)
  | .oneHour view stage rest => ∃ done, s.Split done ∧ s.Listed (done ++ view :: rest) ∧
      ∀ p, stage.Asked p → s.Read t p view
  | .flush => ∃ done, s.Split done ∧ s.Listed done

structure Inv (s : Snapshots) : Prop where
  off : ∃ d cells, s.keeper.views.OffBy d cells
  counters : s.keeper.ledger.Holds s.live
  ids : s.records.map Arrival.id = List.range s.records.length
  results : ∀ x ∈ s.saved, ∀ p, p.Lists (x.results p) (x.arrivals p) ∧ ∀ a ∈ x.arrivals p, a.record.view = x.view
  place : s.Place s.thread

section Steps
variable {s s' : Snapshots} {t : StatsThread} {a : Arrival} {p : Property} {view : CString} {views rest done : List CString}

theorem create_inv (memory : ViewTreeMemory) : (snapshotsCreate memory).Inv where
  off := by
    obtain ⟨t,hwf,hcreate⟩ := viewTreeCreate_shift memory
    exact ⟨_,[],t,hwf,hcreate⟩
  counters := by
    have hempty : (snapshotsCreate memory).keeper.ledger = Ledger.empty := ledger_create memory
    rw [hempty]
    exact .empty
  ids := rfl
  results x hx := absurd hx List.not_mem_nil
  place _ := ⟨[],.refl _,.refl _⟩

/-! ### The places of the thread -/

theorem Place.saveOneHourData (hsplit : s.Split done) (hlisted : s.Listed (done ++ rest)) : s.Place (t.saveOneHourData rest) := by
  cases rest with
  | nil => exact ⟨done,hsplit,by simpa using hlisted⟩
  | cons view rest => exact ⟨done,hsplit,hlisted,fun p h => by cases p <;> exact h.elim⟩

theorem Place.saveFiveMinuteData (hsplit : s.Split []) (hlisted : t.Hourly → s.Listed views) :
    s.Place (t.saveFiveMinuteData views rest) := by
  cases rest with
  | nil =>
    rw [StatsThread.saveFiveMinuteData]
    split
    · rename_i hhour
      exact Place.saveOneHourData hsplit (hlisted hhour)
    · exact hsplit
  | cons view rest => exact ⟨hsplit,hlisted⟩

/-! ### The logger counts a record -/

theorem Split.counted (h : s.Split done) (hview : a.record.view ∉ done) (hlive : s'.live = s.live ++ [a])
    (hrecords : s'.records = s.records ++ [a]) (hsaved : s'.saved = s.saved) : s'.Split done := by
  intro p
  obtain ⟨old,hall,hrows⟩ := h p
  refine ⟨old,?_,?_⟩
  · have hswap : (s.live ++ ([a] ++ old)).Perm (s.live ++ (old ++ [a])) := List.Perm.append_left _ List.perm_append_comm
    rw [hlive, hrecords, List.append_assoc]
    apply hswap.trans
    rw [← List.append_assoc]
    exact hall.append_right [a]
  · have hfilter : (s'.live.filter fun a => a.record.view ∈ done) = s.live.filter fun a => a.record.view ∈ done := by
      simp [hlive, hview]
    rw [hfilter, rows, hsaved]
    exact hrows

theorem Listed.counted (h : s.Listed views) (hview : a.record.view ∈ views) (hlive : s'.live = s.live ++ [a]) :
    s'.Listed views := by
  refine ⟨h.1,fun b hb => ?_⟩
  rw [hlive, List.mem_append, List.mem_singleton] at hb
  rcases hb with hb | rfl
  · exact h.2 b hb
  · exact hview

theorem Read.counted (h : s.Read t p view) (hview : a.record.view ≠ view) (hlive : s'.live = s.live ++ [a])
    (hfound : s'.found = s.found) : s'.Read t p view := by
  obtain ⟨heq,hlists⟩ := h
  have hsame : s'.liveOf view = s.liveOf view := by simp [liveOf, hlive, hview]
  refine ⟨?_,?_⟩
  · rw [hfound, hsame, heq]
  · rw [hfound]
    exact hlists

theorem Place.counted (h : s.Place t) (hawaits : t.Awaits a.record.view) (hlive : s'.live = s.live ++ [a])
    (hrecords : s'.records = s.records ++ [a]) (hsaved : s'.saved = s.saved) (hfound : s'.found = s.found) : s'.Place t := by
  rw [StatsThread.Awaits] at hawaits
  rw [Place] at h ⊢
  cases hpc : t.pc with rw [hpc] at h hawaits
  | asleep => exact Split.counted h List.not_mem_nil hlive hrecords hsaved
  | qps views view rest =>
    exact ⟨Split.counted h.1 List.not_mem_nil hlive hrecords hsaved,fun hour => (h.2 hour).counted (hawaits hour) hlive⟩
  | successRate views view rest =>
    exact ⟨Split.counted h.1 List.not_mem_nil hlive hrecords hsaved,fun hour => (h.2 hour).counted (hawaits hour) hlive⟩
  | oneHour current stage rest =>
    obtain ⟨done,hsplit,hlisted,hread⟩ := h
    obtain ⟨-,hnext,hapart⟩ := List.nodup_append.mp hlisted.1
    have hin : a.record.view ∈ current :: rest := by
      rcases hawaits with hin | ⟨heq,-⟩
      · exact List.mem_cons_of_mem _ hin
      · rw [heq]
        exact List.mem_cons_self
    have hdone : a.record.view ∉ done := fun hd => hapart _ hd _ hin rfl
    refine ⟨done,hsplit.counted hdone hlive hrecords hsaved,
      hlisted.counted (List.mem_append_right done hin) hlive,fun p hasked => (hread p hasked).counted ?_ hlive hfound⟩
    rcases hawaits with hrest | ⟨-,hrcode,hrtype⟩
    · rintro heq
      rw [heq] at hrest
      exact (List.nodup_cons.mp hnext).1 hrest
    · cases p
      · exact absurd hasked hrcode
      · exact absurd hasked hrtype
  | flush => exact hawaits.elim

/-- A record that is refused leaves the keeper as it is. -/
theorem logHandle_refused {alloc : LogAlloc} {keeper keeper' : HouseKeeper} {r : LogRecord} {cells : List ℕ} {d : ℤ}
    (h : keeper.views.OffBy d cells) (hrefused : Refused alloc keeper r.view)
    (hr : logHandle alloc keeper r = some keeper') : keeper' = keeper := by
  obtain ⟨hnone,hwhy⟩ := hrefused
  rw [Option.isNone_iff_eq_none] at hnone
  obtain ⟨⟨views,found⟩,hview,hr⟩ := Option.bind_eq_some_iff.mp hr
  obtain ⟨node,hfind,hview⟩ := Option.bind_eq_some_iff.mp hview
  have hledger := find_ledger h hfind
  cases node with
  | some a =>
    obtain ⟨t,hwf,hviews⟩ := h
    rw [hviews] at hfind hledger
    rcases hwf.find_cases hfind with ⟨b,he,hb,-⟩ | ⟨he,-⟩
    · obtain rfl : a = b := Option.some_inj.mp he
      obtain ⟨vs,hvs,-⟩ := hwf.live a hb
      rw [hnone, Option.bind_some, shift_stats, shift_nodes, hvs] at hledger
      cases hledger
    · cases he
  | none =>
    have hcreate : viewStatsCreate alloc.stats alloc.memory r.view = some none := by
      rcases hwhy with hstats | hlong
      · rw [viewStatsCreate, if_pos hstats]
        split <;> rfl
      · rw [viewStatsCreate, if_pos hlong]
    simp only [hcreate, Option.bind_eq_bind, Option.bind_some, Option.some_inj, Prod.mk.injEq] at hview
    obtain ⟨rfl,rfl⟩ := hview
    exact (Option.some_inj.mp hr).symm

theorem Inv.log {alloc : LogAlloc} {r : LogRecord} (h : s.Inv) (hno : ¬LogRecycles alloc s.keeper r)
    (hok : Refused alloc s.keeper r.view ∨ s.thread.Awaits r.view) (hr : s.log alloc r = some s') : s'.Inv := by
  obtain ⟨keeper,hkeeper,rfl⟩ := Option.map_eq_some_iff.mp hr
  obtain ⟨d,cells,hoff⟩ := h.off
  obtain ⟨⟨cells',hoff'⟩,-,hout⟩ := logHandle_cases hoff hkeeper
  cases hout with
  | refused hnew _ hsame =>
    have hnone : ¬(keeper.ledger r.view).isSome := by rw [hsame, hnew]; simp
    simp only [if_neg hnone]
    exact ⟨⟨d,cells',hoff'⟩,hsame ▸ h.counters,h.ids,h.results,h.place⟩
  | counted i j hi hj _ hself _ hall =>
    have hsome : (keeper.ledger r.view).isSome := by rw [hself, Ledger.log_self]; rfl
    have hawaits : s.thread.Awaits r.view := by
      refine hok.resolve_left fun hrefused => ?_
      have hnone := hrefused.1
      rw [← logHandle_refused hoff hrefused hkeeper, Option.isNone_iff_eq_none] at hnone
      rw [hnone] at hsome
      cases hsome
    simp only [if_pos hsome]
    refine ⟨⟨d,cells',hoff'⟩,?_,?_,h.results,?_⟩
    · rw [hall hno]
      exact h.counters.logged (a := ⟨s.records.length,r⟩) hi hj
    · simp only [List.map_append, h.ids, List.length_append, List.length_singleton, List.range_succ, List.map_singleton]
    · exact Place.counted (a := ⟨s.records.length,r⟩) h.place hawaits rfl rfl rfl rfl

theorem Inv.tick {keeper : HouseKeeper} (h : s.Inv) (hr : keeperStep s.keeper .tick = some keeper) :
    Inv { s with keeper := keeper } := by
  obtain ⟨d,cells,hoff⟩ := h.off
  obtain ⟨⟨cells',hoff'⟩,-,hledger⟩ := keeperStep_cases hoff hr
  refine ⟨⟨d,cells',hoff'⟩,?_,h.ids,h.results,h.place⟩
  rw [LedgerStep] at hledger
  rw [hledger]
  exact h.counters.ticked

/-! ### The thread goes on -/

theorem Inv.goto (h : s.Inv) (ht : s.Place t) : Inv { s with thread := t } := ⟨h.off,h.counters,h.ids,h.results,ht⟩

section Requests
variable {outcome : Outcome} {memory : CommandMemory} {keeper : HouseKeeper} {reply : Option Reply}

/-- What the reply for the views lists. -/
theorem Inv.listed (h : s.Inv) (hok : s.live = [] ∨ (outcome = .reply ∧ ∀ a ∈ s.live, ListedName a.record.view))
    (hr : sendRequest memory s.keeper viewsRequest outcome = some (keeper,reply)) : s.Listed (replyNames reply) := by
  by_cases hout : outcome = .reply
  · subst hout
    obtain ⟨d,cells,hoff⟩ := h.off
    have hnames : ∀ a ∈ s.live, ListedName a.record.view := by
      rcases hok with hlive | ⟨-,hnames⟩
      · intro a ha
        simp [hlive] at ha
      · exact hnames
    have hstar : s.keeper.ledger (text "*") = none := (h.counters.missing _).mpr fun a ha => (hnames a ha).2
    obtain ⟨hnodup,hmem⟩ := executeCommand_views hoff hstar hr
    refine ⟨hnodup,fun a ha => (hmem _).mpr ⟨fun hnone => ?_,(hnames a ha).1⟩⟩
    exact (h.counters.missing _).mp hnone a ha rfl
  · have hlive : s.live = [] := hok.resolve_right fun hno => hout hno.1
    obtain rfl := sendRequest_unanswered hout hr
    refine ⟨List.nodup_nil,fun a ha => ?_⟩
    simp [hlive] at ha

theorem Inv.wake {timestamp : ℕ} (h : s.Inv) (hpc : s.thread.pc = .asleep)
    (hok : s.thread.Hourly → s.live = [] ∨ (outcome = .reply ∧ ∀ a ∈ s.live, ListedName a.record.view))
    (hr : s.wake timestamp outcome memory = some s') : s'.Inv := by
  obtain ⟨⟨keeper,reply⟩,hsend,hr⟩ := Option.bind_eq_some_iff.mp hr
  obtain rfl := Option.some_inj.mp hr
  obtain rfl := sendRequest_reads (by decide +kernel) hsend
  have hsplit : s.Split [] := by
    have hplace := h.place
    rwa [Place, hpc] at hplace
  exact h.goto (Place.saveFiveMinuteData (t := { s.thread with timestamp := timestamp }) hsplit fun hour => h.listed (hok hour) hsend)

theorem Inv.otherRequest {request : StatsRequest} (h : s.Inv) (hkey : ¬request.hasKey "flush") (ht : s.Place t)
    (hr : s.otherRequest request outcome memory t = some s') : s'.Inv := by
  obtain ⟨⟨keeper,reply⟩,hsend,hr⟩ := Option.bind_eq_some_iff.mp hr
  obtain rfl := Option.some_inj.mp hr
  obtain rfl := sendRequest_reads hkey hsend
  exact h.goto ht

/-- What is read of a view are its live records. -/
theorem Inv.lists {results : Results} (h : s.Inv)
    (hr : executeCommand memory s.keeper (propertyRequest view p) = some (keeper,reply))
    (hresults : propertyResults reply = some results) : p.Lists results (s.liveOf view) := by
  obtain ⟨d,cells,hoff⟩ := h.off
  rcases executeCommand_property hoff hr with ⟨hnone,hnil⟩ | ⟨c,hc,rfl⟩
  · obtain rfl : [] = results := Option.some_inj.mp (hnil.symm.trans hresults)
    have hlive : s.liveOf view = [] := List.filter_eq_nil_iff.mpr fun a ha => by
      simpa using (h.counters.missing view).mp hnone a ha
    rw [hlive]
    exact p.lists_nil
  · rw [h.counters.entries_eq hc] at hresults
    exact hresults

/-- A request that fails finds what there is of a view without live records. -/
theorem Inv.lists_outcome {results : Results} (h : s.Inv) (hok : s.liveOf view = [] ∨ outcome = .reply)
    (hr : sendRequest memory s.keeper (propertyRequest view p) outcome = some (keeper,reply))
    (hresults : propertyResults reply = some results) :
    foundBy outcome (s.liveOf view) = s.liveOf view ∧ p.Lists results (s.liveOf view) := by
  by_cases hout : outcome = .reply
  · subst hout
    exact ⟨rfl,h.lists hr hresults⟩
  · have hlive := hok.resolve_right hout
    obtain rfl := sendRequest_unanswered hout hr
    obtain rfl : [] = results := Option.some_inj.mp hresults
    rw [hlive]
    exact ⟨by cases outcome <;> rfl,p.lists_nil⟩

theorem Inv.getProperty {stage next : Stage} (h : s.Inv) (hpc : s.thread.pc = .oneHour view stage rest)
    (hnext : ∀ q, next.Asked q → q = p ∨ stage.Asked q) (hok : s.liveOf view = [] ∨ outcome = .reply)
    (hr : s.getProperty view p outcome memory (.oneHour view next rest) = some s') : s'.Inv := by
  obtain ⟨⟨keeper,reply⟩,hsend,hr⟩ := Option.bind_eq_some_iff.mp hr
  obtain ⟨results,hresults,hr⟩ := Option.bind_eq_some_iff.mp hr
  obtain rfl := Option.some_inj.mp hr
  obtain rfl := sendRequest_reads (propertyRequest_keys view p).2.1 hsend
  obtain ⟨hfound,hlists⟩ := h.lists_outcome hok hsend hresults
  have hplace := h.place
  rw [Place, hpc] at hplace
  obtain ⟨done,hsplit,hlisted,hread⟩ := hplace
  refine ⟨h.off,h.counters,h.ids,h.results,done,hsplit,hlisted,fun q hq => ?_⟩
  by_cases hqp : q = p
  · subst hqp
    refine ⟨(Function.update_self ..).trans hfound, ?_⟩
    simpa [hfound] using hlists
  · obtain ⟨heq,hlist⟩ := hread q ((hnext q hq).resolve_left hqp)
    refine ⟨(Function.update_of_ne hqp ..).trans heq,?_⟩
    simpa only [Function.update_of_ne hqp] using hlist

end Requests

/-! ### Rows are saved, and counters cleared -/

theorem filter_split {α : Type*} (P Q : α → Prop) [DecidablePred P] [DecidablePred Q] (xs : List α)
    (h : ∀ x, P x → ¬Q x) : (xs.filter P ++ xs.filter Q).Perm (xs.filter fun x => P x ∨ Q x) := by
  have hperm := List.filter_append_perm (fun x => decide (P x)) (xs.filter fun x => P x ∨ Q x)
  rw [List.filter_filter, List.filter_filter] at hperm
  refine List.Perm.trans (List.Perm.of_eq ?_) hperm
  congr 1
  · refine List.filter_congr fun x _ => ?_
    by_cases hp : P x <;> simp [hp]
  · refine List.filter_congr fun x _ => ?_
    by_cases hp : P x
    · simp [hp, h x hp]
    · simp [hp]

theorem Split.inserted (h : s.Split done) (hview : view ∉ done) (hread : ∀ p, s.found p = s.liveOf view) :
    (s.insert view rest).Split (done ++ [view]) := by
  intro p
  obtain ⟨old,hall,hrows⟩ := h p
  refine ⟨old,hall,?_⟩
  have hnew : (s.insert view rest).rows p = s.rows p ++ s.liveOf view := by
    simp [rows, Snapshots.insert, hread]
  have hsplit := filter_split (fun a : Arrival => a.record.view ∈ done) (fun a => a.record.view = view) s.live
    fun a hin heq => hview (heq ▸ hin)
  have hfilter : (s.live.filter fun a => a.record.view ∈ done ++ [view]) =
      s.live.filter fun a => a.record.view ∈ done ∨ a.record.view = view := by
    refine List.filter_congr fun a _ => ?_
    simp
  rw [hnew]
  change (s.rows p ++ s.liveOf view).Perm (old ++ s.live.filter fun a => a.record.view ∈ done ++ [view])
  rw [hfilter]
  apply (hrows.append_right _).trans
  rw [List.append_assoc]
  exact hsplit.append_left old

theorem Inv.insert (h : s.Inv) (hpc : s.thread.pc = .oneHour view .insert rest) : (s.insert view rest).Inv := by
  have hplace := h.place
  rw [Place, hpc] at hplace
  obtain ⟨done,hsplit,hlisted,hread⟩ := hplace
  have hview : view ∉ done := fun hin => (List.nodup_append.mp hlisted.1).2.2 view hin view List.mem_cons_self rfl
  refine ⟨h.off,h.counters,h.ids,fun x hx p => ?_,?_⟩
  · rcases List.mem_append.mp hx with hx | hx
    · exact h.results x hx p
    · obtain rfl := List.mem_singleton.mp hx
      obtain ⟨heq,hlists⟩ := hread p trivial
      refine ⟨hlists,fun a ha => ?_⟩
      have hfound : a ∈ s.found p := ha
      rw [heq, liveOf, List.mem_filter] at hfound
      simpa using hfound.2
  · have hsplit' : (s.insert view rest).Split (done ++ [view]) := hsplit.inserted hview fun p => (hread p trivial).1
    apply Place.saveOneHourData hsplit'
    rw [List.append_assoc]
    exact hlisted

/-- Where all live records are in the rows of this hour, they are not missed. -/
theorem Split.cleared (h : s.Split done) (hlive : ∀ a ∈ s.live, a.record.view ∈ done) (hnone : s'.live = [])
    (hrecords : s'.records = s.records) (hsaved : s'.saved = s.saved) : s'.Split [] := by
  intro p
  obtain ⟨old,hall,hrows⟩ := h p
  have hfilter : (s.live.filter fun a => a.record.view ∈ done) = s.live :=
    List.filter_eq_self.mpr fun a ha => by simpa using hlive a ha
  rw [hfilter] at hrows
  refine ⟨s.rows p,?_,?_⟩
  · rw [hnone, hrecords]
    exact (hrows.trans List.perm_append_comm).trans hall
  · rw [hnone, rows, hsaved]
    exact List.Perm.of_eq (List.append_nil _).symm

/-- Where no live record is saved, no view of this hour has rows for any. -/
theorem Split.unsaved (h : s.Split done) (hnone : Unsaved s) : s.Split [] := by
  intro p
  obtain ⟨old,hall,hrows⟩ := h p
  have hfilter : (s.live.filter fun a => a.record.view ∈ done) = [] := by
    rw [List.eq_nil_iff_forall_not_mem]
    intro a ha
    have hrow : a ∈ s.rows p := hrows.mem_iff.mpr (List.mem_append_right old ha)
    obtain ⟨x,hx,hax⟩ := List.mem_flatMap.mp hrow
    refine hnone x hx a ?_ a (List.mem_filter.mp ha).1 rfl
    cases p
    · exact List.mem_append_left _ hax
    · exact List.mem_append_right _ hax
  rw [hfilter] at hrows
  exact ⟨old,hall,by simpa using hrows⟩

/-- Whatever the place, no live record is missed when none is saved. -/
theorem Place.unsaved (h : s.Place t) (hnone : Unsaved s) : s.Split [] := by
  rw [Place] at h
  cases hpc : t.pc with rw [hpc] at h
  | asleep => exact h
  | qps views view rest => exact h.1
  | successRate views view rest => exact h.1
  | oneHour view stage rest =>
    obtain ⟨done,hsplit,-⟩ := h
    exact hsplit.unsaved hnone
  | flush =>
    obtain ⟨done,hsplit,-⟩ := h
    exact hsplit.unsaved hnone

theorem Inv.raise (h : s.Inv) (hnone : Unsaved s) : s.raise.Inv := h.goto (t := s.thread.sleep) (h.place.unsaved hnone)

/-- An insertion that raises before the first row leaves a row set without records. -/
theorem Inv.insertRaises {n : Property → ℕ} (h : s.Inv) (hnone : Unsaved s) (hrows : ∀ p, (s.thread.found p).take (n p) = []) :
    (s.insertRaises view n).Inv := by
  have hsplit := h.place.unsaved hnone
  have hempty : ∀ p, (s.insertRaises view n).rows p = s.rows p := by
    intro p
    simp [rows, Snapshots.insertRaises, hrows]
  refine ⟨h.off,h.counters,h.ids,fun x hx p => ?_,?_⟩
  · rcases List.mem_append.mp hx with hx | hx
    · exact h.results x hx p
    · obtain rfl := List.mem_singleton.mp hx
      simp only [hrows, List.any_nil, List.filter_false]
      exact ⟨p.lists_nil,fun a ha => absurd ha List.not_mem_nil⟩
  · intro p
    obtain ⟨old,hall,hsame⟩ := hsplit p
    refine ⟨old,hall,?_⟩
    rw [hempty]
    exact hsame

theorem Inv.flushed {keeper : HouseKeeper} {memory : ViewTreeMemory} (h : s.Inv)
    (hkeeper : keeper = houseKeeperClearStats memory s.keeper) (ht : Place { s with keeper := keeper, live := [] } t) :
    Inv { s with keeper := keeper, live := [], thread := t } := by
  have hempty : keeper.ledger = Ledger.empty := by
    rw [hkeeper]
    exact ledger_create memory
  refine ⟨?_,?_,h.ids,h.results,ht⟩
  · obtain ⟨u,hwf,hcreate⟩ := viewTreeCreate_shift memory
    rw [hkeeper]
    exact ⟨_,[],u,hwf,hcreate⟩
  · rw [hempty]
    exact .empty

theorem Inv.flushData {outcome : Outcome} {memory : CommandMemory} (h : s.Inv) (hpc : s.thread.pc = .flush)
    (hok : s.live = [] ∨ outcome = .reply ∨ outcome = .lost) (hr : s.flushData outcome memory = some s') : s'.Inv := by
  obtain ⟨⟨keeper,reply⟩,hsend,hr⟩ := Option.bind_eq_some_iff.mp hr
  have hplace := h.place
  rw [Place, hpc] at hplace
  obtain ⟨done,hsplit,-,hlive⟩ := hplace
  cases outcome with
  | reply =>
    obtain rfl := Option.some_inj.mp hr
    exact h.flushed (executeCommand_flush hsend) (hsplit.cleared hlive rfl rfl rfl)
  | lost =>
    obtain ⟨⟨keeper',answer⟩,hexecute,he⟩ := Option.map_eq_some_iff.mp hsend
    obtain ⟨rfl,rfl⟩ := Prod.mk.inj he
    obtain rfl := Option.some_inj.mp hr
    exact h.flushed (executeCommand_flush hexecute) (hsplit.cleared hlive rfl rfl rfl)
  | failed =>
    have hnone := hok.resolve_right (by simp)
    obtain ⟨rfl,-⟩ := Prod.mk.inj (Option.some_inj.mp hsend)
    obtain rfl := Option.some_inj.mp hr
    exact h.goto (hsplit.cleared hlive hnone rfl rfl)
  | late =>
    have hnone := hok.resolve_right (by simp)
    obtain ⟨rfl,-⟩ := Prod.mk.inj (Option.some_inj.mp hsend)
    obtain rfl := Option.some_inj.mp hr
    exact ⟨h.off,h.counters,h.ids,h.results,hsplit.cleared hlive hnone rfl rfl⟩

theorem Inv.lateFlush {memory : CommandMemory} (h : s.Inv) (hok : s.live = [] ∨ s.thread.pc = .flush)
    (hr : s.lateFlush memory = some s') : s'.Inv := by
  obtain ⟨⟨keeper,reply⟩,hexecute,hr⟩ := Option.bind_eq_some_iff.mp hr
  obtain rfl := Option.some_inj.mp hr
  have hplace : Place { s with keeper := keeper, live := [] } s.thread := by
    rcases hok with hnone | hflush
    · rw [← hnone]
      exact h.place
    · have hplace := h.place
      rw [Place, hflush] at hplace ⊢
      obtain ⟨done,hsplit,-,hlive⟩ := hplace
      exact ⟨[],hsplit.cleared hlive rfl rfl rfl,List.nodup_nil,fun a ha => absurd ha List.not_mem_nil⟩
  have hflushed := h.flushed (executeCommand_flush hexecute) hplace
  exact ⟨hflushed.off,hflushed.counters,hflushed.ids,hflushed.results,hflushed.place⟩

/-! ### Steps and runs -/

theorem Inv.request {outcome : Outcome} {memory : CommandMemory} (h : s.Inv) (hok : Undivided s (.request outcome memory))
    (hr : s.request outcome memory = some s') : s'.Inv := by
  have hplace := h.place
  rw [Place] at hplace
  rw [Undivided] at hok
  rw [Snapshots.request] at hr
  cases hpc : s.thread.pc with rw [hpc] at hplace hok hr
  | asleep => cases hr
  | qps views view rest =>
    have hkey : ¬(floatRequest view "qps").hasKey "flush" :=
      (by decide +kernel : ¬CString.strcmp (text "qps") (text "flush") = 0)
    exact h.otherRequest hkey (show s.Place (s.thread.goto (.successRate views view rest)) from hplace) hr
  | successRate views view rest =>
    have hkey : ¬(floatRequest view "success_rate").hasKey "flush" :=
      (by decide +kernel : ¬CString.strcmp (text "success_rate") (text "flush") = 0)
    exact h.otherRequest hkey (Place.saveFiveMinuteData hplace.1 hplace.2) hr
  | oneHour view stage rest =>
    cases stage with
    | domaintopn =>
      have hkey : ¬(topnRequest view "domaintopn").hasKey "flush" :=
        (by decide +kernel : ¬CString.strcmp (text "domaintopn") (text "flush") = 0)
      obtain ⟨done,hsplit,hlisted,-⟩ := hplace
      have hnext : s.Place (s.thread.goto (.oneHour view .iptopn rest)) :=
        ⟨done,hsplit,hlisted,fun p hno => by cases p <;> exact hno.elim⟩
      exact h.otherRequest hkey hnext hr
    | iptopn =>
      have hkey : ¬(topnRequest view "iptopn").hasKey "flush" :=
        (by decide +kernel : ¬CString.strcmp (text "iptopn") (text "flush") = 0)
      obtain ⟨done,hsplit,hlisted,-⟩ := hplace
      have hnext : s.Place (s.thread.goto (.oneHour view .rcode rest)) :=
        ⟨done,hsplit,hlisted,fun p hno => by cases p <;> exact hno.elim⟩
      exact h.otherRequest hkey hnext hr
    | rcode => exact h.getProperty hpc (fun q hq => by cases q <;> simp_all [Stage.Asked]) hok hr
    | rtype => exact h.getProperty hpc (fun q hq => by cases q <;> simp_all [Stage.Asked]) hok hr
    | insert => cases hr
  | flush => exact h.flushData hpc hok hr

theorem Inv.step {e : SnapshotEvent} (h : s.Inv) (hno : NoRecycling s e) (hok : Undivided s e)
    (hr : snapshotStep s e = some s') : s'.Inv := by
  cases e with
  | log alloc r => exact h.log hno hok hr
  | tick =>
    obtain ⟨keeper,hkeeper,rfl⟩ := Option.map_eq_some_iff.mp hr
    exact h.tick hkeeper
  | wake timestamp outcome memory =>
    simp only [snapshotStep] at hr
    split at hr
    · rename_i hpc
      exact h.wake hpc hok hr
    · cases hr
  | request outcome memory => exact h.request hok hr
  | insert =>
    simp only [snapshotStep] at hr
    split at hr
    · rename_i hpc
      obtain rfl := Option.some_inj.mp hr
      exact h.insert hpc
    · cases hr
  | raise =>
    simp only [snapshotStep] at hr
    split at hr
    · cases hr
    · obtain rfl := Option.some_inj.mp hr
      exact h.raise hok
  | insertRaises rcode rtype =>
    obtain ⟨hnone,hrcode,hrtype⟩ := hok
    simp only [snapshotStep] at hr
    split at hr
    · split at hr
      · obtain rfl := Option.some_inj.mp hr
        exact h.insertRaises hnone fun p => by cases p <;> assumption
      · cases hr
    · cases hr
  | lateFlush memory =>
    simp only [snapshotStep] at hr
    split at hr
    · cases hr
    · exact h.lateFlush hok hr

theorem Inv.exact (h : s.Inv) (hpc : s.thread.pc = .asleep) : s.Exact where
  once p := by
    have hplace := h.place
    rw [Place, hpc] at hplace
    obtain ⟨old,hall,hrows⟩ := hplace p
    rw [List.filter_eq_nil_iff.mpr (fun a _ => by simp), List.append_nil] at hrows
    exact (hrows.append_left _).trans hall
  distinct := h.ids ▸ List.nodup_range
  counters := h.counters
  results := h.results

end Steps

end Snapshots

/-! ## Runs of an hour -/

def quietMemory : CommandMemory := ⟨fun _ => 0,staleViews 0⟩

def aRecord : LogRecord := ⟨text "default",text "www.test.com.",text "10.0.0.1",text "A",text "NOERROR"⟩

def answered (n : ℕ) : List SnapshotEvent := List.replicate n (.request .reply quietMemory)

/-- The thread wakes up twelve times, and finds no views. -/
def idleHour : List SnapshotEvent := List.replicate 12 (.wake 0 .reply quietMemory)

/-- A record is logged, and the counters are read and cleared in one go. -/
def quietHour : List SnapshotEvent := idleHour ++ [.log plentyOfMemory aRecord,.wake 0 .reply quietMemory] ++
  answered 6 ++ [.insert] ++ answered 1

/-- Another record is logged between the requests for the return codes and the record types. -/
def dividedHour : List SnapshotEvent := idleHour ++ [.log plentyOfMemory aRecord,.wake 0 .reply quietMemory] ++
  answered 5 ++ [.log plentyOfMemory aRecord] ++ answered 1 ++ [.insert] ++ answered 1

/-- In every run without recycling whose hours are undivided, whenever the thread sleeps every
record that was counted is in the counters or in exactly one set of rows. -/
theorem snapshots_exact (memory : ViewTreeMemory) (events : List SnapshotEvent)
    (hno : Along snapshotStep NoRecycling (snapshotsCreate memory) events)
    (hok : Along snapshotStep Undivided (snapshotsCreate memory) events) :
    Always snapshotStep (fun s => s.thread.pc = .asleep → s.Exact) (snapshotsCreate memory) events := by
  intro js hjs s' hs' hpc
  have hboth := (hno.and hok).take hjs
  have hinv : s'.Inv := run_induction (P := fun _ s => s.Inv) (Snapshots.create_inv memory)
    (fun _ s e s'' h hstep he => h.step hstep.1 hstep.2 he) hboth hs'
  exact hinv.exact hpc

theorem snapshots_exact_quiet : (run snapshotStep (snapshotsCreate (staleViews 0)) quietHour).isSome ∧
    Always snapshotStep (fun s => s.thread.pc = .asleep → s.Exact) (snapshotsCreate (staleViews 0)) quietHour :=
  ⟨by decide +kernel,snapshots_exact (staleViews 0) quietHour (by decide +kernel) (by decide +kernel)⟩

/-- How many records there are, and how many of them are in the counters or in rows of return codes. -/
def Snapshots.held (s : Snapshots) : ℕ × ℕ := (s.records.length,(s.live ++ s.rows .rcode).length)

/-- A record that comes after the request for the return codes is cleared without being saved. -/
theorem snapshots_divided : ¬∀ (memory : ViewTreeMemory) (events : List SnapshotEvent),
    Along snapshotStep NoRecycling (snapshotsCreate memory) events →
      Always snapshotStep (fun s => s.thread.pc = .asleep → s.Exact) (snapshotsCreate memory) events := by
  intro hall
  have halways := hall (staleViews 0) dividedHour (by decide +kernel) dividedHour (List.prefix_refl _)
  have hheld : (run snapshotStep (snapshotsCreate (staleViews 0)) dividedHour).map
      (fun s => (s.thread.pc,s.held)) = some (.asleep,2,1) := by decide +kernel
  obtain ⟨s,hrun,hs⟩ := Option.map_eq_some_iff.mp hheld
  obtain ⟨hpc,hheld⟩ := Prod.mk.inj hs
  obtain ⟨hrecords,hkept⟩ := Prod.mk.inj hheld
  have hlength := ((halways s hrun hpc).once .rcode).length_eq
  rw [hrecords, hkept] at hlength
  cases hlength

end LogStats
