import LogStats.Keeper.Buffers
import LogStats.Keeper.MemoryLimit
import LogStats.Views.Labels

/-! # The lines that a run gets through

With memory at hand and nothing recycled, a call of `log_handle` is undefined for three
kinds of records: a name that `view_tree_find` cannot copy, one of exactly 64 bytes, whose
terminator lands in the pointer to the name tree, and a type without an entry in the table,
which runs into its NULL. A run is defined exactly if no line leads to such a call, and its
records then have the counts of its lines.
-/
namespace LogStats

open NameTree ViewTree

/-! ## Trees that can grow -/

def NameTree.Growing (t : NameTree) : Prop := t.nodePool.Tripled ∧ t.namePool.Tripled

def ViewStats.Growing (vs : ViewStats) : Prop := vs.nameTree.Growing ∧ vs.ipTree.Growing

def ViewTree.Growing (t : ViewTree) : Prop :=
  ∀ a ∈ t.rbtree.elems, ∀ vs, t.stats (t.nodes a).vs = some vs → vs.Growing

section Records
variable {vs vs' : ViewStats} {name : CString} {memory : ViewStatsMemory}

/-- As long as a tree stays in the limit of the keeper its pools can grow. -/
theorem nameTreeInsert_growing {t : NameTree} {cells : List ℕ} (h : t.Wf cells) (hgrow : t.Growing)
    (hbytes : t.bytes ≤ 10 * 1024 * 1024) (hne : name.strlen ≠ 0) :
    ∃ t' r, nameTreeInsert .succeed t name = some (t',r) ∧ t'.Growing := by
  by_cases hlen : maxNameLen ≤ name.strlen
  · exact ⟨t,-1,by rw [nameTreeInsert, if_pos hlen],hgrow⟩
  · have hvalues : t.values.length < poolLimit := by
      simp only [NameTree.bytes, sizeofRbnode, sizeofNodeValue] at hbytes
      rw [poolLimit]
      omega
    obtain ⟨t',hrun,hnode,hvalue⟩ := nameTreeInsert_some h hgrow.1 hgrow.2 hvalues (Nat.not_le.mp hlen) hne
    exact ⟨t',0,hrun,hnode,hvalue⟩

theorem viewStatsCreate_short (h : name.strlen < maxViewLength) :
    ∃ vs, viewStatsCreate true memory name = some (some vs) ∧ vs.Growing := by
  obtain ⟨nameTree,hname,-,-,-,hnode,hvalue⟩ := nameTreeCreate_wf memory.nameTree
  obtain ⟨ipTree,hip,-,-,-,hnode',hvalue'⟩ := nameTreeCreate_wf memory.ipTree
  refine ⟨⟨name,nameTree,ipTree,0,1,0,0,fun _ => 0,fun _ => 0⟩,?_,⟨hnode,hvalue⟩,hnode',hvalue'⟩
  simp [viewStatsCreate, h.not_gt, h.ne, hname, hip]

end Records

section Handle
variable {t : ViewTree} {cells : List ℕ} {alloc : LogAlloc} {r : LogRecord} {view : CString} {vs : ViewStats}

theorem rtypeIndex_eq_none_iff {rtype : CString} : rtypeIndex rtype = none ↔ rtype ∉ rtypeLabels := by
  rw [rtypeIndex, rtype_table]
  refine ⟨fun hnone hin => ?_,labelIndex_null⟩
  obtain ⟨k,-,-,hidx⟩ : ∃ k, k < rtypeLabels.length ∧ rtypeLabels[k]? = some rtype ∧
    labelIndex rtypeMaxNum rtype 0 (rtypeLabels.map some ++ [none]) = some (0 + k) := labelIndex_entry hin
  rw [hidx] at hnone
  cases hnone

/-- The record of a short name is there, or one is set up for it. -/
theorem logHandleView_growing (h : t.Wf cells) (hgrow : t.Growing) (hp : alloc.Plenty) (hshort : view.strlen < maxViewLength) :
    ∃ t' addr, logHandleView alloc t view = some (t',some addr) ∧ t'.Growing := by
  obtain ⟨hstats,hnode,-⟩ := hp
  have hlen : view.strlen < statsNodeMaxSize := hshort.trans (by decide)
  have hfind : viewTreeFind t view = some (rbtreeSearch (viewCompare t.nodes view) t.rbtree) := by
    rw [viewTreeFind, viewTreeKey_short hlen, Option.map_some]
  rcases h.find_cases hfind with ⟨a,hfound,ha,-⟩ | ⟨hfound,hne⟩
  · obtain ⟨lru,rest,hmove,-⟩ := h.moved ha
    rw [hfound] at hfind
    refine ⟨{ t with lrulist := lru },(t.nodes a).vs,?_,hgrow⟩
    simp [logHandleView, hfind, hmove]
  · obtain ⟨vs,hcreate,hvs⟩ : ∃ vs, viewStatsCreate true alloc.memory view = some (some vs) ∧ vs.Growing :=
      viewStatsCreate_short hshort
    have hsound : vs.Sound := by
      rcases viewStatsCreate_cases hcreate with ⟨hnone,-⟩ | ⟨vs₁,he,hfresh,-⟩
      · cases hnone
      · exact (Option.some_inj.mp he) ▸ hfresh.sound
    obtain ⟨t',hins,hperm,hself,hold,hnew,-⟩ := h.inserted hsound hlen hne
    rw [hfound] at hfind
    refine ⟨t',t.statsBrk,?_,fun a ha vs' hvs' => ?_⟩
    · simp [logHandleView, hfind, hstats, hcreate, hnode, hins]
    · rw [hnew] at hvs'
      rcases List.mem_cons.mp (hperm.mem_iff.mp ha) with rfl | ha
      · rw [hself, Function.update_self] at hvs'
        exact Option.some_inj.mp hvs' ▸ hvs
      · rw [hold a ha, Function.update_of_ne (h.vs_lt a ha).ne] at hvs'
        exact hgrow a ha vs' hvs'

theorem nodeBytes_le {a : ℕ} (ha : a ∈ t.rbtree.elems) : t.nodeBytes a ≤ t.bytes := by
  have hmem := List.le_sum_of_mem (List.mem_map_of_mem (f := t.nodeBytes) ha)
  rw [ViewTree.bytes]
  omega

/-- The record takes the name, the address and the labels. -/
theorem logHandleRecord_growing (h : vs.Sound) (hgrow : vs.Growing) (hbytes : vs.bytes ≤ 10 * 1024 * 1024) (hp : alloc.Plenty)
    (hdomain : r.domain.strlen ≠ 0) (hip : r.ip.strlen ≠ 0) (hrtype : r.rtype ∈ rtypeLabels) :
    ∃ vs', logHandleRecord alloc vs r = some vs' ∧ vs'.Growing := by
  obtain ⟨-,-,hmdomain,hmip⟩ := hp
  obtain ⟨nameCells,ipCells,hwf⟩ := h
  rw [ViewStats.bytes] at hbytes
  obtain ⟨nameTree,_,hname,hgrow₁⟩ := nameTreeInsert_growing hwf.nameTree hgrow.1 (by omega) hdomain
  obtain ⟨ipTree,_,hipTree,hgrow₂⟩ := nameTreeInsert_growing hwf.ipTree hgrow.2 (by omega) hip
  obtain ⟨i,hi⟩ := Option.ne_none_iff_exists'.mp (fun hnone => rtypeIndex_eq_none_iff.mp hnone hrtype)
  obtain ⟨j,hj,-⟩ := rcode_classified r.rcode
  have hi' := rtypeIndex_lt hi
  have hj' := rcodeIndex_lt hj
  refine ⟨viewStatsRcodeIncrement (viewStatsRtypeIncrement { vs with nameTree := nameTree, ipTree := ipTree } i) j,?_,?_⟩
  · simp [logHandleRecord, viewStatsInsertName, viewStatsInsertIp, hmdomain, hmip, hname, hipTree, hi, hj]
  · rw [viewStatsRtypeIncrement_lt _ hi', viewStatsRcodeIncrement_lt _ hj']
    exact ⟨hgrow₁,hgrow₂⟩

end Handle

/-! ## Calls -/

/-- The records for which `log_handle` is defined. -/
structure LogRecord.Handled (r : LogRecord) : Prop where
  key : r.view.strlen < sizeofViewTreeNode
  fits : r.view.strlen ≠ maxViewLength
  rtype : r.view.strlen < maxViewLength → r.rtype ∈ rtypeLabels

/-- What holds of the keeper between two calls when nothing was recycled. -/
structure HouseKeeper.Ready (keeper : HouseKeeper) : Prop where
  admits : keeper.Admits
  uplimit : keeper.memUplimit = 10 * 1024 * 1024
  growing : keeper.views.Growing
  bytes_le : keeper.views.bytes ≤ 10 * 1024 * 1024 + 2 * nodeOverhead

section Calls
variable {keeper keeper' : HouseKeeper} {alloc : LogAlloc} {r : LogRecord} {t : ViewTree} {cells : List ℕ}

theorem houseKeeperCreate_ready (memory : ViewTreeMemory) : (houseKeeperCreate memory).Ready where
  admits := houseKeeperCreate_admits memory
  uplimit := rfl
  growing := fun a ha => absurd ha (by simp [houseKeeperCreate, viewTreeCreate])
  bytes_le := (viewTreeCreate_bytes memory).trans_le (by decide)

/-- A call that returns was for a record that can be handled. -/
theorem HouseKeeper.Admits.handled (h : keeper.Admits) (hstats : alloc.stats = true)
    (hr : logHandle alloc keeper r = some keeper') : r.Handled := by
  obtain ⟨d,cells,hoff⟩ := h.offBy
  obtain ⟨-,-,hout⟩ := logHandle_cases hoff hr
  have hkey : r.view.strlen < sizeofViewTreeNode := by
    by_contra hlong
    have hfind : viewTreeFind keeper.views r.view = none := by
      rw [viewTreeFind, viewTreeKey, if_pos (Nat.not_lt.mp hlong), Option.map_none]
    simp [logHandle, logHandleView, hfind] at hr
  cases hout with
  | refused hnew hlong _ => exact ⟨hkey,(hlong hstats).ne',fun hshort => absurd hshort (hlong hstats).not_gt⟩
  | counted i j _ hj hshort _ _ _ =>
    have hlt : r.view.strlen < maxViewLength := by
      by_cases hnew : keeper.ledger r.view = none
      · exact hshort hnew
      · exact h.short r.view hnew
    refine ⟨hkey,hlt.ne,fun _ => ?_⟩
    by_contra hno
    rw [rtypeIndex_eq_none_iff.mpr hno] at hj
    cases hj

/-- A name that is too long for a record is in no tree, and the call leaves the keeper as it is. -/
theorem HouseKeeper.Admits.log_long (h : keeper.Admits) (hkey : r.view.strlen < sizeofViewTreeNode)
    (hlong : maxViewLength < r.view.strlen) : logHandle alloc keeper r = some keeper := by
  obtain ⟨d,cells,t,hwf,hviews⟩ := h.offBy
  have hfind : viewTreeFind t r.view = some none := by
    obtain ⟨key,hkey⟩ : ∃ key, viewTreeKey r.view = some key := by
      rw [viewTreeKey, if_neg (Nat.not_le.mpr hkey)]
      exact ⟨_,rfl⟩
    have hfound : viewTreeFind t r.view = some (rbtreeSearch (viewCompare t.nodes key) t.rbtree) := by
      rw [viewTreeFind, hkey, Option.map_some]
    rcases hwf.find_cases hfound with ⟨a,-,ha,hname⟩ | ⟨hnone,-⟩
    · obtain ⟨vs,hvs,-⟩ := hwf.live a ha
      have hthere : keeper.ledger r.view ≠ none := by
        rw [HouseKeeper.ledger, hviews, ledger_shift, ← hname, hwf.ledger_of_mem ha, hvs]
        simp
      have hlt := h.short r.view hthere
      omega
    · rw [hfound, hnone]
  have hview : logHandleView alloc t r.view = some (t,none) := by
    simp [logHandleView, hfind, viewStatsCreate, hlong]
  simp only [logHandle, hviews, logHandleView_shift, hview, Option.map_some, Option.bind_eq_bind, Option.bind_some]
  rw [← hviews]

/-- Nothing is recycled in a tree that is within the limit. -/
theorem logHandleRecycle_within {limit : UInt64} {d : ℤ} (h : t.Wf cells) (hwithin : ¬limit < t.sizeAt cells) :
    logHandleRecycle limit (t.shift d) = some (t.shift d) := by
  simp only [logHandleRecycle, viewTreeGetSize_shift, h.getSize, Option.bind_eq_bind, Option.bind_some, if_neg hwithin]

/-- Where nothing wraps, a tree that is found within the limit is within it. -/
theorem bytes_le_limit {limit : UInt64} (h : t.Wf cells) (hsmall : t.bytes < 2 ^ 32) (hwithin : ¬limit < t.sizeAt cells) :
    t.bytes ≤ limit.toNat := by
  rw [UInt64.not_lt, UInt64.le_iff_toNat_le, h.sizeAt_of_small (List.prefix_refl _) (by rwa [← h.bytes_eq]),
    ← h.bytes_eq] at hwithin
  exact hwithin

/-- A call that recycles nothing returns for every such record. -/
theorem HouseKeeper.Ready.log (h : keeper.Ready) (hp : alloc.Plenty) (hr : r.Handled) (hdomain : r.domain.strlen ≠ 0)
    (hip : r.ip.strlen ≠ 0) (hno : ¬LogRecycles alloc keeper r) :
    ∃ keeper', logHandle alloc keeper r = some keeper' ∧ keeper'.Ready := by
  rcases Nat.lt_or_gt_of_ne hr.fits with hshort | hlong
  · obtain ⟨d,cells,t,hwf,hviews⟩ := h.admits.offBy
    have hgrow : t.Growing := by
      have hgrow := h.growing
      rwa [hviews] at hgrow
    have hbytes : t.bytes ≤ 10 * 1024 * 1024 + 2 * nodeOverhead := by
      have hle := h.bytes_le
      rwa [hviews] at hle
    obtain ⟨t₁,addr,hview,hgrow₁⟩ := logHandleView_growing hwf hgrow hp hshort
    have hview' : logHandleView alloc keeper.views r.view = some (t₁.shift d,some addr) := by
      rw [hviews, logHandleView_shift, hview, Option.map_some]
    obtain ⟨hle₁,-⟩ := logHandleView_bytes hwf hview
    rcases logHandleView_cases hwf hview with ⟨hnone,-⟩ | ⟨addr₁,c,rest,he,hwf₁,-,haddr,-⟩
    · cases hnone
    obtain rfl := Option.some_inj.mp he
    have hsmall : t₁.bytes < 2 ^ 32 := by
      simp only [nodeOverhead, viewBytes, emptyRecord, emptySize, statsNodeMaxSize, sizeofRbnode, sizeofNodeValue,
        sizeofLruNode] at hbytes hle₁
      omega
    have hwithin : ¬keeper.memUplimit < t₁.sizeAt (c :: rest) := fun hover =>
      hno ⟨_,hview',rfl,_,hwf₁.getSize,hover⟩
    have hlimit : t₁.bytes ≤ 10 * 1024 * 1024 := by
      have hle := bytes_le_limit hwf₁ hsmall hwithin
      rwa [h.uplimit] at hle
    have hmem := hwf₁.dataOf_mem (List.mem_cons_self : c ∈ c :: rest)
    obtain ⟨vs,hvs,hsound⟩ := hwf₁.live _ hmem
    have hvsBytes : vs.bytes ≤ 10 * 1024 * 1024 := by
      have hle := nodeBytes_le hmem
      rw [nodeBytes_of_some hvs] at hle
      omega
    obtain ⟨vs',hrecord,hvs'⟩ :=
      logHandleRecord_growing hsound (hgrow₁ _ hmem vs hvs) hvsBytes hp hdomain hip (hr.rtype hshort)
    rw [haddr] at hvs
    have hrun : logHandle alloc keeper r = some { keeper with
        views := { t₁.shift d with stats := Function.update t₁.stats addr (some vs') } } := by
      simp [logHandle, hview', logHandleRecycle_within hwf₁ hwithin, hvs, hrecord]
    have hstep : keeperStep keeper (.log alloc r) = some _ := hrun
    refine ⟨_,hrun,h.admits.step hstep,h.uplimit,fun a ha vs₁ hvs₁ => ?_,?_⟩
    · by_cases ho : (t₁.nodes a).vs = addr
      · have hself : Function.update t₁.stats addr (some vs') (t₁.nodes a).vs = some vs₁ := hvs₁
        rw [ho, Function.update_self] at hself
        exact Option.some_inj.mp hself ▸ hvs'
      · have hother : Function.update t₁.stats addr (some vs') (t₁.nodes a).vs = some vs₁ := hvs₁
        rw [Function.update_of_ne ho] at hother
        exact hgrow₁ a ha vs₁ hother
    · rw [← haddr] at hvs ⊢
      exact (hwf₁.bytes_recorded hmem hvs (logHandleRecord_bytes hsound hrecord).1).trans (Nat.add_le_add_right hlimit _)
  · exact ⟨keeper,h.admits.log_long hr.key hlong,h⟩

end Calls

/-! ## Lines -/

/-- The lines that `handle_string_log` gets through. -/
structure Handled (line : CString) : Prop where
  short : line.strlen < recordLen
  complete : Accepted line → Complete line
  records : ∀ l, handleTokens line = some (some l) → l.record.Handled ∧ l.totalRecord.Handled

section Lines
variable {keeper keeper' : HouseKeeper} {i : LogInput}

/-- A line that is taken apart is short, and complete if it is accepted. -/
theorem handleTokens_some {line : CString} {o : Option LogLine} (h : handleTokens line = some o) :
    line.strlen < recordLen ∧ (Accepted line → Complete line) := by
  have hshort : line.strlen < recordLen := by
    by_contra hlong
    rw [handleTokens, if_pos (Nat.not_lt.mp hlong)] at h
    cases h
  refine ⟨hshort,fun ha => ?_⟩
  by_contra hno
  rw [handleTokens_none hshort ha hno] at h
  cases h

theorem lineStep_handled (h : keeper.Ready) (hok : Undisturbed keeper i) (hr : lineStep keeper i = some keeper') :
    Handled i.line := by
  obtain ⟨o,hline,hr⟩ := Option.bind_eq_some_iff.mp hr
  obtain ⟨hshort,hcomplete⟩ := handleTokens_some hline
  refine ⟨hshort,hcomplete,fun l hl => ?_⟩
  obtain rfl : o = some l := Option.some_inj.mp (hline.symm.trans hl)
  obtain ⟨keeper₁,h₁,h₂⟩ := Option.bind_eq_some_iff.mp hr
  have hstep : keeperStep keeper (.log i.alloc l.record) = some keeper₁ := h₁
  have hadmits : keeper₁.Admits := h.admits.step hstep
  exact ⟨h.admits.handled hok.1.1.1 h₁,hadmits.handled hok.1.2.1 h₂⟩

theorem lineStep_ready (h : keeper.Ready) (hok : Undisturbed keeper i) (hline : Handled i.line) :
    ∃ keeper', lineStep keeper i = some keeper' ∧ keeper'.Ready := by
  by_cases ha : Accepted i.line
  · obtain ⟨l,-,hrun⟩ := handleTokens_complete hline.short ha (hline.complete ha)
    obtain ⟨hrecord,htotal⟩ := hline.records l hrun
    obtain ⟨hdomain,hip⟩ := lineParts_nonempty ((handleTokens_lineParts hline.short).mp hrun).1
    obtain ⟨⟨hp,hp'⟩,hquiet⟩ := hok
    obtain ⟨hno,hno'⟩ := hquiet l (by simp [hrun])
    obtain ⟨keeper₁,h₁,hready₁⟩ := h.log hp hrecord hdomain hip hno
    obtain ⟨keeper₂,h₂,hready₂⟩ := hready₁.log hp' htotal hdomain hip (hno' keeper₁ h₁)
    exact ⟨keeper₂,by simp [lineStep, handleStringLog, hrun, h₁, h₂],hready₂⟩
  · have hrun := handleTokens_ignored hline.short ha
    exact ⟨keeper,by simp [lineStep, handleStringLog, hrun],h⟩

end Lines

/-- Where every request finds memory and nothing is recycled, a run on lines exists if and
only if all of them are handled, and every record then has the counts of the calls with its
name. Where no view that was accepted is `*` or has a `$` in its name, these are the lines
of one view and zone, or of one zone. -/
theorem accounts_kept (memory : ViewTreeMemory) (inputs : List LogInput)
    (hok : Throughout lineStep Undisturbed (houseKeeperCreate memory) inputs) :
    ((∃ keeper, run lineStep (houseKeeperCreate memory) inputs = some keeper) ↔ ∀ i ∈ inputs, Handled i.line) ∧
      ∀ keeper, run lineStep (houseKeeperCreate memory) inputs = some keeper →
        keeper.ledger.Keeps (calls (accepted inputs)) ∧
          ((∀ x ∈ accepted inputs, PlainView x.view) → keeper.ledger.Accounts (accepted inputs)) := by
  constructor
  · rw [← Option.ne_none_iff_exists']
    refine run_ne_none_iff (I := HouseKeeper.Ready) (houseKeeperCreate_ready memory) ?_ ?_ hok
    · intro keeper i keeper' hready hoki hr
      obtain ⟨keeper₁,hr₁,hready₁⟩ := lineStep_ready hready hoki (lineStep_handled hready hoki hr)
      exact Option.some_inj.mp (hr.symm.trans hr₁) ▸ hready₁
    · intro keeper i hready hoki
      rw [Option.ne_none_iff_exists']
      constructor
      · rintro ⟨keeper',hr⟩
        exact lineStep_handled hready hoki hr
      · intro hline
        obtain ⟨keeper',hr,-⟩ := lineStep_ready hready hoki hline
        exact ⟨keeper',hr⟩
  · intro keeper hrun
    have hkeeps : (∃ d cells, keeper.views.OffBy d cells) ∧ keeper.ledger.Keeps (calls (accepted inputs)) := by
      refine run_induction (P := fun inputs keeper => (∃ d cells, keeper.views.OffBy d cells) ∧
        keeper.ledger.Keeps (calls (accepted inputs))) ?_ ?_ hok.along hrun
      · obtain ⟨t,hwf,hcreate⟩ := viewTreeCreate_shift memory
        refine ⟨⟨_,[],t,hwf,hcreate⟩,?_⟩
        rw [show (houseKeeperCreate memory).ledger = Ledger.empty from ledger_create memory]
        exact .empty
      · rintro js s i s' ⟨hoff,hkeeps⟩ hoki hstep
        exact lineStep_keeps hoff hkeeps hoki hstep
    exact ⟨hkeeps.2,hkeeps.2.accounts⟩

/-- Lines of two views and two zones. -/
def twoViews : List LogInput := [logLine "v" "w",logLine "u" "w",logLine "v" "x",logLine "v" "w"]

theorem accounts_kept_twoViews : (∀ i ∈ twoViews, Handled i.line) ∧
    ∃ keeper, run lineStep (houseKeeperCreate (staleViews 0)) twoViews = some keeper ∧
      keeper.ledger.Keeps (calls (accepted twoViews)) ∧ keeper.ledger.Accounts (accepted twoViews) := by
  obtain ⟨hrun,hkept⟩ := accounts_kept (staleViews 0) twoViews (by decide +kernel)
  obtain ⟨keeper,hkeeper⟩ := Option.isSome_iff_exists.mp
    (by decide +kernel : (run lineStep (houseKeeperCreate (staleViews 0)) twoViews).isSome = true)
  have hplain : ∀ x ∈ accepted twoViews, PlainView x.view := by
    unfold PlainView
    decide +kernel
  exact ⟨hrun.mp ⟨keeper,hkeeper⟩,keeper,hkeeper,(hkept keeper hkeeper).1,(hkept keeper hkeeper).2 hplain⟩

/-- The first counter of the record of a name after these lines. -/
def firstCounter (inputs : List LogInput) (name : CString) : Option (Option UInt32) :=
  (run lineStep (houseKeeperCreate (staleViews 0)) inputs).map fun keeper =>
    (keeper.ledger name).map fun c => c.rcode rcodeNoerror

/-- A line of a view and of a type, with memory for it. -/
def typedLine (view : CString) (rtype : String) : LogInput where
  alloc := plentyOfMemory
  totalAlloc := plentyOfMemory
  line := text "02-Jul-2013 11:36:36.273 client 203.119.80.41 57867: view " ++ view ++
    text ": www.test.com IN " ++ text rtype ++ text " NOERROR + NS NE NT ND NC w)"

/-- Lines with 17 tokens, with another type, with a record of a name of 64 or of 144 bytes,
with a name too long for `keyword`, and too long for `line`. -/
def undefinedLines : List LogInput :=
  [{ logLine "v" "w" with line := commentLine },typedLine (text "v") "PTR",typedLine (letters 62) "A",
    typedLine (letters 142) "A",typedLine (letters 254) "A",typedLine (letters 1000) "A"]

/-- A line of the view `*` is counted twice in the record of its zone. Lines of different
views and zones are counted in one record. A line is in one record only when the name of
the other is too long. Lines that are accepted may be undefined. -/
theorem accounts_kept_fails :
    (Throughout lineStep Undisturbed (houseKeeperCreate (staleViews 0)) [logLine "*" "w"] ∧
      firstCounter [logLine "*" "w"] (totalKeyword (text "w")) = some (some 2) ∧
      countWith (accepted [logLine "*" "w"]) (fun x => x.zone = text "w") LogLine.rcodeNumber 0 = 1) ∧
    (Throughout lineStep Undisturbed (houseKeeperCreate (staleViews 0)) [logLine "a$b" "c",logLine "a" "b$c"] ∧
      firstCounter [logLine "a$b" "c",logLine "a" "b$c"] (keyword (text "a") (text "b$c")) = some (some 2) ∧
      countWith (accepted [logLine "a$b" "c",logLine "a" "b$c"]) (fun x => x.view = text "a" ∧ x.zone = text "b$c")
        LogLine.rcodeNumber 0 = 1) ∧
    (∃ view, Throughout lineStep Undisturbed (houseKeeperCreate (staleViews 0)) [logLine view "w"] ∧
      firstCounter [logLine view "w"] (keyword (text view) (text "w")) = some none ∧
      firstCounter [logLine view "w"] (totalKeyword (text "w")) = some (some 1)) ∧
    ∀ i ∈ undefinedLines, Accepted i.line ∧ Throughout lineStep Undisturbed (houseKeeperCreate (staleViews 0)) [i] ∧
      run lineStep (houseKeeperCreate (staleViews 0)) [i] = none := by
  refine ⟨⟨by decide +kernel,by decide +kernel,by decide +kernel⟩,
    ⟨by decide +kernel,by decide +kernel,by decide +kernel⟩,
    ⟨"a-view-whose-name-does-not-fit-into-the-record-of-its-statistics-at-all",by decide +kernel,by decide +kernel,
      by decide +kernel⟩,fun i hi => ?_⟩
  have hundefined : ∀ i ∈ undefinedLines, Accepted i.line ∧
      Throughout lineStep Undisturbed (houseKeeperCreate (staleViews 0)) [i] ∧
        (run lineStep (houseKeeperCreate (staleViews 0)) [i]).isNone = true := by decide +kernel
  obtain ⟨ha,hok,hnone⟩ := hundefined i hi
  exact ⟨ha,hok,Option.isNone_iff_eq_none.mp hnone⟩

end LogStats
