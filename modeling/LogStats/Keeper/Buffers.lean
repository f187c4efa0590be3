import LogStats.Keeper.Parsing

/-! # What is copied into the fields of fixed size

Along the call of `handle_string_log`, up to the first step that is undefined. The copies
of a recycling go into the search keys for the names of nodes, and those fit in every
state. What else is copied are the two names of views, the domain and the address.
-/
namespace LogStats

/-- A string that is copied to a field of `size` bytes. -/
structure Copy where
  size : ℕ
  string : CString

def Copy.Fits (c : Copy) : Prop := c.string.strlen + 1 ≤ c.size

instance (c : Copy) : Decidable c.Fits := inferInstanceAs (Decidable (_ ≤ _))

/-- The copies of what comes after a step that returned. -/
def copiesAfter {α : Type} (o : Option α) (copies : α → List Copy) : List Copy := o.elim [] copies

def AllFit (copies : List Copy) : Prop := ∀ c ∈ copies, c.Fits

instance (copies : List Copy) : Decidable (AllFit copies) := inferInstanceAs (Decidable (∀ c ∈ copies, _))

@[simp] theorem allFit_nil : AllFit [] := fun _ hc => absurd hc List.not_mem_nil

@[simp] theorem allFit_cons {c : Copy} {cs : List Copy} : AllFit (c :: cs) ↔ c.Fits ∧ AllFit cs := List.forall_mem_cons

@[simp] theorem allFit_append {cs ds : List Copy} : AllFit (cs ++ ds) ↔ AllFit cs ∧ AllFit ds := List.forall_mem_append

@[simp] theorem allFit_after {α : Type} {o : Option α} {copies : α → List Copy} :
    AllFit (copiesAfter o copies) ↔ ∀ a, o = some a → AllFit (copies a) := by
  cases o <;> simp [copiesAfter]

/-! ## log_name_tree.c and log_view_stats.c -/

/-- `strcpy` of the name and `strcat` of the dot. -/
def fqdnCopies (name : CString) : List Copy := ⟨maxNameLen,name⟩ :: (dotted name).toList.map (Copy.mk maxNameLen)

/-- The key of `name_tree_exactly_find` and of `name_tree_delete`. -/
def nameKeyCopies (name : CString) : List Copy := if maxNameLen ≤ name.strlen then [] else fqdnCopies name

def nameTreeAddCopies (malloc : Mallocs) (t : NameTree) (name : CString) : List Copy :=
  copiesAfter (memPoolAlloc malloc.name t.namePool) fun (_,nv) => copiesAfter nv fun _ =>
    copiesAfter (memPoolAlloc malloc.node t.nodePool) fun (_,node) => copiesAfter node fun _ => fqdnCopies name

def nameTreeInsertCopies (malloc : Mallocs) (t : NameTree) (name : CString) : List Copy :=
  if maxNameLen ≤ name.strlen then []
  else nameKeyCopies name ++
    copiesAfter (nameTreeExactlyFind t name) fun found => if found = none then nameTreeAddCopies malloc t name else []

def nameTreeEvictCopies (t : NameTree) : List Copy :=
  let (_,node) := lruListRemoveTail t.lru
  if node = 0 then [] else nameKeyCopies (t.mem node).name

def setMemsizeLoopCopies (size : UInt64 → UInt64) (expectSize : UInt64) : ℕ → NameTree → List Copy
  | 0, _ => []
  | fuel + 1, t =>
    if expectSize < size (nameTreeGetSize t) then
      nameTreeEvictCopies t ++ copiesAfter (nameTreeEvict t) fun (t,found) =>
        if found then setMemsizeLoopCopies size expectSize fuel t else []
    else []

def viewStatsSetMemsizeCopies (vs : ViewStats) (expectSize : UInt64) : List Copy :=
  let nameSize := fun size => (viewStatsSize size (nameTreeGetSize vs.ipTree)).toUInt64
  setMemsizeLoopCopies nameSize expectSize (setMemsizeRounds vs.nameTree) vs.nameTree ++
    copiesAfter (setMemsizeLoop nameSize expectSize (setMemsizeRounds vs.nameTree) vs.nameTree) fun nameTree =>
      setMemsizeLoopCopies (fun size => (viewStatsSize (nameTreeGetSize nameTree) size).toUInt64) expectSize
        (setMemsizeRounds vs.ipTree) vs.ipTree

def viewStatsCreateCopies (malloc : Bool) (viewName : CString) : List Copy :=
  if maxViewLength < viewName.strlen then [] else if malloc = false then [] else [⟨maxViewLength,viewName⟩]

/-! ## log_view_tree.c -/

/-- The key of `view_tree_find` and of `view_tree_delete`. -/
def viewKeyCopies (name : CString) : List Copy := [⟨statsNodeMaxSize,name⟩]

/-- The name of a new node. -/
def viewTreeInsertCopies (malloc : Bool) (name : CString) : List Copy :=
  if malloc = false then [] else [⟨statsNodeMaxSize,name⟩]

def viewTreeEvictLoopCopies (expectSize : UInt64) : ℕ → ViewTree → List Copy
  | 0, _ => []
  | fuel + 1, t =>
    copiesAfter (viewTreeGetSize t) fun memSize =>
      if expectSize < memSize ∧ 1 < t.count then
        let (lrulist,vtnode) := lruListRemoveTail t.lrulist
        if vtnode = 0 then []
        else
          let name := (t.nodes vtnode).name
          viewKeyCopies name ++ copiesAfter (viewTreeDelete { t with lrulist := lrulist } name)
            (viewTreeEvictLoopCopies expectSize fuel)
      else []

def viewTreeSetMemsizeCopies (t : ViewTree) (expectSize : UInt64) : List Copy :=
  let rounds := t.lrulist.count.toNat + 1
  viewTreeEvictLoopCopies expectSize rounds t ++ copiesAfter (viewTreeEvictLoop expectSize rounds t) fun t =>
    if t.count = 1 then
      copiesAfter (viewTreeTheOnlyOne t) fun vtnode => copiesAfter (t.stats (t.nodes vtnode).vs) fun vs =>
        viewStatsSetMemsizeCopies vs expectSize
    else []

/-! ## log_topn.c -/

def logHandleViewCopies (alloc : LogAlloc) (views : ViewTree) (view : CString) : List Copy :=
  viewKeyCopies view ++ copiesAfter (viewTreeFind views view) fun found =>
    if found = none then
      viewStatsCreateCopies alloc.stats view ++ copiesAfter (viewStatsCreate alloc.stats alloc.memory view) fun vs =>
        copiesAfter vs fun _ => viewTreeInsertCopies alloc.node view
    else []

def logHandleRecycleCopies (memUplimit : UInt64) (views : ViewTree) : List Copy :=
  copiesAfter (viewTreeGetSize views) fun currentMemSize =>
    if memUplimit < currentMemSize then viewTreeSetMemsizeCopies views memUplimit else []

def logHandleRecordCopies (alloc : LogAlloc) (vs : ViewStats) (r : LogRecord) : List Copy :=
  nameTreeInsertCopies alloc.domain vs.nameTree r.domain ++
    copiesAfter (viewStatsInsertName alloc.domain vs r.domain) fun vs => nameTreeInsertCopies alloc.ip vs.ipTree r.ip

def logHandleCopies (alloc : LogAlloc) (keeper : HouseKeeper) (r : LogRecord) : List Copy :=
  logHandleViewCopies alloc keeper.views r.view ++ copiesAfter (logHandleView alloc keeper.views r.view)
    fun (views,addr) => copiesAfter addr fun addr =>
      logHandleRecycleCopies keeper.memUplimit views ++ copiesAfter (logHandleRecycle keeper.memUplimit views)
        fun views => copiesAfter (views.stats addr) fun vs => logHandleRecordCopies alloc vs r

/-- The parts of a line that passes the test and has the zone as well. -/
def lineParts (line : CString) : Option LogLine :=
  if Accepted line then do
    let view ← (lineTokens line)[viewP]?
    let ip ← (lineTokens line)[cipP]?
    let rcode ← (lineTokens line)[rcodeP]?
    let rtype ← (lineTokens line)[rtypeP]?
    let zone ← (lineTokens line)[zoneP]?
    let domain ← (lineTokens line)[domainP]?
    some ⟨chop view,chop zone,domain,ip,rtype,rcode⟩
  else none

/-- The two names that `sprintf` writes. -/
def keywordCopies (line : CString) : List Copy :=
  copiesAfter (lineParts line) fun l => [⟨keywordLen,l.record.view⟩,⟨keywordLen,l.totalRecord.view⟩]

def handleStringLogCopies (alloc totalAlloc : LogAlloc) (keeper : HouseKeeper) (line : CString) : List Copy :=
  ⟨recordLen,line⟩ :: if recordLen ≤ line.strlen then [] else keywordCopies line ++
    copiesAfter (handleTokens line).join fun l => logHandleCopies alloc keeper l.record ++
      copiesAfter (logHandle alloc keeper l.record) fun keeper => logHandleCopies totalAlloc keeper l.totalRecord

/-! ## Lines whose strings fit -/

/-- Refused as too long, or with room for the dot that is appended. -/
def NameFits (name : CString) : Prop :=
  maxNameLen ≤ name.strlen ∨ name.strlen + 1 < maxNameLen ∨ (name.strlen < maxNameLen ∧ nameEndWithDot name = some true)

/-- Short enough for a record, or for a key and refused one. -/
def ViewFits (view : CString) : Prop := view.strlen < maxViewLength ∨ (maxViewLength < view.strlen ∧ view.strlen < statsNodeMaxSize)

structure LogLine.Fits (l : LogLine) : Prop where
  view : ViewFits l.record.view
  total : ViewFits l.totalRecord.view
  names : l.record.view.strlen < maxViewLength ∨ l.totalRecord.view.strlen < maxViewLength →
    NameFits l.domain ∧ NameFits l.ip

/-- In no state that the keeper can be in does the line bring in a string that does not fit. -/
def CopiesFit (line : CString) : Prop :=
  ∀ memory ops keeper, run keeperStep (houseKeeperCreate memory) ops = some keeper →
    ∀ alloc totalAlloc, AllFit (handleStringLogCopies alloc totalAlloc keeper line)

/-! ## Copies of a recycling -/

section Names
variable {name : CString} {t : NameTree} {cells : List ℕ} {malloc : Mallocs}

theorem allFit_viewKey : AllFit (viewKeyCopies name) ↔ name.strlen < statsNodeMaxSize :=
  List.forall_mem_singleton.trans Nat.succ_le_iff

theorem allFit_fqdn (h : name.strlen < maxNameLen) : AllFit (fqdnCopies name) ↔ NameFits name := by
  have hself : (⟨maxNameLen,name⟩ : Copy).Fits := h
  rw [fqdnCopies, allFit_cons, and_iff_right hself, NameFits, dotted]
  cases hend : nameEndWithDot name with
  | none =>
    have hzero : name.strlen = 0 := dotted_eq_none.mp (by rw [dotted, hend]; rfl)
    refine iff_of_true allFit_nil (Or.inr (Or.inl ?_))
    rw [hzero, maxNameLen]
    decide
  | some e =>
    cases e with
    | true => exact iff_of_true (List.forall_mem_singleton.mpr hself) (Or.inr (Or.inr ⟨h,rfl⟩))
    | false =>
      have hlen : (name ++ dot).strlen = name.strlen + 1 := by simp [dot, CString.strlen]
      apply List.forall_mem_singleton.trans
      change (name ++ dot).strlen + 1 ≤ maxNameLen ↔ _
      rw [hlen]
      constructor
      · exact fun hle => Or.inr (Or.inl hle)
      · rintro (hge | hlt | ⟨-,hf⟩)
        · omega
        · exact hlt
        · cases hf

theorem allFit_nameKey : AllFit (nameKeyCopies name) ↔ NameFits name := by
  rw [nameKeyCopies]
  split
  · rename_i hlong
    exact iff_of_true allFit_nil (Or.inl hlong)
  · rename_i hlong
    exact allFit_fqdn (Nat.not_le.mp hlong)

theorem allFit_insert : AllFit (nameTreeInsertCopies malloc t name) ↔ NameFits name := by
  rw [nameTreeInsertCopies]
  split
  · rename_i hlong
    exact iff_of_true allFit_nil (Or.inl hlong)
  · rename_i hlong
    rw [allFit_append, allFit_nameKey]
    refine and_iff_left_of_imp (fun h => allFit_after.mpr (fun found _ => ?_))
    split
    · simp [nameTreeAddCopies, (allFit_fqdn (Nat.not_le.mp hlong)).mpr h]
    · exact allFit_nil

/-- A node has a name with a dot, or one that `name_tree_delete` refuses. -/
theorem allFit_evict (h : t.Wf cells) : AllFit (nameTreeEvictCopies t) := by
  rcases cells.eq_nil_or_concat with rfl | ⟨cs,c,rfl⟩
  · rw [nameTreeEvictCopies, lruListRemoveTail_nil h.lru.chain]
    exact allFit_nil
  · rw [List.concat_eq_append] at h
    obtain ⟨lru,hrun,-⟩ := lruListRemoveTail_spec h.lru
    obtain ⟨hv,-⟩ := h.linked c (by simp)
    simp only [nameTreeEvictCopies, hrun]
    split
    · exact allFit_nil
    · apply allFit_nameKey.mpr
      by_cases hf : (t.mem (t.lru.dataOf c)).Fits
      · have hd := ((h.settled _ hv).resolve_right fun hs => hs.1 hf).2
        refine Or.inr (Or.inr ⟨(t.mem _).strlen_lt_iff.mpr hf,?_⟩)
        rw [nameEndWithDot, dotted_getLast hd]
        rfl
      · exact Or.inl (Nat.not_lt.mp fun hlt => hf ((t.mem _).strlen_lt_iff.mp hlt))

theorem allFit_setMemsizeLoop (h : t.Wf cells) (size : UInt64 → UInt64) (expectSize : UInt64) (fuel : ℕ) :
    AllFit (setMemsizeLoopCopies size expectSize fuel t) := by
  induction fuel generalizing t cells with
  | zero => exact allFit_nil
  | succ fuel ih =>
    rw [setMemsizeLoopCopies]
    split
    · refine allFit_append.mpr ⟨allFit_evict h,allFit_after.mpr ?_⟩
      rintro ⟨t',found⟩ hevict
      rcases NameTree.nameTreeEvict_cases h with ⟨-,hrun⟩ | ⟨cs,-,t₁,-,hrun,hwf,-⟩
      · obtain ⟨rfl,rfl⟩ := Prod.mk.inj (Option.some_inj.mp (hrun.symm.trans hevict))
        exact allFit_nil
      · obtain ⟨rfl,rfl⟩ := Prod.mk.inj (Option.some_inj.mp (hrun.symm.trans hevict))
        exact ih hwf
    · exact allFit_nil

theorem allFit_viewStatsSetMemsize {vs : ViewStats} (h : vs.Sound) (expectSize : UInt64) :
    AllFit (viewStatsSetMemsizeCopies vs expectSize) := by
  obtain ⟨nameCells,ipCells,hwf⟩ := h
  exact allFit_append.mpr ⟨allFit_setMemsizeLoop hwf.nameTree _ _ _,
    allFit_after.mpr fun _ _ => allFit_setMemsizeLoop hwf.ipTree _ _ _⟩

end Names

section Views
variable {t : ViewTree} {cells : List ℕ} {d : ℤ} {expectSize : UInt64}

open ViewTree

theorem allFit_viewTreeEvictLoop (h : t.Wf cells) (fuel : ℕ) :
    AllFit (viewTreeEvictLoopCopies expectSize fuel (t.shift d)) := by
  induction fuel generalizing t cells with
  | zero => exact allFit_nil
  | succ fuel ih =>
    apply allFit_after.mpr
    intro memSize _
    split
    · rcases cells.eq_nil_or_concat with rfl | ⟨cs,c,rfl⟩
      · simp [lruListRemoveTail_nil h.lru.chain]
      · rw [List.concat_eq_append] at h
        obtain ⟨lru,t₁,hrun,h0,hdel,hsur,-⟩ := h.evicted
        have hdel' := viewTreeDelete_shift { t with lrulist := lru } d (t.nodes (t.lrulist.dataOf c)).name
        rw [hdel] at hdel'
        simp only [shift_lrulist, hrun, if_neg h0, shift_nodes]
        refine allFit_append.mpr ⟨?_,allFit_after.mpr (fun u hu => ?_)⟩
        · exact allFit_viewKey.mpr (h.short _ (h.dataOf_mem (by simp)))
        · obtain rfl := Option.some_inj.mp (hdel'.symm.trans hu)
          exact ih hsur.wf
    · exact allFit_nil

theorem allFit_viewTreeSetMemsize (h : t.Wf cells) : AllFit (viewTreeSetMemsizeCopies (t.shift d) expectSize) := by
  refine allFit_append.mpr ⟨allFit_viewTreeEvictLoop h _,allFit_after.mpr (fun t₁ hloop => ?_)⟩
  obtain ⟨u,kept,rfl,hsur,-⟩ := viewTreeEvictLoop_shift h hloop
  split
  · refine allFit_after.mpr (fun vtnode hlast => allFit_after.mpr (fun vs hvs => ?_))
    obtain ⟨vs₁,hvs₁,hsound⟩ := hsur.wf.live vtnode (List.mem_of_getLast? hlast)
    obtain rfl : vs = vs₁ := Option.some_inj.mp (hvs.symm.trans hvs₁)
    exact allFit_viewStatsSetMemsize hsound _
  · exact allFit_nil

end Views

/-! ## Every keeper -/

/-- What is known of a keeper in every state: no record has a name of 64 bytes or more. -/
structure HouseKeeper.Admits (keeper : HouseKeeper) : Prop where
  offBy : ∃ d cells, keeper.views.OffBy d cells
  short : ∀ name, keeper.ledger name ≠ none → name.strlen < maxViewLength

section Keeper
variable {keeper keeper' : HouseKeeper} {alloc : LogAlloc} {r : LogRecord} {op : KeeperOp}

theorem Ledger.Forgets.short {l l' : Ledger} (h : l.Forgets l') {name : CString} (hne : l' name ≠ none) : l name ≠ none := by
  rcases h name with he | he
  · rwa [he] at hne
  · exact absurd he hne

theorem LedgerStep.short {l l' : Ledger} (hstep : LedgerStep keeper op l l')
    (h : ∀ name, l name ≠ none → name.strlen < maxViewLength) (name : CString) (hne : l' name ≠ none) :
    name.strlen < maxViewLength := by
  cases op with
  | flush memory =>
    rw [show l' = Ledger.empty from hstep] at hne
    exact absurd rfl hne
  | recycle expectSize => exact h name (Ledger.Forgets.short hstep hne)
  | tick =>
    rw [show l' = l.tick from hstep, Ledger.tick] at hne
    split at hne
    · exact h name hne
    · exact h name (fun hno => hne (by rw [hno, Option.map_none]))
  | log alloc r =>
    cases hstep with
    | refused new long same =>
      rw [same] at hne
      exact h name hne
    | counted rcode rtype hrcode hrtype short self others all =>
      have hlogged := Ledger.Forgets.short others hne
      by_cases he : name = r.view
      · rw [he]
        by_cases hnew : l r.view = none
        · exact short hnew
        · exact h r.view hnew
      · rw [Ledger.log, Function.update_of_ne he] at hlogged
        exact h name hlogged

theorem HouseKeeper.Admits.step (h : keeper.Admits) (hr : keeperStep keeper op = some keeper') : keeper'.Admits := by
  obtain ⟨d,cells,hoff⟩ := h.offBy
  obtain ⟨⟨cells',hoff'⟩,-,hstep⟩ := keeperStep_cases hoff hr
  exact ⟨⟨_,cells',hoff'⟩,hstep.short h.short⟩

theorem houseKeeperCreate_admits (memory : ViewTreeMemory) : (houseKeeperCreate memory).Admits where
  offBy := by
    obtain ⟨t,hwf,hcreate⟩ := ViewTree.viewTreeCreate_shift memory
    exact ⟨_,[],t,hwf,hcreate⟩
  short name hne := absurd (congrFun (ViewTree.ledger_create memory) name) hne

theorem run_admits {memory : ViewTreeMemory} {ops : List KeeperOp}
    (hrun : run keeperStep (houseKeeperCreate memory) ops = some keeper) : keeper.Admits := by
  exact run_induction (P := fun _ keeper => keeper.Admits) (houseKeeperCreate_admits memory)
    (fun _ _ _ _ h _ hr => h.step hr) Along.true hrun

theorem allFit_logHandle (h : keeper.Admits) (hview : ViewFits r.view)
    (hnames : r.view.strlen < maxViewLength → NameFits r.domain ∧ NameFits r.ip) : AllFit (logHandleCopies alloc keeper r) := by
  obtain ⟨d,cells,t,hwf,hviews⟩ := h.offBy
  have hshort : r.view.strlen < statsNodeMaxSize := by
    rw [statsNodeMaxSize]
    rcases hview with hlt | hlt
    · exact hlt.trans (by decide)
    · exact hlt.2
  refine allFit_append.mpr ⟨allFit_append.mpr ⟨allFit_viewKey.mpr hshort,allFit_after.mpr (fun found _ => ?_)⟩,
    allFit_after.mpr ?_⟩
  · split
    · refine allFit_append.mpr ⟨?_,allFit_after.mpr (fun vs _ => allFit_after.mpr (fun _ _ => ?_))⟩
      · rw [viewStatsCreateCopies]
        split
        · exact allFit_nil
        · rename_i hle
          split
          · exact allFit_nil
          · exact List.forall_mem_singleton.mpr (hview.resolve_right fun hlt => hle hlt.1)
      · rw [viewTreeInsertCopies]
        split
        · exact allFit_nil
        · exact allFit_viewKey.mpr hshort
    · exact allFit_nil
  · rintro ⟨views,addr⟩ hlog
    apply allFit_after.mpr
    intro addr' haddr
    obtain rfl : addr = some addr' := haddr
    rw [hviews, logHandleView_shift] at hlog
    obtain ⟨⟨t₁,r₁⟩,hview₁,he⟩ := Option.map_eq_some_iff.mp hlog
    obtain ⟨rfl,rfl⟩ := Prod.mk.inj he
    rcases logHandleView_cases hwf hview₁ with ⟨hno,-⟩ | ⟨-,c,rest,-,hwf₁,-,-,-,hnew⟩
    · cases hno
    · obtain ⟨hdomain,hip⟩ := hnames (by
        by_cases hledger : keeper.ledger r.view = none
        · rw [HouseKeeper.ledger, hviews, ViewTree.ledger_shift] at hledger
          exact hnew hledger
        · exact h.short _ hledger)
      refine allFit_append.mpr ⟨allFit_after.mpr (fun size _ => ?_),allFit_after.mpr (fun views _ =>
        allFit_after.mpr (fun vs _ => ?_))⟩
      · split
        · exact allFit_viewTreeSetMemsize hwf₁
        · exact allFit_nil
      · exact allFit_append.mpr ⟨allFit_insert.mpr hdomain,allFit_after.mpr fun _ _ => allFit_insert.mpr hip⟩

end Keeper

/-! ## A keeper without views -/

def freshKeeper : HouseKeeper := houseKeeperCreate (staleViews 0)

section Fresh
variable {r : LogRecord}

theorem fresh_find {name : CString} (h : name.strlen < statsNodeMaxSize) : viewTreeFind freshKeeper.views name = some none := by
  rw [viewTreeFind, viewTreeKey_short h]
  rfl

/-- Without memory for a record a call leaves the keeper as it is. -/
theorem fresh_refused (h : r.view.strlen < statsNodeMaxSize) :
    logHandle { plentyOfMemory with stats := false } freshKeeper r = some freshKeeper := by
  have hview : logHandleView { plentyOfMemory with stats := false } freshKeeper.views r.view =
      some (freshKeeper.views,none) := by
    simp [logHandleView, fresh_find h, viewStatsCreate]
  rw [logHandle, hview]
  rfl

theorem fresh_insert {name : CString} (h : name.strlen < statsNodeMaxSize) (vs : ViewStats) : ∃ t,
    viewTreeInsert true { freshKeeper.views with
      stats := Function.update freshKeeper.views.stats 1 (some vs), statsBrk := 2 } name 1 = some t ∧
      t.rbtree.elems = [1] ∧ (t.nodes 1).vs = 1 ∧ t.stats 1 = some vs ∧ t.lrulist.count = 1 := by
  rw [viewTreeInsert, viewTreeInsertResult, if_neg (by simpa using h)]
  exact ⟨_,rfl,rfl,rfl,rfl,rfl⟩

/-- The first record is far below the limit. -/
theorem fresh_record {name : CString} (h : name.strlen < maxViewLength) : ∃ views vs,
    logHandleView plentyOfMemory freshKeeper.views name = some (views,some 1) ∧
      logHandleRecycle freshKeeper.memUplimit views = some views ∧ views.stats 1 = some vs ∧
      nameTreeCreate staleMemory = some vs.nameTree := by
  have hnode : name.strlen < statsNodeMaxSize := h.trans (by decide)
  obtain ⟨tree,htree,hwf,hvals,-⟩ := nameTreeCreate_wf staleMemory
  have hcreate : viewStatsCreate true staleRecord name =
      some (some ⟨name,tree,tree,0,1,0,0,fun _ => 0,fun _ => 0⟩) := by
    simp [viewStatsCreate, staleRecord, htree, h.not_gt, h.ne]
  obtain ⟨views,hins,helems,hvs,hstats,hlru⟩ := fresh_insert hnode ⟨name,tree,tree,0,1,0,0,fun _ => 0,fun _ => 0⟩
  have hcount : tree.count = 0 := by
    rw [← UInt32.toNat_inj, hwf.count_eq, hvals]
    rfl
  have hsize : viewTreeGetSize views = some 320880 := by
    simp only [viewTreeGetSize, helems, List.mapM_cons, List.mapM_nil, viewTreeNodeSize, hvs, hstats, viewStatsGetSize,
      nameTreeGetSize, hcount, hwf.lru.count_eq, hlru, Option.map_some]
    decide
  refine ⟨views,_,?_,?_,hstats,htree⟩
  · simp only [logHandleView, fresh_find hnode, Option.bind_eq_bind, Option.bind_some, plentyOfMemory, hcreate]
    exact congrArg (Option.bind · _) hins
  · simp only [logHandleRecycle, hsize, Option.bind_eq_bind, Option.bind_some]
    rfl

end Fresh

section Line
variable {line : CString} {l : LogLine}

theorem handleTokens_lineParts (hlen : line.strlen < recordLen) : handleTokens line = some (some l) ↔
    lineParts line = some l ∧ l.record.view.strlen < keywordLen ∧ l.totalRecord.view.strlen < keywordLen := by
  rcases handleTokens_cases hlen with ⟨hna,hrun⟩ |
    ⟨view,ip,rcode,rtype,domain,hview,hip,hrcode,hrtype,hdomain,-,ha,hrun⟩
  · rw [hrun, lineParts, if_neg hna]
    simp
  · rw [hrun, lineParts, if_pos ha]
    simp only [hview, hip, hrcode, hrtype, hdomain, Option.bind_eq_bind, Option.bind_some]
    cases (lineTokens line)[zoneP]? with
    | none => simp
    | some zone =>
      simp only [Option.bind_some, Option.some_inj]
      constructor
      · intro h
        split at h
        · cases h
        · rename_i hfit
          obtain rfl := Option.some_inj.mp (Option.some_inj.mp h)
          rw [not_or, Nat.not_le, Nat.not_le] at hfit
          exact ⟨rfl,hfit⟩
      · rintro ⟨rfl,hkey,htotal⟩
        rw [if_neg (not_or.mpr ⟨Nat.not_le.mpr hkey,Nat.not_le.mpr htotal⟩)]

theorem lineParts_nonempty (h : lineParts line = some l) : l.domain.strlen ≠ 0 ∧ l.ip.strlen ≠ 0 := by
  rw [lineParts] at h
  split at h
  · simp only [Option.bind_eq_bind, Option.bind_eq_some_iff] at h
    obtain ⟨view,-,ip,hip,rcode,-,rtype,-,zone,-,domain,hdomain,h⟩ := h
    obtain rfl := Option.some_inj.mp h
    exact ⟨fun hzero => lineTokens_ne_nil hdomain (List.eq_nil_of_length_eq_zero hzero),
      fun hzero => lineTokens_ne_nil hip (List.eq_nil_of_length_eq_zero hzero)⟩
  · cases h

/-- What the copies of the first line of all tell of its names. -/
theorem fresh_fits {r : LogRecord} (h : AllFit (logHandleCopies plentyOfMemory freshKeeper r)) (hne : r.domain.strlen ≠ 0) :
    ViewFits r.view ∧ (r.view.strlen < maxViewLength → NameFits r.domain ∧ NameFits r.ip) := by
  obtain ⟨hview,hrecord⟩ := allFit_append.mp h
  obtain ⟨hkey,hfound⟩ := allFit_append.mp hview
  have hnode := allFit_viewKey.mp hkey
  have hcreate := (allFit_append.mp (allFit_after.mp hfound none (fresh_find hnode))).1
  refine ⟨?_,fun hlt => ?_⟩
  · by_cases hlong : maxViewLength < r.view.strlen
    · exact Or.inr ⟨hlong,hnode⟩
    · rw [viewStatsCreateCopies, if_neg hlong] at hcreate
      exact Or.inl (hcreate _ List.mem_cons_self)
  · obtain ⟨views,vs,hrun,hrecycle,hvs,htree⟩ := fresh_record hlt
    have hafter := (allFit_append.mp (allFit_after.mp (allFit_after.mp hrecord _ hrun) 1 rfl)).2
    obtain ⟨hdomain,hip⟩ := allFit_append.mp (allFit_after.mp (allFit_after.mp hafter _ hrecycle) vs hvs)
    refine ⟨allFit_insert.mp hdomain,?_⟩
    obtain ⟨t,htree',hwf,hvals,-,hnt,hvt⟩ := nameTreeCreate_wf staleMemory
    obtain rfl : vs.nameTree = t := Option.some_inj.mp (htree.symm.trans htree')
    have hins : ∃ p, nameTreeInsert .succeed vs.nameTree r.domain = some p := by
      by_cases hlong : maxNameLen ≤ r.domain.strlen
      · exact ⟨_,by rw [nameTreeInsert, if_pos hlong]⟩
      · obtain ⟨t',hins,-⟩ := NameTree.nameTreeInsert_some hwf hnt hvt (by rw [hvals]; decide) (Nat.not_le.mp hlong) hne
        exact ⟨_,hins⟩
    obtain ⟨⟨t',n⟩,hins⟩ := hins
    refine allFit_insert.mp (allFit_after.mp hip { vs with nameTree := t' } ?_)
    simp [viewStatsInsertName, plentyOfMemory, hins]

end Line

/-- The strings of a line fit in every state of the keeper if and only if its two views are
each shorter than 64 bytes, or else longer and below 128, and, where one of them gets a
record, there is room for the dot behind the domain and behind the address. -/
theorem copies_fit_iff (line : CString) (h : line.strlen < recordLen) :
    CopiesFit line ↔ ∀ l, lineParts line = some l → l.Fits := by
  have hshort : ¬recordLen ≤ line.strlen := Nat.not_le.mpr h
  constructor
  · intro hall l hparts
    have hcopies := fun alloc => hall (staleViews 0) [] freshKeeper rfl alloc plentyOfMemory
    simp only [handleStringLogCopies, if_neg hshort, allFit_cons, allFit_append] at hcopies
    have hkey := allFit_after.mp (hcopies plentyOfMemory).2.1 l hparts
    rw [allFit_cons, allFit_cons] at hkey
    have htokens := (handleTokens_lineParts h).mpr ⟨hparts,hkey.1,hkey.2.1⟩
    have hcalls := fun alloc => allFit_append.mp (allFit_after.mp (hcopies alloc).2.2 l (by rw [htokens]; rfl))
    obtain ⟨hview,hnames⟩ := fresh_fits (hcalls plentyOfMemory).1 (lineParts_nonempty hparts).1
    have hnode : l.record.view.strlen < statsNodeMaxSize := by
      rcases hview with hlt | hlt
      · exact hlt.trans (by decide)
      · exact hlt.2
    have htotal := allFit_after.mp (hcalls { plentyOfMemory with stats := false }).2 _ (fresh_refused hnode)
    obtain ⟨htotalView,htotalNames⟩ := fresh_fits htotal (lineParts_nonempty hparts).1
    exact ⟨hview,htotalView,fun hor => hor.elim hnames htotalNames⟩
  · intro hparts memory ops keeper hrun alloc totalAlloc
    have hadmits := run_admits hrun
    have hkeyword : ∀ view, ViewFits view → view.strlen + 1 ≤ keywordLen := by
      intro view hview
      rcases hview with hlt | hlt
      · exact hlt.trans (by decide)
      · exact hlt.2.trans (by decide)
    rw [handleStringLogCopies, if_neg hshort, allFit_cons, allFit_append]
    refine ⟨h,allFit_after.mpr (fun l hl => ?_),allFit_after.mpr (fun l hl => ?_)⟩
    · have hfits := hparts l hl
      simpa using ⟨hkeyword _ hfits.view,hkeyword _ hfits.total⟩
    · have hfits := hparts l ((handleTokens_lineParts h).mp (Option.join_eq_some_iff.mp hl)).1
      refine allFit_append.mpr ⟨allFit_logHandle hadmits hfits.view (fun hlt => hfits.names (Or.inl hlt)),
        allFit_after.mpr (fun keeper' hlog => ?_)⟩
      have hstep : keeperStep keeper (.log alloc l.record) = some keeper' := hlog
      exact allFit_logHandle (hadmits.step hstep) hfits.total (fun hlt => hfits.names (Or.inr hlt))

theorem copies_fit_iff_small : (logLine "v" "w").line.strlen < recordLen ∧
    (CopiesFit (logLine "v" "w").line ↔ ∀ l, lineParts (logLine "v" "w").line = some l → l.Fits) :=
  ⟨by decide +kernel,copies_fit_iff _ (by decide +kernel)⟩

/-- The keyword has 64 bytes, which `view_stats_create` lets pass. -/
theorem copies_fit_fails : ∃ line : CString, line.strlen < recordLen ∧ ¬CopiesFit line := by
  refine ⟨(logLine "v" "zzzzzzzzzzzzzzzzzzzzzzzzzzzzzzzzzzzzzzzzzzzzzzzzzzzzzzzzzzzzzz").line,by decide +kernel,fun h => ?_⟩
  have hfit := h (staleViews 0) [] freshKeeper rfl plentyOfMemory plentyOfMemory
  revert hfit
  decide +kernel

end LogStats
