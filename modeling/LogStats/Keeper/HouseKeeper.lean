import LogStats.NameTree.Reply
import LogStats.Views.ViewTree

/-! # The house keeper of log_topn.c

Every operation holds the keeper's lock from its first to its last access, so that a
step here is a whole call. The keeper's own `qps`, `success_rate` and `count` are set
when it is created and never used.
-/
namespace LogStats

structure HouseKeeper where
  views : ViewTree
  memUplimit : UInt64

def houseKeeperCreate (memory : ViewTreeMemory) : HouseKeeper := ⟨viewTreeCreate memory,10 * 1024 * 1024⟩

/-! ## log_handle -/

/-- Whether the requests of one `log_handle` find memory, and what is in that of a new record. -/
structure LogAlloc where
  stats : Bool
  node : Bool
  domain : Mallocs
  ip : Mallocs
  memory : ViewStatsMemory

structure LogRecord where
  view : CString
  domain : CString
  ip : CString
  rtype : CString
  rcode : CString

/-- The first part of `log_handle`: the record of the view, none where `view_stats_create`
returns NULL. -/
def logHandleView (alloc : LogAlloc) (views : ViewTree) (view : CString) : Option (ViewTree × Option ℕ) := do
  match ← viewTreeFind views view with
  | none =>
    match ← viewStatsCreate alloc.stats alloc.memory view with
    | none => some (views,none)
    | some vs =>
      let addr := views.statsBrk
      let views := { views with stats := Function.update views.stats addr (some vs), statsBrk := addr + 1 }
      let views ← viewTreeInsert alloc.node views view addr
      some (views,some addr)
  | some vtnode =>
    let lrulist ← lruListMoveToFirst views.lrulist (views.nodes vtnode).ptr
    some ({ views with lrulist := lrulist },some (views.nodes vtnode).vs)

def logHandleRecycle (memUplimit : UInt64) (views : ViewTree) : Option ViewTree := do
  let currentMemSize ← viewTreeGetSize views
  if memUplimit < currentMemSize then viewTreeSetMemsize views memUplimit else some views

/-- The last part of `log_handle`. -/
def logHandleRecord (alloc : LogAlloc) (vs : ViewStats) (r : LogRecord) : Option ViewStats := do
  let vs ← viewStatsInsertName alloc.domain vs r.domain
  let vs ← viewStatsInsertIp alloc.ip vs r.ip
  let rtype ← rtypeIndex r.rtype
  let vs := viewStatsRtypeIncrement vs rtype
  let rcode ← rcodeIndex r.rcode
  some (viewStatsRcodeIncrement vs rcode)

def logHandle (alloc : LogAlloc) (keeper : HouseKeeper) (r : LogRecord) : Option HouseKeeper := do
  match ← logHandleView alloc keeper.views r.view with
  | (views,none) => some { keeper with views := views }
  | (views,some addr) =>
    let views ← logHandleRecycle keeper.memUplimit views
    let vs ← views.stats addr
    let vs ← logHandleRecord alloc vs r
    some { keeper with views := { views with stats := Function.update views.stats addr (some vs) } }

/-! ## handle_string_log -/

def recordLen : ℕ := 1024
def spNum : ℕ := 20
def keywordLen : ℕ := 256
def cipP : ℕ := 3
def viewP : ℕ := 6
def domainP : ℕ := 7
def rtypeP : ℕ := 9
def rcodeP : ℕ := 10
def zoneP : ℕ := 17

/-- The tokens that `strtok_r` finds between spaces. -/
def strtok (line : CString) : List CString :=
  ((line.bytes.splitOn 32).filter (· ≠ [])).map CString.read

/-- The string without its last byte. -/
def chop (s : CString) : CString := ⟨s.bytes.dropLast,fun h => s.nulFree ((List.dropLast_subset _) h)⟩

structure LogLine where
  view : CString
  zone : CString
  domain : CString
  ip : CString
  rtype : CString
  rcode : CString

def keyword (view zone : CString) : CString := view ++ text "$" ++ zone
def totalKeyword (zone : CString) : CString := text "*$" ++ zone

namespace LogLine

/-- The arguments of the two calls of `log_handle`. -/
def record (l : LogLine) : LogRecord := ⟨keyword l.view l.zone,l.domain,l.ip,l.rtype,l.rcode⟩
def totalRecord (l : LogLine) : LogRecord := ⟨totalKeyword l.zone,l.domain,l.ip,l.rtype,l.rcode⟩

end LogLine

/-- The line of a log as `handle_string_log` takes it apart, `some none` for one that it
ignores. It looks at the zone only after it has accepted the line. -/
def handleTokens (line : CString) : Option (Option LogLine) :=
  if recordLen ≤ line.strlen then none
  else
    let ptr := (strtok line).take spNum
    match ptr[viewP]?, ptr[cipP]?, ptr[rcodeP]?, ptr[rtypeP]? with
    | some view, some ip, some rcode, some rtype =>
      if view.bytes.getLast? ≠ some 58 then some none
      else do
        let zone ← ptr[zoneP]?
        let domain ← ptr[domainP]?
        let l : LogLine := ⟨chop view,chop zone,domain,ip,rtype,rcode⟩
        if keywordLen ≤ l.record.view.strlen ∨ keywordLen ≤ l.totalRecord.view.strlen then none else some (some l)
    | _, _, _, _ => some none

def handleStringLog (alloc totalAlloc : LogAlloc) (keeper : HouseKeeper) (line : CString) : Option HouseKeeper := do
  match ← handleTokens line with
  | none => some keeper
  | some l =>
    let keeper ← logHandle alloc keeper l.record
    logHandle totalAlloc keeper l.totalRecord

/-! ## The other threads -/

def houseKeeperClearStats (memory : ViewTreeMemory) (keeper : HouseKeeper) : HouseKeeper :=
  { keeper with views := viewTreeCreate memory }

/-- The names go to an array with room for `count` of them. A negative count asks malloc
for more than there is. -/
def returnAllViews (keeper : HouseKeeper) : Option StatsReply :=
  let n := keeper.views.count
  let names := (keeper.views.rbtree.elems.map fun a => (keeper.views.nodes a).name).filter (fun name => name.strlen ≠ 0)
  if names.length ≤ n.toNat then some ⟨"views",names,[]⟩ else none

def absoluteDiff (first second : UInt32) : UInt32 :=
  if second ≥ first then second - first else 4294967295 - first + second

/-- What a round of `qps_thread` does to one record. -/
def qpsThreadRecord (vs : ViewStats) : ViewStats :=
  { vs with
    qps := (absoluteDiff vs.lastCount vs.count).toNat / 10
    lastCount := vs.count
    successRate := if vs.count = 0 then 1
      else (absoluteDiff (vs.rcode rcodeServfail) vs.count).toNat / vs.count.toNat }

/-- One round of `qps_thread`. -/
def qpsThreadRound (keeper : HouseKeeper) : Option HouseKeeper := do
  let views := keeper.views
  let stats ← views.rbtree.elems.foldlM (fun (stats : ℕ → Option ViewStats) tnode =>
    if (views.nodes tnode).name.strlen = 0 then some stats
    else (stats (views.nodes tnode).vs).map fun vs =>
      Function.update stats (views.nodes tnode).vs (some (qpsThreadRecord vs))) views.stats
  some { keeper with views := { views with stats := stats } }

/-! ## Steps -/

/-- The calls that change the keeper. -/
inductive KeeperOp where
  | log (alloc : LogAlloc) (r : LogRecord)
  | flush (memory : ViewTreeMemory)
  | recycle (expectSize : UInt64)
  | tick

def keeperStep (keeper : HouseKeeper) : KeeperOp → Option HouseKeeper
  | .log alloc r => logHandle alloc keeper r
  | .flush memory => some (houseKeeperClearStats memory keeper)
  | .recycle expectSize => (viewTreeSetMemsize keeper.views expectSize).map fun views => { keeper with views := views }
  | .tick => qpsThreadRound keeper

end LogStats
