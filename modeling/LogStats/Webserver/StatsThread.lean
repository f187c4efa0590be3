import LogStats.Keeper.Accounts
import LogStats.Server.Commands
import LogStats.Webserver.Database

/-! # The hourly work of StatsThread, log_server.py

The thread of the web server asks the logger for its counters, a request at a time, writes
them down and has them cleared. Every request holds the keeper's lock, and so do the calls of
`log_handle` that come in between. What the thread saves besides the hourly return codes and
record types is left out, and so is the deletion of rows after ninety days. But anything that
it does in a pass may raise an exception, as the insertion of a name with a double quote does;
`run` catches it behind the whole pass, and the rows inserted before it stay.
-/
namespace LogStats

/-! ## Requests -/

/-- What becomes of a request. The logger answers it, or its answer is lost, or it never gets
there, or the logger gets to it only after the client has given up. -/
inductive Outcome where
  | reply
  | lost
  | failed
  | late
deriving DecidableEq

/-- `_send_request`: where it fails the reply is empty. -/
def sendRequest (memory : CommandMemory) (keeper : HouseKeeper) (request : StatsRequest) :
    Outcome → Option (HouseKeeper × Option Reply)
  | .reply => executeCommand memory keeper request
  | .lost => (executeCommand memory keeper request).map fun (keeper,_) => (keeper,none)
  | .failed => some (keeper,none)
  | .late => some (keeper,none)

def RECORD_NUM : Int32 := 1000
def FLUSH_TIME : ℕ := 300
def ONE_HOUR_TIME : ℕ := 3600

def Property.key : Property → String
  | .rcode => "rcode"
  | .rtype => "rtype"

def viewsRequest : StatsRequest := ⟨text "views",text "*",0⟩
def flushRequest : StatsRequest := ⟨text "flush",text "*",0⟩
def topnRequest (view : CString) (key : String) : StatsRequest := ⟨text key,view,RECORD_NUM⟩
def floatRequest (view : CString) (key : String) : StatsRequest := ⟨text key,view,0⟩
def propertyRequest (view : CString) (p : Property) : StatsRequest := ⟨text p.key,view,0⟩

/-- `[r for r in reply.name]` -/
def replyNames : Option Reply → List CString
  | some (.stats reply) => reply.name
  | _ => []

/-- A label that is NULL cannot be packed. -/
def packedEntry (entry : Option CString × ℤ) : Option (CString × ℤ) := entry.1.map fun name => (name,entry.2)

/-- What `get_property` makes of a reply. -/
def propertyResults : Option Reply → Option Results
  | some (.labels _ entries) => (entries.mapM packedEntry).map sortR
  | _ => some []

/-! ## The thread -/

/-- The requests for a view in `save_one_hour_data`, and the insertions behind them. -/
inductive Stage where
  | domaintopn
  | iptopn
  | rcode
  | rtype
  | insert
deriving DecidableEq

/-- Where the thread is: asleep, at a request of one of the loops over views, of which `rest`
are to come, or at the flush. -/
inductive StatsPc where
  | asleep
  | qps (views : List CString) (view : CString) (rest : List CString)
  | successRate (views : List CString) (view : CString) (rest : List CString)
  | oneHour (view : CString) (stage : Stage) (rest : List CString)
  | flush
deriving DecidableEq

structure StatsThread where
  pc : StatsPc
  times : ℕ
  first : Bool
  timestamp : ℕ
  /-- The variables `rcode` and `rtype`. -/
  found : Property → Results

namespace StatsThread

def create : StatsThread := ⟨.asleep,0,true,0,fun _ => []⟩

def goto (t : StatsThread) (pc : StatsPc) : StatsThread := { t with pc := pc }

def Hourly (t : StatsThread) : Prop := t.first = false ∧ t.times % (ONE_HOUR_TIME / FLUSH_TIME) = 0

instance (t : StatsThread) : Decidable t.Hourly := inferInstanceAs (Decidable (_ ∧ _))

def sleep (t : StatsThread) : StatsThread := { t with pc := .asleep, first := false, times := t.times + 1 }

/-- `save_one_hour_data` from here on. -/
def saveOneHourData (t : StatsThread) : List CString → StatsThread
  | [] => t.goto .flush
  | view :: rest => t.goto (.oneHour view .domaintopn rest)

/-- `save_five_minute_data` from here on. -/
def saveFiveMinuteData (t : StatsThread) (views : List CString) : List CString → StatsThread
  | [] => if t.Hourly then t.saveOneHourData views else t.sleep
  | view :: rest => t.goto (.qps views view rest)

end StatsThread

/-! ## The logger and the thread -/

/-- A record that `log_handle` has added to the counters of its view. -/
structure Arrival where
  id : ℕ
  record : LogRecord

/-- The rows that are inserted for a view at the end of an hour, and the records that were in
its counters when they were asked for. -/
structure RowSet where
  view : CString
  timestamp : ℕ
  results : Property → Results
  arrivals : Property → List Arrival

/-- The logger, the thread and the row sets saved. Beside them, `records` are all the records
that were added to counters, `live` those added since these were cleared, and `found` those in
the counters that the thread holds. `pending` requests to flush are yet to be executed. -/
structure Snapshots where
  keeper : HouseKeeper
  thread : StatsThread
  pending : ℕ
  records : List Arrival
  live : List Arrival
  found : Property → List Arrival
  saved : List RowSet

def snapshotsCreate (memory : ViewTreeMemory) : Snapshots :=
  ⟨houseKeeperCreate memory,.create,0,[],[],fun _ => [],[]⟩

inductive SnapshotEvent where
  | log (alloc : LogAlloc) (r : LogRecord)
  | tick
  /-- The thread wakes up and asks for the views. -/
  | wake (timestamp : ℕ) (outcome : Outcome) (memory : CommandMemory)
  | request (outcome : Outcome) (memory : CommandMemory)
  | insert
  /-- An exception ends the pass, after no row of the view that it is at. -/
  | raise
  /-- One ends it after some rows of return codes, or after all of them and some of record types. -/
  | insertRaises (rcode rtype : ℕ)
  | lateFlush (memory : CommandMemory)

namespace Snapshots

/-- The live records of a view. -/
def liveOf (s : Snapshots) (view : CString) : List Arrival := s.live.filter fun a => a.record.view = view

/-- The record is counted where its view has counters afterwards. -/
def log (s : Snapshots) (alloc : LogAlloc) (r : LogRecord) : Option Snapshots :=
  (logHandle alloc s.keeper r).map fun keeper =>
    let a : Arrival := ⟨s.records.length,r⟩
    if (keeper.ledger r.view).isSome then
      { s with keeper := keeper, records := s.records ++ [a], live := s.live ++ [a] }
    else { s with keeper := keeper }

def wake (s : Snapshots) (timestamp : ℕ) (outcome : Outcome) (memory : CommandMemory) : Option Snapshots := do
  let (keeper,reply) ← sendRequest memory s.keeper viewsRequest outcome
  let views := replyNames reply
  some { s with keeper := keeper, thread := { s.thread with timestamp := timestamp }.saveFiveMinuteData views views }

/-- A request whose answer is saved elsewhere. -/
def otherRequest (s : Snapshots) (request : StatsRequest) (outcome : Outcome) (memory : CommandMemory)
    (thread : StatsThread) : Option Snapshots := do
  let (keeper,_) ← sendRequest memory s.keeper request outcome
  some { s with keeper := keeper, thread := thread }

/-- What an answer shows of the live records. -/
def foundBy (outcome : Outcome) (live : List Arrival) : List Arrival :=
  match outcome with
  | .reply => live
  | _ => []

/-- `get_property` -/
def getProperty (s : Snapshots) (view : CString) (p : Property) (outcome : Outcome) (memory : CommandMemory)
    (pc : StatsPc) : Option Snapshots := do
  let (keeper,reply) ← sendRequest memory s.keeper (propertyRequest view p) outcome
  let results ← propertyResults reply
  some { s with
    keeper := keeper
    thread := { s.thread with pc := pc, found := Function.update s.thread.found p results }
    found := Function.update s.found p (foundBy outcome (s.liveOf view)) }

/-- `flush_data`, and the end of the hour's work. -/
def flushData (s : Snapshots) (outcome : Outcome) (memory : CommandMemory) : Option Snapshots := do
  let (keeper,_) ← sendRequest memory s.keeper flushRequest outcome
  let s := { s with keeper := keeper, thread := s.thread.sleep }
  match outcome with
  | .reply => some { s with live := [] }
  | .lost => some { s with live := [] }
  | .failed => some s
  | .late => some { s with pending := s.pending + 1 }

def request (s : Snapshots) (outcome : Outcome) (memory : CommandMemory) : Option Snapshots :=
  match s.thread.pc with
  | .asleep => none
  | .qps views view rest =>
    s.otherRequest (floatRequest view "qps") outcome memory (s.thread.goto (.successRate views view rest))
  | .successRate views view rest =>
    s.otherRequest (floatRequest view "success_rate") outcome memory (s.thread.saveFiveMinuteData views rest)
  | .oneHour view .domaintopn rest =>
    s.otherRequest (topnRequest view "domaintopn") outcome memory (s.thread.goto (.oneHour view .iptopn rest))
  | .oneHour view .iptopn rest =>
    s.otherRequest (topnRequest view "iptopn") outcome memory (s.thread.goto (.oneHour view .rcode rest))
  | .oneHour view .rcode rest => s.getProperty view .rcode outcome memory (.oneHour view .rtype rest)
  | .oneHour view .rtype rest => s.getProperty view .rtype outcome memory (.oneHour view .insert rest)
  | .oneHour _ .insert _ => none
  | .flush => s.flushData outcome memory

/-- `insert_rcode` and `insert_rtype` -/
def insert (s : Snapshots) (view : CString) (rest : List CString) : Snapshots :=
  { s with
    thread := s.thread.saveOneHourData rest
    saved := s.saved ++ [⟨view,s.thread.timestamp,s.thread.found,s.found⟩] }

/-- The handler of `run`: the rest of the pass is left out. -/
def raise (s : Snapshots) : Snapshots := { s with thread := s.thread.sleep }

/-- The label that a record is counted under. -/
def label (p : Property) (r : LogRecord) : Option CString :=
  match p with
  | .rcode => ((rcodeIndex r.rcode).bind fun i => RCODE[i]?).join
  | .rtype => ((rtypeIndex r.rtype).bind fun i => RTYPE[i]?).join

/-- `insert_rcode` or `insert_rtype` raises behind the first `n` rows. -/
def insertRaises (s : Snapshots) (view : CString) (n : Property → ℕ) : Snapshots :=
  let rows := fun p => (s.thread.found p).take (n p)
  { s.raise with
    saved := s.saved ++ [⟨view,s.thread.timestamp,rows,
      fun p => (s.found p).filter fun a => (rows p).any fun row => label p a.record = some row.1⟩] }

def lateFlush (s : Snapshots) (memory : CommandMemory) : Option Snapshots := do
  let (keeper,_) ← executeCommand memory s.keeper flushRequest
  some { s with keeper := keeper, pending := s.pending - 1, live := [] }

end Snapshots

def snapshotStep (s : Snapshots) : SnapshotEvent → Option Snapshots
  | .log alloc r => s.log alloc r
  | .tick => (keeperStep s.keeper .tick).map fun keeper => { s with keeper := keeper }
  | .wake timestamp outcome memory =>
    match s.thread.pc with
    | .asleep => s.wake timestamp outcome memory
    | _ => none
  | .request outcome memory => s.request outcome memory
  | .insert =>
    match s.thread.pc with
    | .oneHour view .insert rest => some (s.insert view rest)
    | _ => none
  | .raise =>
    match s.thread.pc with
    | .asleep => none
    | _ => some s.raise
  | .insertRaises rcode rtype =>
    match s.thread.pc with
    | .oneHour view .insert _ =>
      if rtype = 0 ∨ (s.thread.found .rcode).length ≤ rcode then
        some (s.insertRaises view fun p => match p with | .rcode => rcode | .rtype => rtype)
      else none
    | _ => none
  | .lateFlush memory => if s.pending = 0 then none else s.lateFlush memory

end LogStats
