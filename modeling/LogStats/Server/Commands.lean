import LogStats.Keeper.HouseKeeper
import LogStats.Views.Labels

/-! # The commands of socket_thread

What `socket_thread` does between locking the keeper and unlocking it, up to the message
that is then packed.
-/
namespace LogStats

structure StatsRequest where
  key : CString
  view : CString
  topn : Int32

/-- The messages that are packed, by the fields that they set. -/
inductive Reply where
  | stats (reply : StatsReply)
  | labels (key : String) (entries : List (Option CString × ℤ))
  | rate (key : String) (value : ℚ)
  | message (key maybe : String)

/-- What malloc finds for the copy of a heap and for a new tree of views. -/
structure CommandMemory where
  heap : ℕ → ℕ
  views : ViewTreeMemory

def StatsRequest.hasKey (request : StatsRequest) (key : String) : Prop := CString.strcmp request.key (text key) = 0

instance (request : StatsRequest) (key : String) : Decidable (request.hasKey key) := inferInstanceAs (Decidable (_ = _))

def StatsRequest.entries (request : StatsRequest) : ℤ := if request.topn = 0 then 1000 else request.topn.toInt

/-- The commands for a view that is not there. -/
def keeperCommand (memory : CommandMemory) (keeper : HouseKeeper) (request : StatsRequest) :
    Option (HouseKeeper × Reply) :=
  if request.hasKey "views" then (returnAllViews keeper).map fun reply => (keeper,.stats reply)
  else if request.hasKey "flush" then some (houseKeeperClearStats memory.views keeper,.message "flush" "success")
  else some (keeper,.message "error" "view not find")

/-- The commands for a view with the record `vs`; a key that is none of them gives no message. -/
def viewCommand (memory : CommandMemory) (keeper : HouseKeeper) (vs : ViewStats) (request : StatsRequest) :
    Option (HouseKeeper × Option Reply) :=
  if request.hasKey "domaintopn" then
    (viewStatsResult memory.heap vs.nameTree "domaintopn" request.entries).map fun reply => (keeper,some (.stats reply))
  else if request.hasKey "iptopn" then
    (viewStatsResult memory.heap vs.ipTree "iptopn" request.entries).map fun reply => (keeper,some (.stats reply))
  else if request.hasKey "rcode" then some (keeper,some (.labels "rcode" (viewStatsGetRcode vs)))
  else if request.hasKey "rtype" then some (keeper,some (.labels "rtype" (viewStatsGetRtype vs)))
  else if request.hasKey "qps" then some (keeper,some (.rate "qps" vs.qps))
  else if request.hasKey "success_rate" then some (keeper,some (.rate "success_rate" vs.successRate))
  else if request.hasKey "flush" then
    some (houseKeeperClearStats memory.views keeper,some (.message "flush" "success"))
  else some (keeper,none)

/-- The key of a request is looked at only once its view was looked up. -/
def executeCommand (memory : CommandMemory) (keeper : HouseKeeper) (request : StatsRequest) :
    Option (HouseKeeper × Option Reply) := do
  match ← viewTreeFind keeper.views request.view with
  | none => (keeperCommand memory keeper request).map fun (keeper,reply) => (keeper,some reply)
  | some vtnode =>
    let vs ← keeper.views.stats (keeper.views.nodes vtnode).vs
    viewCommand memory keeper vs request

end LogStats
