import LogStats.Client.Once
import LogStats.Server.Atomicity

/-! # The webserver and the log server together

The threads of the webserver share one `Log_analy` object. In the log server `main` hands
lines to `log_handle`, `qps_thread` makes its rounds and each connection has a
`socket_thread`; all of them work on the keeper under its mutex. Everything a thread does
may be followed by what any other thread does. What is undefined, or ends the log server,
is no step.
-/
namespace LogStats

/-- Who waits for a result: a call of `_send_request`, or a call that `main` or `qps_thread` makes. -/
inductive Caller where
  | webserver (q : Call)
  | keeper (n : ℕ)
deriving DecidableEq

def Caller.request? : Caller → Option Call
  | .webserver q => some q
  | .keeper _ => none

inductive KeeperThread where
  | main
  | qps
  | socket (c : ℕ)
deriving DecidableEq

/-- Where a `socket_thread` is outside of the mutex: it reads a request, or it has read the
bytes of one, `whole` if they are a whole frame, or it writes a reply. -/
inductive SocketPc where
  | reading
  | commanding (whole : Bool) (bytes : List (UInt8 × Call))
  | writing (rest : List (UInt8 × Option Call))
  | ended

structure System where
  client : LogAnaly
  keeper : Shared KeeperThread HouseKeeper Caller KeeperCall (List UInt8) KeeperPc
  sockets : ℕ → SocketPc
  calls : ℕ
  history : List (Mark Caller KeeperCall (List UInt8))

/-- The log server is up, with the mutex that `house_keeper_create` initialises, and the webserver
has connected to it. -/
def systemCreate (memory : ViewTreeMemory) : System :=
  ⟨logAnalyCreate,sharedCreate (houseKeeperCreate memory),fun _ => .reading,0,[]⟩

inductive SystemEvent where
  | client (e : ClientEvent)
  /-- `socket_thread` reads a request; `temp` is what is in its array before. -/
  | read (c : ℕ) (temp : List UInt8)
  | write (c k : ℕ)
  /-- A read fails on a connection that the webserver has closed. -/
  | stop (c : ℕ)
  | log (r : LogRecord)
  | tick
  | mutex (e : MutexEvent KeeperThread KeeperMemory)

/-- For a new record malloc finds memory, or does not, as `supply` says. -/
def SystemEvent.Supplied (supply : Bool → Prop) : SystemEvent → Prop
  | .mutex e => e.Meets fun memory => supply memory.log.stats
  | _ => True

namespace LogAnaly

/-- `_reconncet` has closed the connection. -/
def Closed (s : LogAnaly) (c : ℕ) : Prop := c < s.opened ∧ s.sock ≠ some c

instance (s : LogAnaly) (c : ℕ) : Decidable (s.Closed c) := inferInstanceAs (Decidable (_ ∧ _))

/-- What an event of the webserver means for the calls: one is made, or one has its reply. -/
def marks (s : LogAnaly) : ClientEvent → List (Mark Caller KeeperCall (List UInt8))
  | .call _ request => [.call (.webserver ⟨s.calls,request⟩) (.command request)]
  | .parse t _ =>
    match s.threads t with
    | .readBuf q _ _ buf => [.ret (.webserver q) (buf.map Prod.fst)]
    | _ => []
  | _ => []

end LogAnaly

/-- The length of a frame whose header is read over what is in the array. -/
def prefixLen (temp : List UInt8) (stream : List (UInt8 × Call)) : ℕ :=
  let header := (stream.take 4).map Prod.fst
  ofBeBytes ((header ++ temp.drop header.length).take 4)

/-- What a frame carries. -/
def payload (bytes : List (UInt8 × Call)) : List UInt8 := (bytes.drop 4).map Prod.fst

/-- The call that a request is read for. -/
def requestOwner (whole : Bool) (bytes : List (UInt8 × Call)) : Option Call := if whole then frameOwner bytes else none

namespace System

def mark (s : System) (marks : List (Mark Caller KeeperCall (List UInt8))) : System := { s with history := s.history ++ marks }

def setSocket (s : System) (c : ℕ) (pc : SocketPc) : System := { s with sockets := Function.update s.sockets c pc }

def setConnection (s : System) (c : ℕ) (conn : Connection) : System :=
  { s with client := { s.client with connections := Function.update s.client.connections c conn } }

/-- One of the log server's own threads calls a function that locks the mutex. -/
def ask (s : System) (t : KeeperThread) (call : KeeperCall) : Option System :=
  match s.keeper.threads t with
  | .outside =>
    some ({ s with keeper := s.keeper.ask t (some (.keeper s.calls)) call, calls := s.calls + 1 }.mark
      [.call (.keeper s.calls) call])
  | _ => none

/-- The last access of an operation. A socket thread has the reply in its hands. -/
def finish (s : System) (t : KeeperThread) (e : Effect Caller KeeperCall (List UInt8)) : System :=
  match t with
  | .socket c =>
    let q := e.id.bind Caller.request?
    ({ s with client := { s.client with answers := s.client.answers ++ [(q,e.result)] } }.setSocket c
      (.writing (replyTo q e.result))).mark [.effect e]
  | .main => s.mark [.effect e]
  | .qps => s.mark [.effect e]

/-- What a step of the keeper means beside the keeper, with the places of the thread before and behind it. -/
def settle (s : System) (t : KeeperThread) (before after : Place Caller KeeperCall (List UInt8) KeeperPc) : System :=
  match before, after with
  | .inside id i _, .leaving _ r => s.finish t ⟨id,i,r⟩
  | .leaving (some (.keeper n)) r, .outside => s.mark [.ret (.keeper n) r]
  | _, _ => s

end System

def MutexEvent.thread {θ ω : Type*} : MutexEvent θ ω → θ
  | .lock t => t
  | .access t _ => t
  | .unlock t => t

section Step
variable (unpack : List UInt8 → Option StatsRequest) (pack : Reply → List UInt8)

def systemStep (s : System) : SystemEvent → Option System
  | .client e =>
    match e with
    | .answer _ _ => none
    | e => (clientStep s.client e).map fun client => { s with client := client }.mark (s.client.marks e)
  | .read c temp =>
    match s.sockets c with
    | .reading =>
      let stream := (s.client.connections c).toServer
      let n := 4 + prefixLen temp stream
      let whole := 4 ≤ stream.length ∧ n ≤ stream.length
      if whole ∨ s.client.Closed c then
        if stream = [] then some (s.setSocket c .ended)
        else
          let bytes := stream.take n
          if (unpack (payload bytes)).isNone then none
          else
            let conn := { s.client.connections c with toServer := stream.drop n }
            some { (s.setConnection c conn).setSocket c (.commanding (decide whole) bytes) with
              keeper := s.keeper.ask (.socket c) ((requestOwner (decide whole) bytes).map .webserver) (.command (payload bytes)) }
      else none
    | _ => none
  | .write c k =>
    match s.sockets c, s.keeper.threads (.socket c) with
    | .writing rest, .outside =>
      let conn := { s.client.connections c with fromServer := (s.client.connections c).fromServer ++ rest.take k }
      some ((s.setConnection c conn).setSocket c (if rest.drop k = [] then .reading else .writing (rest.drop k)))
    | _, _ => none
  | .stop c =>
    match s.sockets c with
    | .reading => if s.client.Closed c then some (s.setSocket c .ended) else none
    | _ => none
  | .log r => s.ask .main (.log r)
  | .tick => s.ask .qps .tick
  | .mutex e => (mutexStep (keeperAccesses unpack pack) s.keeper e).map fun keeper =>
      { s with keeper := keeper }.settle e.thread (s.keeper.threads e.thread) (keeper.threads e.thread)

end Step

/-! ## The webserver on its own -/

def SocketPc.taken : SocketPc → List (UInt8 × Call)
  | .commanding _ bytes => bytes
  | _ => []

def SocketPc.unwritten : SocketPc → List (UInt8 × Option Call)
  | .writing rest => rest
  | _ => []

namespace LogAnaly

/-- The object with more on its way from and to the webserver. -/
def under (s : LogAnaly) (before : ℕ → List (UInt8 × Call)) (behind : ℕ → List (UInt8 × Option Call)) : LogAnaly :=
  { s with connections := fun c => ⟨before c ++ (s.connections c).toServer,(s.connections c).fromServer ++ behind c⟩ }

section Under
variable {s s' : LogAnaly} {t c k : ℕ} {pc : Pc} {e : ClientEvent}
variable {before : ℕ → List (UInt8 × Call)} {behind : ℕ → List (UInt8 × Option Call)}

theorem under_send (bytes : List (UInt8 × Call)) :
    (s.send c bytes).under before behind = (s.under before behind).send c bytes := by
  have hconn : ((s.send c bytes).under before behind).connections = ((s.under before behind).send c bytes).connections := by
    funext c'
    by_cases hc : c' = c
    · subst hc
      simp only [under, send, Function.update_self, List.append_assoc]
    · simp only [under, send, Function.update_of_ne hc]
  rw [under, send, LogAnaly.mk.injEq]
  exact ⟨rfl,rfl,rfl,rfl,hconn,rfl,rfl,rfl,rfl⟩

theorem under_receive (hk : k ≤ (s.connections c).fromServer.length) :
    (s.receive c k).under before behind = (s.under before behind).receive c k := by
  have hconn : ((s.receive c k).under before behind).connections = ((s.under before behind).receive c k).connections := by
    funext c'
    by_cases hc : c' = c
    · subst hc
      simp only [under, receive, Function.update_self, List.drop_append_of_le_length hk]
    · simp only [under, receive, Function.update_of_ne hc]
  rw [under, receive, LogAnaly.mk.injEq]
  exact ⟨rfl,rfl,rfl,rfl,hconn,rfl,rfl,rfl,rfl⟩

theorem under_got (hk : k ≤ (s.connections c).fromServer.length) :
    ((s.under before behind).connections c).fromServer.take k = (s.connections c).fromServer.take k :=
  List.take_append_of_le_length hk

theorem le_of_got (hgot : ¬((s.connections c).fromServer.take k).length < k) : k ≤ (s.connections c).fromServer.length := by
  rw [List.length_take] at hgot
  omega

/-- A thread does not see what is still to come. -/
theorem threadStep_under (hr : threadStep s t pc e = some s') :
    threadStep (s.under before behind) t pc e = some (s'.under before behind) := by
  cases pc with
  | outside =>
    cases e with
    | call u request =>
      obtain rfl := Option.some_inj.mp hr
      rfl
    | _ => cases hr
  | waiting q =>
    cases e with
    | acquire u =>
      simp only [threadStep] at hr ⊢
      split at hr
      · cases hr
      · rename_i hfree
        obtain rfl := Option.some_inj.mp hr
        exact if_neg hfree
    | _ => cases hr
  | reconnect q retryCount =>
    cases e with
    | retry u fresh connecting =>
      obtain rfl := Option.some_inj.mp hr
      rfl
    | _ => cases hr
  | sendSize q =>
    cases e with
    | sendSize u =>
      obtain ⟨c,hc,hr⟩ := Option.bind_eq_some_iff.mp hr
      have hc' : (s.under before behind).sock = some c := hc
      simp only [threadStep, hc', Option.bind_eq_bind, Option.bind_some]
      split at hr
      · rename_i hlen
        obtain rfl := Option.some_inj.mp hr
        rw [if_pos hlen, ← under_send]
        rfl
      · cases hr
    | fail u k =>
      obtain rfl := Option.some_inj.mp hr
      simp only [threadStep]
      cases hc : s.sock with
      | none =>
        have hc' : (s.under before behind).sock = none := hc
        simp only [hc']
        rfl
      | some c =>
        have hc' : (s.under before behind).sock = some c := hc
        simp only [hc', ← under_send]
        rfl
    | _ => cases hr
  | sendBody q =>
    cases e with
    | sendBody u k =>
      obtain ⟨c,hc,hr⟩ := Option.bind_eq_some_iff.mp hr
      obtain rfl := Option.some_inj.mp hr
      have hc' : (s.under before behind).sock = some c := hc
      simp only [threadStep, hc', Option.bind_eq_bind, Option.bind_some, ← under_send]
      rfl
    | fail u k =>
      obtain rfl := Option.some_inj.mp hr
      simp only [threadStep]
      cases hc : s.sock with
      | none =>
        have hc' : (s.under before behind).sock = none := hc
        simp only [hc']
        rfl
      | some c =>
        have hc' : (s.under before behind).sock = some c := hc
        simp only [hc', ← under_send]
        rfl
    | _ => cases hr
  | readSize q =>
    cases e with
    | readSize u k =>
      obtain ⟨c,hc,hr⟩ := Option.bind_eq_some_iff.mp hr
      have hc' : (s.under before behind).sock = some c := hc
      by_cases hk : k = 0 ∨ 4 < k ∨ ((s.connections c).fromServer.take k).length < k
      · simp only [if_pos hk] at hr
        cases hr
      · simp only [if_neg hk] at hr
        have hle := le_of_got (not_or.mp (not_or.mp hk).2).2
        simp only [threadStep, hc', Option.bind_eq_bind, Option.bind_some, under_got hle, if_neg hk, ← under_receive hle]
        by_cases hshort : k < 4
        · rw [if_pos hshort] at hr ⊢
          obtain rfl := Option.some_inj.mp hr
          rfl
        · rw [if_neg hshort] at hr ⊢
          obtain rfl := Option.some_inj.mp hr
          rfl
    | fail u k =>
      obtain rfl := Option.some_inj.mp hr
      rfl
    | _ => cases hr
  | readBuf q header n buf =>
    cases e with
    | readBuf u k =>
      obtain ⟨c,hc,hr⟩ := Option.bind_eq_some_iff.mp hr
      have hc' : (s.under before behind).sock = some c := hc
      by_cases hk : k = 0 ∨ n < k ∨ ((s.connections c).fromServer.take k).length < k
      · simp only [if_pos hk] at hr
        cases hr
      · simp only [if_neg hk] at hr
        have hle := le_of_got (not_or.mp (not_or.mp hk).2).2
        obtain rfl := Option.some_inj.mp hr
        simp only [threadStep, hc', Option.bind_eq_bind, Option.bind_some, under_got hle, if_neg hk, ← under_receive hle]
        rfl
    | parse u ok =>
      simp only [threadStep] at hr ⊢
      split at hr
      · cases hr
      · rename_i hn
        obtain rfl := Option.some_inj.mp hr
        exact if_neg hn
    | fail u k =>
      obtain rfl := Option.some_inj.mp hr
      rfl
    | _ => cases hr
  | leave q =>
    cases e with
    | release u =>
      obtain rfl := Option.some_inj.mp hr
      rfl
    | _ => cases hr

end Under

end LogAnaly

/-- The object as if a socket thread read a request and wrote its reply at the moment of
the last access to the keeper. -/
def System.logAnaly (s : System) : LogAnaly :=
  s.client.under (fun c => (s.sockets c).taken) fun c => (s.sockets c).unwritten

end LogStats
