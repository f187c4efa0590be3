import LogStats.Library.Frame
import LogStats.Library.Run
import Mathlib.Logic.Function.Basic

/-! # Requests and replies, logser_client.py

Threads share one `Log_analy` object. What the server and the network do is up to the
events: the server answers the frames of a connection in order, a call of `recv` gives any
first part of what has been answered, and any call on the socket may raise an exception
instead; the print and the flush in the except clauses do not. Every byte carries the call
of `_send_request` that it is sent for, or that it answers.
-/
namespace LogStats

/-- A call of `_send_request` and the request that SerializeToString gives. -/
structure Call where
  id : ℕ
  request : List UInt8
deriving DecidableEq

/-- What one end has sent and the other has not received yet. -/
structure Connection where
  toServer : List (UInt8 × Call)
  fromServer : List (UInt8 × Option Call)

def Connection.empty : Connection := ⟨[],[]⟩

def Call.sent (q : Call) (bytes : List UInt8) : List (UInt8 × Call) := bytes.map fun b => (b,q)

def replyTo (q : Option Call) (payload : List UInt8) : List (UInt8 × Option Call) := (frame payload).map fun b => (b,q)

/-- The call that these bytes are the whole frame of. -/
def frameOwner (bytes : List (UInt8 × Call)) : Option Call :=
  bytes.head?.bind fun (_,q) => if bytes = q.sent (frame q.request) then some q else none

/-- Where a thread is in `_send_request`. -/
inductive Pc where
  | outside
  | waiting (q : Call)
  | reconnect (q : Call) (retryCount : ℕ)
  | sendSize (q : Call)
  | sendBody (q : Call)
  | readSize (q : Call)
  | readBuf (q : Call) (header : List (UInt8 × Option Call)) (n : ℕ) (buf : List (UInt8 × Option Call))
  | leave (q : Call)

/-- The `Log_analy` object, its threads and the connections it has opened, with the calls
made, the answers given and the reply frames that calls have read. -/
structure LogAnaly where
  sock : Option ℕ
  connecting : Bool
  mutex : Option ℕ
  threads : ℕ → Pc
  connections : ℕ → Connection
  opened : ℕ
  calls : ℕ
  answers : List (Option Call × List UInt8)
  returned : List (Call × List (UInt8 × Option Call))

def logAnalyCreate : LogAnaly := ⟨some 0,true,none,fun _ => .outside,fun _ => .empty,1,0,[],[]⟩

inductive ClientEvent where
  | call (t : ℕ) (request : List UInt8)
  | acquire (t : ℕ)
  /-- A pass of the loop in `_reconncet`: whether it leaves a new connection, and `connecting`. -/
  | retry (t : ℕ) (fresh connecting : Bool)
  | sendSize (t : ℕ)
  /-- `send` may take the first `k` bytes only. -/
  | sendBody (t k : ℕ)
  | readSize (t k : ℕ)
  | readBuf (t k : ℕ)
  | parse (t : ℕ) (ok : Bool)
  /-- An exception, with `k` bytes of what is being sent gone out. -/
  | fail (t k : ℕ)
  | release (t : ℕ)
  | answer (c : ℕ) (reply : List UInt8)

namespace LogAnaly

def goto (s : LogAnaly) (t : ℕ) (pc : Pc) : LogAnaly := { s with threads := Function.update s.threads t pc }

def send (s : LogAnaly) (c : ℕ) (bytes : List (UInt8 × Call)) : LogAnaly :=
  let conn := s.connections c
  { s with connections := Function.update s.connections c { conn with toServer := conn.toServer ++ bytes } }

/-- The bytes left on a connection when `k` of them were received. -/
def receive (s : LogAnaly) (c k : ℕ) : LogAnaly :=
  let conn := s.connections c
  { s with connections := Function.update s.connections c { conn with fromServer := conn.fromServer.drop k } }

def disconnect (s : LogAnaly) : LogAnaly := { s with connecting := false }

/-- The server reads a frame and answers it. -/
def answer (s : LogAnaly) (c n : ℕ) (reply : List UInt8) : LogAnaly :=
  let conn := s.connections c
  let q := frameOwner (conn.toServer.take (4 + n))
  { s with
    connections := Function.update s.connections c
      ⟨conn.toServer.drop (4 + n),conn.fromServer ++ replyTo q reply⟩
    answers := s.answers ++ [(q,reply)] }

end LogAnaly

def frameLen (bytes : List (UInt8 × Call)) : ℕ := ofBeBytes ((bytes.take 4).map Prod.fst)

/-- What a thread does next, for the events of threads. -/
def threadStep (s : LogAnaly) (t : ℕ) : Pc → ClientEvent → Option LogAnaly
  | .outside, .call _ request => some ({ s with calls := s.calls + 1 }.goto t (.waiting ⟨s.calls,request⟩))
  | .waiting q, .acquire _ =>
    if s.mutex.isSome then none
    else some ({ s with mutex := some t }.goto t (if s.connecting then .sendSize q else .reconnect q 0))
  | .reconnect q retryCount, .retry _ fresh connecting =>
    some ({ s with
      sock := if fresh then some s.opened else none
      opened := if fresh then s.opened + 1 else s.opened
      connecting := connecting }.goto t
        (if connecting ∨ retryCount + 1 = 3 then .sendSize q else .reconnect q (retryCount + 1)))
  | .sendSize q, .sendSize _ => do
    let c ← s.sock
    if q.request.length < 2 ^ 32 then some ((s.send c (q.sent (beBytes q.request.length))).goto t (.sendBody q)) else none
  | .sendBody q, .sendBody _ k => do
    let c ← s.sock
    some ((s.send c (q.sent (q.request.take k))).goto t (.readSize q))
  | .readSize q, .readSize _ k => do
    let c ← s.sock
    let got := (s.connections c).fromServer.take k
    if k = 0 ∨ 4 < k ∨ got.length < k then none
    else if k < 4 then some ((s.receive c k).disconnect.goto t (.leave q))
    else some ((s.receive c k).goto t (.readBuf q got (ofBeBytes (got.map Prod.fst)) []))
  | .readBuf q header n buf, .readBuf _ k => do
    let c ← s.sock
    let got := (s.connections c).fromServer.take k
    if k = 0 ∨ n < k ∨ got.length < k then none
    else some ((s.receive c k).goto t (.readBuf q header (n - k) (buf ++ got)))
  | .readBuf q header n buf, .parse _ ok =>
    if n ≠ 0 then none
    else some ({ s with
      connecting := s.connecting && ok
      returned := s.returned ++ [(q,header ++ buf)] }.goto t (.leave q))
  | .sendSize q, .fail _ k =>
    some ((match s.sock with
      | none => s
      | some c => s.send c (q.sent ((beBytes q.request.length).take k))).disconnect.goto t (.leave q))
  | .sendBody q, .fail _ k =>
    some ((match s.sock with
      | none => s
      | some c => s.send c (q.sent (q.request.take k))).disconnect.goto t (.leave q))
  | .readSize q, .fail _ _ => some (s.disconnect.goto t (.leave q))
  | .readBuf q _ _ _, .fail _ _ => some (s.disconnect.goto t (.leave q))
  | .leave _, .release _ => some ({ s with mutex := none }.goto t .outside)
  | _, _ => none

def clientStep (s : LogAnaly) (e : ClientEvent) : Option LogAnaly :=
  match e with
  | .answer c reply =>
    let bytes := (s.connections c).toServer
    if bytes.length < 4 ∨ bytes.length < 4 + frameLen bytes ∨ 2 ^ 32 ≤ reply.length then none
    else some (s.answer c (frameLen bytes) reply)
  | .call t _ | .acquire t | .retry t _ _ | .sendSize t | .sendBody t _ | .readSize t _ | .readBuf t _ | .parse t _
  | .fail t _ | .release t => threadStep s t (s.threads t) e

/-! ## What is on the current connection -/

def Pc.Free : Pc → Prop
  | .outside => True
  | .waiting _ => True
  | _ => False

namespace LogAnaly

/-- The server has sent the reply to `q`, and these are its bytes. -/
def Answered (s : LogAnaly) (q : Call) (bytes : List (UInt8 × Option Call)) : Prop :=
  ∃ payload, (some q,payload) ∈ s.answers ∧ payload.length < 2 ^ 32 ∧ bytes = replyTo (some q) payload

/-- Nothing was asked on the current connection that is not answered, and nothing is unread. -/
def Clean (s : LogAnaly) : Prop := ∀ c, s.sock = some c → s.connections c = .empty

/-- The server has the first `k` bytes of the frame of `q`. -/
def Asked (s : LogAnaly) (q : Call) (c k : ℕ) : Prop :=
  q.request.length < 2 ^ 32 ∧ s.connections c = ⟨q.sent ((frame q.request).take k),[]⟩

def Replied (s : LogAnaly) (q : Call) (c : ℕ) : Prop :=
  (s.connections c).toServer = [] ∧ s.Answered q (s.connections c).fromServer

/-- What the holder of the mutex can rely on. -/
def Stage (s : LogAnaly) : Pc → Prop
  | .outside => False
  | .waiting _ => False
  | .reconnect _ _ => s.connecting = false
  | .sendSize _ => s.Clean
  | .sendBody q => ∃ c, s.sock = some c ∧ (s.Asked q c 4 ∨ (q.request = [] ∧ s.Replied q c))
  | .readSize q => ∃ c, s.sock = some c ∧ ((∃ k, s.Asked q c k) ∨ s.Replied q c)
  | .readBuf q header n buf => ∃ c, s.sock = some c ∧ (s.connections c).toServer = [] ∧
      s.Answered q (header ++ buf ++ (s.connections c).fromServer) ∧ header.length = 4 ∧
      n + buf.length + 4 = (header ++ buf ++ (s.connections c).fromServer).length
  | .leave _ => s.connecting = true → s.Clean

structure Inv (s : LogAnaly) : Prop where
  unopened : ∀ c, s.opened ≤ c → s.connections c = .empty
  sock_lt : ∀ c, s.sock = some c → c < s.opened
  excluded : ∀ t, s.mutex ≠ some t → (s.threads t).Free
  idle : s.mutex = none → s.connecting = true → s.Clean
  stage : ∀ t, s.mutex = some t → s.Stage (s.threads t)
  paired : ∀ r ∈ s.returned, s.Answered r.1 r.2

end LogAnaly

/-! ## Frames on a connection -/

section Frames
variable {q : Call} {k : ℕ} {bytes : List (UInt8 × Call)}

theorem sent_take (q : Call) (bytes : List UInt8) (k : ℕ) : q.sent (bytes.take k) = (q.sent bytes).take k :=
  List.map_take

@[simp] theorem length_sent (q : Call) (bytes : List UInt8) : (q.sent bytes).length = bytes.length := List.length_map _

@[simp] theorem length_frame (payload : List UInt8) : (frame payload).length = 4 + payload.length := by simp [frame]

/-- What the server takes for a frame of a connection on which one call has sent its bytes
is the whole frame of the call. -/
theorem asked_frame (hlen : q.request.length < 2 ^ 32) (hk : bytes = q.sent ((frame q.request).take k))
    (h4 : 4 ≤ bytes.length) (hall : 4 + frameLen bytes ≤ bytes.length) :
    bytes.take (4 + frameLen bytes) = q.sent (frame q.request) ∧ bytes.drop (4 + frameLen bytes) = [] := by
  have hlength : bytes.length = min k (4 + q.request.length) := by rw [hk, length_sent, List.length_take, length_frame]
  have hmin : min 4 k = 4 := by omega
  have hhead : (bytes.take 4).map Prod.fst = beBytes q.request.length := by
    rw [hk, ← sent_take, List.take_take, hmin, Call.sent, List.map_map]
    simp [Function.comp_def, frame]
  have hn : frameLen bytes = q.request.length := by rw [frameLen, hhead, ofBeBytes_beBytes hlen]
  rw [hn] at hall ⊢
  have hfull : bytes = q.sent (frame q.request) := by
    rw [hk, List.take_of_length_le]
    rw [length_frame]
    omega
  refine ⟨?_,List.drop_eq_nil_of_le (by omega)⟩
  rw [List.take_of_length_le (by omega), hfull]

theorem frameOwner_sent (q : Call) : frameOwner (q.sent (frame q.request)) = some q := by
  have hhead : (q.sent (frame q.request)).head?.map Prod.snd = some q := by
    have hne : frame q.request ≠ [] := by
      rw [← List.length_pos_iff, length_frame]
      omega
    obtain ⟨b,rest,he⟩ := List.exists_cons_of_ne_nil hne
    rw [he]
    rfl
  obtain ⟨⟨b,q'⟩,hb,hq⟩ := Option.map_eq_some_iff.mp hhead
  obtain rfl : q' = q := hq
  rw [frameOwner, hb]
  exact if_pos rfl

end Frames

/-! ## Steps -/

namespace LogAnaly

section Steps
variable {s s' : LogAnaly} {t c k : ℕ} {pc : Pc} {q : Call} {bytes : List (UInt8 × Call)}
variable {bytes' : List (UInt8 × Option Call)}

theorem create_inv : logAnalyCreate.Inv where
  unopened _ _ := rfl
  sock_lt c hc := by
    obtain rfl : 0 = c := Option.some_inj.mp hc
    exact Nat.one_pos
  excluded _ _ := trivial
  idle _ _ _ _ := rfl
  stage _ ht := by cases ht
  paired r hr := absurd hr List.not_mem_nil

/-- A step of the thread that has the mutex. -/
theorem Inv.goto (h : s.Inv) (ht : s.mutex = some t) (hthreads : s'.threads = s.threads) (hmutex : s'.mutex = s.mutex)
    (hun : ∀ c, s'.opened ≤ c → s'.connections c = .empty) (hsock : ∀ c, s'.sock = some c → c < s'.opened)
    (hpaired : ∀ r ∈ s'.returned, s'.Answered r.1 r.2) (hstage : s'.Stage pc) : (s'.goto t pc).Inv where
  unopened := hun
  sock_lt := hsock
  excluded u hu := by
    have hut : u ≠ t := fun he => hu (by rw [he]; exact hmutex.trans ht)
    change (Function.update s'.threads t pc u).Free
    rw [Function.update_of_ne hut, hthreads]
    exact h.excluded u (fun he => hu (hmutex.trans he))
  idle hno := by
    have hsome : s'.mutex = some t := hmutex.trans ht
    rw [show (s'.goto t pc).mutex = s'.mutex from rfl, hsome] at hno
    cases hno
  stage u hu := by
    obtain rfl : t = u := Option.some_inj.mp ((hmutex.trans ht).symm.trans hu)
    change s'.Stage (Function.update s'.threads t pc t)
    rw [Function.update_self]
    exact hstage
  paired := hpaired

theorem Inv.lt_opened (h : s.Inv) (hc : s.sock = some c) {x : Connection} (e : ℕ) (he : s.opened ≤ e) :
    Function.update s.connections c x e = .empty := by
  have hlt := h.sock_lt c hc
  rw [Function.update_of_ne (by omega)]
  exact h.unopened e he

/-- The holder sends something on the current connection. -/
theorem Inv.sent (h : s.Inv) (ht : s.mutex = some t) (hc : s.sock = some c) (hstage : (s.send c bytes).Stage pc) :
    ((s.send c bytes).goto t pc).Inv :=
  h.goto ht rfl rfl (h.lt_opened hc) h.sock_lt h.paired hstage

theorem Inv.received (h : s.Inv) (ht : s.mutex = some t) (hc : s.sock = some c) (hstage : (s.receive c k).Stage pc) :
    ((s.receive c k).goto t pc).Inv :=
  h.goto ht rfl rfl (h.lt_opened hc) h.sock_lt h.paired hstage

/-- Whatever went out before an exception, the connection is not used again. -/
theorem Inv.failed (h : s.Inv) (ht : s.mutex = some t) (bytes : List (UInt8 × Call)) :
    ((match s.sock with
      | none => s
      | some c => s.send c bytes).disconnect.goto t (.leave q)).Inv := by
  cases hc : s.sock with
  | none => exact h.goto ht rfl rfl h.unopened h.sock_lt h.paired (fun hno => by cases hno)
  | some c => exact h.goto ht rfl rfl (h.lt_opened hc) h.sock_lt h.paired (fun hno => by cases hno)

/-- A step of a thread that neither has the mutex nor takes it. -/
theorem Inv.aside (h : s.Inv) (hbefore : (s.threads t).Free) (hpc : pc.Free) (calls : ℕ) :
    ({ s with calls := calls }.goto t pc).Inv where
  unopened := h.unopened
  sock_lt := h.sock_lt
  excluded u hu := by
    by_cases hut : u = t
    · rw [hut]
      change (Function.update s.threads t pc t).Free
      rwa [Function.update_self]
    · change (Function.update s.threads t pc u).Free
      rw [Function.update_of_ne hut]
      exact h.excluded u hu
  idle := h.idle
  stage u hu := by
    have hstage := h.stage u hu
    have hut : u ≠ t := by
      rintro rfl
      cases hp : s.threads u <;> rw [hp] at hstage hbefore
      case outside => exact hstage
      case waiting => exact hstage
      all_goals exact hbefore
    change s.Stage (Function.update s.threads t pc u)
    rwa [Function.update_of_ne hut]
  paired := h.paired

theorem Inv.acquired (h : s.Inv) (hno : s.mutex = none) (q : Call) :
    ({ s with mutex := some t }.goto t (if s.connecting then .sendSize q else .reconnect q 0)).Inv where
  unopened := h.unopened
  sock_lt := h.sock_lt
  excluded u hu := by
    have hut : u ≠ t := fun he => hu (by rw [he]; rfl)
    change (Function.update s.threads t _ u).Free
    rw [Function.update_of_ne hut]
    exact h.excluded u (by rw [hno]; exact fun he => by cases he)
  idle hmutex := by cases hmutex
  stage u hu := by
    obtain rfl : t = u := Option.some_inj.mp hu
    change s.Stage (Function.update s.threads t _ t)
    rw [Function.update_self]
    split
    · rename_i hconn
      exact h.idle hno hconn
    · rename_i hconn
      exact Bool.eq_false_of_not_eq_true hconn
  paired := h.paired

theorem Inv.released (h : s.Inv) (ht : s.mutex = some t) (hpc : s.threads t = .leave q) :
    ({ s with mutex := none }.goto t .outside).Inv where
  unopened := h.unopened
  sock_lt := h.sock_lt
  excluded u _ := by
    by_cases hut : u = t
    · rw [hut]
      change (Function.update s.threads t .outside t).Free
      rw [Function.update_self]
      trivial
    · change (Function.update s.threads t .outside u).Free
      rw [Function.update_of_ne hut]
      exact h.excluded u (fun he => hut (Option.some_inj.mp (he.symm.trans ht)))
  idle _ := by
    have hstage := h.stage t ht
    rw [hpc] at hstage
    exact hstage
  stage u hu := by cases hu
  paired := h.paired

/-- A pass of `_reconncet` leaves a new connection or none. -/
theorem Inv.retried (h : s.Inv) (ht : s.mutex = some t) (q : Call) (retryCount : ℕ) (fresh connecting : Bool) :
    ({ s with
      sock := if fresh then some s.opened else none
      opened := if fresh then s.opened + 1 else s.opened
      connecting := connecting }.goto t
        (if connecting ∨ retryCount + 1 = 3 then .sendSize q else .reconnect q (retryCount + 1))).Inv := by
  refine h.goto ht rfl rfl (fun c hc => ?_) (fun c hc => ?_) h.paired ?_
  · refine h.unopened c (le_trans ?_ hc)
    cases fresh <;> simp
  · cases fresh with
    | false => cases hc
    | true =>
      obtain rfl : s.opened = c := Option.some_inj.mp hc
      exact Nat.lt_succ_self _
  · by_cases hnext : connecting = true ∨ retryCount + 1 = 3
    · rw [if_pos hnext]
      intro c hc
      cases fresh with
      | false => cases hc
      | true =>
        obtain rfl : s.opened = c := Option.some_inj.mp hc
        exact h.unopened _ le_rfl
    · rw [if_neg hnext]
      exact Bool.eq_false_of_not_eq_true fun hconn => hnext (Or.inl hconn)

theorem Inv.sentSize (h : s.Inv) (ht : s.mutex = some t) (hc : s.sock = some c) (hclean : s.Clean)
    (hlen : q.request.length < 2 ^ 32) :
    ((s.send c (q.sent (beBytes q.request.length))).goto t (.sendBody q)).Inv := by
  refine h.sent ht hc ⟨c,hc,Or.inl ⟨hlen,?_⟩⟩
  change Function.update s.connections c _ c = _
  rw [Function.update_self, hclean c hc]
  simp [Connection.empty, frame]

theorem Inv.sentBody (h : s.Inv) (ht : s.mutex = some t) (hc : s.sock = some c)
    (hsent : s.Asked q c 4 ∨ (q.request = [] ∧ s.Replied q c)) (k : ℕ) :
    ((s.send c (q.sent (q.request.take k))).goto t (.readSize q)).Inv := by
  refine h.sent ht hc ⟨c,hc,?_⟩
  rcases hsent with ⟨hlen,hconn⟩ | ⟨hnil,hto,hfrom⟩
  · refine Or.inl ⟨4 + k,hlen,?_⟩
    change Function.update s.connections c _ c = _
    rw [Function.update_self, hconn]
    have htake : (frame q.request).take (4 + k) = (frame q.request).take 4 ++ q.request.take k := by
      simp [frame, List.take_append]
    rw [htake, Call.sent, Call.sent, Call.sent, List.map_append]
  · have hsame : s.send c (q.sent (q.request.take k)) = s := by
      rw [hnil, send]
      simp [Call.sent]
    rw [hsame]
    exact Or.inr ⟨hto,hfrom⟩

/-- Only a connection with the reply has bytes to receive. -/
theorem replied_of_received (hgot : k ≠ 0 ∧ ¬((s.connections c).fromServer.take k).length < k)
    (hsent : (∃ j, s.Asked q c j) ∨ s.Replied q c) : s.Replied q c := by
  rcases hsent with ⟨j,-,hconn⟩ | hreplied
  · rw [hconn, List.take_nil, List.length_nil] at hgot
    omega
  · exact hreplied

theorem Inv.readHeader (h : s.Inv) (ht : s.mutex = some t) (hc : s.sock = some c) (hreplied : s.Replied q c) :
    ((s.receive c 4).goto t (.readBuf q ((s.connections c).fromServer.take 4)
      (ofBeBytes (((s.connections c).fromServer.take 4).map Prod.fst)) [])).Inv := by
  obtain ⟨hto,payload,hmem,hlen,hfrom⟩ := hreplied
  have hconn : (s.receive c 4).connections c = { s.connections c with fromServer := (s.connections c).fromServer.drop 4 } :=
    Function.update_self _ _ _
  have hhead : ((s.connections c).fromServer.take 4).map Prod.fst = beBytes payload.length := by
    rw [hfrom, replyTo, ← List.map_take, List.map_map]
    simp [Function.comp_def, frame]
  have hlength : (s.connections c).fromServer.length = 4 + payload.length := by simp [hfrom, replyTo]
  refine h.received ht hc ⟨c,hc,?_,⟨payload,hmem,hlen,?_⟩,?_,?_⟩
  · rw [hconn]
    exact hto
  · rw [hconn, List.append_nil, List.take_append_drop]
    exact hfrom
  · rw [List.length_take, hlength]
    omega
  · rw [hconn, hhead, ofBeBytes_beBytes hlen, List.append_nil, List.take_append_drop, hlength]
    simp only [List.length_nil]
    omega

theorem Inv.readMore (h : s.Inv) (ht : s.mutex = some t) {header buf : List (UInt8 × Option Call)} {n : ℕ}
    (hc : s.sock = some c) (hstage : s.Stage (.readBuf q header n buf)) (hk : k ≤ n)
    (hgot : ¬((s.connections c).fromServer.take k).length < k) :
    ((s.receive c k).goto t (.readBuf q header (n - k) (buf ++ (s.connections c).fromServer.take k))).Inv := by
  obtain ⟨c',hc',hto,hreply,hheader,hn⟩ := hstage
  obtain rfl : c = c' := Option.some_inj.mp (hc.symm.trans hc')
  have hconn : (s.receive c k).connections c = { s.connections c with fromServer := (s.connections c).fromServer.drop k } :=
    Function.update_self _ _ _
  have hbytes : header ++ (buf ++ (s.connections c).fromServer.take k) ++ ((s.receive c k).connections c).fromServer =
      header ++ buf ++ (s.connections c).fromServer := by
    rw [hconn]
    simp only [List.append_assoc, List.take_append_drop]
  refine h.received ht hc ⟨c,hc,?_,?_,hheader,?_⟩
  · rw [hconn]
    exact hto
  · rw [hbytes]
    exact hreply
  · rw [hbytes, ← hn, List.length_append]
    rw [List.length_take] at hgot ⊢
    omega

/-- A frame that was read to its end is the reply, and leaves nothing behind. -/
theorem Inv.parsed (h : s.Inv) (ht : s.mutex = some t) {header buf : List (UInt8 × Option Call)}
    (hstage : s.Stage (.readBuf q header 0 buf)) (ok : Bool) :
    ({ s with
      connecting := s.connecting && ok
      returned := s.returned ++ [(q,header ++ buf)] }.goto t (.leave q)).Inv := by
  obtain ⟨c,hc,hto,hreply,hheader,hn⟩ := hstage
  have hrest : (s.connections c).fromServer = [] := by
    rw [List.length_append, List.length_append] at hn
    exact List.eq_nil_of_length_eq_zero (by omega)
  rw [hrest, List.append_nil] at hreply
  refine h.goto ht rfl rfl h.unopened h.sock_lt (fun r hr => ?_) (fun _ c' hc' => ?_)
  · rcases List.mem_append.mp hr with hr | hr
    · exact h.paired r hr
    · obtain rfl := List.mem_singleton.mp hr
      exact hreply
  · obtain rfl : c = c' := Option.some_inj.mp (hc.symm.trans hc')
    change s.connections c = .empty
    cases hconn : s.connections c
    rw [hconn] at hto hrest
    obtain rfl : _ = [] := hto
    obtain rfl : _ = [] := hrest
    rfl

/-- A read that fails closes the connection. -/
theorem Inv.abandoned (h : s.Inv) (ht : s.mutex = some t) (q : Call) : (s.disconnect.goto t (.leave q)).Inv :=
  h.goto ht rfl rfl h.unopened h.sock_lt h.paired fun hno => by cases hno

/-! ### The steps of a thread -/

theorem Inv.readSizeStep (h : s.Inv) (ht : s.mutex = some t) {e : ClientEvent} (hstage : s.Stage (.readSize q))
    (hr : threadStep s t (.readSize q) e = some s') : s'.Inv := by
  obtain ⟨c',hc',hsent⟩ := hstage
  cases e with
  | readSize u k =>
    obtain ⟨c,hc,hr⟩ := Option.bind_eq_some_iff.mp hr
    obtain rfl : c' = c := Option.some_inj.mp (hc'.symm.trans hc)
    by_cases hk : k = 0 ∨ 4 < k ∨ ((s.connections c').fromServer.take k).length < k
    · simp only [if_pos hk] at hr
      cases hr
    · simp only [if_neg hk] at hr
      rw [not_or, not_or] at hk
      split at hr
      · obtain rfl := Option.some_inj.mp hr
        exact h.goto ht rfl rfl (h.lt_opened hc) h.sock_lt h.paired (fun hno => by cases hno)
      · obtain rfl : k = 4 := by omega
        obtain rfl := Option.some_inj.mp hr
        exact h.readHeader ht hc (replied_of_received ⟨hk.1,hk.2.2⟩ hsent)
  | fail u k =>
    obtain rfl := Option.some_inj.mp hr
    exact h.abandoned ht q
  | _ => cases hr

theorem Inv.readBufStep (h : s.Inv) (ht : s.mutex = some t) {e : ClientEvent} {header buf : List (UInt8 × Option Call)} {n : ℕ}
    (hstage : s.Stage (.readBuf q header n buf)) (hr : threadStep s t (.readBuf q header n buf) e = some s') : s'.Inv := by
  cases e with
  | readBuf u k =>
    obtain ⟨c,hc,hr⟩ := Option.bind_eq_some_iff.mp hr
    by_cases hk : k = 0 ∨ n < k ∨ ((s.connections c).fromServer.take k).length < k
    · simp only [if_pos hk] at hr
      cases hr
    · simp only [if_neg hk] at hr
      rw [not_or, not_or] at hk
      obtain rfl := Option.some_inj.mp hr
      exact h.readMore ht hc hstage (Nat.not_lt.mp hk.2.1) hk.2.2
  | parse u ok =>
    simp only [LogStats.threadStep] at hr
    split at hr
    · cases hr
    · rename_i hn
      obtain rfl : n = 0 := not_not.mp hn
      obtain rfl := Option.some_inj.mp hr
      exact h.parsed ht hstage ok
  | fail u k =>
    obtain rfl := Option.some_inj.mp hr
    exact h.abandoned ht q
  | _ => cases hr

theorem Inv.threadStep (h : s.Inv) {e : ClientEvent} (hr : threadStep s t (s.threads t) e = some s') : s'.Inv := by
  have hholder : ¬(s.threads t).Free → s.mutex = some t ∧ s.Stage (s.threads t) := fun hbusy => by
    have ht : s.mutex = some t := by
      by_contra hno
      exact hbusy (h.excluded t hno)
    exact ⟨ht,h.stage t ht⟩
  cases hpc : s.threads t with
  | outside =>
    rw [hpc] at hr
    cases e with
    | call u request =>
      obtain rfl := Option.some_inj.mp hr
      exact h.aside (by rw [hpc]; trivial) (show (Pc.waiting ⟨s.calls,request⟩).Free from trivial) _
    | _ => cases hr
  | waiting q =>
    rw [hpc] at hr
    cases e with
    | acquire u =>
      simp only [LogStats.threadStep] at hr
      split at hr
      · cases hr
      · rename_i hfree
        obtain rfl := Option.some_inj.mp hr
        exact h.acquired (Option.not_isSome_iff_eq_none.mp hfree) q
    | _ => cases hr
  | reconnect q retryCount =>
    rw [hpc] at hr hholder
    obtain ⟨ht,-⟩ := hholder id
    cases e with
    | retry u fresh connecting =>
      obtain rfl := Option.some_inj.mp hr
      exact h.retried ht q retryCount fresh connecting
    | _ => cases hr
  | sendSize q =>
    rw [hpc] at hr hholder
    obtain ⟨ht,hclean⟩ := hholder id
    cases e with
    | sendSize u =>
      obtain ⟨c,hc,hr⟩ := Option.bind_eq_some_iff.mp hr
      split at hr
      · rename_i hlen
        obtain rfl := Option.some_inj.mp hr
        exact h.sentSize ht hc hclean hlen
      · cases hr
    | fail u k =>
      obtain rfl := Option.some_inj.mp hr
      exact h.failed ht _
    | _ => cases hr
  | sendBody q =>
    rw [hpc] at hr hholder
    obtain ⟨ht,c',hc',hsent⟩ := hholder id
    cases e with
    | sendBody u k =>
      obtain ⟨c,hc,hr⟩ := Option.bind_eq_some_iff.mp hr
      obtain rfl : c' = c := Option.some_inj.mp (hc'.symm.trans hc)
      obtain rfl := Option.some_inj.mp hr
      exact h.sentBody ht hc hsent k
    | fail u k =>
      obtain rfl := Option.some_inj.mp hr
      exact h.failed ht _
    | _ => cases hr
  | readSize q =>
    rw [hpc] at hr hholder
    obtain ⟨ht,hstage⟩ := hholder id
    exact h.readSizeStep ht hstage hr
  | readBuf q header n buf =>
    rw [hpc] at hr hholder
    obtain ⟨ht,hstage⟩ := hholder id
    exact h.readBufStep ht hstage hr
  | leave q =>
    rw [hpc] at hr hholder
    obtain ⟨ht,-⟩ := hholder id
    cases e with
    | release u =>
      obtain rfl := Option.some_inj.mp hr
      exact h.released ht hpc
    | _ => cases hr

/-! ### The server -/

theorem Answered.mono (h : s.Answered q bytes') (hsub : ∀ x ∈ s.answers, x ∈ s'.answers) : s'.Answered q bytes' := by
  obtain ⟨payload,hmem,hlen,he⟩ := h
  exact ⟨payload,hsub _ hmem,hlen,he⟩

/-- Connections that the server has nothing to read on are as they were. -/
theorem answer_other {n : ℕ} {reply : List UInt8} {d : ℕ} (hne : (s.connections c).toServer ≠ [])
    (hd : (s.connections d).toServer = []) : (s.answer c n reply).connections d = s.connections d := by
  have hdc : d ≠ c := fun he => hne (he ▸ hd)
  exact Function.update_of_ne hdc _ _

theorem Clean.answer {n : ℕ} {reply : List UInt8} (h : s.Clean) (hne : (s.connections c).toServer ≠ []) :
    (s.answer c n reply).Clean := by
  intro d hd
  rw [answer_other hne (by rw [h d hd]; rfl)]
  exact h d hd

theorem Inv.answered (h : s.Inv) {reply : List UInt8} (hlen : reply.length < 2 ^ 32)
    (h4 : 4 ≤ (s.connections c).toServer.length)
    (hall : 4 + frameLen (s.connections c).toServer ≤ (s.connections c).toServer.length) :
    (s.answer c (frameLen (s.connections c).toServer) reply).Inv := by
  have hne : (s.connections c).toServer ≠ [] := by
    rw [← List.length_pos_iff]
    omega
  have hmono : ∀ x ∈ s.answers, x ∈ (s.answer c (frameLen (s.connections c).toServer) reply).answers :=
    fun x hx => List.mem_append_left _ hx
  have hasked : ∀ q k, s.Asked q c k → (s.answer c (frameLen (s.connections c).toServer) reply).Replied q c := by
    rintro q k ⟨hq,hconn⟩
    have hto : (s.connections c).toServer = q.sent ((frame q.request).take k) := by rw [hconn]
    obtain ⟨htake,hdrop⟩ := asked_frame hq hto h4 hall
    have hafter : (s.answer c (frameLen (s.connections c).toServer) reply).connections c = ⟨[],replyTo (some q) reply⟩ := by
      apply (Function.update_self _ _ _).trans
      rw [hdrop, htake, frameOwner_sent, hconn]
      rfl
    refine ⟨by rw [hafter],reply,?_,hlen,by rw [hafter]⟩
    rw [answer, htake, frameOwner_sent]
    exact List.mem_append_right _ (List.mem_singleton_self _)
  have hkept : ∀ q d k, d ≠ c → s.Asked q d k → (s.answer c (frameLen (s.connections c).toServer) reply).Asked q d k :=
    fun q d k hdc hask => ⟨hask.1,(Function.update_of_ne hdc _ _).trans hask.2⟩
  have hreplied : ∀ q d, s.Replied q d → (s.answer c (frameLen (s.connections c).toServer) reply).Replied q d := by
    rintro q d ⟨hto,hfrom⟩
    rw [Replied, answer_other hne hto]
    exact ⟨hto,hfrom.mono hmono⟩
  constructor
  · intro d hd
    rw [answer_other hne (by rw [h.unopened d hd]; rfl)]
    exact h.unopened d hd
  · exact h.sock_lt
  · exact h.excluded
  · exact fun hno hconn => (h.idle hno hconn).answer hne
  · intro t ht
    have hstage := h.stage t ht
    change Stage _ (s.threads t)
    cases hpc : s.threads t with rw [hpc] at hstage
    | outside => exact hstage
    | waiting q => exact hstage
    | reconnect q n => exact hstage
    | sendSize q => exact Clean.answer hstage hne
    | sendBody q =>
      obtain ⟨d,hd,hask | ⟨hnil,hrep⟩⟩ := hstage
      · refine ⟨d,hd,?_⟩
        by_cases hdc : d = c
        · subst hdc
          -- a request without bytes is asked with its size
          refine Or.inr ⟨?_,hasked q 4 hask⟩
          have hto : (s.connections d).toServer = q.sent ((frame q.request).take 4) := by rw [hask.2]
          have hfull := congrArg List.length (asked_frame hask.1 hto h4 hall).1
          rw [hto, List.length_take, length_sent, length_sent, List.length_take, length_frame] at hfull
          exact List.eq_nil_of_length_eq_zero (by omega)
        · exact Or.inl (hkept q d 4 hdc hask)
      · exact ⟨d,hd,Or.inr ⟨hnil,hreplied q d hrep⟩⟩
    | readSize q =>
      obtain ⟨d,hd,⟨k,hask⟩ | hrep⟩ := hstage
      · refine ⟨d,hd,?_⟩
        by_cases hdc : d = c
        · subst hdc
          exact Or.inr (hasked q k hask)
        · exact Or.inl ⟨k,hkept q d k hdc hask⟩
      · exact ⟨d,hd,Or.inr (hreplied q d hrep)⟩
    | readBuf q header n buf =>
      obtain ⟨d,hd,hto,hreply,hheader,hn⟩ := hstage
      refine ⟨d,hd,?_⟩
      rw [answer_other hne hto]
      exact ⟨hto,hreply.mono hmono,hheader,hn⟩
    | leave q => exact fun hconn => Clean.answer (hstage hconn) hne
  · exact fun r hr => (h.paired r hr).mono hmono

theorem Inv.step {e : ClientEvent} (h : s.Inv) (hr : clientStep s e = some s') : s'.Inv := by
  cases e with
  | answer c reply =>
    simp only [clientStep] at hr
    split at hr
    · cases hr
    · rename_i hno
      obtain rfl := Option.some_inj.mp hr
      rw [not_or, not_or, Nat.not_lt, Nat.not_lt, Nat.not_le] at hno
      exact h.answered hno.2.2 hno.1 hno.2.1
  | _ => exact h.threadStep hr

end Steps

end LogAnaly

/-- Every reply frame that a call reads to its end is the server's reply to that very call. -/
theorem replies_paired (events : List ClientEvent) (s : LogAnaly) (h : run clientStep logAnalyCreate events = some s) :
    ∀ r ∈ s.returned, s.Answered r.1 r.2 := by
  have hinv := run_induction (P := fun _ s => s.Inv) LogAnaly.create_inv (fun _ _ _ _ h _ hr => h.step hr)
    Along.true h
  exact hinv.paired

/-! ## Two calls, of which the first one times out -/

def lateReply : List ClientEvent :=
  [.call 0 [1],.call 1 [2],.acquire 0,.sendSize 0,.sendBody 0 1,.fail 0 0,.answer 0 [7,7],.release 0,.acquire 1,
    .retry 1 false false,.retry 1 true true,.sendSize 1,.sendBody 1 1,.answer 1 [8],.readSize 1 4,.readBuf 1 1,
    .parse 1 true,.release 1]

theorem replies_paired_late : ∃ s, run clientStep logAnalyCreate lateReply = some s ∧
    s.returned.map Prod.fst = [⟨1,[2]⟩] ∧ ∀ r ∈ s.returned, s.Answered r.1 r.2 := by
  have hrun : (run clientStep logAnalyCreate lateReply).map (fun s => s.returned.map Prod.fst) = some [⟨1,[2]⟩] := by
    decide +kernel
  obtain ⟨s,hs,hreturned⟩ := Option.map_eq_some_iff.mp hrun
  exact ⟨s,hs,hreturned,replies_paired lateReply s hs⟩

end LogStats
