import LogStats.Client.System
import LogStats.Keeper.Rates

/-! # The whole system is linearizable

Every request of the webserver, every call of `log_handle` and every round of `qps_thread`
takes effect at the last access that is made for it under the mutex. These moments order
what the clients of the keeper see.
-/
namespace LogStats

/-! ## What a thread of the webserver changes -/

namespace LogAnaly

/-- What a step of a thread can change for the others. -/
structure Stepped (s s' : LogAnaly) (t : ℕ) (e : ClientEvent) : Prop where
  answers : s'.answers = s.answers
  closed : ∀ c, s.Closed c → s'.Closed c ∧ (s'.connections c).toServer = (s.connections c).toServer
  carries : ∀ c q, s'.Carries c q → s.Carries c q ∨ (s.threads t).owner = some q
  owner : ∀ u q, (s'.threads u).owner = some q → (s.threads u).owner = some q ∨ ⟨s.calls,q.request⟩ = q ∧ ∃ v, e = .call v q.request
  calls_le : s.calls ≤ s'.calls
  calls : ∀ v request, e = .call v request → s'.calls = s.calls + 1

section Stepped
variable {s s' : LogAnaly} {t c k : ℕ} {pc before : Pc} {q : Call} {e : ClientEvent}

/-- A step of a thread on its call that opens no connection. -/
theorem Stepped.goto (hpc : s.threads t = before) (hthreads : s'.threads = s.threads) (hsock : s'.sock = s.sock)
    (hopened : s'.opened = s.opened) (hcalls : s'.calls = s.calls) (hanswers : s'.answers = s.answers)
    (hclosed : ∀ c, s.Closed c → (s'.connections c).toServer = (s.connections c).toServer)
    (hcarries : ∀ c q, s'.Carries c q → s.Carries c q ∨ before.owner = some q)
    (howner : ∀ q, pc.owner = some q → before.owner = some q) (hne : ∀ v request, e ≠ .call v request) :
    Stepped s (s'.goto t pc) t e where
  answers := hanswers
  closed c hc := by
    refine ⟨?_,hclosed c hc⟩
    rw [Closed]
    change c < s'.opened ∧ s'.sock ≠ some c
    rw [hsock, hopened]
    exact hc
  carries c q hq := by
    rw [hpc]
    exact hcarries c q hq
  owner u q hu := by
    rw [goto_threads, hthreads] at hu
    split at hu
    · rename_i hut
      rw [hut, hpc]
      exact Or.inl (howner q hu)
    · exact Or.inl hu
  calls_le := hcalls.ge
  calls v request he := absurd he (hne v request)

theorem Stepped.still (hpc : s.threads t = before) (hthreads : s'.threads = s.threads) (hsock : s'.sock = s.sock)
    (hopened : s'.opened = s.opened) (hcalls : s'.calls = s.calls) (hanswers : s'.answers = s.answers)
    (hto : ∀ c, (s'.connections c).toServer = (s.connections c).toServer)
    (howner : ∀ q, pc.owner = some q → before.owner = some q) (hne : ∀ v request, e ≠ .call v request) :
    Stepped s (s'.goto t pc) t e := by
  refine .goto hpc hthreads hsock hopened hcalls hanswers (fun c _ => hto c) (fun c q hq => Or.inl ?_) howner hne
  rw [Carries, hto] at hq
  exact hq

/-- Bytes go out on the current connection only. -/
theorem Stepped.sent (connecting : Bool) (hpc : s.threads t = before) (hc : s.sock = some c) {bytes : List UInt8}
    (hbefore : before.owner = some q) (howner : pc.owner = some q) (hne : ∀ v request, e ≠ .call v request) :
    Stepped s ({ s.send c (q.sent bytes) with connecting := connecting }.goto t pc) t e := by
  refine .goto hpc rfl rfl rfl rfl rfl (fun c' hc' => ?_) (fun c' r hr => ?_) (fun r hr => ?_) hne
  · change ((s.send c (q.sent bytes)).connections c').toServer = _
    have hcc : c' ≠ c := by
      rintro rfl
      exact hc'.2 hc
    rw [send_toServer, if_neg hcc]
  · obtain ⟨b,hb⟩ := hr
    change (b,r) ∈ ((s.send c (q.sent bytes)).connections c').toServer at hb
    rw [send_toServer] at hb
    split at hb
    · rename_i hcc
      rcases List.mem_append.mp hb with hb | hb
      · exact Or.inl ⟨b,by rwa [hcc]⟩
      · obtain ⟨_,-,he⟩ := List.mem_map.mp hb
        rw [← (Prod.mk.inj he).2]
        exact Or.inr hbefore
    · exact Or.inl ⟨b,hb⟩
  · rw [hbefore, ← howner, hr]

theorem threadStep_stepped (hr : LogStats.threadStep s t (s.threads t) e = some s') : Stepped s s' t e := by
  cases hpc : s.threads t with
  | outside =>
    rw [hpc] at hr
    cases e with
    | call u request =>
      obtain rfl := Option.some_inj.mp hr
      refine ⟨rfl,fun c hc => ⟨hc,rfl⟩,fun c q hq => Or.inl hq,fun v q hv => ?_,Nat.le_succ _,fun _ _ _ => rfl⟩
      rw [goto_threads] at hv
      split at hv
      · obtain rfl := Option.some_inj.mp hv
        exact Or.inr ⟨rfl,u,rfl⟩
      · exact Or.inl hv
    | _ => cases hr
  | waiting q =>
    rw [hpc] at hr
    cases e with
    | acquire u =>
      simp only [LogStats.threadStep] at hr
      split at hr
      · cases hr
      · obtain rfl := Option.some_inj.mp hr
        refine .still hpc rfl rfl rfl rfl rfl (fun _ => rfl) (fun r hq => ?_) (fun _ _ he => by cases he)
        rw [← hq]
        split <;> rfl
    | _ => cases hr
  | reconnect q retryCount =>
    rw [hpc] at hr
    cases e with
    | retry u fresh connecting =>
      obtain rfl := Option.some_inj.mp hr
      refine ⟨rfl,fun c hc => ⟨?_,rfl⟩,fun c q hq => Or.inl hq,fun v q hv => ?_,le_rfl,fun _ _ he => by cases he⟩
      · obtain ⟨hlt,-⟩ := hc
        rw [Closed]
        change c < (if fresh then s.opened + 1 else s.opened) ∧ (if fresh then some s.opened else none) ≠ some c
        cases fresh with
        | false => exact ⟨hlt,fun he => by cases he⟩
        | true => exact ⟨Nat.lt_succ_of_lt hlt,fun he => hlt.ne (Option.some_inj.mp he).symm⟩
      · rw [goto_threads] at hv
        refine Or.inl ?_
        split at hv
        · rename_i hvt
          rw [hvt, hpc, ← hv]
          split <;> rfl
        · exact hv
    | _ => cases hr
  | sendSize q =>
    rw [hpc] at hr
    cases e with
    | sendSize u =>
      obtain ⟨c,hc,hr⟩ := Option.bind_eq_some_iff.mp hr
      split at hr
      · obtain rfl := Option.some_inj.mp hr
        exact .sent s.connecting hpc hc rfl rfl (fun _ _ he => by cases he)
      · cases hr
    | fail u k =>
      obtain rfl := Option.some_inj.mp hr
      cases hc : s.sock with
      | none => exact .still hpc rfl rfl rfl rfl rfl (fun _ => rfl) (fun _ => id) (fun _ _ he => by cases he)
      | some c => exact .sent false hpc hc rfl rfl (fun _ _ he => by cases he)
    | _ => cases hr
  | sendBody q =>
    rw [hpc] at hr
    cases e with
    | sendBody u k =>
      obtain ⟨c,hc,hr⟩ := Option.bind_eq_some_iff.mp hr
      obtain rfl := Option.some_inj.mp hr
      exact .sent s.connecting hpc hc rfl rfl (fun _ _ he => by cases he)
    | fail u k =>
      obtain rfl := Option.some_inj.mp hr
      cases hc : s.sock with
      | none => exact .still hpc rfl rfl rfl rfl rfl (fun _ => rfl) (fun _ => id) (fun _ _ he => by cases he)
      | some c => exact .sent false hpc hc rfl rfl (fun _ _ he => by cases he)
    | _ => cases hr
  | readSize q =>
    rw [hpc] at hr
    cases e with
    | readSize u k =>
      obtain ⟨c,-,hr⟩ := Option.bind_eq_some_iff.mp hr
      by_cases hk : k = 0 ∨ 4 < k ∨ ((s.connections c).fromServer.take k).length < k
      · simp only [if_pos hk] at hr
        cases hr
      · simp only [if_neg hk] at hr
        split at hr <;> obtain rfl := Option.some_inj.mp hr
        · exact .still hpc rfl rfl rfl rfl rfl (receive_toServer s c k) (fun _ => id) (fun _ _ he => by cases he)
        · exact .still hpc rfl rfl rfl rfl rfl (receive_toServer s c k) (fun _ => id) (fun _ _ he => by cases he)
    | fail u k =>
      obtain rfl := Option.some_inj.mp hr
      exact .still hpc rfl rfl rfl rfl rfl (fun _ => rfl) (fun _ => id) (fun _ _ he => by cases he)
    | _ => cases hr
  | readBuf q header n buf =>
    rw [hpc] at hr
    cases e with
    | readBuf u k =>
      obtain ⟨c,-,hr⟩ := Option.bind_eq_some_iff.mp hr
      by_cases hk : k = 0 ∨ n < k ∨ ((s.connections c).fromServer.take k).length < k
      · simp only [if_pos hk] at hr
        cases hr
      · simp only [if_neg hk] at hr
        obtain rfl := Option.some_inj.mp hr
        exact .still hpc rfl rfl rfl rfl rfl (receive_toServer s c k) (fun _ => id) (fun _ _ he => by cases he)
    | parse u ok =>
      simp only [LogStats.threadStep] at hr
      split at hr
      · cases hr
      · obtain rfl := Option.some_inj.mp hr
        exact .still hpc rfl rfl rfl rfl rfl (fun _ => rfl) (fun _ => id) (fun _ _ he => by cases he)
    | fail u k =>
      obtain rfl := Option.some_inj.mp hr
      exact .still hpc rfl rfl rfl rfl rfl (fun _ => rfl) (fun _ => id) (fun _ _ he => by cases he)
    | _ => cases hr
  | leave q =>
    rw [hpc] at hr
    cases e with
    | release u =>
      obtain rfl := Option.some_inj.mp hr
      exact .still hpc rfl rfl rfl rfl rfl (fun _ => rfl) (fun _ hq => by cases hq) (fun _ _ he => by cases he)
    | _ => cases hr

end Stepped

end LogAnaly

/-! ## A connection that was given up -/

namespace LogAnaly

/-- What happens on a connection that is closed at the other end is nothing to the calls. -/
theorem Inv.strayed {s : LogAnaly} {c : ℕ} (h : s.Inv) (hc : s.Closed c) (conn : Connection)
    (p : Option Call × List UInt8) :
    Inv { s with connections := Function.update s.connections c conn, answers := s.answers ++ [p] } := by
  have hsame : ∀ d, s.sock = some d → Function.update s.connections c conn d = s.connections d := by
    intro d hd
    refine Function.update_of_ne ?_ _ _
    rintro rfl
    exact hc.2 hd
  have hmono : ∀ x ∈ s.answers, x ∈ s.answers ++ [p] := fun x hx => List.mem_append_left _ hx
  have hclean : s.Clean → Clean { s with connections := Function.update s.connections c conn, answers := s.answers ++ [p] } :=
    fun hclean d hd => (hsame d hd).trans (hclean d hd)
  constructor
  · intro d hd
    have hdc : d ≠ c := fun he => absurd hc.1 (Nat.not_lt.mpr (he ▸ hd))
    exact (Function.update_of_ne hdc _ _).trans (h.unopened d hd)
  · exact h.sock_lt
  · exact h.excluded
  · exact fun hno hconn => hclean (h.idle hno hconn)
  · intro t ht
    have hstage := h.stage t ht
    change Stage _ (s.threads t)
    cases hpc : s.threads t with rw [hpc] at hstage
    | outside => exact hstage
    | waiting q => exact hstage
    | reconnect q n => exact hstage
    | sendSize q => exact hclean hstage
    | sendBody q =>
      obtain ⟨d,hd,⟨hlen,hask⟩ | ⟨hnil,hto,hrep⟩⟩ := hstage
      · exact ⟨d,hd,Or.inl ⟨hlen,(hsame d hd).trans hask⟩⟩
      · refine ⟨d,hd,Or.inr ⟨hnil,?_⟩⟩
        rw [Replied]
        simp only [hsame d hd]
        exact ⟨hto,hrep.mono hmono⟩
    | readSize q =>
      obtain ⟨d,hd,⟨k,hlen,hask⟩ | ⟨hto,hrep⟩⟩ := hstage
      · exact ⟨d,hd,Or.inl ⟨k,hlen,(hsame d hd).trans hask⟩⟩
      · refine ⟨d,hd,Or.inr ?_⟩
        rw [Replied]
        simp only [hsame d hd]
        exact ⟨hto,hrep.mono hmono⟩
    | readBuf q header n buf =>
      obtain ⟨d,hd,hto,hreply,hrest⟩ := hstage
      refine ⟨d,hd,?_⟩
      simp only [hsame d hd]
      exact ⟨hto,hreply.mono hmono,hrest⟩
    | leave q => exact fun hconn => hclean (hstage hconn)
  · exact fun r hr => (h.paired r hr).mono hmono

end LogAnaly

/-! ## The invariant -/

/-- The call that a thread is to do. -/
def Place.pending {κ ι ρ l : Type*} : Place κ ι ρ l → Option κ
  | .waiting id _ => id
  | .inside id _ _ => id
  | _ => none

/-- A thread is to do `i` for `id`. -/
def Place.On {κ ι ρ l : Type*} (place : Place κ ι ρ l) (id : Option κ) (i : ι) : Prop :=
  place = .waiting id i ∨ ∃ pc, place = .inside id i pc

/-- A call that is worked on was made and has not taken effect, and one that is left has. -/
def Place.Marked {κ ι ρ l : Type*} (history : List (Mark κ ι ρ)) : Place κ ι ρ l → Prop
  | .outside => True
  | .waiting id i => ∀ q, id = some q → .call q i ∈ history ∧ ∀ e ∈ effects history, e.id ≠ some q
  | .inside id i _ => ∀ q, id = some q → .call q i ∈ history ∧ ∀ e ∈ effects history, e.id ≠ some q
  | .leaving id r => ∀ q, id = some q → ∃ i, ⟨some q,i,r⟩ ∈ effects history

section Places
variable {κ ι ρ l : Type*} {place : Place κ ι ρ l} {id : Option κ} {i : ι} {history history' : List (Mark κ ι ρ)}

theorem Place.On.pending (h : place.On id i) : place.pending = id := by
  rcases h with rfl | ⟨pc,rfl⟩ <;> rfl

theorem Place.On.unique (h : place.On id i) {id' : Option κ} {i' : ι} (h' : place.On id' i') : id' = id ∧ i' = i := by
  rcases h with rfl | ⟨pc,rfl⟩ <;> rcases h' with h' | ⟨pc',h'⟩ <;> cases h' <;> exact ⟨rfl,rfl⟩

/-- Marks behind the others change nothing, unless it is the effect of the call in hand. -/
theorem Place.Marked.mono (h : place.Marked history) (hmem : ∀ m ∈ history, m ∈ history')
    (hnew : ∀ e ∈ effects history', e ∈ effects history ∨ ∀ q, place.pending = some q → e.id ≠ some q) :
    place.Marked history' := by
  have hopen : ∀ q, place.pending = some q → (∀ e ∈ effects history, e.id ≠ some q) →
      ∀ e ∈ effects history', e.id ≠ some q := by
    intro q hq hold e he
    rcases hnew e he with he | he
    · exact hold e he
    · exact he q hq
  cases place with
  | outside => trivial
  | waiting id i => exact fun q hq => ⟨hmem _ (h q hq).1,hopen q hq (h q hq).2⟩
  | inside id i pc => exact fun q hq => ⟨hmem _ (h q hq).1,hopen q hq (h q hq).2⟩
  | leaving id r =>
    intro q hq
    obtain ⟨i,hi⟩ := h q hq
    exact ⟨i,mem_effects.mpr (hmem _ (mem_effects.mp hi))⟩

end Places

namespace System

/-- Where the thread of a connection is, at the mutex and outside of it. -/
def SocketAt (s : System) (c : ℕ) : Prop :=
  match s.sockets c with
  | .reading => s.keeper.threads (.socket c) = .outside
  | .ended => s.keeper.threads (.socket c) = .outside
  | .writing _ => s.keeper.threads (.socket c) = .outside ∨ ∃ id r, s.keeper.threads (.socket c) = .leaving id r
  | .commanding whole bytes =>
    (s.keeper.threads (.socket c)).On ((requestOwner whole bytes).map .webserver) (.command (payload bytes)) ∧
      (if whole then 4 ≤ bytes.length ∧ bytes.length = 4 + frameLen bytes
        else s.client.Closed c ∧ (s.client.connections c).toServer = [])

structure Inv (unpack : List UInt8 → Option StatsRequest) (pack : Reply → List UInt8) (supply : Bool → Prop)
    [DecidablePred supply] (keeper : HouseKeeper) (s : System) : Prop where
  client : s.logAnaly.Inv
  sole : s.logAnaly.Sole
  atomic : ∃ k, s.keeper.Atomic (suppliedAccesses unpack pack supply) keeper k
  done : effects s.history = s.keeper.done
  timely : Timely s.history
  socket : ∀ c, s.SocketAt c
  marked : ∀ t, (s.keeper.threads t).Marked s.history
  own : ∀ t n, (s.keeper.threads t).pending = some (.keeper n) → ∀ u, (s.keeper.threads u).pending = some (.keeper n) → t = u
  served : ∀ t q, (s.keeper.threads t).pending = some (.webserver q) →
    ∃ c, t = .socket c ∧ ∃ b, (b,q) ∈ (s.sockets c).taken
  asked : ∀ t q, (s.client.threads t).owner = some q → .call (.webserver q) (.command q.request) ∈ s.history
  carried : ∀ c q, s.logAnaly.Carries c q → .call (.webserver q) (.command q.request) ∈ s.history
  numbered : ∀ q i, .call (.webserver q) i ∈ s.history → q.id < s.client.calls
  counted : ∀ n i, .call (.keeper n) i ∈ s.history → n < s.calls
  answers : ∀ q r, (some q,r) ∈ s.client.answers → ∃ i, ⟨some (.webserver q),i,r⟩ ∈ effects s.history
  effected : ∀ e ∈ effects s.history, ∀ q, e.id = some (.webserver q) → (some q,e.result) ∈ s.client.answers

section Inv
variable {unpack : List UInt8 → Option StatsRequest} {pack : Reply → List UInt8} {supply : Bool → Prop} [DecidablePred supply]
variable {keeper : HouseKeeper} {s s' : System} {t : KeeperThread}

theorem create_inv (memory : ViewTreeMemory) : (systemCreate memory).Inv unpack pack supply (houseKeeperCreate memory) where
  client := by
    have hcreate : (systemCreate memory).logAnaly = logAnalyCreate := rfl
    rw [hcreate]
    exact LogAnaly.create_inv
  sole := by
    have hcreate : (systemCreate memory).logAnaly = logAnalyCreate := rfl
    rw [hcreate]
    exact LogAnaly.create_sole
  atomic := ⟨_,sharedCreate_atomic _⟩
  done := rfl
  timely := .nil
  socket _ := rfl
  marked _ := trivial
  own _ _ h := by cases h
  served _ _ h := by cases h
  asked _ _ h := by cases h
  carried _ _ h := by
    obtain ⟨_,h⟩ := h
    cases h
  numbered _ _ h := by cases h
  counted _ _ h := by cases h
  answers _ _ h := by cases h
  effected _ h := by cases h

/-! ### The webserver -/

/-- What stays of the invariant over a step of the webserver, behind its marks. -/
theorem Inv.client_step (h : s.Inv unpack pack supply keeper) {client : LogAnaly} {u : ℕ} {e : ClientEvent}
    (hr : threadStep s.client u (s.client.threads u) e = some client) (hclient : clientStep s.logAnaly e =
      some ({ s with client := client } : System).logAnaly)
    {marks : List (Mark Caller KeeperCall (List UInt8))} (heffects : effects (s.history ++ marks) = effects s.history)
    (htimely : Timely (s.history ++ marks)) (hcalls : ∀ q i, .call (.webserver q) i ∈ marks → q.id < client.calls)
    (hkeeper : ∀ n i, .call (.keeper n) i ∉ marks)
    (hmade : ∀ v request, e = .call v request →
      .call (.webserver ⟨s.client.calls,request⟩) (.command request) ∈ marks) :
    ({ s with client := client }.mark marks).Inv unpack pack supply keeper := by
  have hstepped := LogAnaly.threadStep_stepped hr
  have hmem : ∀ m ∈ s.history, m ∈ s.history ++ marks := fun m hm => List.mem_append_left _ hm
  have hcarries : ∀ c q, ({ s with client := client } : System).logAnaly.Carries c q → s.logAnaly.Carries c q ∨
      (s.client.threads u).owner = some q := by
    rintro c q ⟨b,hb⟩
    rcases List.mem_append.mp hb with hb | hb
    · exact Or.inl ⟨b,List.mem_append_left _ hb⟩
    · rcases hstepped.carries c q ⟨b,hb⟩ with ⟨b',hb'⟩ | howner
      · exact Or.inl ⟨b',List.mem_append_right _ hb'⟩
      · exact Or.inr howner
  constructor
  · exact h.client.step hclient
  · exact h.sole.step h.client hclient
  · exact h.atomic
  · exact heffects.trans h.done
  · exact htimely
  · intro c
    have hc := h.socket c
    rw [SocketAt] at hc ⊢
    change (match s.sockets c with
      | .reading => _
      | .ended => _
      | .writing _ => _
      | .commanding whole bytes => _)
    cases hpc : s.sockets c with
    | commanding whole bytes =>
      rw [hpc] at hc
      cases whole with
      | true => exact hc
      | false =>
        obtain ⟨hon,hclosed,hnil⟩ := hc
        obtain ⟨hclosed',hsame⟩ := hstepped.closed c hclosed
        exact ⟨hon,hclosed',hsame.trans hnil⟩
    | _ =>
      rw [hpc] at hc
      exact hc
  · exact fun t => (h.marked t).mono hmem fun e he => Or.inl (heffects ▸ he)
  · exact h.own
  · exact h.served
  · intro v q hv
    rcases hstepped.owner v q hv with hold | ⟨hq,w,he⟩
    · exact hmem _ (h.asked v q hold)
    · have hmark := hmade w q.request he
      rw [hq] at hmark
      exact List.mem_append_right _ hmark
  · intro c q hc
    rcases hcarries c q hc with hold | howner
    · exact hmem _ (h.carried c q hold)
    · exact hmem _ (h.asked u q howner)
  · intro q i hq
    rcases List.mem_append.mp hq with hq | hq
    · exact lt_of_lt_of_le (h.numbered q i hq) hstepped.calls_le
    · exact hcalls q i hq
  · intro n i hn
    rcases List.mem_append.mp hn with hn | hn
    · exact h.counted n i hn
    · exact absurd hn (hkeeper n i)
  · intro q r hq
    obtain ⟨i,hi⟩ := h.answers q r (hstepped.answers ▸ hq)
    exact ⟨i,heffects.symm ▸ hi⟩
  · intro e he q hq
    have hold : e ∈ effects s.history := heffects ▸ he
    exact hstepped.answers ▸ h.effected e hold q hq

/-- The payload of a reply that was read to its end. -/
theorem payload_of_reply {header buf : List (UInt8 × Option Call)} {q : Option Call} {reply : List UInt8}
    (hheader : header.length = 4) (h : header ++ buf = replyTo q reply) : buf.map Prod.fst = reply := by
  have hframe : header.map Prod.fst ++ buf.map Prod.fst = beBytes reply.length ++ reply := by
    rw [← List.map_append, h, replyTo, List.map_map]
    simp [Function.comp_def, frame]
  exact (List.append_inj hframe (by rw [List.length_map, hheader, length_beBytes])).2

theorem client_of_logAnaly (habs : s'.logAnaly = s.logAnaly) : s'.client.sock = s.client.sock ∧
    s'.client.opened = s.client.opened ∧ s'.client.threads = s.client.threads ∧ s'.client.calls = s.client.calls ∧
    s'.client.answers = s.client.answers := by
  obtain ⟨hsock,-,-,hthreads,-,hopened,hcalls,hanswers,-⟩ := LogAnaly.mk.inj habs
  exact ⟨hsock,hopened,hthreads,hcalls,hanswers⟩

theorem clientStep_thread {c : LogAnaly} {client : LogAnaly} {e : ClientEvent} (hne : ∀ c reply, e ≠ .answer c reply)
    (hr : clientStep c e = some client) :
    ∃ u, threadStep c u (c.threads u) e = some client ∧ ∀ c', clientStep c' e = threadStep c' u (c'.threads u) e := by
  cases e with
  | answer c reply => exact absurd rfl (hne c reply)
  | call u request => exact ⟨u,hr,fun _ => rfl⟩
  | acquire u => exact ⟨u,hr,fun _ => rfl⟩
  | retry u fresh connecting => exact ⟨u,hr,fun _ => rfl⟩
  | sendSize u => exact ⟨u,hr,fun _ => rfl⟩
  | sendBody u k => exact ⟨u,hr,fun _ => rfl⟩
  | readSize u k => exact ⟨u,hr,fun _ => rfl⟩
  | readBuf u k => exact ⟨u,hr,fun _ => rfl⟩
  | parse u ok => exact ⟨u,hr,fun _ => rfl⟩
  | fail u k => exact ⟨u,hr,fun _ => rfl⟩
  | release u => exact ⟨u,hr,fun _ => rfl⟩

theorem Inv.clientEvent (h : s.Inv unpack pack supply keeper) {client : LogAnaly} {e : ClientEvent}
    (hne : ∀ c reply, e ≠ .answer c reply) (hr : clientStep s.client e = some client) :
    ({ s with client := client }.mark (s.client.marks e)).Inv unpack pack supply keeper := by
  obtain ⟨u,hthread,hsame⟩ := clientStep_thread hne hr
  have hclient : clientStep s.logAnaly e = some ({ s with client := client } : System).logAnaly := by
    rw [hsame]
    exact LogAnaly.threadStep_under hthread
  have hquiet : s.client.marks e = [] → (∀ v request, e ≠ .call v request) →
      ({ s with client := client }.mark (s.client.marks e)).Inv unpack pack supply keeper := by
    intro hmarks hcall
    rw [hmarks]
    refine h.client_step hthread hclient ?_ ?_ (fun _ _ hm => by cases hm) (fun _ _ hm => by cases hm)
      (fun v request he => absurd he (hcall v request))
    · rw [List.append_nil]
    · rw [List.append_nil]
      exact h.timely
  cases e with
  | answer c reply => exact absurd rfl (hne c reply)
  | call v request =>
    have hcalls := (LogAnaly.threadStep_stepped hthread).calls v request rfl
    refine h.client_step hthread hclient effects_call (h.timely.call fun j hj => ?_) (fun q i hq => ?_) (fun n i hn => ?_)
      (fun w request' he => ?_)
    · exact absurd (h.numbered _ j hj) (lt_irrefl _)
    · cases List.mem_singleton.mp hq
      rw [hcalls]
      exact Nat.lt_succ_self _
    · cases List.mem_singleton.mp hn
    · obtain ⟨-,rfl⟩ := ClientEvent.call.inj he
      exact List.mem_singleton_self _
  | parse v ok =>
    cases hpc : s.client.threads v with
    | readBuf q header n buf =>
      have hmarks : s.client.marks (.parse v ok) = [.ret (.webserver q) (buf.map Prod.fst)] := by
        simp only [LogAnaly.marks, hpc]
      have hbusy : ¬(s.logAnaly.threads v).Free := by
        change ¬(s.client.threads v).Free
        rw [hpc]
        exact id
      have hstage : s.logAnaly.Stage (s.client.threads v) := h.client.stage v (by
        by_contra hno
        exact hbusy (h.client.excluded v hno))
      have hzero : n = 0 := by
        have hstep : threadStep s.client v (s.client.threads v) (.parse v ok) = some client := hr
        rw [hpc] at hstep
        simp only [threadStep] at hstep
        split at hstep
        · cases hstep
        · rename_i hn
          exact not_not.mp hn
      rw [hpc, hzero] at hstage
      obtain ⟨c,-,-,⟨reply,hreply,-,hbytes⟩,hheader,hlen⟩ := hstage
      have hrest : (s.logAnaly.connections c).fromServer = [] := by
        rw [List.length_append, List.length_append] at hlen
        exact List.eq_nil_of_length_eq_zero (by omega)
      rw [hrest, List.append_nil] at hbytes
      obtain ⟨i,hi⟩ := h.answers q reply hreply
      rw [← payload_of_reply hheader hbytes] at hi
      rw [hmarks]
      refine h.client_step hthread hclient effects_ret (h.timely.ret hi) (fun q i hq => ?_) (fun n i hn => ?_)
        (fun w request he => by cases he)
      · cases List.mem_singleton.mp hq
      · cases List.mem_singleton.mp hn
    | _ => exact hquiet (by simp only [LogAnaly.marks, hpc]) (fun _ _ he => by cases he)
  | _ => exact hquiet rfl (fun _ _ he => by cases he)

/-! ### Steps of one thread of the log server that take no effect -/

theorem Inv.thread (h : s.Inv unpack pack supply keeper) {place : Place Caller KeeperCall (List UInt8) KeeperPc}
    {marks : List (Mark Caller KeeperCall (List UInt8))} (habs : s'.logAnaly = s.logAnaly)
    (hhistory : s'.history = s.history ++ marks) (heffects : effects (s.history ++ marks) = effects s.history)
    (htimely : Timely (s.history ++ marks)) (hweb : ∀ q i, .call (.webserver q) i ∉ marks)
    (hcounted : ∀ n i, .call (.keeper n) i ∈ s'.history → n < s'.calls)
    (hatomic : ∃ k, s'.keeper.Atomic (suppliedAccesses unpack pack supply) keeper k) (hdone : s'.keeper.done = s.keeper.done)
    (hthreads : s'.keeper.threads = Function.update s.keeper.threads t place)
    (hsockets : ∀ c, .socket c ≠ t → s'.sockets c = s.sockets c ∧ s'.client.connections c = s.client.connections c)
    (hself : ∀ c, .socket c = t → s'.SocketAt c) (hplace : place.Marked s'.history)
    (hpending : ∀ q, place.pending = some q → (s.keeper.threads t).pending = some q ∨
      ∀ u, (s.keeper.threads u).pending ≠ some q)
    (hserved : ∀ q, place.pending = some (.webserver q) → ∃ c, t = .socket c ∧ ∃ b, (b,q) ∈ (s'.sockets c).taken) :
    s'.Inv unpack pack supply keeper := by
  have hold : effects s'.history = effects s.history := by rw [hhistory, heffects]
  have hmem : ∀ m ∈ s.history, m ∈ s'.history := fun m hm => by
    rw [hhistory]
    exact List.mem_append_left _ hm
  obtain ⟨hsock,hopened,hclient,hcalls,hanswers⟩ := client_of_logAnaly habs
  have hclosed : ∀ c, s'.client.Closed c ↔ s.client.Closed c := fun c => by
    rw [LogAnaly.Closed, LogAnaly.Closed, hopened, hsock]
  have hback : ∀ q i, .call (.webserver q) i ∈ s'.history → .call (.webserver q) i ∈ s.history := fun q i hq => by
    rw [hhistory] at hq
    exact (List.mem_append.mp hq).resolve_right (hweb q i)
  have hpend : ∀ u q, (s'.keeper.threads u).pending = some q → u = t ∧ place.pending = some q ∨
      u ≠ t ∧ (s.keeper.threads u).pending = some q := by
    intro u q hu
    rw [hthreads, Function.update_apply] at hu
    split at hu
    · rename_i hut
      exact Or.inl ⟨hut,hu⟩
    · rename_i hut
      exact Or.inr ⟨hut,hu⟩
  constructor
  · rw [habs]
    exact h.client
  · rw [habs]
    exact h.sole
  · exact hatomic
  · rw [hold, hdone]
    exact h.done
  · rw [hhistory]
    exact htimely
  · intro c
    by_cases hct : KeeperThread.socket c = t
    · exact hself c hct
    · obtain ⟨hpc,hconn⟩ := hsockets c hct
      have hc := h.socket c
      rw [SocketAt] at hc ⊢
      rw [hpc, hconn, hthreads, Function.update_of_ne hct]
      simp only [hclosed]
      exact hc
  · intro u
    rw [hthreads, Function.update_apply]
    split
    · exact hplace
    · exact (h.marked u).mono hmem fun e he => Or.inl (hold ▸ he)
  · intro u n hu v hv
    rcases hpend u _ hu with ⟨rfl,hu⟩ | ⟨hut,hu⟩
    · rcases hpend v _ hv with ⟨rfl,-⟩ | ⟨hvt,hv⟩
      · rfl
      · rcases hpending _ hu with hu | hfresh
        · exact h.own u n hu v hv
        · exact absurd hv (hfresh v)
    · rcases hpend v _ hv with ⟨rfl,hv⟩ | ⟨hvt,hv⟩
      · rcases hpending _ hv with hv | hfresh
        · exact h.own u n hu v hv
        · exact absurd hu (hfresh u)
      · exact h.own u n hu v hv
  · intro u q hu
    rcases hpend u _ hu with ⟨rfl,hu⟩ | ⟨hut,hu⟩
    · exact hserved q hu
    · obtain ⟨c,rfl,hb⟩ := h.served u q hu
      exact ⟨c,rfl,by rwa [(hsockets c hut).1]⟩
  · rw [hclient]
    exact fun u q hu => hmem _ (h.asked u q hu)
  · rw [habs]
    exact fun c q hc => hmem _ (h.carried c q hc)
  · rw [hcalls]
    exact fun q i hq => h.numbered q i (hback q i hq)
  · exact hcounted
  · rw [hanswers, hold]
    exact h.answers
  · rw [hanswers, hold]
    exact h.effected

/-- What a socket thread has in its hands counts as still on its way. -/
theorem logAnaly_congr {c : ℕ} (hrest : { s'.client with connections := s.client.connections } = s.client)
    (hother : ∀ c', c' ≠ c → s'.sockets c' = s.sockets c' ∧ s'.client.connections c' = s.client.connections c')
    (hto : (s'.sockets c).taken ++ (s'.client.connections c).toServer =
      (s.sockets c).taken ++ (s.client.connections c).toServer)
    (hfrom : (s'.client.connections c).fromServer ++ (s'.sockets c).unwritten =
      (s.client.connections c).fromServer ++ (s.sockets c).unwritten) : s'.logAnaly = s.logAnaly := by
  have hconn : s'.logAnaly.connections = s.logAnaly.connections := by
    funext c'
    by_cases hc : c' = c
    · subst hc
      exact Connection.mk.injEq .. ▸ ⟨hto,hfrom⟩
    · obtain ⟨hpc,hsame⟩ := hother c' hc
      simp only [logAnaly, LogAnaly.under, hpc, hsame]
  obtain ⟨hsock,hconnecting,hmutex,hthreads,-,hopened,hcalls,hanswers,hreturned⟩ :=
    (LogAnaly.mk.injEq ..).mp hrest
  rw [logAnaly, logAnaly, LogAnaly.under, LogAnaly.under, LogAnaly.mk.injEq]
  exact ⟨hsock,hconnecting,hmutex,hthreads,hconn,hopened,hcalls,hanswers,hreturned⟩

theorem mem_carried (c : ℕ) {q : Call} (hq : (∃ b, (b,q) ∈ (s.sockets c).taken) ∨ s.client.Carries c q) :
    s.logAnaly.Carries c q := by
  rcases hq with ⟨b,hb⟩ | ⟨b,hb⟩
  · exact ⟨b,List.mem_append_left _ hb⟩
  · exact ⟨b,List.mem_append_right _ hb⟩

/-- A call whose bytes are on a connection was made, and it has not taken effect. -/
theorem Inv.open (h : s.Inv unpack pack supply keeper) {c : ℕ} {q : Call} (hq : s.logAnaly.Carries c q) :
    .call (.webserver q) (.command q.request) ∈ s.history ∧
      ∀ e ∈ effects s.history, e.id ≠ some (.webserver q) :=
  ⟨h.carried c q hq,fun e he hid => (h.sole.carried c q hq).2.1 _ (h.effected e he q hid) rfl⟩

theorem frameOwner_eq {bytes : List (UInt8 × Call)} {q : Call} (h : frameOwner bytes = some q) :
    bytes = q.sent (frame q.request) ∧ payload bytes = q.request ∧ ∃ b, (b,q) ∈ bytes := by
  obtain ⟨⟨b,q'⟩,hhead,hq⟩ := Option.bind_eq_some_iff.mp h
  simp only at hq
  split at hq
  · rename_i hbytes
    obtain rfl := Option.some_inj.mp hq
    refine ⟨hbytes,?_,b,List.mem_of_mem_head? hhead⟩
    rw [payload, hbytes, Call.sent, ← List.map_drop, List.map_map]
    simp [Function.comp_def, frame]
  · cases hq

/-- A `socket_thread` that was not at the mutex goes on reading or writing. -/
theorem Inv.socketStep (h : s.Inv unpack pack supply keeper) {c : ℕ} (hplace : s.keeper.threads (.socket c) = .outside)
    (hkeeper : s'.keeper = s.keeper) (hcalls : s'.calls = s.calls) (hhistory : s'.history = s.history)
    (habs : s'.logAnaly = s.logAnaly)
    (hother : ∀ c', c' ≠ c → s'.sockets c' = s.sockets c' ∧ s'.client.connections c' = s.client.connections c')
    (hself : s'.SocketAt c) : s'.Inv unpack pack supply keeper := by
  have hsame : s'.history = s.history ++ [] := by rw [hhistory, List.append_nil]
  have hthreads : s'.keeper.threads = Function.update s.keeper.threads (.socket c) .outside := by
    rw [hkeeper, ← hplace, Function.update_eq_self]
  refine h.thread habs hsame (by rw [List.append_nil]) (by rw [List.append_nil]; exact h.timely)
    (fun _ _ hm => by cases hm) (fun n i hn => ?_) (by rw [hkeeper]; exact h.atomic) (by rw [hkeeper]) hthreads
    (fun c' hc' => hother c' (fun he => hc' (congrArg KeeperThread.socket he))) ?_ trivial (fun _ hq => by cases hq) (fun _ hq => by cases hq)
  · rw [hhistory] at hn
    rw [hcalls]
    exact h.counted n i hn
  · intro c' hc'
    obtain rfl := KeeperThread.socket.inj hc'
    exact hself

theorem Inv.ended (h : s.Inv unpack pack supply keeper) {c : ℕ} (hpc : s.sockets c = .reading)
    (hplace : s.keeper.threads (.socket c) = .outside) : (s.setSocket c .ended).Inv unpack pack supply keeper := by
  have hself : (s.setSocket c .ended).sockets c = .ended := Function.update_self _ _ _
  refine h.socketStep hplace rfl rfl rfl (logAnaly_congr (c := c) rfl (fun c' hc' => ⟨?_,rfl⟩) ?_ ?_)
    (fun c' hc' => ⟨?_,rfl⟩) ?_
  · exact Function.update_of_ne hc' _ _
  · rw [hself, hpc]
    rfl
  · rw [hself, hpc]
    rfl
  · exact Function.update_of_ne hc' _ _
  · rw [SocketAt, hself]
    exact hplace

/-- The header of a whole frame leaves nothing of what is in the array. -/
theorem prefixLen_eq {temp : List UInt8} {stream : List (UInt8 × Call)} (h : 4 ≤ stream.length) :
    prefixLen temp stream = frameLen stream := by
  have hheader : ((stream.take 4).map Prod.fst).length = 4 := by rw [List.length_map, List.length_take, min_eq_left h]
  rw [prefixLen, frameLen]
  simp only [List.take_append_of_le_length hheader.ge, List.take_of_length_le hheader.le]

theorem frameLen_take {stream : List (UInt8 × Call)} {n : ℕ} (h : 4 ≤ n) : frameLen (stream.take n) = frameLen stream := by
  rw [frameLen, frameLen, List.take_take, min_eq_left h]

/-- A `socket_thread` has read a request, of a whole frame or before the end of the stream. -/
theorem Inv.readRequest (h : s.Inv unpack pack supply keeper) {c n : ℕ} {temp : List UInt8} {whole : Prop} [Decidable whole]
    {bytes : List (UInt8 × Call)} (hpc : s.sockets c = .reading) (hplace : s.keeper.threads (.socket c) = .outside)
    (hn : n = 4 + prefixLen temp (s.client.connections c).toServer)
    (hwhole : whole ↔ 4 ≤ (s.client.connections c).toServer.length ∧ n ≤ (s.client.connections c).toServer.length)
    (hready : whole ∨ s.client.Closed c) (hbytes : bytes = (s.client.connections c).toServer.take n)
    (hs' : { (s.setConnection c { s.client.connections c with toServer := (s.client.connections c).toServer.drop n }).setSocket
        c (.commanding (decide whole) bytes) with
      keeper := s.keeper.ask (.socket c) ((requestOwner (decide whole) bytes).map .webserver) (.command (payload bytes)) } = s') :
    s'.Inv unpack pack supply keeper := by
  have hsocket : s'.sockets c = .commanding (decide whole) bytes := by
    rw [← hs']
    exact Function.update_self _ _ _
  have hconn : s'.client.connections c =
      { s.client.connections c with toServer := (s.client.connections c).toServer.drop n } := by
    rw [← hs']
    exact Function.update_self _ _ _
  have hother : ∀ c', c' ≠ c → s'.sockets c' = s.sockets c' ∧ s'.client.connections c' = s.client.connections c' := by
    intro c' hc'
    rw [← hs']
    exact ⟨Function.update_of_ne hc' _ _,Function.update_of_ne hc' _ _⟩
  have hcarries : ∀ q, (∃ b, (b,q) ∈ bytes) → s.logAnaly.Carries c q := by
    rintro q ⟨b,hb⟩
    rw [hbytes] at hb
    exact mem_carried c (Or.inr ⟨b,List.mem_of_mem_take hb⟩)
  have howner : ∀ q, requestOwner (decide whole) bytes = some q →
      payload bytes = q.request ∧ (∃ b, (b,q) ∈ bytes) ∧ s.logAnaly.Carries c q := by
    intro q hq
    rw [requestOwner] at hq
    split at hq
    · obtain ⟨-,hpayload,hb⟩ := frameOwner_eq hq
      exact ⟨hpayload,hb,hcarries q hb⟩
    · cases hq
  have hid : ∀ x, (requestOwner (decide whole) bytes).map Caller.webserver = some x →
      ∃ q, x = .webserver q ∧ requestOwner (decide whole) bytes = some q := by
    intro x hx
    obtain ⟨q,hq,rfl⟩ := Option.map_eq_some_iff.mp hx
    exact ⟨q,rfl,hq⟩
  have habs : s'.logAnaly = s.logAnaly := by
    refine logAnaly_congr (c := c) (by rw [← hs']; rfl) hother ?_ ?_
    · rw [hsocket, hconn, hpc]
      change bytes ++ (s.client.connections c).toServer.drop n = (s.client.connections c).toServer
      rw [hbytes, List.take_append_drop]
    · rw [hsocket, hconn, hpc]
      rfl
  have hkeeper : s'.keeper = s.keeper.ask (.socket c) ((requestOwner (decide whole) bytes).map .webserver)
      (.command (payload bytes)) := by
    rw [← hs']
  have hsame : s'.history = s.history ++ [] := by
    rw [← hs', List.append_nil]
    rfl
  obtain ⟨k,hk⟩ := h.atomic
  have hatomic : s'.keeper.Atomic (suppliedAccesses unpack pack supply) keeper k := by
    rw [hkeeper]
    exact hk.aside (by rw [hplace]; trivial) (show Place.Free (.waiting _ _) from trivial)
  refine h.thread habs hsame (by rw [List.append_nil]) (by rw [List.append_nil]; exact h.timely)
    (fun _ _ hm => by cases hm) (fun m i hm => ?_) ⟨k,hatomic⟩ (by rw [hkeeper]; rfl) (by rw [hkeeper]; rfl)
    (fun c' hc' => hother c' (fun he => hc' (congrArg KeeperThread.socket he))) ?_ ?_ (fun x hx => ?_) (fun q hq => ?_)
  · rw [← hs']
    rw [hsame, List.append_nil] at hm
    exact h.counted m i hm
  · intro c' hc'
    obtain rfl := KeeperThread.socket.inj hc'
    rw [SocketAt, hsocket]
    refine ⟨Or.inl (by rw [hkeeper]; exact Shared.goto_self),?_⟩
    by_cases hw : whole
    · obtain ⟨h4,hle⟩ := hwhole.mp hw
      have hframe : frameLen bytes = prefixLen temp (s.client.connections c').toServer := by
        rw [hbytes, frameLen_take (by omega), prefixLen_eq h4]
      rw [if_pos (decide_eq_true hw), hframe, hbytes, List.length_take, min_eq_left hle, hn]
      exact ⟨Nat.le_add_right 4 _,rfl⟩
    · obtain ⟨hsock,hopened,-⟩ := client_of_logAnaly habs
      rw [if_neg (by simpa using hw), LogAnaly.Closed, hconn, hsock, hopened]
      refine ⟨hready.resolve_left hw,List.drop_eq_nil_of_le ?_⟩
      by_contra hlong
      exact hw (hwhole.mpr (by omega))
  · intro x hx
    obtain ⟨q,rfl,hq⟩ := hid x hx
    obtain ⟨hpayload,-,hc⟩ := howner q hq
    rw [hpayload, hsame, List.append_nil]
    exact h.open hc
  · -- no other thread has the bytes of the call
    obtain ⟨q,rfl,hq⟩ := hid x hx
    obtain ⟨-,-,hc⟩ := howner q hq
    refine Or.inr fun u hu => ?_
    obtain ⟨c',rfl,hb⟩ := h.served u q hu
    obtain rfl := (h.sole.carried c q hc).2.2 c' (mem_carried c' (Or.inl hb))
    rw [hpc] at hb
    obtain ⟨b,hb⟩ := hb
    cases hb
  · obtain ⟨q',hq',ho⟩ := hid _ hq
    obtain rfl := Caller.webserver.inj hq'
    obtain ⟨-,hb,-⟩ := howner q ho
    exact ⟨c,rfl,by rwa [hsocket]⟩

theorem Inv.read (h : s.Inv unpack pack supply keeper) {c : ℕ} {temp : List UInt8}
    (hr : systemStep unpack pack s (.read c temp) = some s') : s'.Inv unpack pack supply keeper := by
  simp only [systemStep] at hr
  split at hr
  · rename_i hpc
    have hplace : s.keeper.threads (.socket c) = .outside := by
      have hc := h.socket c
      rw [SocketAt, hpc] at hc
      exact hc
    split at hr
    · rename_i hready
      split at hr
      · obtain rfl := Option.some_inj.mp hr
        exact h.ended hpc hplace
      · split at hr
        · cases hr
        · rename_i hne hunpack
          exact h.readRequest hpc hplace rfl Iff.rfl hready rfl (Option.some_inj.mp hr)
    · cases hr
  · cases hr

theorem Inv.write (h : s.Inv unpack pack supply keeper) {c k : ℕ} (hr : systemStep unpack pack s (.write c k) = some s') :
    s'.Inv unpack pack supply keeper := by
  simp only [systemStep] at hr
  split at hr
  · rename_i rest hpc hplace
    obtain rfl := Option.some_inj.mp hr
    have hunwritten : ∀ pc : SocketPc, pc = (if rest.drop k = [] then .reading else .writing (rest.drop k)) →
        pc.taken = [] ∧ pc.unwritten = rest.drop k := by
      rintro pc rfl
      split
      · rename_i hnil
        exact ⟨rfl,hnil.symm⟩
      · exact ⟨rfl,rfl⟩
    obtain ⟨htaken,hrest⟩ := hunwritten _ rfl
    refine h.socketStep hplace rfl rfl rfl (logAnaly_congr (c := c) rfl (fun c' hc' => ?_) ?_ ?_) (fun c' hc' => ?_) ?_
    · exact ⟨Function.update_of_ne hc' _ _,Function.update_of_ne hc' _ _⟩
    · simp only [setSocket, setConnection, Function.update_self, htaken, hpc]
      rfl
    · simp only [setSocket, setConnection, Function.update_self, hrest, hpc]
      rw [List.append_assoc, List.take_append_drop]
      rfl
    · exact ⟨Function.update_of_ne hc' _ _,Function.update_of_ne hc' _ _⟩
    · rw [SocketAt]
      simp only [setSocket, Function.update_self]
      split
      all_goals first
        | exact hplace
        | exact Or.inl hplace
        | (rename_i he
           split at he <;> cases he)
  · cases hr

theorem Inv.stop (h : s.Inv unpack pack supply keeper) {c : ℕ} (hr : systemStep unpack pack s (.stop c) = some s') :
    s'.Inv unpack pack supply keeper := by
  simp only [systemStep] at hr
  split at hr
  · rename_i hpc
    split at hr
    · obtain rfl := Option.some_inj.mp hr
      have hplace := h.socket c
      rw [SocketAt, hpc] at hplace
      exact h.ended hpc hplace
    · cases hr
  · cases hr

/-- `main` or `qps_thread` starts to wait for the mutex. -/
theorem Inv.ask (h : s.Inv unpack pack supply keeper) {call : KeeperCall} (ht : ∀ c, t ≠ .socket c)
    (hr : s.ask t call = some s') : s'.Inv unpack pack supply keeper := by
  rw [System.ask] at hr
  split at hr
  · rename_i hplace
    obtain rfl := Option.some_inj.mp hr
    have hnew : ∀ j, Mark.call (.keeper s.calls) j ∉ s.history := fun j hj => lt_irrefl _ (h.counted _ j hj)
    have hfresh : ∀ e ∈ effects s.history, e.id ≠ some (.keeper s.calls) := fun e he hid =>
      hnew e.input (h.timely.called he hid)
    obtain ⟨k,hk⟩ := h.atomic
    have hatomic : (s.keeper.ask t (some (.keeper s.calls)) call).Atomic (suppliedAccesses unpack pack supply) keeper k :=
      hk.aside (by rw [hplace]; trivial) (show Place.Free (.waiting _ _) from trivial)
    refine h.thread rfl rfl effects_call (h.timely.call hnew) (fun q i hq => ?_) (fun n i hn => ?_) ⟨k,hatomic⟩ rfl rfl
      (fun _ _ => ⟨rfl,rfl⟩) (fun c hc => absurd hc.symm (ht c)) ?_ (fun x hx => ?_) (fun q hq => ?_)
    · cases List.mem_singleton.mp hq
    · rcases List.mem_append.mp hn with hn | hn
      · exact Nat.lt_succ_of_lt (h.counted n i hn)
      · cases List.mem_singleton.mp hn
        exact Nat.lt_succ_self _
    · intro x hx
      obtain rfl := Option.some_inj.mp hx
      refine ⟨List.mem_append_right _ (List.mem_singleton_self _),fun e he => ?_⟩
      have he : e ∈ effects s.history := effects_call ▸ he
      exact hfresh e he
    · obtain rfl := Option.some_inj.mp hx
      refine Or.inr fun u hu => ?_
      have hmark : ∃ j, Mark.call (.keeper s.calls) j ∈ s.history := by
        have hm := h.marked u
        cases hp : s.keeper.threads u <;> rw [hp] at hm hu
        case waiting id i => exact ⟨i,(hm _ hu).1⟩
        case inside id i pc => exact ⟨i,(hm _ hu).1⟩
        all_goals cases hu
      obtain ⟨j,hj⟩ := hmark
      exact hnew j hj
    · cases Option.some_inj.mp hq
  · cases hr

/-! ### Steps at the mutex -/

/-- A thread at the mutex moves on without an effect. -/
theorem Inv.moved (h : s.Inv unpack pack supply keeper) {shared : Shared KeeperThread HouseKeeper Caller KeeperCall (List UInt8) KeeperPc}
    {place : Place Caller KeeperCall (List UInt8) KeeperPc} {marks : List (Mark Caller KeeperCall (List UInt8))}
    (hatomic : ∃ k, shared.Atomic (suppliedAccesses unpack pack supply) keeper k) (hdone : shared.done = s.keeper.done)
    (hthreads : shared.threads = Function.update s.keeper.threads t place)
    (heffects : effects (s.history ++ marks) = effects s.history) (htimely : Timely (s.history ++ marks))
    (hmarks : ∀ q i, .call q i ∉ marks) (hplace : place.Marked (s.history ++ marks))
    (hnext : (∃ id i, (s.keeper.threads t).On id i ∧ place.On id i) ∨
      ∃ id r, s.keeper.threads t = .leaving id r ∧ place = .outside) :
    ({ s with keeper := shared }.mark marks).Inv unpack pack supply keeper := by
  have hpending : ∀ q, place.pending = some q → (s.keeper.threads t).pending = some q := by
    intro q hq
    rcases hnext with ⟨id,i,hon,hon'⟩ | ⟨id,r,-,rfl⟩
    · rw [hon.pending, ← hon'.pending, hq]
    · cases hq
  refine h.thread rfl rfl heffects htimely (fun _ _ => hmarks _ _) (fun n i hn => ?_) hatomic hdone hthreads
    (fun _ _ => ⟨rfl,rfl⟩) (fun c hc => ?_) hplace (fun q hq => Or.inl (hpending q hq))
    (fun q hq => h.served t q (hpending _ hq))
  · exact h.counted n i ((List.mem_append.mp hn).resolve_right (hmarks _ _))
  · subst hc
    have hself : shared.threads (.socket c) = place := by rw [hthreads, Function.update_self]
    have hc := h.socket c
    rw [SocketAt] at hc ⊢
    change (match s.sockets c with
      | .reading => _
      | .ended => _
      | .writing _ => _
      | .commanding whole bytes => _)
    rcases hnext with ⟨id,i,hon,hon'⟩ | ⟨id,r,hleave,rfl⟩
    · have hbusy : s.keeper.threads (.socket c) ≠ .outside := by
        rcases hon with ho | ⟨pc,ho⟩ <;> rw [ho] <;> exact fun he => by cases he
      cases hpc : s.sockets c with rw [hpc] at hc
      | reading => exact absurd hc hbusy
      | ended => exact absurd hc hbusy
      | writing rest =>
        rcases hc with hout | ⟨id',r',hleave⟩
        · exact absurd hout hbusy
        · rw [hleave] at hon
          rcases hon with ho | ⟨pc,ho⟩ <;> cases ho
      | commanding whole bytes =>
        obtain ⟨hon₀,hrest⟩ := hc
        obtain ⟨hid,hi⟩ := hon.unique hon₀
        refine ⟨?_,hrest⟩
        change (shared.threads (.socket c)).On _ _
        rw [hself, hid, hi]
        exact hon'
    · cases hpc : s.sockets c with rw [hpc, hleave] at hc
      | reading => cases hc
      | ended => cases hc
      | writing rest => exact Or.inl hself
      | commanding whole bytes => rcases hc.1 with ho | ⟨pc,ho⟩ <;> cases ho

theorem Inv.unmarked (h : s.Inv unpack pack supply keeper)
    {shared : Shared KeeperThread HouseKeeper Caller KeeperCall (List UInt8) KeeperPc}
    {place : Place Caller KeeperCall (List UInt8) KeeperPc}
    (hatomic : ∃ k, shared.Atomic (suppliedAccesses unpack pack supply) keeper k) (hdone : shared.done = s.keeper.done)
    (hthreads : shared.threads = Function.update s.keeper.threads t place) (hplace : place.Marked s.history)
    (hnext : (∃ id i, (s.keeper.threads t).On id i ∧ place.On id i) ∨
      ∃ id r, s.keeper.threads t = .leaving id r ∧ place = .outside) :
    ({ s with keeper := shared } : System).Inv unpack pack supply keeper := by
  have hnone : s.history ++ [] = s.history := List.append_nil _
  have hmoved := h.moved hatomic hdone hthreads (congrArg effects hnone) (hnone.symm ▸ h.timely)
    (fun _ _ hm => by cases hm) (hnone.symm ▸ hplace) hnext
  rw [mark, hnone] at hmoved
  exact hmoved

/-- No two threads are to do the same call. -/
theorem Inv.apart (h : s.Inv unpack pack supply keeper) {u : KeeperThread} {q : Caller} (ht : (s.keeper.threads t).pending = some q)
    (hu : (s.keeper.threads u).pending = some q) : t = u := by
  cases q with
  | keeper n => exact h.own t n ht u hu
  | webserver q =>
    obtain ⟨c,rfl,hb⟩ := h.served t q ht
    obtain ⟨c',rfl,hb'⟩ := h.served u q hu
    rw [(h.sole.carried c' q (mem_carried c' (Or.inl hb'))).2.2 c (mem_carried c (Or.inl hb))]

/-- The call of a thread takes effect. -/
theorem Inv.finished (h : s.Inv unpack pack supply keeper) {id : Option Caller} {i : KeeperCall} {r : List UInt8} {pc : KeeperPc}
    (hplace : s.keeper.threads t = .inside id i pc) (hclient : s'.logAnaly.Inv) (hsole : s'.logAnaly.Sole)
    (hatomic : ∃ k, s'.keeper.Atomic (suppliedAccesses unpack pack supply) keeper k) (hdone : s'.keeper.done = s.keeper.done ++ [⟨id,i,r⟩])
    (hthreads : s'.keeper.threads = Function.update s.keeper.threads t (.leaving id r))
    (hhistory : s'.history = s.history ++ [.effect ⟨id,i,r⟩]) (hcalls : s'.calls = s.calls)
    (hsame : s'.client.threads = s.client.threads ∧ s'.client.calls = s.client.calls ∧
      ∀ c, s'.client.Closed c ↔ s.client.Closed c)
    (hcarries : ∀ c q, s'.logAnaly.Carries c q → s.logAnaly.Carries c q)
    (hsockets : ∀ c, .socket c ≠ t → s'.sockets c = s.sockets c ∧ s'.client.connections c = s.client.connections c)
    (hself : ∀ c, .socket c = t → s'.SocketAt c)
    (hanswers : ∀ q x, (some q,x) ∈ s'.client.answers ↔
      (some q,x) ∈ s.client.answers ∨ (id = some (.webserver q) ∧ x = r)) : s'.Inv unpack pack supply keeper := by
  have hmem : ∀ m ∈ s.history, m ∈ s'.history := fun m hm => by
    rw [hhistory]
    exact List.mem_append_left _ hm
  have heffects : effects s'.history = effects s.history ++ [⟨id,i,r⟩] := by rw [hhistory, effects_effect]
  have hback : ∀ q j, .call q j ∈ s'.history → .call q j ∈ s.history := fun q j hq => by
    rw [hhistory] at hq
    exact (List.mem_append.mp hq).resolve_right fun hm => by cases List.mem_singleton.mp hm
  have hpend : ∀ u q, (s'.keeper.threads u).pending = some q → u ≠ t ∧ (s.keeper.threads u).pending = some q := by
    intro u q hu
    rw [hthreads, Function.update_apply] at hu
    split at hu
    · cases hu
    · rename_i hut
      exact ⟨hut,hu⟩
  have hmark := h.marked t
  rw [hplace] at hmark
  constructor
  · exact hclient
  · exact hsole
  · exact hatomic
  · rw [heffects, h.done, hdone]
  · rw [hhistory]
    exact h.timely.effect (fun q hq => (hmark q hq).1) (fun q hq => (hmark q hq).2)
  · intro c
    by_cases hct : KeeperThread.socket c = t
    · exact hself c hct
    · obtain ⟨hpc,hconn⟩ := hsockets c hct
      have hc := h.socket c
      rw [SocketAt] at hc ⊢
      rw [hpc, hconn, hthreads, Function.update_of_ne hct]
      simp only [hsame.2.2]
      exact hc
  · intro u
    rw [hthreads, Function.update_apply]
    split
    · intro q hq
      exact ⟨i,by rw [heffects, hq]; exact List.mem_append_right _ (List.mem_singleton_self _)⟩
    · rename_i hut
      refine (h.marked u).mono hmem fun e he => ?_
      rw [heffects] at he
      rcases List.mem_append.mp he with he | he
      · exact Or.inl he
      · obtain rfl := List.mem_singleton.mp he
        refine Or.inr fun q hq hid => hut ?_
        exact h.apart hq (by rw [hplace]; exact hid)
  · intro u n hu v hv
    exact h.own u n (hpend u _ hu).2 v (hpend v _ hv).2
  · intro u q hu
    obtain ⟨hut,hu⟩ := hpend u _ hu
    obtain ⟨c,rfl,hb⟩ := h.served u q hu
    exact ⟨c,rfl,by rwa [(hsockets c hut).1]⟩
  · rw [hsame.1]
    exact fun u q hu => hmem _ (h.asked u q hu)
  · exact fun c q hc => hmem _ (h.carried c q (hcarries c q hc))
  · rw [hsame.2.1]
    exact fun q j hq => h.numbered q j (hback _ j hq)
  · rw [hcalls]
    exact fun n j hn => h.counted n j (hback _ j hn)
  · intro q x hx
    rw [heffects]
    rcases (hanswers q x).mp hx with hx | ⟨hid,rfl⟩
    · obtain ⟨j,hj⟩ := h.answers q x hx
      exact ⟨j,List.mem_append_left _ hj⟩
    · exact ⟨i,by rw [hid]; exact List.mem_append_right _ (List.mem_singleton_self _)⟩
  · intro e he q hq
    rw [heffects] at he
    refine (hanswers q e.result).mpr ?_
    rcases List.mem_append.mp he with he | he
    · exact Or.inl (h.effected e he q hq)
    · obtain rfl := List.mem_singleton.mp he
      exact Or.inr ⟨hq,rfl⟩

/-- The reply to a request is on its way from the last access on. -/
theorem Inv.finishSocket (h : s.Inv unpack pack supply keeper)
    {shared : Shared KeeperThread HouseKeeper Caller KeeperCall (List UInt8) KeeperPc} {c : ℕ} {id : Option Caller}
    {i : KeeperCall} {r : List UInt8} {pc : KeeperPc} (hplace : s.keeper.threads (.socket c) = .inside id i pc)
    (hatomic : ∃ k, shared.Atomic (suppliedAccesses unpack pack supply) keeper k) (hdone : shared.done = s.keeper.done ++ [⟨id,i,r⟩])
    (hthreads : shared.threads = Function.update s.keeper.threads (.socket c) (.leaving id r)) (hr : r.length < 2 ^ 32) :
    (({ s with keeper := shared } : System).finish (.socket c) ⟨id,i,r⟩).Inv unpack pack supply keeper := by
  have hc := h.socket c
  rw [SocketAt, hplace] at hc
  cases hpc : s.sockets c with rw [hpc] at hc
  | reading => cases hc
  | ended => cases hc
  | writing rest => rcases hc with hout | ⟨id',r',hleave⟩ <;> contradiction
  | commanding whole bytes =>
    obtain ⟨hon,hframe⟩ := hc
    have hid : id = (requestOwner whole bytes).map .webserver := by
      rcases hon with ho | ⟨pc',ho⟩ <;> cases ho
      rfl
    have hq : id.bind Caller.request? = requestOwner whole bytes := by
      rw [hid]
      cases requestOwner whole bytes <;> rfl
    obtain ⟨s',hs'⟩ : ∃ s', ({ s with keeper := shared } : System).finish (.socket c) ⟨id,i,r⟩ = s' := ⟨_,rfl⟩
    have hfields : s' = ({ s with
        keeper := shared
        client := { s.client with answers := s.client.answers ++ [(requestOwner whole bytes,r)] }
        sockets := Function.update s.sockets c (.writing (replyTo (requestOwner whole bytes) r))
        history := s.history ++ [.effect ⟨id,i,r⟩] } : System) := by
      rw [← hs', finish]
      simp only [hq]
      rfl
    rw [hs']
    have hconn : s'.logAnaly.connections = Function.update s.logAnaly.connections c
        ⟨(s.client.connections c).toServer,(s.client.connections c).fromServer ++ replyTo (requestOwner whole bytes) r⟩ := by
      funext c'
      rw [hfields]
      by_cases hc' : c' = c
      · subst hc'
        simp only [logAnaly, LogAnaly.under, Function.update_self]
        rfl
      · simp only [logAnaly, LogAnaly.under, Function.update_of_ne hc']
    have habs : s'.logAnaly = { s.logAnaly with
        connections := Function.update s.logAnaly.connections c
          ⟨(s.client.connections c).toServer,(s.client.connections c).fromServer ++ replyTo (requestOwner whole bytes) r⟩
        answers := s.logAnaly.answers ++ [(requestOwner whole bytes,r)] } := by
      rw [← hconn, hfields]
      rfl
    have hbefore : s.logAnaly.connections c = ⟨bytes ++ (s.client.connections c).toServer,(s.client.connections c).fromServer⟩ := by
      simp only [logAnaly, LogAnaly.under, hpc]
      exact congrArg _ (List.append_nil _)
    have hinv : s'.logAnaly.Inv ∧ s'.logAnaly.Sole := by
      cases whole with
      | true =>
        obtain ⟨h4,hlen⟩ := hframe
        have hn : frameLen (s.logAnaly.connections c).toServer = frameLen bytes := by
          rw [hbefore, frameLen, frameLen, List.take_append_of_le_length h4]
        have hstep : clientStep s.logAnaly (.answer c r) = some s'.logAnaly := by
          rw [clientStep]
          have hno : ¬((s.logAnaly.connections c).toServer.length < 4 ∨
              (s.logAnaly.connections c).toServer.length < 4 + frameLen (s.logAnaly.connections c).toServer ∨
              2 ^ 32 ≤ r.length) := by
            rw [hn, hbefore, List.length_append, ← hlen]
            omega
          rw [if_neg hno, habs, LogAnaly.answer, hn, ← hlen, hbefore]
          simp only [List.take_left, List.drop_left]
          rfl
        exact ⟨h.client.step hstep,h.sole.step h.client hstep⟩
      | false =>
        obtain ⟨hclosed,hnil⟩ := hframe
        rw [habs, hnil]
        exact ⟨h.client.strayed hclosed _ _,h.sole.taken rfl (fun q hq => by cases hq)⟩
    have hcarries : ∀ c' q, s'.logAnaly.Carries c' q → s.logAnaly.Carries c' q := by
      rintro c' q ⟨b,hb⟩
      rw [hconn, Function.update_apply] at hb
      split at hb
      · rename_i hc'
        rw [hc', LogAnaly.Carries, hbefore]
        exact ⟨b,List.mem_append_right _ hb⟩
      · exact ⟨b,hb⟩
    refine h.finished hplace hinv.1 hinv.2 (by rw [hfields]; exact hatomic) (by rw [hfields]; exact hdone)
      (by rw [hfields]; exact hthreads) (by rw [hfields]) (by rw [hfields]) (by rw [hfields]; exact ⟨rfl,rfl,fun _ => Iff.rfl⟩)
      hcarries (fun c' hc' => ?_) (fun c' hc' => ?_) (fun q x => ?_)
    · rw [hfields]
      exact ⟨Function.update_of_ne (fun he => hc' (congrArg KeeperThread.socket he)) _ _,rfl⟩
    · obtain rfl := KeeperThread.socket.inj hc'
      rw [SocketAt, hfields]
      simp only [Function.update_self]
      exact Or.inr ⟨id,r,by rw [hthreads, Function.update_self]⟩
    · rw [hfields]
      change (some q,x) ∈ s.client.answers ++ [(requestOwner whole bytes,r)] ↔ _
      rw [List.mem_append, List.mem_singleton, Prod.mk.injEq, hid]
      cases requestOwner whole bytes with
      | none => simp
      | some q' => simp [eq_comm]

/-- A call of `main` or `qps_thread` takes effect. -/
theorem Inv.finishOwn (h : s.Inv unpack pack supply keeper)
    {shared : Shared KeeperThread HouseKeeper Caller KeeperCall (List UInt8) KeeperPc} {id : Option Caller}
    {i : KeeperCall} {r : List UInt8} {pc : KeeperPc} (hplace : s.keeper.threads t = .inside id i pc)
    (ht : ∀ c, t ≠ .socket c) (hatomic : ∃ k, shared.Atomic (suppliedAccesses unpack pack supply) keeper k)
    (hdone : shared.done = s.keeper.done ++ [⟨id,i,r⟩])
    (hthreads : shared.threads = Function.update s.keeper.threads t (.leaving id r)) :
    (({ s with keeper := shared } : System).finish t ⟨id,i,r⟩).Inv unpack pack supply keeper := by
  have hfinish : ({ s with keeper := shared } : System).finish t ⟨id,i,r⟩ =
      ({ s with keeper := shared } : System).mark [.effect ⟨id,i,r⟩] := by
    cases t with
    | socket c => exact absurd rfl (ht c)
    | main => rfl
    | qps => rfl
  rw [hfinish]
  refine h.finished hplace h.client h.sole hatomic hdone hthreads rfl rfl ⟨rfl,rfl,fun _ => Iff.rfl⟩ (fun _ _ hx => hx)
    (fun _ _ => ⟨rfl,rfl⟩) (fun c hc => absurd hc.symm (ht c)) (fun q x => ?_)
  have hown : id ≠ some (.webserver q) := by
    intro hid
    obtain ⟨c,hc,-⟩ := h.served t q (by rw [hplace]; exact hid)
    exact ht c hc
  exact ⟨Or.inl,fun hx => hx.resolve_right fun hid => hown hid.1⟩

theorem Inv.mutexEvent (h : s.Inv unpack pack supply keeper) {e : MutexEvent KeeperThread KeeperMemory}
    (hsupplied : e.Meets fun memory => supply memory.log.stats)
    (hr : systemStep unpack pack s (.mutex e) = some s') : s'.Inv unpack pack supply keeper := by
  obtain ⟨shared,hshared,rfl⟩ := Option.map_eq_some_iff.mp hr
  obtain ⟨k,hk⟩ := h.atomic
  obtain ⟨k',hk'⟩ := hk.step ((mutexStep_given _ s.keeper hsupplied).trans hshared)
  cases mutexStep_cases hshared with
  | @lock t id i hplace hfree =>
    have hmark := h.marked t
    rw [hplace] at hmark
    simp only [MutexEvent.thread, hplace, Shared.goto_self, settle]
    exact h.unmarked ⟨k',hk'⟩ rfl rfl hmark (Or.inl ⟨id,i,Or.inl hplace,Or.inr ⟨_,rfl⟩⟩)
  | @access t found id i pc pc' state hplace haccess =>
    have hmark := h.marked t
    rw [hplace] at hmark
    simp only [MutexEvent.thread, hplace, Shared.goto_self, settle]
    exact h.unmarked ⟨k',hk'⟩ rfl rfl hmark (Or.inl ⟨id,i,Or.inr ⟨_,hplace⟩,Or.inr ⟨_,rfl⟩⟩)
  | @finish t found id i pc state r hplace haccess =>
    simp only [MutexEvent.thread, hplace, Shared.goto_self, settle]
    cases t with
    | socket c =>
      exact h.finishSocket hplace ⟨k',hk'⟩ rfl rfl (lt_trans (keeperAccess_result haccess) (by norm_num))
    | main => exact h.finishOwn hplace (by simp) ⟨k',hk'⟩ rfl rfl
    | qps => exact h.finishOwn hplace (by simp) ⟨k',hk'⟩ rfl rfl
  | @unlock t id r hplace =>
    have hmark := h.marked t
    rw [hplace] at hmark
    simp only [MutexEvent.thread, hplace, Shared.goto_self]
    have hquiet : ({ s with keeper := { s.keeper with mutex := none }.goto t .outside } : System).Inv unpack pack supply keeper :=
      h.unmarked ⟨k',hk'⟩ rfl rfl trivial (Or.inr ⟨id,r,hplace,rfl⟩)
    rcases id with _ | ⟨q⟩ | ⟨n⟩
    · exact hquiet
    · exact hquiet
    · obtain ⟨i,hi⟩ := hmark _ rfl
      refine h.moved ⟨k',hk'⟩ rfl rfl effects_ret (h.timely.ret hi) (fun q j hq => ?_) trivial (Or.inr ⟨_,r,hplace,rfl⟩)
      cases List.mem_singleton.mp hq

theorem Inv.step (h : s.Inv unpack pack supply keeper) {e : SystemEvent} (hsupplied : e.Supplied supply)
    (hr : systemStep unpack pack s e = some s') :
    s'.Inv unpack pack supply keeper := by
  cases e with
  | client e =>
    cases e with
    | answer c reply => cases hr
    | _ =>
      obtain ⟨client,hclient,rfl⟩ := Option.map_eq_some_iff.mp hr
      exact h.clientEvent (fun _ _ he => by cases he) hclient
  | read c temp => exact h.read hr
  | write c k => exact h.write hr
  | stop c => exact h.stop hr
  | log r => exact h.ask (fun _ he => by cases he) hr
  | tick => exact h.ask (fun _ he => by cases he) hr
  | mutex e => exact h.mutexEvent hsupplied hr

/-- The effects of a run are a serial run. -/
theorem Inv.serial {memory : ViewTreeMemory} (h : s.Inv unpack pack supply (houseKeeperCreate memory)) :
    ∃ keeper, Serial (keeperObject unpack pack supply) (houseKeeperCreate memory) (effects s.history) keeper ∧
      (s.keeper.mutex = none → s.keeper.state = keeper) := by
  obtain ⟨keeper,hatomic⟩ := h.atomic
  refine ⟨keeper,?_,hatomic.idle⟩
  rw [h.done]
  exact (serial_keeperObject (houseKeeperCreate_kept memory) hatomic.serial).1

end Inv

theorem run_inv {unpack : List UInt8 → Option StatsRequest} {pack : Reply → List UInt8} (supply : Bool → Prop)
    [DecidablePred supply] {memory : ViewTreeMemory} {events : List SystemEvent} {s : System}
    (hsupplied : ∀ e ∈ events, e.Supplied supply) (h : run (systemStep unpack pack) (systemCreate memory) events = some s) :
    s.Inv unpack pack supply (houseKeeperCreate memory) :=
  run_induction (P := fun _ s => s.Inv unpack pack supply (houseKeeperCreate memory)) (create_inv memory)
    (fun _ _ _ _ h hsupplied hr => h.step hsupplied hr) (.of_forall hsupplied) h

end System

/-- However the threads of the webserver and of the log server are interleaved, down to the
single accesses to the keeper, the requests that were answered, the calls of `log_handle`
and the rounds of `qps_thread` are linearized by the order in which they took effect: one
after the other they give the same replies, none takes effect twice, each does so after it
was made and before it returns, and an idle keeper is what they make of it. -/
theorem system_linearizable (unpack : List UInt8 → Option StatsRequest) (pack : Reply → List UInt8)
    (memory : ViewTreeMemory) (events : List SystemEvent) (s : System)
    (h : run (systemStep unpack pack) (systemCreate memory) events = some s) :
    ∃ keeper, Linearizes (keeperObject unpack pack fun _ => True) (houseKeeperCreate memory) (observed s.history)
      (effects s.history) keeper ∧ (s.keeper.mutex = none → s.keeper.state = keeper) := by
  have hsupplied : ∀ e ∈ events, e.Supplied fun _ => True := by
    rintro (_ | _ | _ | _ | _ | _ | _ | _ | _) -
    all_goals trivial
  have hinv := System.run_inv (fun _ => True) hsupplied h
  obtain ⟨keeper,hserial,hidle⟩ := hinv.serial
  exact ⟨keeper,hinv.timely.linearizes hserial,hidle⟩

/-! ## The views are asked for while a line of the log is recorded -/

/-- The message with the key "views" and the view "*", as it is packed. -/
def viewsMessage : List UInt8 := 18 :: 5 :: (text "views").bytes ++ 26 :: 1 :: (text "*").bytes

def unpackViews (bytes : List UInt8) : Option StatsRequest :=
  if bytes = viewsMessage then some ⟨text "views",text "*",0⟩ else none

/-- The reply to it, as it is packed where the names are short. -/
def packViews : Reply → List UInt8
  | .stats reply => 18 :: 5 :: (text "views").bytes ++ reply.name.flatMap fun name => 50 :: UInt8.ofNat name.strlen :: name.bytes
  | _ => []

def oneRequest : List SystemEvent :=
  [.client (.call 0 viewsMessage),.log ⟨text "v",text "w.",text "10.0.0.1",text "A",text "NOERROR"⟩,.mutex (.lock .main),
    .client (.acquire 0),.client (.sendSize 0),.client (.sendBody 0 10),.read 0 [0,0,0,0]] ++
  List.replicate 8 (.mutex (.access .main ⟨plentyOfMemory,fun _ => 1,staleViews 0⟩)) ++
  [.mutex (.unlock .main),.mutex (.lock (.socket 0)),.mutex (.access (.socket 0) ⟨plentyOfMemory,fun _ => 1,staleViews 0⟩),
    .mutex (.access (.socket 0) ⟨plentyOfMemory,fun _ => 1,staleViews 0⟩),.mutex (.unlock (.socket 0)),.write 0 14,
    .client (.readSize 0 4),.client (.readBuf 0 10),.client (.parse 0 true),.client (.release 0)]

theorem system_linearizable_views : ∃ s, run (systemStep unpackViews packViews) (systemCreate (staleViews 0)) oneRequest = some s ∧
    s.client.returned.map (fun p => p.2.map Prod.fst) = [frame (18 :: 5 :: (text "views").bytes ++ 50 :: 1 :: (text "v").bytes)] ∧
    ∃ keeper, Linearizes (keeperObject unpackViews packViews fun _ => True) (houseKeeperCreate (staleViews 0))
      (observed s.history) (effects s.history) keeper ∧ (s.keeper.mutex = none → s.keeper.state = keeper) := by
  have hrun : (run (systemStep unpackViews packViews) (systemCreate (staleViews 0)) oneRequest).map (fun s =>
      s.client.returned.map (fun p => p.2.map Prod.fst)) =
      some [frame (18 :: 5 :: (text "views").bytes ++ 50 :: 1 :: (text "v").bytes)] := by
    decide +kernel
  obtain ⟨s,hs,hreturned⟩ := Option.map_eq_some_iff.mp hrun
  exact ⟨s,hs,hreturned,system_linearizable unpackViews packViews (staleViews 0) oneRequest s hs⟩

end LogStats
