import LogStats.Client.Requests

/-! # No request is answered twice

The bytes of a call are on one connection at most, and they are gone once the server has
read them. A connection that was given up may still carry a frame, so that a request can
be answered behind the return of its call, but no more than once.
-/
namespace LogStats

/-- The call that a thread works on. -/
def Pc.owner : Pc → Option Call
  | .outside => none
  | .waiting q => some q
  | .reconnect q _ => some q
  | .sendSize q => some q
  | .sendBody q => some q
  | .readSize q => some q
  | .readBuf q _ _ _ => some q
  | .leave q => some q

/-- The call of a thread that has sent no byte yet. -/
def Pc.unsent : Pc → Option Call
  | .waiting q => some q
  | .reconnect q _ => some q
  | .sendSize q => some q
  | _ => none

theorem Pc.owner_of_unsent {pc : Pc} {q : Call} (h : pc.unsent = some q) : pc.owner = some q := by
  cases pc <;> first | exact h | cases h

namespace LogAnaly

/-- The server has bytes of `q` to read on the connection `c`. -/
def Carries (s : LogAnaly) (c : ℕ) (q : Call) : Prop := ∃ b, (b,q) ∈ (s.connections c).toServer

def Unanswered (s : LogAnaly) (q : Call) : Prop := ∀ p ∈ s.answers, p.1 ≠ some q

/-- What the server has to read on a connection is the beginning of one frame. -/
def Begun (s : LogAnaly) (c : ℕ) : Prop :=
  ∃ (q : Call) (k : ℕ), (q.request.length < 2 ^ 32 ∨ k ≤ 4) ∧ (s.connections c).toServer = q.sent ((frame q.request).take k)

structure Sole (s : LogAnaly) : Prop where
  made : ∀ t q, (s.threads t).owner = some q → q.id < s.calls
  distinct : ∀ t u q, (s.threads t).owner = some q → (s.threads u).owner = some q → t = u
  begun : ∀ c, s.Begun c
  carried : ∀ c q, s.Carries c q → q.id < s.calls ∧ s.Unanswered q ∧ ∀ c', s.Carries c' q → c' = c
  unsent : ∀ t q, (s.threads t).unsent = some q → s.Unanswered q ∧ ∀ c, ¬s.Carries c q
  once : (s.answers.filterMap Prod.fst).Nodup
  answered : ∀ p ∈ s.answers, ∀ q, p.1 = some q → q.id < s.calls

section Steps
variable {s s' : LogAnaly} {t c k : ℕ} {pc : Pc} {q : Call} {bytes : List UInt8}

theorem create_sole : logAnalyCreate.Sole where
  made _ _ h := by cases h
  distinct _ _ _ h := by cases h
  begun _ := ⟨⟨0,[]⟩,0,Or.inr (Nat.zero_le 4),rfl⟩
  carried _ _ h := by
    obtain ⟨_,h⟩ := h
    cases h
  unsent _ _ h := by cases h
  once := List.nodup_nil
  answered _ h := by cases h

theorem goto_threads (s : LogAnaly) (t : ℕ) (pc : Pc) (u : ℕ) :
    (s.goto t pc).threads u = if u = t then pc else s.threads u := Function.update_apply _ _ _ _

/-- A step of a thread that sends nothing. -/
theorem Sole.goto (h : s.Sole) (hthreads : s'.threads = s.threads) (hcalls : s'.calls = s.calls)
    (hanswers : s'.answers = s.answers) (hto : ∀ c, (s'.connections c).toServer = (s.connections c).toServer)
    (howner : ∀ q, pc.owner = some q → (s.threads t).owner = some q)
    (hunsent : ∀ q, pc.unsent = some q → (s.threads t).unsent = some q) : (s'.goto t pc).Sole := by
  have hcarries : ∀ c q, (s'.goto t pc).Carries c q ↔ s.Carries c q := fun c q => by
    rw [Carries, Carries]
    change (∃ b, (b,q) ∈ (s'.connections c).toServer) ↔ _
    rw [hto]
  have hopen : ∀ q, (s'.goto t pc).Unanswered q ↔ s.Unanswered q := fun q => by
    rw [Unanswered, Unanswered]
    change (∀ p ∈ s'.answers, _) ↔ _
    rw [hanswers]
  have hnow : ∀ u q, ((s'.goto t pc).threads u).owner = some q → (s.threads u).owner = some q := fun u q hu => by
    rw [goto_threads, hthreads] at hu
    split at hu
    · rename_i hut
      rw [hut]
      exact howner q hu
    · exact hu
  constructor
  · intro u q hu
    exact hcalls ▸ h.made u q (hnow u q hu)
  · exact fun u v q hu hv => h.distinct u v q (hnow u q hu) (hnow v q hv)
  · intro c
    obtain ⟨q,k,hk,hbytes⟩ := h.begun c
    exact ⟨q,k,hk,(hto c).trans hbytes⟩
  · intro c q hc
    obtain ⟨hid,hq,hother⟩ := h.carried c q ((hcarries c q).mp hc)
    exact ⟨hcalls ▸ hid,(hopen q).mpr hq,fun c' hc' => hother c' ((hcarries c' q).mp hc')⟩
  · intro u q hu
    have hbefore : (s.threads u).unsent = some q := by
      rw [goto_threads, hthreads] at hu
      split at hu
      · rename_i hut
        rw [hut]
        exact hunsent q hu
      · exact hu
    obtain ⟨hq,hnone⟩ := h.unsent u q hbefore
    exact ⟨(hopen q).mpr hq,fun c hc => hnone c ((hcarries c q).mp hc)⟩
  · change (s'.answers.filterMap Prod.fst).Nodup
    rw [hanswers]
    exact h.once
  · change ∀ p ∈ s'.answers, ∀ q, p.1 = some q → q.id < s'.calls
    rw [hanswers, hcalls]
    exact h.answered

theorem send_toServer (s : LogAnaly) (c : ℕ) (bytes : List (UInt8 × Call)) (c' : ℕ) :
    ((s.send c bytes).connections c').toServer =
      if c' = c then (s.connections c).toServer ++ bytes else (s.connections c').toServer := by
  rw [send]
  by_cases hc : c' = c
  · rw [if_pos hc, hc]
    simp only [Function.update_self]
  · simp only [Function.update_of_ne hc, if_neg hc]

/-- A thread sends bytes of its call, which are on no other connection. -/
theorem Sole.send (h : s.Sole) (howner : (s.threads t).owner = some q) (hbegun : (s.send c (q.sent bytes)).Begun c)
    (hq : s.Unanswered q) (halone : ∀ c', s.Carries c' q → c' = c) (hpc : pc.owner = some q) (hsent : pc.unsent = none) :
    ((s.send c (q.sent bytes)).goto t pc).Sole := by
  have hcarries : ∀ c' r, ((s.send c (q.sent bytes)).goto t pc).Carries c' r → s.Carries c' r ∨ (c' = c ∧ r = q) := by
    rintro c' r ⟨b,hb⟩
    change (b,r) ∈ ((s.send c (q.sent bytes)).connections c').toServer at hb
    rw [send_toServer] at hb
    split at hb
    · rename_i hc
      rcases List.mem_append.mp hb with hb | hb
      · exact Or.inl ⟨b,by rwa [hc]⟩
      · obtain ⟨_,-,he⟩ := List.mem_map.mp hb
        exact Or.inr ⟨hc,(Prod.mk.inj he).2.symm⟩
    · exact Or.inl ⟨b,hb⟩
  have hnow : ∀ u r, (((s.send c (q.sent bytes)).goto t pc).threads u).owner = some r → (s.threads u).owner = some r := by
    intro u r hu
    rw [goto_threads] at hu
    split at hu
    · rename_i hut
      rw [hut, howner, ← hpc, hu]
    · exact hu
  constructor
  · exact fun u r hu => h.made u r (hnow u r hu)
  · exact fun u v r hu hv => h.distinct u v r (hnow u r hu) (hnow v r hv)
  · intro c'
    by_cases hc : c' = c
    · rw [hc]
      exact hbegun
    · obtain ⟨r,k,hk,hbytes⟩ := h.begun c'
      refine ⟨r,k,hk,Eq.trans ?_ hbytes⟩
      exact (send_toServer s c (q.sent bytes) c').trans (if_neg hc)
  · intro c' r hr
    rcases hcarries c' r hr with hold | ⟨rfl,rfl⟩
    · obtain ⟨hid,hr',hother⟩ := h.carried c' r hold
      refine ⟨hid,hr',fun c'' hc'' => ?_⟩
      rcases hcarries c'' r hc'' with hold' | ⟨rfl,rfl⟩
      · exact hother c'' hold'
      · exact (halone c' hold).symm
    · refine ⟨h.made t r howner,hq,fun c'' hc'' => ?_⟩
      rcases hcarries c'' r hc'' with hold' | ⟨rfl,-⟩
      · exact halone c'' hold'
      · rfl
  · intro u r hu
    rw [goto_threads] at hu
    split at hu
    · rw [hsent] at hu
      cases hu
    · rename_i hut
      obtain ⟨hr,hnone⟩ := h.unsent u r hu
      refine ⟨hr,fun c' hc' => ?_⟩
      rcases hcarries c' r hc' with hold | ⟨-,rfl⟩
      · exact hnone c' hold
      · exact hut (h.distinct u t r (Pc.owner_of_unsent hu) howner)
  · exact h.once
  · exact h.answered

theorem Sole.disconnect (h : s.Sole) : s.disconnect.Sole :=
  ⟨h.made,h.distinct,h.begun,h.carried,h.unsent,h.once,h.answered⟩

/-- Nothing that is not asked for yet is begun with its size. -/
theorem Sole.sendSize (h : s.Sole) (hpc : s.threads t = .sendSize q) (hclean : (s.connections c).toServer = [])
    (hk : k ≤ 4) (hown : pc.owner = some q) (hsent : pc.unsent = none) :
    ((s.send c (q.sent ((beBytes q.request.length).take k))).goto t pc).Sole := by
  obtain ⟨hq,hnone⟩ := h.unsent t q (by rw [hpc]; rfl)
  refine h.send (by rw [hpc]; rfl) ⟨q,k,Or.inr hk,?_⟩ hq (fun c' hc' => absurd hc' (hnone c')) hown hsent
  rw [send_toServer, if_pos rfl, hclean, List.nil_append, frame, List.take_append_of_le_length]
  rw [length_beBytes]
  exact hk

/-- Nothing is sent of a request behind its end, and the rest goes behind its size. -/
theorem Sole.sendBody (h : s.Sole) (hpc : s.threads t = .sendBody q)
    (hsent : s.Asked q c 4 ∨ (q.request = [] ∧ s.Replied q c)) (hown : pc.owner = some q) (hnext : pc.unsent = none) :
    ((s.send c (q.sent (q.request.take k))).goto t pc).Sole := by
  rcases hsent with ⟨hlen,hconn⟩ | ⟨hnil,hto,-⟩
  · have hto : (s.connections c).toServer = q.sent (beBytes q.request.length) := by
      rw [hconn, frame]
      exact congrArg q.sent (List.take_left' (length_beBytes _))
    have hcarries : s.Carries c q := by
      have hne : beBytes q.request.length ≠ [] := List.ne_nil_of_length_eq_add_one (length_beBytes _)
      obtain ⟨b,rest,hb⟩ := List.exists_cons_of_ne_nil hne
      exact ⟨b,by rw [hto, hb]; exact List.mem_cons_self⟩
    obtain ⟨-,hq,halone⟩ := h.carried c q hcarries
    refine h.send (by rw [hpc]; rfl) ⟨q,4 + k,Or.inl hlen,?_⟩ hq halone hown hnext
    rw [send_toServer, if_pos rfl, hto, frame, ← length_beBytes q.request.length, List.take_length_add_append, Call.sent,
      Call.sent, Call.sent, List.map_append]
  · have hsame : s.send c (q.sent (q.request.take k)) = s := by
      rw [hnil, LogAnaly.send]
      simp [Call.sent]
    rw [hsame]
    refine h.goto rfl rfl rfl (fun _ => rfl) (fun r hr => ?_) (fun r hr => ?_)
    · rw [hpc, ← hr, hown]
      rfl
    · rw [hnext] at hr
      cases hr

/-- What is read of a frame leaves nothing of the call behind. -/
theorem Begun.frame (h : s.Begun c) (h4 : 4 ≤ (s.connections c).toServer.length)
    (hall : 4 + frameLen (s.connections c).toServer ≤ (s.connections c).toServer.length) :
    (s.connections c).toServer.drop (4 + frameLen (s.connections c).toServer) = [] := by
  obtain ⟨q,k,hk,hbytes⟩ := h
  rcases hk with hlen | hk
  · exact (asked_frame hlen hbytes h4 hall).2
  · apply List.drop_eq_nil_of_le
    rw [hbytes, length_sent, List.length_take] at h4 ⊢
    omega

theorem Carries.of_frameOwner {n : ℕ} (h : frameOwner ((s.connections c).toServer.take n) = some q) : s.Carries c q := by
  obtain ⟨⟨b,q'⟩,hhead,hq⟩ := Option.bind_eq_some_iff.mp h
  simp only at hq
  split at hq
  · obtain rfl := Option.some_inj.mp hq
    exact ⟨b,List.mem_of_mem_take (List.mem_of_mem_head? hhead)⟩
  · cases hq

/-- The server takes what there is on a connection, and answers it for a call that it
carries or for none. -/
theorem Sole.taken (h : s.Sole) {conn : Connection} {p : Option Call × List UInt8} (hnil : conn.toServer = [])
    (hp : ∀ q, p.1 = some q → s.Carries c q) :
    Sole { s with connections := Function.update s.connections c conn, answers := s.answers ++ [p] } := by
  have hcarries : ∀ c' r, Carries { s with connections := Function.update s.connections c conn, answers := s.answers ++ [p] } c' r →
      c' ≠ c ∧ s.Carries c' r := by
    rintro c' r ⟨b,hb⟩
    by_cases hc : c' = c
    · rw [hc] at hb
      simp only [Function.update_self, hnil] at hb
      cases hb
    · simp only [Function.update_of_ne hc] at hb
      exact ⟨hc,b,hb⟩
  have hopen : ∀ r, s.Unanswered r → p.1 ≠ some r →
      Unanswered { s with connections := Function.update s.connections c conn, answers := s.answers ++ [p] } r := by
    intro r hr hp' x hx
    rcases List.mem_append.mp hx with hx | hx
    · exact hr x hx
    · rwa [List.mem_singleton.mp hx]
  constructor
  · exact h.made
  · exact h.distinct
  · intro c'
    by_cases hc : c' = c
    · refine ⟨⟨0,[]⟩,0,Or.inr (Nat.zero_le 4),?_⟩
      rw [hc]
      simp only [Function.update_self, hnil]
      rfl
    · obtain ⟨r,k,hk,hbytes⟩ := h.begun c'
      refine ⟨r,k,hk,?_⟩
      simp only [Function.update_of_ne hc]
      exact hbytes
  · intro c' r hr
    obtain ⟨hc,hold⟩ := hcarries c' r hr
    obtain ⟨hid,hr',hother⟩ := h.carried c' r hold
    refine ⟨hid,hopen r hr' fun hp' => hc (hother c (hp r hp')).symm,fun c'' hc'' => hother c'' (hcarries c'' r hc'').2⟩
  · intro u r hu
    obtain ⟨hr,hnone⟩ := h.unsent u r hu
    exact ⟨hopen r hr fun hp' => hnone c (hp r hp'),fun c' hc' => hnone c' (hcarries c' r hc').2⟩
  · rw [List.filterMap_append, List.nodup_append]
    refine ⟨h.once,?_,?_⟩
    · cases hfst : p.1 with
      | none => simp [List.filterMap, hfst]
      | some r => simp [List.filterMap, hfst]
    · rintro r hold r' hnew rfl
      obtain ⟨x,hx,hxr⟩ := List.mem_filterMap.mp hold
      obtain ⟨y,hy,hyr⟩ := List.mem_filterMap.mp hnew
      rw [List.mem_singleton.mp hy] at hyr
      exact (h.carried c r (hp r hyr)).2.1 x hx hxr
  · intro x hx r hr
    rcases List.mem_append.mp hx with hx | hx
    · exact h.answered x hx r hr
    · rw [List.mem_singleton.mp hx] at hr
      exact (h.carried c r (hp r hr)).1

/-- A call is made: its number is new. -/
theorem Sole.call (h : s.Sole) (request : List UInt8) (hpc : s.threads t = .outside) :
    ({ s with calls := s.calls + 1 }.goto t (.waiting ⟨s.calls,request⟩)).Sole := by
  have hnow : ∀ u q, (({ s with calls := s.calls + 1 }.goto t (.waiting ⟨s.calls,request⟩)).threads u).owner = some q →
      (u = t ∧ q = ⟨s.calls,request⟩) ∨ (u ≠ t ∧ (s.threads u).owner = some q) := by
    intro u q hu
    rw [goto_threads] at hu
    split at hu
    · rename_i hut
      exact Or.inl ⟨hut,(Option.some_inj.mp hu).symm⟩
    · rename_i hut
      exact Or.inr ⟨hut,hu⟩
  have hfresh : ∀ c, ¬s.Carries c ⟨s.calls,request⟩ := fun c hc => absurd (h.carried c _ hc).1 (lt_irrefl _)
  have hopen : s.Unanswered ⟨s.calls,request⟩ := fun p hp hq => absurd (h.answered p hp _ hq) (lt_irrefl _)
  constructor
  · intro u q hu
    rcases hnow u q hu with ⟨-,rfl⟩ | ⟨-,hu⟩
    · exact Nat.lt_succ_self _
    · exact Nat.lt_succ_of_lt (h.made u q hu)
  · intro u v q hu hv
    rcases hnow u q hu with ⟨rfl,rfl⟩ | ⟨-,hu⟩
    · rcases hnow v _ hv with ⟨rfl,-⟩ | ⟨-,hv⟩
      · rfl
      · exact absurd (h.made v _ hv) (lt_irrefl _)
    · rcases hnow v q hv with ⟨-,rfl⟩ | ⟨-,hv⟩
      · exact absurd (h.made u _ hu) (lt_irrefl _)
      · exact h.distinct u v q hu hv
  · exact h.begun
  · intro c q hc
    obtain ⟨hid,hq,hother⟩ := h.carried c q hc
    exact ⟨Nat.lt_succ_of_lt hid,hq,hother⟩
  · intro u q hu
    rw [goto_threads] at hu
    split at hu
    · obtain rfl := Option.some_inj.mp hu
      exact ⟨hopen,hfresh⟩
    · exact h.unsent u q hu
  · exact h.once
  · exact fun p hp q hq => Nat.lt_succ_of_lt (h.answered p hp q hq)

/-- A step that leaves a thread with its call. -/
theorem Sole.goes (h : s.Sole) (hthreads : s'.threads = s.threads) (hcalls : s'.calls = s.calls)
    (hanswers : s'.answers = s.answers) (hto : ∀ c, (s'.connections c).toServer = (s.connections c).toServer)
    {before : Pc} (hbefore : s.threads t = before) (howner : pc.owner = before.owner)
    (hunsent : pc.unsent = none) : (s'.goto t pc).Sole := by
  refine h.goto hthreads hcalls hanswers hto (fun q hq => ?_) (fun q hq => ?_)
  · rw [hbefore, ← howner, hq]
  · rw [hunsent] at hq
    cases hq

theorem receive_toServer (s : LogAnaly) (c k c' : ℕ) :
    ((s.receive c k).connections c').toServer = (s.connections c').toServer := by
  rw [receive]
  by_cases hc : c' = c
  · rw [hc]
    simp only [Function.update_self]
  · simp only [Function.update_of_ne hc]

theorem Sole.readSizeStep (h : s.Sole) (hpc : s.threads t = .readSize q) {e : ClientEvent}
    (hr : LogStats.threadStep s t (.readSize q) e = some s') : s'.Sole := by
  cases e with
  | readSize u k =>
    obtain ⟨c,-,hr⟩ := Option.bind_eq_some_iff.mp hr
    by_cases hk : k = 0 ∨ 4 < k ∨ ((s.connections c).fromServer.take k).length < k
    · simp only [if_pos hk] at hr
      cases hr
    · simp only [if_neg hk] at hr
      split at hr <;> obtain rfl := Option.some_inj.mp hr
      · exact h.goes rfl rfl rfl (receive_toServer s c k) hpc rfl rfl
      · exact h.goes rfl rfl rfl (receive_toServer s c k) hpc rfl rfl
  | fail u k =>
    obtain rfl := Option.some_inj.mp hr
    exact h.goes rfl rfl rfl (fun _ => rfl) hpc rfl rfl
  | _ => cases hr

theorem Sole.readBufStep (h : s.Sole) {header buf : List (UInt8 × Option Call)} {n : ℕ}
    (hpc : s.threads t = .readBuf q header n buf) {e : ClientEvent}
    (hr : LogStats.threadStep s t (.readBuf q header n buf) e = some s') : s'.Sole := by
  cases e with
  | readBuf u k =>
    obtain ⟨c,-,hr⟩ := Option.bind_eq_some_iff.mp hr
    by_cases hk : k = 0 ∨ n < k ∨ ((s.connections c).fromServer.take k).length < k
    · simp only [if_pos hk] at hr
      cases hr
    · simp only [if_neg hk] at hr
      obtain rfl := Option.some_inj.mp hr
      exact h.goes rfl rfl rfl (receive_toServer s c k) hpc rfl rfl
  | parse u ok =>
    simp only [LogStats.threadStep] at hr
    split at hr
    · cases hr
    · obtain rfl := Option.some_inj.mp hr
      exact h.goes rfl rfl rfl (fun _ => rfl) hpc rfl rfl
  | fail u k =>
    obtain rfl := Option.some_inj.mp hr
    exact h.goes rfl rfl rfl (fun _ => rfl) hpc rfl rfl
  | _ => cases hr

theorem Sole.threadStep (h : s.Sole) (hinv : s.Inv) {e : ClientEvent}
    (hr : LogStats.threadStep s t (s.threads t) e = some s') : s'.Sole := by
  have hholder : ¬(s.threads t).Free → s.Stage (s.threads t) := fun hbusy => by
    refine hinv.stage t ?_
    by_contra hno
    exact hbusy (hinv.excluded t hno)
  cases hpc : s.threads t with
  | outside =>
    rw [hpc] at hr
    cases e with
    | call u request =>
      obtain rfl := Option.some_inj.mp hr
      exact h.call request hpc
    | _ => cases hr
  | waiting q =>
    rw [hpc] at hr
    cases e with
    | acquire u =>
      simp only [LogStats.threadStep] at hr
      split at hr
      · cases hr
      · obtain rfl := Option.some_inj.mp hr
        refine h.goto rfl rfl rfl (fun _ => rfl) (fun r hq => ?_) (fun r hq => ?_)
        all_goals
          rw [hpc, ← hq]
          split <;> rfl
    | _ => cases hr
  | reconnect q retryCount =>
    rw [hpc] at hr
    cases e with
    | retry u fresh connecting =>
      obtain rfl := Option.some_inj.mp hr
      refine h.goto rfl rfl rfl (fun _ => rfl) (fun r hq => ?_) (fun r hq => ?_)
      all_goals
        rw [hpc, ← hq]
        split <;> rfl
    | _ => cases hr
  | sendSize q =>
    rw [hpc] at hr hholder
    have hclean := hholder id
    have hempty : ∀ c, s.sock = some c → (s.connections c).toServer = [] := fun c hc => by
      rw [hclean c hc]
      rfl
    cases e with
    | sendSize u =>
      obtain ⟨c,hc,hr⟩ := Option.bind_eq_some_iff.mp hr
      split at hr
      · obtain rfl := Option.some_inj.mp hr
        have htake : (beBytes q.request.length).take 4 = beBytes q.request.length :=
          List.take_of_length_le (length_beBytes _).le
        rw [← htake]
        exact h.sendSize hpc (hempty c hc) le_rfl rfl rfl
      · cases hr
    | fail u k =>
      obtain rfl := Option.some_inj.mp hr
      cases hc : s.sock with
      | none => exact h.goes rfl rfl rfl (fun _ => rfl) hpc rfl rfl
      | some c =>
        have htake : (beBytes q.request.length).take k = (beBytes q.request.length).take (min k 4) := by
          rw [List.take_eq_take_min, length_beBytes]
        have hown : (Pc.leave q).owner = some q := rfl
        have hsent := h.sendSize hpc (hempty c hc) (min_le_right k 4) hown rfl
        rw [← htake] at hsent
        exact hsent.disconnect
    | _ => cases hr
  | sendBody q =>
    rw [hpc] at hr hholder
    obtain ⟨c',hc',hsent⟩ := hholder id
    cases e with
    | sendBody u k =>
      obtain ⟨c,hc,hr⟩ := Option.bind_eq_some_iff.mp hr
      obtain rfl : c' = c := Option.some_inj.mp (hc'.symm.trans hc)
      obtain rfl := Option.some_inj.mp hr
      exact h.sendBody hpc hsent rfl rfl
    | fail u k =>
      obtain rfl := Option.some_inj.mp hr
      have hown : (Pc.leave q).owner = some q := rfl
      have hleft := (h.sendBody (k := k) hpc hsent hown rfl).disconnect
      rw [hc']
      exact hleft
    | _ => cases hr
  | readSize q =>
    rw [hpc] at hr
    exact h.readSizeStep hpc hr
  | readBuf q header n buf =>
    rw [hpc] at hr
    exact h.readBufStep hpc hr
  | leave q =>
    rw [hpc] at hr
    cases e with
    | release u =>
      obtain rfl := Option.some_inj.mp hr
      refine h.goto rfl rfl rfl (fun _ => rfl) (fun r hq => ?_) (fun r hq => ?_) <;> cases hq
    | _ => cases hr

theorem Sole.step {e : ClientEvent} (h : s.Sole) (hinv : s.Inv) (hr : clientStep s e = some s') : s'.Sole := by
  cases e with
  | answer c reply =>
    simp only [clientStep] at hr
    split at hr
    · cases hr
    · rename_i hno
      obtain rfl := Option.some_inj.mp hr
      rw [not_or, not_or, Nat.not_lt, Nat.not_lt] at hno
      exact h.taken ((h.begun c).frame hno.1 hno.2.1) fun q hq => .of_frameOwner hq
  | _ => exact h.threadStep hinv hr

end Steps

end LogAnaly

end LogStats
