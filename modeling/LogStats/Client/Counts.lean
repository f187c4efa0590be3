import LogStats.Client.Linearizability
import LogStats.Keeper.Plenty
import LogStats.Webserver.Snapshots

/-! # What the webserver is told is what was logged

In the order in which the operations of a run take effect, the reply to a request for the
`rcode` or the `rtype` of a view is determined by the calls of `log_handle` since the last
flush. This needs memory for new records, and that the calls between two flushes stay below
the limit, beyond which views are given up.
-/
namespace LogStats

open ViewTree

/-- A message that flushes the keeper. -/
def flushes (unpack : List UInt8 → Option StatsRequest) (payload : List UInt8) : Bool :=
  (unpack payload).any fun request => decide (request.hasKey "flush")

/-- The calls of `log_handle` since the last flush. -/
def logged {κ : Type*} (unpack : List UInt8 → Option StatsRequest) (order : List (Effect κ KeeperCall (List UInt8))) :
    List LogRecord :=
  order.foldl (fun rs e =>
    match e.input with
    | .log r => rs ++ [r]
    | .tick => rs
    | .command payload => if flushes unpack payload then [] else rs) []

/-- The counters of a view that all these calls were added to. -/
def talliedFor (rs : List LogRecord) (view : CString) : Counters :=
  { Counters.zero with
    rcode := fun i => UInt32.ofNat (countWith rs (fun r => r.view = view) LogRecord.rcodeNumber i.val)
    rtype := fun j => UInt32.ofNat (countWith rs (fun r => r.view = view) LogRecord.rtypeNumber j.val) }

/-- The reply that these calls determine. -/
def Property.answer (p : Property) (rs : List LogRecord) (view : CString) : Reply :=
  if (∃ r ∈ rs, r.view = view) ∧ view.strlen ≤ maxViewLength then .labels p.key (p.entries (talliedFor rs view))
  else .message "error" "view not find"

section Commands
variable {unpack : List UInt8 → Option StatsRequest} {pack : Reply → List UInt8} {memory : CommandMemory}
variable {keeper keeper' : HouseKeeper} {request : StatsRequest} {reply : Option Reply} {rs : List LogRecord} {p : Property}

theorem hasKey_iff {key : String} : request.hasKey key ↔ request.key = text key := CString.strcmp_eq_zero _ _

theorem executeCommand_flushes (hkey : request.hasKey "flush")
    (hr : executeCommand memory keeper request = some (keeper',reply)) : keeper' = houseKeeperClearStats memory.views keeper := by
  have hother : ∀ key, text "flush" ≠ text key → ¬request.hasKey key := by
    intro key hne hhas
    exact hne ((hasKey_iff.mp hkey).symm.trans (hasKey_iff.mp hhas))
  rcases executeCommand_cases hr with ⟨-,answer,hk,-⟩ | ⟨a,vs,-,-,hk⟩
  · rw [keeperCommand, if_neg (hother "views" (by decide +kernel)), if_pos hkey] at hk
    exact (Prod.mk.inj (Option.some_inj.mp hk)).1.symm
  · rw [viewCommand, if_neg (hother "domaintopn" (by decide +kernel)), if_neg (hother "iptopn" (by decide +kernel)),
      if_neg (hother "rcode" (by decide +kernel)), if_neg (hother "rtype" (by decide +kernel)),
      if_neg (hother "qps" (by decide +kernel)), if_neg (hother "success_rate" (by decide +kernel)), if_pos hkey] at hk
    exact (Prod.mk.inj (Option.some_inj.mp hk)).1.symm

/-- The reply for the counters of the view, or for one that is not there. -/
theorem executeCommand_labels {d : ℤ} {cells : List ℕ} (h : keeper.views.OffBy d cells) (hkey : request.hasKey p.key)
    (hr : executeCommand memory keeper request = some (keeper',reply)) :
    (keeper.ledger request.view = none ∧ reply = some (.message "error" "view not find")) ∨
      ∃ c, keeper.ledger request.view = some c ∧ reply = some (.labels p.key (p.entries c)) := by
  have hother : ∀ key, text p.key ≠ text key → ¬request.hasKey key := by
    intro key hne hhas
    exact hne ((hasKey_iff.mp hkey).symm.trans (hasKey_iff.mp hhas))
  rcases executeCommand_cases hr with ⟨hfind,answer,hk,rfl⟩ | ⟨a,vs,hfind,hvs,hk⟩
  · rw [keeperCommand, if_neg (hother "views" (by cases p <;> decide +kernel)),
      if_neg (hother "flush" (by cases p <;> decide +kernel))] at hk
    obtain ⟨-,rfl⟩ := Prod.mk.inj (Option.some_inj.mp hk)
    exact Or.inl ⟨find_ledger h hfind,rfl⟩
  · have hledger := find_ledger h hfind
    rw [Option.bind_some, hvs, Option.map_some] at hledger
    rw [viewCommand, if_neg (hother "domaintopn" (by cases p <;> decide +kernel)),
      if_neg (hother "iptopn" (by cases p <;> decide +kernel))] at hk
    refine Or.inr ⟨vs.counters,hledger,?_⟩
    cases p with
    | rcode =>
      rw [if_pos (show request.hasKey "rcode" from hkey)] at hk
      exact (Prod.mk.inj (Option.some_inj.mp hk)).2.symm
    | rtype =>
      rw [if_neg (hother "rcode" (by decide +kernel)), if_pos (show request.hasKey "rtype" from hkey)] at hk
      exact (Prod.mk.inj (Option.some_inj.mp hk)).2.symm

theorem socketCommand_cases {packed : { bytes : List UInt8 // bytes.length < 2 ^ 31 }}
    (hr : socketCommand memory pack keeper request = some (keeper',packed)) :
    ∃ reply, executeCommand memory keeper request = some (keeper',reply) ∧ packed.val = (reply.map pack).getD [] := by
  obtain ⟨⟨k,reply⟩,hexecute,hr⟩ := Option.bind_eq_some_iff.mp hr
  simp only at hr
  split at hr
  · obtain ⟨rfl,rfl⟩ := Prod.mk.inj (Option.some_inj.mp hr)
    exact ⟨reply,hexecute,rfl⟩
  · cases hr

/-- With all calls in the ledger the reply is the one that they determine. -/
theorem HouseKeeper.Records.answer (h : keeper.Records rs) (hkey : request.hasKey p.key)
    (hr : executeCommand memory keeper request = some (keeper',reply)) : reply = some (p.answer rs request.view) := by
  obtain ⟨d,cells,hoff⟩ := h.off
  have hmissing := h.keeps.missing request.view
  rcases executeCommand_labels hoff hkey hr with ⟨hnone,rfl⟩ | ⟨c,hc,rfl⟩
  · have hnot : ¬((∃ r ∈ rs, r.view = request.view) ∧ request.view.strlen ≤ maxViewLength) := by
      rintro ⟨⟨r,hr,hview⟩,hlen⟩
      rcases hmissing.mp hnone with hall | hlong
      · exact hall r hr hview
      · omega
    rw [Property.answer, if_neg hnot]
  · have hthere : (∃ r ∈ rs, r.view = request.view) ∧ request.view.strlen ≤ maxViewLength := by
      by_contra hno
      have hnone : keeper.ledger request.view = none := by
        rw [hmissing]
        by_contra hneither
        rw [not_or, not_forall, not_lt] at hneither
        obtain ⟨⟨r,hr⟩,hlen⟩ := hneither
        rw [Classical.not_imp, not_not] at hr
        exact hno ⟨⟨r,hr⟩,hlen⟩
      rw [hnone] at hc
      cases hc
    have hcounts := h.keeps.counts _ c hc
    have hrcode : c.rcode = (talliedFor rs request.view).rcode := funext hcounts.rcode_eq
    have hrtype : c.rtype = (talliedFor rs request.view).rtype := funext hcounts.rtype_eq
    rw [Property.answer, if_pos hthere]
    cases p with
    | rcode => rw [Property.entries, Property.entries, hrcode]
    | rtype => rw [Property.entries, Property.entries, hrtype]

end Commands

/-! ## Serial runs -/

section Serial
variable {κ : Type*} {unpack : List UInt8 → Option StatsRequest} {pack : Reply → List UInt8} {memory : ViewTreeMemory}
variable {keeper keeper' : HouseKeeper} {order : List (Effect κ KeeperCall (List UInt8))}
variable {e : Effect κ KeeperCall (List UInt8)}

@[simp] theorem logged_log {r : LogRecord} (he : e.input = .log r) : logged unpack (order ++ [e]) = logged unpack order ++ [r] := by
  rw [logged, List.foldl_append, List.foldl_cons, List.foldl_nil, he]
  rfl

@[simp] theorem logged_tick (he : e.input = .tick) : logged unpack (order ++ [e]) = logged unpack order := by
  rw [logged, List.foldl_append, List.foldl_cons, List.foldl_nil, he]
  rfl

@[simp] theorem logged_command {payload : List UInt8} (he : e.input = .command payload) :
    logged unpack (order ++ [e]) = if flushes unpack payload then [] else logged unpack order := by
  rw [logged, List.foldl_append, List.foldl_cons, List.foldl_nil, he]
  rfl

theorem logged_length (order : List (Effect κ KeeperCall (List UInt8))) : (logged unpack order).length ≤ order.length := by
  induction order using List.reverseRecOn with
  | nil => exact Nat.le_refl 0
  | append_singleton order e ih =>
    rw [List.length_append, List.length_singleton]
    cases he : e.input with
    | log r =>
      rw [logged_log he, List.length_append, List.length_singleton]
      exact Nat.succ_le_succ ih
    | tick =>
      rw [logged_tick he]
      exact Nat.le_succ_of_le ih
    | command payload =>
      rw [logged_command he]
      split
      · exact Nat.zero_le _
      · exact Nat.le_succ_of_le ih

theorem Ledger.Keeps.ticked {l : Ledger} {rs : List LogRecord} (h : l.Keeps rs) : l.tick.Keeps rs where
  missing name := by
    rw [← h.missing, Ledger.tick]
    split
    · exact Iff.rfl
    · exact Option.map_eq_none_iff
  counts name c hc := by
    rw [Ledger.tick] at hc
    split at hc
    · exact h.counts name c hc
    · obtain ⟨c₀,hc₀,rfl⟩ := Option.map_eq_some_iff.mp hc
      obtain ⟨hrcode,hrtype⟩ := h.counts name c₀ hc₀
      exact ⟨hrcode,hrtype⟩

/-- Operations one after the other leave the calls since the last flush in the ledger. -/
theorem serial_records
    (h : Serial (keeperObject unpack pack fun stats => stats = true) (houseKeeperCreate memory) order keeper)
    (hfew : ∀ before, before <+: order → Few (logged unpack before)) : keeper.Records (logged unpack order) := by
  induction h with
  | nil => exact .create memory
  | @concat order k k' e h he ih =>
    have hrecords := ih fun before hbefore => hfew before (hbefore.trans (List.prefix_append _ _))
    have hlast := hfew _ (List.prefix_refl _)
    cases hinput : e.input with
    | log r =>
      rw [hinput] at he
      obtain ⟨-,alloc,hstats,hr⟩ := he
      rw [logged_log hinput] at hlast ⊢
      exact hrecords.log hstats hlast hr
    | tick =>
      rw [hinput] at he
      rw [logged_tick hinput]
      obtain ⟨d,cells,hoff⟩ := hrecords.off
      obtain ⟨⟨cells',hoff'⟩,huplimit,hstep⟩ := keeperStep_cases hoff he.2
      have hledger : k'.ledger = k.ledger.tick := hstep
      have hbytes := (qpsThreadRound_bytes hoff he.2).1
      exact ⟨⟨d,cells',hoff'⟩,huplimit.trans hrecords.uplimit,hledger ▸ hrecords.keeps.ticked,
        hbytes.trans_le hrecords.bytes_le⟩
    | command payload =>
      rw [hinput] at he
      rw [logged_command hinput]
      obtain ⟨request,memory',packed,hunpack,hr,-⟩ := he
      obtain ⟨reply,hexecute,-⟩ := socketCommand_cases hr
      by_cases hkey : request.hasKey "flush"
      · have hflush : flushes unpack payload = true := by simp [flushes, hunpack, hkey]
        rw [hflush, executeCommand_flushes hkey hexecute]
        exact hrecords.flush _
      · have hread : flushes unpack payload = false := by simp [flushes, hunpack, hkey]
        rw [hread, executeCommand_reads hkey hexecute]
        exact hrecords

end Serial

/-! ## The whole system -/

/-- However the threads interleave, what a call of `_send_request` for the `rcode` or the
`rtype` of a view returns is what the calls of `log_handle` determine that took effect since
the last flush before it. -/
theorem system_counts (unpack : List UInt8 → Option StatsRequest) (pack : Reply → List UInt8)
    (memory : ViewTreeMemory) (events : List SystemEvent) (s : System)
    (hsupplied : ∀ e ∈ events, e.Supplied fun stats => stats = true)
    (h : run (systemStep unpack pack) (systemCreate memory) events = some s)
    (hfew : ∀ before, before <+: effects s.history → Few (logged unpack before))
    (id : Caller) (payload bytes : List UInt8) (request : StatsRequest) (p : Property)
    (hcall : .call id (.command payload) ∈ s.history) (hret : .ret id bytes ∈ s.history)
    (hunpack : unpack payload = some request) (hkey : request.hasKey p.key) :
    ∃ before after, effects s.history = before ++ ⟨some id,.command payload,bytes⟩ :: after ∧
      bytes = pack (p.answer (logged unpack before) request.view) := by
  have hinv := System.run_inv (fun stats => stats = true) hsupplied h
  obtain ⟨keeper,hserial,-⟩ := hinv.serial
  obtain ⟨i,hi⟩ := hinv.timely.returned hret
  obtain rfl := hinv.timely.unique (hinv.timely.called hi rfl) hcall
  obtain ⟨before,after,hsplit⟩ := List.append_of_mem hi
  obtain ⟨k,k',hbefore,hobject⟩ := hserial.split hsplit
  refine ⟨before,after,hsplit,?_⟩
  have hrecords := serial_records hbefore fun part hpart =>
    hfew part (hsplit ▸ hpart.trans (List.prefix_append _ _))
  obtain ⟨request',memory',packed,hunpack',hr,hbytes⟩ := hobject
  obtain rfl := Option.some_inj.mp (hunpack.symm.trans hunpack')
  obtain ⟨reply,hexecute,hpacked⟩ := socketCommand_cases hr
  rw [hrecords.answer hkey hexecute] at hpacked
  exact hbytes.trans hpacked

/-! ## The codes of a view with one record -/

/-- The message with the key "rcode" and the view "v", as it is packed. -/
def rcodeMessage : List UInt8 := 18 :: 5 :: (text "rcode").bytes ++ 26 :: 1 :: (text "v").bytes

def unpackRcode (bytes : List UInt8) : Option StatsRequest :=
  if bytes = rcodeMessage then some ⟨text "rcode",text "v",0⟩ else none

/-- The reply to it, as it is packed where the labels are short and the counts small. -/
def packRcode : Reply → List UInt8
  | .labels key entries => 18 :: UInt8.ofNat (text key).strlen :: (text key).bytes ++
      entries.flatMap (fun entry => entry.1.elim [50,0] fun label => 50 :: UInt8.ofNat label.strlen :: label.bytes) ++
      entries.flatMap fun entry => [56,UInt8.ofNat entry.2.toNat]
  | _ => []

def rcodeRequest : List SystemEvent :=
  [.client (.call 0 rcodeMessage),.log ⟨text "v",text "w.",text "10.0.0.1",text "A",text "NOERROR"⟩,.mutex (.lock .main),
    .client (.acquire 0),.client (.sendSize 0),.client (.sendBody 0 10),.read 0 [0,0,0,0]] ++
  List.replicate 8 (.mutex (.access .main ⟨plentyOfMemory,fun _ => 1,staleViews 0⟩)) ++
  [.mutex (.unlock .main),.mutex (.lock (.socket 0)),.mutex (.access (.socket 0) ⟨plentyOfMemory,fun _ => 1,staleViews 0⟩),
    .mutex (.access (.socket 0) ⟨plentyOfMemory,fun _ => 1,staleViews 0⟩),.mutex (.unlock (.socket 0)),.write 0 22,
    .client (.readSize 0 4),.client (.readBuf 0 18),.client (.parse 0 true),.client (.release 0)]

/-- The reply lists one record with the code NOERROR. -/
def rcodeReply : List UInt8 := 18 :: 5 :: (text "rcode").bytes ++ 50 :: 7 :: (text "NOERROR").bytes ++ [56,1]

theorem system_counts_rcode : ∃ s, run (systemStep unpackRcode packRcode) (systemCreate (staleViews 0)) rcodeRequest = some s ∧
    ∃ before after, effects s.history =
        before ++ ⟨some (.webserver ⟨0,rcodeMessage⟩),.command rcodeMessage,rcodeReply⟩ :: after ∧
      rcodeReply = packRcode (Property.answer .rcode (logged unpackRcode before) (text "v")) := by
  have hrun : (run (systemStep unpackRcode packRcode) (systemCreate (staleViews 0)) rcodeRequest).map (fun s =>
      ((effects s.history).length,decide (.call (.webserver ⟨0,rcodeMessage⟩) (.command rcodeMessage) ∈ s.history),
        decide (.ret (.webserver ⟨0,rcodeMessage⟩) rcodeReply ∈ s.history))) = some (2,true,true) := by
    decide +kernel
  obtain ⟨s,hs,hmarks⟩ := Option.map_eq_some_iff.mp hrun
  simp only [Prod.mk.injEq, decide_eq_true_eq] at hmarks
  obtain ⟨hlen,hcall,hret⟩ := hmarks
  have hsupplied : ∀ e ∈ rcodeRequest, e.Supplied fun stats => stats = true := by
    simp [rcodeRequest, SystemEvent.Supplied, MutexEvent.Meets, plentyOfMemory, or_imp, forall_and]
  have hfew : ∀ before, before <+: effects s.history → Few (logged unpackRcode before) := by
    intro before hbefore
    refine few_of_length ((logged_length before).trans ?_)
    have hle := hbefore.length_le
    omega
  have hkey : (⟨text "rcode",text "v",0⟩ : StatsRequest).hasKey (Property.key .rcode) := by decide +kernel
  exact ⟨s,hs,system_counts unpackRcode packRcode (staleViews 0) rcodeRequest s hsupplied hs hfew
    (.webserver ⟨0,rcodeMessage⟩) rcodeMessage rcodeReply ⟨text "rcode",text "v",0⟩ .rcode hcall hret (if_pos rfl) hkey⟩

end LogStats
