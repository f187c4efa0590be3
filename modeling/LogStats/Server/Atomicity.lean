import LogStats.Keeper.Steps
import LogStats.Library.Mutex
import LogStats.Server.Framing

/-! # What is done under the keeper's mutex

`log_handle`, a round of `qps_thread` and the command of `socket_thread` lock the mutex
before their first access to the keeper and unlock it behind the last. An access is what
one of the functions called in between does. However the accesses of different threads
interleave, each operation is done as a whole.
-/
namespace LogStats

deriving instance DecidableEq for LogRecord

inductive KeeperCall where
  | log (r : LogRecord)
  | tick
  | command (payload : List UInt8)
deriving DecidableEq

/-- What malloc finds during an access. -/
structure KeeperMemory where
  log : LogAlloc
  command : CommandMemory

/-- The result of a function that returns none. -/
def void : List UInt8 := []

/-- The next call that a thread makes inside the mutex. -/
inductive KeeperPc where
  | find (r : LogRecord)
  | create (r : LogRecord)
  | insert (r : LogRecord) (vs : ℕ)
  | moveToFirst (r : LogRecord) (vtnode : ℕ)
  | getSize (r : LogRecord) (vs : ℕ)
  | setMemsize (r : LogRecord) (vs : ℕ)
  | insertName (r : LogRecord) (vs : ℕ)
  | insertIp (r : LogRecord) (vs : ℕ)
  | rtypeIncrement (r : LogRecord) (vs : ℕ)
  | rcodeIncrement (r : LogRecord) (vs : ℕ)
  | first
  | node (tnode : ℕ)
  | request (payload : List UInt8)
  | notFound (request : StatsRequest)
  | found (request : StatsRequest) (vtnode : ℕ)

def HouseKeeper.setStats (keeper : HouseKeeper) (vs : ℕ) (stats : ViewStats) : HouseKeeper :=
  { keeper with views := { keeper.views with stats := Function.update keeper.views.stats vs (some stats) } }

/-- The node behind `a` in the order of the tree, as `rbtree_next` finds it. -/
def nextNode (elems : List ℕ) (a : ℕ) : Option ℕ := (elems.dropWhile fun b => b ≠ a).tail.head?

/-- Where `RBTREE_FOR` goes on with the next node. -/
def forNode (next : Option ℕ) : KeeperPc ⊕ List UInt8 := next.elim (.inr void) fun tnode => .inl (.node tnode)

section Accesses
variable (unpack : List UInt8 → Option StatsRequest) (pack : Reply → List UInt8)

/-- The reply of a command, packed; its length is returned as an int. -/
def packReply (reply : Option Reply) : Option (List UInt8) :=
  let bytes := (reply.map pack).getD []
  if bytes.length < 2 ^ 31 then some bytes else none

def keeperAccess (pc : KeeperPc) (memory : KeeperMemory) (keeper : HouseKeeper) :
    Option (HouseKeeper × (KeeperPc ⊕ List UInt8)) :=
  match pc with
  | .find r => do
    match ← viewTreeFind keeper.views r.view with
    | none => some (keeper,.inl (.create r))
    | some vtnode => some (keeper,.inl (.moveToFirst r vtnode))
  | .create r => do
    match ← viewStatsCreate memory.log.stats memory.log.memory r.view with
    | none => some (keeper,.inr void)
    | some vs =>
      let addr := keeper.views.statsBrk
      let views := { keeper.views with stats := Function.update keeper.views.stats addr (some vs), statsBrk := addr + 1 }
      some ({ keeper with views := views },.inl (.insert r addr))
  | .insert r vs => do
    let views ← viewTreeInsert memory.log.node keeper.views r.view vs
    some ({ keeper with views := views },.inl (.getSize r vs))
  | .moveToFirst r vtnode => do
    let lrulist ← lruListMoveToFirst keeper.views.lrulist (keeper.views.nodes vtnode).ptr
    some ({ keeper with views := { keeper.views with lrulist := lrulist } },
      .inl (.getSize r (keeper.views.nodes vtnode).vs))
  | .getSize r vs => do
    let currentMemSize ← viewTreeGetSize keeper.views
    some (keeper,.inl (if keeper.memUplimit < currentMemSize then .setMemsize r vs else .insertName r vs))
  | .setMemsize r vs => do
    let views ← viewTreeSetMemsize keeper.views keeper.memUplimit
    some ({ keeper with views := views },.inl (.insertName r vs))
  | .insertName r vs => do
    let stats ← viewStatsInsertName memory.log.domain (← keeper.views.stats vs) r.domain
    some (keeper.setStats vs stats,.inl (.insertIp r vs))
  | .insertIp r vs => do
    let stats ← viewStatsInsertIp memory.log.ip (← keeper.views.stats vs) r.ip
    some (keeper.setStats vs stats,.inl (.rtypeIncrement r vs))
  | .rtypeIncrement r vs => do
    let stats ← keeper.views.stats vs
    some (keeper.setStats vs (viewStatsRtypeIncrement stats (← rtypeIndex r.rtype)),.inl (.rcodeIncrement r vs))
  | .rcodeIncrement r vs => do
    let stats ← keeper.views.stats vs
    some (keeper.setStats vs (viewStatsRcodeIncrement stats (← rcodeIndex r.rcode)),.inr void)
  | .first => some (keeper,forNode keeper.views.rbtree.elems.head?)
  | .node tnode =>
    let next := forNode (nextNode keeper.views.rbtree.elems tnode)
    if (keeper.views.nodes tnode).name.strlen = 0 then some (keeper,next)
    else do
      let vs ← keeper.views.stats (keeper.views.nodes tnode).vs
      some (keeper.setStats (keeper.views.nodes tnode).vs (qpsThreadRecord vs),next)
  | .request payload => do
    let request ← unpack payload
    match ← viewTreeFind keeper.views request.view with
    | none => some (keeper,.inl (.notFound request))
    | some vtnode => some (keeper,.inl (.found request vtnode))
  | .notFound request => do
    let (keeper,reply) ← keeperCommand memory.command keeper request
    some (keeper,.inr (← packReply pack (some reply)))
  | .found request vtnode => do
    let vs ← keeper.views.stats (keeper.views.nodes vtnode).vs
    let (keeper,reply) ← viewCommand memory.command keeper vs request
    some (keeper,.inr (← packReply pack reply))

def KeeperCall.start : KeeperCall → KeeperPc
  | .log r => .find r
  | .tick => .first
  | .command payload => .request payload

def keeperAccesses : Accesses HouseKeeper KeeperCall (List UInt8) KeeperPc KeeperMemory :=
  ⟨KeeperCall.start,keeperAccess unpack pack⟩

/-- The accesses as long as malloc gives a new record memory, or does not, as `supply` says. -/
def suppliedAccesses (supply : Bool → Prop) [DecidablePred supply] :
    Accesses HouseKeeper KeeperCall (List UInt8) KeeperPc KeeperMemory :=
  (keeperAccesses unpack pack).given fun memory => supply memory.log.stats

/-- An operation on the keeper as one step. -/
def keeperObject (supply : Bool → Prop) (keeper : HouseKeeper) (call : KeeperCall) (r : List UInt8) (keeper' : HouseKeeper) : Prop :=
  match call with
  | .log record => r = void ∧ ∃ alloc, supply alloc.stats ∧ keeperStep keeper (.log alloc record) = some keeper'
  | .tick => r = void ∧ keeperStep keeper .tick = some keeper'
  | .command payload => ∃ request memory packed, unpack payload = some request ∧
      socketCommand memory pack keeper request = some (keeper',packed) ∧ r = packed.val

end Accesses

@[simp] theorem HouseKeeper.setStats_stats (keeper : HouseKeeper) (vs : ℕ) (stats : ViewStats) :
    (keeper.setStats vs stats).views.stats vs = some stats := Function.update_self _ _ _

@[simp] theorem HouseKeeper.setStats_setStats (keeper : HouseKeeper) (vs : ℕ) (stats stats' : ViewStats) :
    (keeper.setStats vs stats).setStats vs stats' = keeper.setStats vs stats' := by
  simp only [setStats, Function.update_idem]

section Finishes
variable {unpack : List UInt8 → Option StatsRequest} {pack : Reply → List UInt8}
variable {supply : Bool → Prop} [DecidablePred supply] {keeper keeper' : HouseKeeper} {result : List UInt8} {r : LogRecord} {vs : ℕ}

/-- What the next access of an operation leads to. -/
theorem finishes_next {pc : KeeperPc} (h : (suppliedAccesses unpack pack supply).Finishes pc keeper result keeper') :
    ∃ memory k next, supply memory.log.stats ∧ keeperAccess unpack pack pc memory keeper = some (k,next) ∧
      (next = .inr result ∧ k = keeper' ∨
        ∃ pc', next = .inl pc' ∧ (suppliedAccesses unpack pack supply).Finishes pc' k result keeper') := h.given

theorem packReply_length {reply : Option Reply} (h : packReply pack reply = some result) : result.length < 2 ^ 31 := by
  rw [packReply] at h
  split at h
  · obtain rfl := Option.some_inj.mp h
    assumption
  · cases h

theorem forNode_length {next : Option ℕ} (h : forNode next = .inr result) : result.length < 2 ^ 31 := by
  cases next with
  | none =>
    obtain rfl := Sum.inr.inj h
    decide
  | some tnode => cases h

/-- What is returned fits the int that it is counted by. -/
theorem keeperAccess_result {pc : KeeperPc} {memory : KeeperMemory}
    (h : keeperAccess unpack pack pc memory keeper = some (keeper',.inr result)) : result.length < 2 ^ 31 := by
  cases pc with
  | create r =>
    obtain ⟨created,-,h⟩ := Option.bind_eq_some_iff.mp h
    cases created with
    | none =>
      obtain rfl := Sum.inr.inj (Prod.mk.inj (Option.some_inj.mp h)).2
      decide
    | some vs => cases h
  | rcodeIncrement r vs =>
    simp only [keeperAccess, Option.bind_eq_bind, Option.bind_eq_some_iff, Option.some_inj, Prod.mk.injEq,
      Sum.inr.injEq] at h
    obtain ⟨_,-,_,-,-,rfl⟩ := h
    decide
  | first => exact forNode_length (Prod.mk.inj (Option.some_inj.mp h)).2
  | node tnode =>
    simp only [keeperAccess] at h
    split at h
    · exact forNode_length (Prod.mk.inj (Option.some_inj.mp h)).2
    · obtain ⟨vs,-,h⟩ := Option.bind_eq_some_iff.mp h
      exact forNode_length (Prod.mk.inj (Option.some_inj.mp h)).2
  | notFound request =>
    simp only [keeperAccess, Option.bind_eq_bind, Option.bind_eq_some_iff, Option.some_inj, Prod.mk.injEq,
      Sum.inr.injEq] at h
    obtain ⟨_,-,_,hpack,-,rfl⟩ := h
    exact packReply_length hpack
  | found request vtnode =>
    simp only [keeperAccess, Option.bind_eq_bind, Option.bind_eq_some_iff, Option.some_inj, Prod.mk.injEq,
      Sum.inr.injEq] at h
    obtain ⟨_,-,_,-,_,hpack,-,rfl⟩ := h
    exact packReply_length hpack
  | find r =>
    obtain ⟨found,-,h⟩ := Option.bind_eq_some_iff.mp h
    cases found <;> cases h
  | request payload =>
    obtain ⟨request,-,h⟩ := Option.bind_eq_some_iff.mp h
    obtain ⟨found,-,h⟩ := Option.bind_eq_some_iff.mp h
    cases found <;> cases h
  | _ => simp [keeperAccess, Option.bind_eq_some_iff] at h

/-! ## log_handle -/

/-- From the insertion of the name on, `log_handle` works on one record. -/
theorem finishes_insertName (h : (suppliedAccesses unpack pack supply).Finishes (.insertName r vs) keeper result keeper') :
    result = void ∧ ∃ domain ip, ∀ alloc : LogAlloc, alloc.domain = domain → alloc.ip = ip →
      ∃ stats stats', keeper.views.stats vs = some stats ∧ logHandleRecord alloc stats r = some stats' ∧
        keeper' = keeper.setStats vs stats' := by
  obtain ⟨m₁,k₁,_,-,h₁,hn₁⟩ := finishes_next h
  simp only [keeperAccess, Option.bind_eq_bind, Option.bind_eq_some_iff, Option.some_inj, Prod.mk.injEq] at h₁
  obtain ⟨stats₀,hstats,stats₁,hname,rfl,rfl⟩ := h₁
  simp only [reduceCtorEq, false_and, Sum.inl.injEq, exists_eq_left', false_or] at hn₁
  obtain ⟨m₂,k₂,_,-,h₂,hn₂⟩ := finishes_next hn₁
  simp only [keeperAccess, Option.bind_eq_bind, Option.bind_eq_some_iff, Option.some_inj, Prod.mk.injEq,
    HouseKeeper.setStats_stats, exists_eq_left', HouseKeeper.setStats_setStats] at h₂
  obtain ⟨stats₂,hip,rfl,rfl⟩ := h₂
  simp only [reduceCtorEq, false_and, Sum.inl.injEq, exists_eq_left', false_or] at hn₂
  obtain ⟨m₃,k₃,_,-,h₃,hn₃⟩ := finishes_next hn₂
  simp only [keeperAccess, Option.bind_eq_bind, Option.bind_eq_some_iff, Option.some_inj, Prod.mk.injEq,
    HouseKeeper.setStats_stats, exists_eq_left', HouseKeeper.setStats_setStats] at h₃
  obtain ⟨j,hj,rfl,rfl⟩ := h₃
  simp only [reduceCtorEq, false_and, Sum.inl.injEq, exists_eq_left', false_or] at hn₃
  obtain ⟨m₄,k₄,_,-,h₄,hn₄⟩ := finishes_next hn₃
  simp only [keeperAccess, Option.bind_eq_bind, Option.bind_eq_some_iff, Option.some_inj, Prod.mk.injEq,
    HouseKeeper.setStats_stats, exists_eq_left', HouseKeeper.setStats_setStats] at h₄
  obtain ⟨i,hi,rfl,rfl⟩ := h₄
  simp only [Sum.inr.injEq, reduceCtorEq, false_and, exists_false, or_false] at hn₄
  obtain ⟨rfl,rfl⟩ := hn₄
  refine ⟨rfl,m₁.log.domain,m₂.log.ip,?_⟩
  rintro alloc hdomain halloc
  refine ⟨stats₀,_,hstats,?_,rfl⟩
  simp only [logHandleRecord, hdomain, halloc, hname, hip, hj, hi, Option.bind_eq_bind, Option.bind_some]

/-- What `log_handle` does once the record is there. -/
theorem finishes_getSize (h : (suppliedAccesses unpack pack supply).Finishes (.getSize r vs) keeper result keeper') :
    result = void ∧ ∃ domain ip, ∀ alloc : LogAlloc, alloc.domain = domain → alloc.ip = ip →
      ∃ views stats stats', logHandleRecycle keeper.memUplimit keeper.views = some views ∧
        views.stats vs = some stats ∧ logHandleRecord alloc stats r = some stats' ∧
        keeper' = HouseKeeper.setStats { keeper with views := views } vs stats' := by
  obtain ⟨m₁,k₁,_,-,h₁,hn₁⟩ := finishes_next h
  simp only [keeperAccess, Option.bind_eq_bind, Option.bind_eq_some_iff, Option.some_inj, Prod.mk.injEq] at h₁
  obtain ⟨size,hsize,rfl,rfl⟩ := h₁
  simp only [reduceCtorEq, false_and, Sum.inl.injEq, exists_eq_left', false_or] at hn₁
  by_cases hover : keeper.memUplimit < size
  · rw [if_pos hover] at hn₁
    obtain ⟨m₂,k₂,_,-,h₂,hn₂⟩ := finishes_next hn₁
    simp only [keeperAccess, Option.bind_eq_bind, Option.bind_eq_some_iff, Option.some_inj, Prod.mk.injEq] at h₂
    obtain ⟨views,hviews,rfl,rfl⟩ := h₂
    simp only [reduceCtorEq, false_and, Sum.inl.injEq, exists_eq_left', false_or] at hn₂
    obtain ⟨hvoid,domain,ip,hrest⟩ := finishes_insertName hn₂
    refine ⟨hvoid,domain,ip,fun alloc hdomain hip => ?_⟩
    obtain ⟨stats,stats',hstats,hrecord,hkeeper⟩ := hrest alloc hdomain hip
    refine ⟨views,stats,stats',?_,hstats,hrecord,hkeeper⟩
    simp only [logHandleRecycle, hsize, Option.bind_eq_bind, Option.bind_some, if_pos hover, hviews]
  · rw [if_neg hover] at hn₁
    obtain ⟨hvoid,domain,ip,hrest⟩ := finishes_insertName hn₁
    refine ⟨hvoid,domain,ip,fun alloc hdomain hip => ?_⟩
    obtain ⟨stats,stats',hstats,hrecord,hkeeper⟩ := hrest alloc hdomain hip
    refine ⟨keeper.views,stats,stats',?_,hstats,hrecord,hkeeper⟩
    simp only [logHandleRecycle, hsize, Option.bind_eq_bind, Option.bind_some, if_neg hover]

/-- `log_handle` from its lock to its unlock. -/
theorem finishes_find (h : (suppliedAccesses unpack pack supply).Finishes (.find r) keeper result keeper') :
    result = void ∧ ∃ alloc, supply alloc.stats ∧ logHandle alloc keeper r = some keeper' := by
  obtain ⟨m₁,k₁,_,hm₁,h₁,hn₁⟩ := finishes_next h
  simp only [keeperAccess, Option.bind_eq_bind, Option.bind_eq_some_iff] at h₁
  obtain ⟨found,hfind,h₁⟩ := h₁
  cases found with
  | none =>
    simp only [Option.some_inj, Prod.mk.injEq] at h₁
    obtain ⟨rfl,rfl⟩ := h₁
    simp only [reduceCtorEq, false_and, Sum.inl.injEq, exists_eq_left', false_or] at hn₁
    obtain ⟨m₂,k₂,_,hm₂,h₂,hn₂⟩ := finishes_next hn₁
    simp only [keeperAccess, Option.bind_eq_bind, Option.bind_eq_some_iff] at h₂
    obtain ⟨created,hcreate,h₂⟩ := h₂
    cases created with
    | none =>
      simp only [Option.some_inj, Prod.mk.injEq] at h₂
      obtain ⟨rfl,rfl⟩ := h₂
      simp only [Sum.inr.injEq, reduceCtorEq, false_and, exists_false, or_false] at hn₂
      obtain ⟨rfl,rfl⟩ := hn₂
      refine ⟨rfl,m₂.log,hm₂,?_⟩
      simp only [logHandle, logHandleView, hfind, hcreate, Option.bind_eq_bind, Option.bind_some]
    | some vs =>
      simp only [Option.some_inj, Prod.mk.injEq] at h₂
      obtain ⟨rfl,rfl⟩ := h₂
      simp only [reduceCtorEq, false_and, Sum.inl.injEq, exists_eq_left', false_or] at hn₂
      obtain ⟨m₃,k₃,_,-,h₃,hn₃⟩ := finishes_next hn₂
      simp only [keeperAccess, Option.bind_eq_bind, Option.bind_eq_some_iff, Option.some_inj, Prod.mk.injEq] at h₃
      obtain ⟨views,hinsert,rfl,rfl⟩ := h₃
      simp only [reduceCtorEq, false_and, Sum.inl.injEq, exists_eq_left', false_or] at hn₃
      obtain ⟨hvoid,domain,ip,hrest⟩ := finishes_getSize hn₃
      obtain ⟨views',stats,stats',hrecycle,hstats,hrecord,rfl⟩ :=
        hrest ⟨m₂.log.stats,m₃.log.node,domain,ip,m₂.log.memory⟩ rfl rfl
      refine ⟨hvoid,⟨m₂.log.stats,m₃.log.node,domain,ip,m₂.log.memory⟩,hm₂,?_⟩
      simp only [logHandle, logHandleView, hfind, hcreate, hinsert, hrecycle, hstats, hrecord, Option.bind_eq_bind,
        Option.bind_some, HouseKeeper.setStats]
  | some vtnode =>
    simp only [Option.some_inj, Prod.mk.injEq] at h₁
    obtain ⟨rfl,rfl⟩ := h₁
    simp only [reduceCtorEq, false_and, Sum.inl.injEq, exists_eq_left', false_or] at hn₁
    obtain ⟨m₂,k₂,_,-,h₂,hn₂⟩ := finishes_next hn₁
    simp only [keeperAccess, Option.bind_eq_bind, Option.bind_eq_some_iff, Option.some_inj, Prod.mk.injEq] at h₂
    obtain ⟨lrulist,hmove,rfl,rfl⟩ := h₂
    simp only [reduceCtorEq, false_and, Sum.inl.injEq, exists_eq_left', false_or] at hn₂
    obtain ⟨hvoid,domain,ip,hrest⟩ := finishes_getSize hn₂
    obtain ⟨views',stats,stats',hrecycle,hstats,hrecord,rfl⟩ :=
      hrest { m₁.log with domain := domain, ip := ip } rfl rfl
    refine ⟨hvoid,{ m₁.log with domain := domain, ip := ip },hm₁,?_⟩
    simp only [logHandle, logHandleView, hfind, hmove, hrecycle, hstats, hrecord, Option.bind_eq_bind,
      Option.bind_some, HouseKeeper.setStats]

/-! ## qps_thread -/

theorem nextNode_append {pre post : List ℕ} {a : ℕ} (ha : a ∉ pre) : nextNode (pre ++ a :: post) a = post.head? := by
  have hdrop : (pre ++ a :: post).dropWhile (fun b => b ≠ a) = a :: post := by
    rw [List.dropWhile_append_of_pos]
    · exact List.dropWhile_cons_of_neg (by simp)
    · intro b hb
      exact decide_eq_true fun he => ha (he ▸ hb)
  rw [nextNode, hdrop, List.tail_cons]

/-- The nodes of a round from some place in the order of the tree on. -/
theorem finishes_forNode {pre post : List ℕ} (helems : keeper.views.rbtree.elems = pre ++ post)
    (hnodup : keeper.views.rbtree.elems.Nodup)
    (h : forNode post.head? = .inr result ∧ keeper = keeper' ∨
      ∃ pc, forNode post.head? = .inl pc ∧ (suppliedAccesses unpack pack supply).Finishes pc keeper result keeper') :
    result = void ∧ ∃ stats, qpsThreadLoop keeper.views.nodes post keeper.views.stats = some stats ∧
      keeper' = { keeper with views := { keeper.views with stats := stats } } := by
  induction post generalizing keeper pre with
  | nil =>
    simp only [forNode, List.head?_nil, Option.elim_none, Sum.inr.injEq, reduceCtorEq, false_and, exists_false,
      or_false] at h
    obtain ⟨rfl,rfl⟩ := h
    exact ⟨rfl,_,rfl,rfl⟩
  | cons a post ih =>
    simp only [forNode, List.head?_cons, Option.elim_some, reduceCtorEq, false_and, Sum.inl.injEq, exists_eq_left',
      false_or] at h
    have ha : a ∉ pre := by
      rw [helems, List.nodup_append] at hnodup
      exact fun hmem => hnodup.2.2 a hmem a List.mem_cons_self rfl
    have hshift : keeper.views.rbtree.elems = (pre ++ [a]) ++ post := by rw [helems, List.append_assoc, List.singleton_append]
    obtain ⟨m₁,k₁,_,-,h₁,hn₁⟩ := finishes_next h
    simp only [keeperAccess, helems, nextNode_append ha] at h₁
    by_cases hz : (keeper.views.nodes a).name.strlen = 0
    · simp only [if_pos hz, Option.some_inj, Prod.mk.injEq] at h₁
      obtain ⟨rfl,rfl⟩ := h₁
      obtain ⟨hvoid,stats,hrun,hkeeper⟩ := ih hshift hnodup hn₁
      refine ⟨hvoid,stats,?_,hkeeper⟩
      rw [← hrun]
      simp only [qpsThreadLoop, List.foldlM_cons, if_pos hz, Option.bind_eq_bind, Option.bind_some]
    · simp only [if_neg hz, Option.bind_eq_bind, Option.bind_eq_some_iff, Option.some_inj, Prod.mk.injEq] at h₁
      obtain ⟨vs,hvs,rfl,rfl⟩ := h₁
      have hshift' : (keeper.setStats (keeper.views.nodes a).vs (qpsThreadRecord vs)).views.rbtree.elems =
        (pre ++ [a]) ++ post := hshift
      obtain ⟨hvoid,stats,hrun,hkeeper⟩ := ih hshift' hnodup hn₁
      refine ⟨hvoid,stats,?_,hkeeper⟩
      rw [← hrun]
      simp only [qpsThreadLoop, List.foldlM_cons, if_neg hz, hvs, Option.map_some, Option.bind_eq_bind, Option.bind_some]
      rfl

/-- A round of `qps_thread` from its lock to its unlock. -/
theorem finishes_first (hnodup : keeper.views.rbtree.elems.Nodup)
    (h : (suppliedAccesses unpack pack supply).Finishes .first keeper result keeper') :
    result = void ∧ qpsThreadRound keeper = some keeper' := by
  obtain ⟨m₁,k₁,_,-,h₁,hn₁⟩ := finishes_next h
  simp only [keeperAccess, Option.some_inj, Prod.mk.injEq] at h₁
  obtain ⟨rfl,rfl⟩ := h₁
  have helems : keeper.views.rbtree.elems = [] ++ keeper.views.rbtree.elems := rfl
  obtain ⟨hvoid,stats,hrun,rfl⟩ := finishes_forNode helems hnodup hn₁
  refine ⟨hvoid,?_⟩
  rw [qpsThreadLoop] at hrun
  simp only [qpsThreadRound, hrun, Option.bind_eq_bind, Option.bind_some]

/-! ## socket_thread -/

theorem socketCommand_eq {memory : CommandMemory} {request : StatsRequest} {reply : Option Reply} {k : HouseKeeper}
    (hexecute : executeCommand memory keeper request = some (k,reply)) (hpack : packReply pack reply = some result) :
    ∃ packed, socketCommand memory pack keeper request = some (k,packed) ∧ result = packed.val := by
  rw [packReply] at hpack
  simp only [socketCommand, hexecute, Option.bind_eq_bind, Option.bind_some]
  split at hpack
  · rename_i hlen
    obtain rfl := Option.some_inj.mp hpack
    exact ⟨_,dif_pos hlen,rfl⟩
  · cases hpack

/-- The command of a request from its lock to its unlock. -/
theorem finishes_request {payload : List UInt8}
    (h : (suppliedAccesses unpack pack supply).Finishes (.request payload) keeper result keeper') :
    ∃ request memory packed, unpack payload = some request ∧
      socketCommand memory pack keeper request = some (keeper',packed) ∧ result = packed.val := by
  obtain ⟨m₁,k₁,_,-,h₁,hn₁⟩ := finishes_next h
  simp only [keeperAccess, Option.bind_eq_bind, Option.bind_eq_some_iff] at h₁
  obtain ⟨request,hunpack,found,hfind,h₁⟩ := h₁
  cases found with
  | none =>
    simp only [Option.some_inj, Prod.mk.injEq] at h₁
    obtain ⟨rfl,rfl⟩ := h₁
    simp only [reduceCtorEq, false_and, Sum.inl.injEq, exists_eq_left', false_or] at hn₁
    obtain ⟨m₂,k₂,_,-,h₂,hn₂⟩ := finishes_next hn₁
    simp only [keeperAccess, Option.bind_eq_bind, Option.bind_eq_some_iff, Option.some_inj, Prod.mk.injEq] at h₂
    obtain ⟨⟨k,reply⟩,hcommand,packed,hpack,rfl,rfl⟩ := h₂
    simp only [Sum.inr.injEq, reduceCtorEq, false_and, exists_false, or_false] at hn₂
    obtain ⟨rfl,rfl⟩ := hn₂
    obtain ⟨result,hresult⟩ := socketCommand_eq
      (show executeCommand m₂.command keeper request = some (k,some reply) by
        simp only [executeCommand, hfind, hcommand, Option.bind_eq_bind, Option.bind_some, Option.map_some]) hpack
    exact ⟨request,m₂.command,result,hunpack,hresult⟩
  | some vtnode =>
    simp only [Option.some_inj, Prod.mk.injEq] at h₁
    obtain ⟨rfl,rfl⟩ := h₁
    simp only [reduceCtorEq, false_and, Sum.inl.injEq, exists_eq_left', false_or] at hn₁
    obtain ⟨m₂,k₂,_,-,h₂,hn₂⟩ := finishes_next hn₁
    simp only [keeperAccess, Option.bind_eq_bind, Option.bind_eq_some_iff, Option.some_inj, Prod.mk.injEq] at h₂
    obtain ⟨vs,hvs,⟨k,reply⟩,hcommand,packed,hpack,rfl,rfl⟩ := h₂
    simp only [Sum.inr.injEq, reduceCtorEq, false_and, exists_false, or_false] at hn₂
    obtain ⟨rfl,rfl⟩ := hn₂
    obtain ⟨result,hresult⟩ := socketCommand_eq
      (show executeCommand m₂.command keeper request = some (k,reply) by
        simp only [executeCommand, hfind, hvs, hcommand, Option.bind_eq_bind, Option.bind_some]) hpack
    exact ⟨request,m₂.command,result,hunpack,hresult⟩

/-! ## Whole operations -/

/-- A command leaves the keeper as it is or flushes it. -/
theorem executeCommand_changes {memory : CommandMemory} {request : StatsRequest} {reply : Option Reply}
    (h : executeCommand memory keeper request = some (keeper',reply)) :
    keeper' = keeper ∨ keeper' = houseKeeperClearStats memory.views keeper := by
  obtain ⟨found,-,hfound⟩ := Option.bind_eq_some_iff.mp h
  cases found with
  | none =>
    obtain ⟨⟨k,answer⟩,hcommand,he⟩ := Option.map_eq_some_iff.mp hfound
    obtain ⟨rfl,-⟩ := Prod.mk.inj he
    rw [keeperCommand] at hcommand
    split_ifs at hcommand
    · obtain ⟨_,_,hviews⟩ := Option.map_eq_some_iff.mp hcommand
      exact Or.inl (Prod.mk.inj hviews).1.symm
    · exact Or.inr (Prod.mk.inj (Option.some_inj.mp hcommand)).1.symm
    · exact Or.inl (Prod.mk.inj (Option.some_inj.mp hcommand)).1.symm
  | some vtnode =>
    obtain ⟨vs,-,hcommand⟩ := Option.bind_eq_some_iff.mp hfound
    rw [viewCommand] at hcommand
    split_ifs at hcommand
    all_goals first
      | exact Or.inl (Prod.mk.inj (Option.some_inj.mp hcommand)).1.symm
      | exact Or.inr (Prod.mk.inj (Option.some_inj.mp hcommand)).1.symm
      | obtain ⟨_,_,htopn⟩ := Option.map_eq_some_iff.mp hcommand
        exact Or.inl (Prod.mk.inj htopn).1.symm

/-- The nodes of the tree are well-formed, whatever the count of views says. -/
def HouseKeeper.Kept (keeper : HouseKeeper) : Prop := ∃ d cells, keeper.views.OffBy d cells

theorem houseKeeperCreate_kept (memory : ViewTreeMemory) : (houseKeeperCreate memory).Kept := by
  obtain ⟨t,hwf,hcreate⟩ := ViewTree.viewTreeCreate_shift memory
  exact ⟨memory.count,[],t,hwf,hcreate⟩

theorem HouseKeeper.Kept.nodup (h : keeper.Kept) : keeper.views.rbtree.elems.Nodup := by
  obtain ⟨d,cells,t,hwf,hviews⟩ := h
  rw [hviews]
  exact hwf.elems_nodup

theorem HouseKeeper.Kept.step (h : keeper.Kept) {op : KeeperOp} (hr : keeperStep keeper op = some keeper') : keeper'.Kept := by
  obtain ⟨d,cells,hoff⟩ := h
  obtain ⟨⟨cells',hoff'⟩,-,-⟩ := keeperStep_cases hoff hr
  exact ⟨_,cells',hoff'⟩

omit [DecidablePred supply] in
theorem HouseKeeper.Kept.object (h : keeper.Kept) {call : KeeperCall}
    (hr : keeperObject unpack pack supply keeper call result keeper') : keeper'.Kept := by
  cases call with
  | log r =>
    obtain ⟨-,alloc,-,hr⟩ := hr
    exact h.step hr
  | tick => exact h.step hr.2
  | command payload =>
    obtain ⟨request,memory,packed,-,hr,-⟩ := hr
    obtain ⟨⟨k,reply⟩,hexecute,hr⟩ := Option.bind_eq_some_iff.mp hr
    have hk : k = keeper' := by
      simp only at hr
      split at hr
      · exact (Prod.mk.inj (Option.some_inj.mp hr)).1
      · cases hr
    rw [← hk]
    rcases executeCommand_changes hexecute with rfl | rfl
    · exact h
    · have hflush : keeperStep keeper (.flush memory.views) = some _ := rfl
      exact h.step hflush

/-- What the accesses of an operation do in a row is one step. -/
theorem keeperObject_of_finishes (h : keeper.Kept) {call : KeeperCall}
    (hr : (suppliedAccesses unpack pack supply).object keeper call result keeper') :
    keeperObject unpack pack supply keeper call result keeper' := by
  cases call with
  | log r => exact finishes_find hr
  | tick => exact finishes_first h.nodup hr
  | command payload => exact finishes_request hr

theorem serial_keeperObject {κ : Type} {order : List (Effect κ KeeperCall (List UInt8))} (h : keeper.Kept)
    (hserial : Serial (suppliedAccesses unpack pack supply).object keeper order keeper') :
    Serial (keeperObject unpack pack supply) keeper order keeper' ∧ keeper'.Kept :=
  hserial.imp h fun _ _ _ _ hkept hr =>
    have hobject := keeperObject_of_finishes hkept hr
    ⟨hobject,hkept.object hobject⟩

end Finishes

end LogStats
