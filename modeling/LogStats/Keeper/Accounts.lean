import LogStats.Keeper.Rates

/-! # What the lines of a log add up to

Each line that is accepted is counted under the name of its view and zone, and under a
name for the zone alone. A record has one count for each call with its name, whatever
lines the calls are for: two pairs whose names are joined to the same key share a
record, and a name that is too long has none. Whether there is a run at all is the matter
of a module of its own.
-/
namespace LogStats

open ViewTree

/-! ## Counting by labels -/

section Labels
variable {α : Type*}

/-- How many of `xs` are selected and have label `i`. -/
def countWith (xs : List α) (sel : α → Prop) [DecidablePred sel] (index : α → Option ℕ) (i : ℕ) : ℕ :=
  xs.countP fun x => sel x ∧ index x = some i

/-- The counters of `c` are those of the elements that are selected. -/
structure CountsOf (xs : List α) (sel : α → Prop) [DecidablePred sel] (rcode rtype : α → Option ℕ) (c : Counters) :
    Prop where
  rcode_eq : ∀ i, c.rcode i = UInt32.ofNat (countWith xs sel rcode i)
  rtype_eq : ∀ j, c.rtype j = UInt32.ofNat (countWith xs sel rtype j)

variable {xs : List α} {x : α} {sel : α → Prop} [DecidablePred sel] {rcode rtype index : α → Option ℕ} {c : Counters}

theorem countWith_concat_skip (h : ¬sel x) (i : ℕ) : countWith (xs ++ [x]) sel index i = countWith xs sel index i := by
  simp [countWith, h]

theorem countWith_concat_take (h : sel x) {k : ℕ} (hk : index x = some k) (i : ℕ) :
    countWith (xs ++ [x]) sel index i = countWith xs sel index i + if i = k then 1 else 0 := by
  have hi : (k = i) = (i = k) := propext eq_comm
  simp only [countWith, List.countP_append, List.countP_singleton, h, hk, Option.some_inj, true_and, hi,
    decide_eq_true_eq]

theorem countWith_eq_zero (h : ∀ x ∈ xs, ¬sel x) (i : ℕ) : countWith xs sel index i = 0 := by
  rw [countWith, List.countP_eq_zero]
  intro x hx
  simp [h x hx]

theorem CountsOf.zero (h : ∀ x ∈ xs, ¬sel x) : CountsOf xs sel rcode rtype .zero where
  rcode_eq i := by rw [countWith_eq_zero h]; rfl
  rtype_eq j := by rw [countWith_eq_zero h]; rfl

theorem CountsOf.skip (hc : CountsOf xs sel rcode rtype c) (h : ¬sel x) : CountsOf (xs ++ [x]) sel rcode rtype c where
  rcode_eq i := by rw [countWith_concat_skip h, hc.rcode_eq]
  rtype_eq j := by rw [countWith_concat_skip h, hc.rtype_eq]

private theorem update_counter {n : ℕ} {f : Fin n → UInt32} {g : ℕ → ℕ} (h : ∀ i, f i = UInt32.ofNat (g i))
    (k i : Fin n) : Function.update f k (f k + 1) i = UInt32.ofNat (g i + if i.val = k.val then 1 else 0) := by
  by_cases he : i = k
  · subst he
    rw [Function.update_self, if_pos rfl, h i]
    exact (UInt32.ofNat_add _ _).symm
  · rw [Function.update_of_ne he, if_neg (fun hv => he (Fin.ext hv)), Nat.add_zero, h i]

theorem CountsOf.log (hc : CountsOf xs sel rcode rtype c) (h : sel x) {i : Fin 7} (hi : rcode x = some i.val) {j : Fin 12}
    (hj : rtype x = some j.val) : CountsOf (xs ++ [x]) sel rcode rtype (c.log i j) where
  rcode_eq k := by
    rw [countWith_concat_take h hi]
    exact update_counter hc.rcode_eq i k
  rtype_eq k := by
    rw [countWith_concat_take h hj]
    exact update_counter hc.rtype_eq j k

end Labels

/-! ## Calls of log_handle -/

def LogRecord.rcodeNumber (r : LogRecord) : Option ℕ := rcodeIndex r.rcode
def LogRecord.rtypeNumber (r : LogRecord) : Option ℕ := rtypeIndex r.rtype
def LogLine.rcodeNumber (l : LogLine) : Option ℕ := rcodeIndex l.rcode
def LogLine.rtypeNumber (l : LogLine) : Option ℕ := rtypeIndex l.rtype

/-- The ledger after these calls, if nothing was forgotten: it has the names that were
used and are not too long, each with the counts of its own calls. -/
structure Ledger.Keeps (l : Ledger) (rs : List LogRecord) : Prop where
  missing : ∀ name, l name = none ↔ (∀ r ∈ rs, r.view ≠ name) ∨ maxViewLength < name.strlen
  counts : ∀ name c, l name = some c →
    CountsOf rs (fun r => r.view = name) LogRecord.rcodeNumber LogRecord.rtypeNumber c

section Calls
variable {l l' : Ledger} {rs : List LogRecord} {alloc : LogAlloc} {r : LogRecord} {recycles : Prop}

theorem Ledger.Keeps.empty : Ledger.empty.Keeps [] where
  missing name := iff_of_true rfl (Or.inl (by simp))
  counts name c hc := by cases hc

theorem missing_concat {name : CString} (h : r.view ≠ name) :
    (∀ q ∈ rs ++ [r], q.view ≠ name) ↔ ∀ q ∈ rs, q.view ≠ name := by
  simp [or_imp, forall_and, h]

theorem Ledger.Keeps.logged (h : l.Keeps rs) (hstats : alloc.stats = true) (hstep : LogOutcome alloc r recycles l l')
    (hno : ¬recycles) : l'.Keeps (rs ++ [r]) := by
  cases hstep with
  | refused hnew hlong hsame =>
    subst hsame
    constructor
    · intro name
      by_cases hn : r.view = name
      · subst hn
        exact iff_of_true hnew (Or.inr (hlong hstats))
      · rw [missing_concat hn]
        exact h.missing name
    · intro name c hc
      have hn : r.view ≠ name := by
        rintro rfl
        rw [hnew] at hc
        cases hc
      exact (h.counts name c hc).skip hn
  | counted i j hi hj hshort _ _ hall =>
    rw [hall hno]
    have hfits : ¬maxViewLength < r.view.strlen := by
      intro hlt
      have hlen := hshort ((h.missing r.view).mpr (Or.inr hlt))
      omega
    constructor
    · intro name
      by_cases hn : r.view = name
      · subst hn
        rw [Ledger.log_self]
        apply iff_of_false (by simp)
        rintro (hnone | hlt)
        · exact hnone r (by simp) rfl
        · exact hfits hlt
      · rw [Ledger.log_other l (Ne.symm hn), missing_concat hn]
        exact h.missing name
    · intro name c hc
      by_cases hn : r.view = name
      · subst hn
        rw [Ledger.log_self, Option.some_inj] at hc
        rw [← hc]
        cases hold : l r.view with
        | none =>
          have hnone := ((h.missing r.view).mp hold).resolve_right hfits
          exact (CountsOf.zero hnone).log rfl hi hj
        | some c₀ => exact (h.counts r.view c₀ hold).log rfl hi hj
      · rw [Ledger.log_other l (Ne.symm hn)] at hc
        exact (h.counts name c hc).skip hn

end Calls

/-! ## Lines -/

structure LogInput where
  alloc : LogAlloc
  totalAlloc : LogAlloc
  line : CString

def lineStep (keeper : HouseKeeper) (i : LogInput) : Option HouseKeeper :=
  handleStringLog i.alloc i.totalAlloc keeper i.line

/-- The lines that are accepted. -/
def accepted (inputs : List LogInput) : List LogLine := inputs.filterMap fun i => (handleTokens i.line).join

/-- The calls of `log_handle` that they lead to. -/
def calls (lines : List LogLine) : List LogRecord := lines.flatMap fun l => [l.record,l.totalRecord]

/-- Every request finds memory. -/
def LogAlloc.Plenty (alloc : LogAlloc) : Prop :=
  alloc.stats = true ∧ alloc.node = true ∧ alloc.domain = Mallocs.succeed ∧ alloc.ip = Mallocs.succeed

instance (alloc : LogAlloc) : Decidable alloc.Plenty := inferInstanceAs (Decidable (_ ∧ _))

/-- Both calls for the line find memory and recycle nothing. -/
def Undisturbed (keeper : HouseKeeper) (i : LogInput) : Prop :=
  (i.alloc.Plenty ∧ i.totalAlloc.Plenty) ∧ ∀ l ∈ (handleTokens i.line).join, ¬LogRecycles i.alloc keeper l.record ∧
    ∀ keeper' ∈ logHandle i.alloc keeper l.record, ¬LogRecycles i.totalAlloc keeper' l.totalRecord

instance (keeper : HouseKeeper) (i : LogInput) : Decidable (Undisturbed keeper i) :=
  inferInstanceAs (Decidable ((_ ∧ _) ∧ ∀ l ∈ (handleTokens i.line).join, _))

theorem lineStep_keeps {keeper keeper' : HouseKeeper} {i : LogInput} {inputs : List LogInput}
    (hoff : ∃ d cells, keeper.views.OffBy d cells) (hkeeps : keeper.ledger.Keeps (calls (accepted inputs)))
    (hok : Undisturbed keeper i) (hr : lineStep keeper i = some keeper') :
    (∃ d cells, keeper'.views.OffBy d cells) ∧ keeper'.ledger.Keeps (calls (accepted (inputs ++ [i]))) := by
  obtain ⟨line,hline,hr⟩ := Option.bind_eq_some_iff.mp hr
  cases line with
  | none =>
    obtain rfl := Option.some_inj.mp hr
    have hsame : accepted (inputs ++ [i]) = accepted inputs := by simp [accepted, hline]
    rw [hsame]
    exact ⟨hoff,hkeeps⟩
  | some l =>
    have hcalls : calls (accepted (inputs ++ [i])) = calls (accepted inputs) ++ [l.record] ++ [l.totalRecord] := by
      simp [accepted, calls, hline]
    obtain ⟨keeper₁,h₁,h₂⟩ := Option.bind_eq_some_iff.mp hr
    obtain ⟨⟨⟨hstats,-⟩,⟨hstats',-⟩⟩,hquiet⟩ := hok
    obtain ⟨hno,hno'⟩ := hquiet l (by simp [hline])
    obtain ⟨d,cells,hoff⟩ := hoff
    obtain ⟨⟨cells₁,hoff₁⟩,-,hout₁⟩ := logHandle_cases hoff h₁
    obtain ⟨⟨cells₂,hoff₂⟩,-,hout₂⟩ := logHandle_cases hoff₁ h₂
    rw [hcalls]
    exact ⟨⟨d,cells₂,hoff₂⟩,(hkeeps.logged hstats hout₁ hno).logged hstats' hout₂ (hno' keeper₁ h₁)⟩

/-! ## Views and zones -/

/-- A view whose name is not that of the totals, and has no separator in it. -/
def PlainView (view : CString) : Prop := (36 : UInt8) ∉ view.bytes ∧ view ≠ text "*"

theorem totalKeyword_eq (zone : CString) : totalKeyword zone = keyword (text "*") zone := by
  rw [totalKeyword, keyword]
  exact congrArg (· ++ zone) (by decide +kernel : text "*$" = text "*" ++ text "$")

theorem keyword_inj {view view' zone zone' : CString} (hv : (36 : UInt8) ∉ view.bytes) (hv' : (36 : UInt8) ∉ view'.bytes)
    (h : keyword view zone = keyword view' zone') : view = view' ∧ zone = zone' :=
  CString.append_sep_cancel (by decide +kernel) hv hv' h

theorem star_plain : (36 : UInt8) ∉ (text "*").bytes := by decide +kernel

theorem keyword_ne_total {view zone zone' : CString} (hv : PlainView view) : keyword view zone ≠ totalKeyword zone' := by
  rw [totalKeyword_eq]
  exact fun h => hv.2 (keyword_inj hv.1 star_plain h).1

/-- The ledger of views and zones after these lines. -/
structure Ledger.Accounts (l : Ledger) (lines : List LogLine) : Prop where
  /-- The record of a view and a zone has the lines of both. -/
  pair : ∀ view zone c, PlainView view → l (keyword view zone) = some c →
    CountsOf lines (fun x => x.view = view ∧ x.zone = zone) LogLine.rcodeNumber LogLine.rtypeNumber c
  /-- The record of a zone has its lines. -/
  total : ∀ zone c, l (totalKeyword zone) = some c →
    CountsOf lines (fun x => x.zone = zone) LogLine.rcodeNumber LogLine.rtypeNumber c
  apart : ∀ view zone view' zone', PlainView view → PlainView view' → keyword view zone = keyword view' zone' →
    view = view' ∧ zone = zone'
  /-- A line has two records, each of them there unless its name is too long. -/
  both : ∀ x ∈ lines, keyword x.view x.zone ≠ totalKeyword x.zone ∧
    (l (keyword x.view x.zone) = none ↔ maxViewLength < (keyword x.view x.zone).strlen) ∧
    (l (totalKeyword x.zone) = none ↔ maxViewLength < (totalKeyword x.zone).strlen)

section Lines
variable {lines : List LogLine}

theorem mem_calls {x : LogLine} (hx : x ∈ lines) : x.record ∈ calls lines ∧ x.totalRecord ∈ calls lines := by
  constructor <;> exact List.mem_flatMap.mpr ⟨x,hx,by simp⟩

/-- The calls with a name, by the lines that they are for. -/
theorem countWith_calls (name : CString) (p q : LogLine → Prop) [DecidablePred p] [DecidablePred q]
    {index : LogRecord → Option ℕ} {index' : LogLine → Option ℕ} (hidx : ∀ x, index (LogLine.record x) = index' x)
    (hidx' : ∀ x, index (LogLine.totalRecord x) = index' x) (hp : ∀ x ∈ lines, keyword x.view x.zone = name ↔ p x)
    (hq : ∀ x ∈ lines, totalKeyword x.zone = name ↔ q x) (i : ℕ) :
    countWith (calls lines) (fun r => r.view = name) index i = countWith lines p index' i + countWith lines q index' i := by
  induction lines with
  | nil => rfl
  | cons x lines ih =>
    have hrest := ih (fun y hy => hp y (List.mem_cons_of_mem x hy)) (fun y hy => hq y (List.mem_cons_of_mem x hy))
    have hpx : x.record.view = name ↔ p x := hp x List.mem_cons_self
    have hqx : x.totalRecord.view = name ↔ q x := hq x List.mem_cons_self
    rw [countWith, countWith, countWith] at hrest
    rw [countWith, countWith, countWith, calls, List.flatMap_cons, ← calls]
    simp only [List.cons_append, List.nil_append, List.countP_cons, hpx, hqx, hidx, hidx', hrest]
    omega

theorem Ledger.Keeps.accounts {l : Ledger} (h : l.Keeps (calls lines)) (hplain : ∀ x ∈ lines, PlainView x.view) :
    l.Accounts lines where
  pair view zone c hv hc := by
    have hcounts := h.counts _ c hc
    have hsplit : ∀ {index : LogRecord → Option ℕ} {index' : LogLine → Option ℕ},
        (∀ x, index (LogLine.record x) = index' x) → (∀ x, index (LogLine.totalRecord x) = index' x) → ∀ i,
        countWith (calls lines) (fun r => r.view = keyword view zone) index i =
          countWith lines (fun x => x.view = view ∧ x.zone = zone) index' i := by
      intro index index' hidx hidx' i
      rw [countWith_calls (keyword view zone) (fun x => x.view = view ∧ x.zone = zone) (fun _ => False) hidx hidx',
        countWith_eq_zero (fun _ _ => not_false) i, Nat.add_zero]
      · intro x hx
        refine ⟨keyword_inj (hplain x hx).1 hv.1,?_⟩
        rintro ⟨rfl,rfl⟩
        rfl
      · exact fun x _ => iff_of_false (fun he => keyword_ne_total hv he.symm) not_false
    exact ⟨fun i => (hcounts.rcode_eq i).trans (congrArg _ (hsplit (fun _ => rfl) (fun _ => rfl) i)),
      fun j => (hcounts.rtype_eq j).trans (congrArg _ (hsplit (fun _ => rfl) (fun _ => rfl) j))⟩
  total zone c hc := by
    have hcounts := h.counts _ c hc
    have hsplit : ∀ {index : LogRecord → Option ℕ} {index' : LogLine → Option ℕ},
        (∀ x, index (LogLine.record x) = index' x) → (∀ x, index (LogLine.totalRecord x) = index' x) → ∀ i,
        countWith (calls lines) (fun r => r.view = totalKeyword zone) index i =
          countWith lines (fun x => x.zone = zone) index' i := by
      intro index index' hidx hidx' i
      rw [countWith_calls (totalKeyword zone) (fun _ => False) (fun x => x.zone = zone) hidx hidx',
        countWith_eq_zero (fun _ _ => not_false) i, Nat.zero_add]
      · exact fun x hx => iff_of_false (keyword_ne_total (hplain x hx)) not_false
      · intro x _
        rw [totalKeyword_eq, totalKeyword_eq]
        exact ⟨fun he => (keyword_inj star_plain star_plain he).2,fun he => by rw [he]⟩
    exact ⟨fun i => (hcounts.rcode_eq i).trans (congrArg _ (hsplit (fun _ => rfl) (fun _ => rfl) i)),
      fun j => (hcounts.rtype_eq j).trans (congrArg _ (hsplit (fun _ => rfl) (fun _ => rfl) j))⟩
  apart view zone view' zone' hv hv' he := keyword_inj hv.1 hv'.1 he
  both x hx := by
    obtain ⟨hrecord,htotal⟩ := mem_calls hx
    refine ⟨keyword_ne_total (hplain x hx),?_,?_⟩
    · rw [h.missing, or_iff_right]
      exact fun hnone => hnone _ hrecord rfl
    · rw [h.missing, or_iff_right]
      exact fun hnone => hnone _ htotal rfl

end Lines

/-- A line as the server writes it, with the tokens that take part in the names. -/
def logLine (view zone : String) : LogInput where
  alloc := plentyOfMemory
  totalAlloc := plentyOfMemory
  line := text "02-Jul-2013 11:36:36.273 client 203.119.80.41 57867: view " ++ text view ++
    text ": www.test.com IN A NOERROR + NS NE NT ND NC " ++ text zone ++ text ")"

end LogStats
