import LogStats.Library.TopList
import LogStats.NameTree.Counting
import LogStats.Webserver.Database

/-! # The most frequent clients and domains of a long range, db_handler.py

The days and the hours since the last day are each cut down to the greatest counts before
they are added up. The entries of a dictionary come in an order of its own, which is any
order of its keys here.
-/
namespace LogStats

/-- The order in which `iteritems` gives the entries of a dictionary. -/
structure DictOrder where
  before : CString → CString → Bool
  trans : ∀ a b c, before a b → before b c → before a c
  total : ∀ a b, before a b || before b a
  antisymm : ∀ a b, before a b → before b a → a = b

def DictOrder.items (order : DictOrder) (map : Results) : Results := map.mergeSort fun k v => order.before k.1 v.1

/-- The dictionaries of a query: those of the days, of the recent hours and of both. -/
structure DictOrders where
  long : DictOrder
  recent : DictOrder
  union : DictOrder

inductive TopnType where
  | iptopn
  | domaintopn
deriving DecidableEq

/-- The tables `iptopn_history` and `domaintopn_history`, and those of whole days. -/
structure TopnDB where
  history : TopnType → List PropertyRow
  oneDayHistory : TopnType → List PropertyRow

/-- `sorted(map.iteritems(), key=lambda(k,v):v, reverse=True)` for the counts of results -/
def ranked (order : DictOrder) (results : Results) : Results := sortR (order.items (countResults results))

/-- `get_topn` -/
def getTopn (order : DictOrder) (rows : List PropertyRow) (view : CString) (vDate vEnd topn : ℕ) : Option Results :=
  (asked view).map fun name => (ranked order (selectRows rows name vDate vEnd)).take topn

/-- `_get_union_result` -/
def topnUnionResult (order : DictOrder) (longResults recentResults : Results) (topn : ℕ) : Results :=
  (ranked order (longResults ++ recentResults)).take topn

/-- What `get_ip_topn` and `get_domain_topn` have in common. -/
def TopnDB.getLongTopn (db : TopnDB) (orders : DictOrders) (p : TopnType) (view : CString) (vDate vEnd topn : ℕ) :
    Option Results :=
  if lessThanSomeInterval vDate vEnd timeInterval then getTopn orders.recent (db.history p) view vDate vEnd topn
  else
    (getTopn orders.long (db.oneDayHistory p) view vDate vEnd topn).bind fun longResults =>
    (getTopn orders.recent (db.history p) view (getLatestTime (db.oneDayHistory p)) vEnd topn).map fun recentResults =>
    topnUnionResult orders.union longResults recentResults topn

def TopnDB.getIpTopn (db : TopnDB) (orders : DictOrders) (view : CString) (vDate vEnd topn : ℕ) : Option Results :=
  db.getLongTopn orders .iptopn view vDate vEnd topn

def TopnDB.getDomainTopn (db : TopnDB) (orders : DictOrders) (view : CString) (vDate vEnd topn : ℕ) : Option Results :=
  db.getLongTopn orders .domaintopn view vDate vEnd topn

/-! ## What a merged list is to be -/

/-- A top list of the counts that rows have in all. -/
structure ExactTop (rows : Results) (topn : ℕ) (result : Results) : Prop where
  nodup : (keys result).Nodup
  stored : ∀ key ∈ keys result, key ∈ keys rows
  length_le : result.length ≤ topn
  full : result.length < topn → ∀ key ∈ keys rows, key ∈ keys result
  descending : Descending result
  counts : ∀ e ∈ result, e.2 = total e.1 rows
  greatest : ∀ key ∈ keys rows, key ∉ keys result → ∀ e ∈ result, total key rows ≤ total e.1 rows

/-! ## What the tables say of the cuts -/

/-- Whether a key is listed before another, by counts. -/
def Ahead (order : DictOrder) (count : CString → ℤ) (k key : CString) : Prop :=
  count key < count k ∨ count k = count key ∧ k ≠ key ∧ order.before k key

instance (order : DictOrder) (count : CString → ℤ) (k key : CString) : Decidable (Ahead order count k key) :=
  inferInstanceAs (Decidable (_ ∨ _))

/-- A cut keeps the keys of a table that fewer than `topn` others are ahead of. -/
def Kept (order : DictOrder) (topn : ℕ) (rows : Results) (key : CString) : Prop :=
  key ∈ keys rows ∧ ((keys rows).dedup.filter fun k => Ahead order (fun k => total k rows) k key).length < topn

instance (order : DictOrder) (topn : ℕ) (rows : Results) (key : CString) : Decidable (Kept order topn rows key) :=
  inferInstanceAs (Decidable (_ ∧ _))

def keptTotal (order : DictOrder) (topn : ℕ) (rows : Results) (key : CString) : ℤ :=
  if Kept order topn rows key then total key rows else 0

section Tables
variable (orders : DictOrders) (topn : ℕ) (long recent : Results)

/-- Whether one of the cuts keeps a key. -/
def Stays (key : CString) : Prop := Kept orders.long topn long key ∨ Kept orders.recent topn recent key

instance (key : CString) : Decidable (Stays orders topn long recent key) := inferInstanceAs (Decidable (_ ∨ _))

/-- What both cuts keep of the count of a key. -/
def part (key : CString) : ℤ := keptTotal orders.long topn long key + keptTotal orders.recent topn recent key

def stayingKeys : List CString := (keys (long ++ recent)).dedup.filter (Stays orders topn long recent)

/-- Whether a key is returned: it stays, and fewer than `topn` others are ahead of it by what is left. -/
def Returned (key : CString) : Prop :=
  Stays orders topn long recent key ∧
    ((stayingKeys orders topn long recent).filter fun k =>
      Ahead orders.union (part orders topn long recent) k key).length < topn

instance (key : CString) : Decidable (Returned orders topn long recent key) := inferInstanceAs (Decidable (_ ∧ _))

/-- What is returned is right for these rows: the keys have their whole counts left, and any other
has `topn` of them with no less left than its whole count. -/
def Suits (rows : Results) : Prop :=
  (∀ key ∈ stayingKeys orders topn long recent, Returned orders topn long recent key →
    key ∈ keys rows ∧ part orders topn long recent key = total key rows) ∧
  ∀ key ∈ keys rows, ¬Returned orders topn long recent key →
    topn ≤ ((stayingKeys orders topn long recent).filter fun k =>
      Returned orders topn long recent k ∧ total key rows ≤ part orders topn long recent k).length

instance (rows : Results) : Decidable (Suits orders topn long recent rows) :=
  inferInstanceAs (Decidable ((∀ _ ∈ _, _ → _) ∧ ∀ _ ∈ _, _ → _))

/-- A key that the cuts take, or take from, has `topn` keys ahead of it with no less left than
its whole count. -/
def Outranked : Prop :=
  ∀ key ∈ keys (long ++ recent),
    ¬Stays orders topn long recent key ∨ part orders topn long recent key ≠ total key (long ++ recent) →
    topn ≤ ((stayingKeys orders topn long recent).filter fun k =>
      (Stays orders topn long recent key → Ahead orders.union (part orders topn long recent) k key) ∧
        total key (long ++ recent) ≤ part orders topn long recent k).length

instance : Decidable (Outranked orders topn long recent) := inferInstanceAs (Decidable (∀ _ ∈ _, _ → _))

/-- A key that the cuts take a part of has `topn` keys with no less left than its whole count. -/
def Outnumbered : Prop :=
  ∀ key ∈ keys (long ++ recent), part orders topn long recent key ≠ total key (long ++ recent) →
    topn ≤ ((stayingKeys orders topn long recent).filter fun k =>
      total key (long ++ recent) ≤ part orders topn long recent k).length

instance : Decidable (Outnumbered orders topn long recent) := inferInstanceAs (Decidable (∀ _ ∈ _, _ → _))

end Tables

/-! ## Ranked results -/

section Ranked
variable {order : DictOrder} {xs ys : Results} {key : CString} {e : CString × ℤ} {n : ℕ}

theorem total_of_notMem (h : key ∉ keys xs) : total key xs = 0 := by
  induction xs with
  | nil => rfl
  | cons r xs ih =>
    simp only [keys, List.map_cons, List.mem_cons, not_or] at h
    rw [total_cons, if_neg (Ne.symm h.1), ih h.2, zero_add]

/-- Where keys are distinct an entry has the total of its key. -/
theorem total_of_mem (h : (keys xs).Nodup) (he : e ∈ xs) : total e.1 xs = e.2 := by
  induction xs with
  | nil => cases he
  | cons r xs ih =>
    obtain ⟨hr,hxs⟩ := List.nodup_cons.mp h
    rw [total_cons]
    rcases List.mem_cons.mp he with rfl | he
    · rw [if_pos rfl, total_of_notMem hr, add_zero]
    · have hne : r.1 ≠ e.1 := by
        intro heq
        apply hr
        rw [heq]
        exact List.mem_map_of_mem he
      rw [if_neg hne, zero_add, ih hxs he]

theorem mem_keys_countResults : key ∈ keys (countResults xs) ↔ key ∈ keys xs := by
  refine ⟨countResults_keys.2 key,?_⟩
  suffices hgen : ∀ map, key ∈ keys map ∨ key ∈ keys xs → key ∈ keys (xs.foldl increment map) from
    fun h => hgen [] (Or.inr h)
  induction xs with
  | nil =>
    intro map h
    exact h.resolve_right List.not_mem_nil
  | cons r xs ih =>
    intro map h
    apply ih
    rw [keys_increment]
    rcases h with h | h
    · left
      split
      · exact h
      · exact List.mem_append_left _ h
    · rcases List.mem_cons.mp h with rfl | h
      · left
        split
        · assumption
        · exact List.mem_append_right _ (List.mem_singleton_self _)
      · exact Or.inr h

theorem ranked_perm : (ranked order xs).Perm (countResults xs) :=
  (List.mergeSort_perm _ _).trans (List.mergeSort_perm _ _)

theorem value_trans (a b c : CString × ℤ) (hab : decide (b.2 ≤ a.2) = true) (hbc : decide (c.2 ≤ b.2) = true) :
    decide (c.2 ≤ a.2) = true := by
  simp only [decide_eq_true_eq] at hab hbc ⊢
  exact hbc.trans hab

theorem value_total (a b : CString × ℤ) : (decide (b.2 ≤ a.2) || decide (a.2 ≤ b.2)) = true := by
  simp only [Bool.or_eq_true, decide_eq_true_eq]
  exact le_total b.2 a.2

theorem ranked_descending : Descending (ranked order xs) := by
  have hsorted := List.pairwise_mergeSort value_trans value_total (order.items (countResults xs))
  exact hsorted.imp fun hab => of_decide_eq_true hab

theorem ranked_nodup : (keys (ranked order xs)).Nodup :=
  (ranked_perm.map Prod.fst).nodup_iff.mpr countResults_keys.1

theorem mem_keys_ranked : key ∈ keys (ranked order xs) ↔ key ∈ keys xs :=
  ((ranked_perm.map Prod.fst).mem_iff).trans mem_keys_countResults

theorem total_ranked : total key (ranked order xs) = total key xs :=
  (total_perm ranked_perm).trans total_countResults

/-- An entry has all that the rows have for its key. -/
theorem ranked_value (he : e ∈ ranked order xs) : e.2 = total e.1 xs := by
  rw [← @total_ranked order xs e.1, total_of_mem ranked_nodup he]

theorem ahead_asymm (count : CString → ℤ) (a b : CString) (hab : Ahead order count a b) : ¬Ahead order count b a := by
  rintro (hlt | ⟨heq,-,hba⟩)
  · rcases hab with hlt' | ⟨heq,-,-⟩ <;> omega
  · rcases hab with hlt' | ⟨-,hne,hab⟩
    · omega
    · exact hne (order.antisymm a b hab hba)

/-- The keys are listed by their counts, those with equal counts as the dictionary has them. -/
theorem ranked_pairwise : (keys (ranked order xs)).Pairwise (Ahead order fun k => total k xs) := by
  have hitems : (order.items (countResults xs)).Pairwise fun a b => order.before a.1 b.1 :=
    List.pairwise_mergeSort (fun a b c => order.trans a.1 b.1 c.1) (fun a b => order.total a.1 b.1) _
  have hnodup : (keys (order.items (countResults xs))).Nodup :=
    ((List.mergeSort_perm _ _).map Prod.fst).nodup_iff.mpr countResults_keys.1
  have hdistinct : (order.items (countResults xs)).Pairwise fun a b => a.1 ≠ b.1 := List.pairwise_map.mp hnodup
  have hstable := pairwise_mergeSort_stable value_trans value_total hnodup.of_map (hitems.and hdistinct)
  refine List.pairwise_map.mpr (hstable.imp_of_mem fun {a b} ha hb hab => ?_)
  obtain ⟨hle,htie⟩ := hab
  have hva : a.2 = total a.1 xs := ranked_value ha
  have hvb : b.2 = total b.1 xs := ranked_value hb
  simp only [decide_eq_true_eq] at hle htie
  rw [hva, hvb] at hle htie
  rcases lt_or_eq_of_le hle with hlt | heq
  · exact Or.inl hlt
  · obtain ⟨hbefore,hne⟩ := htie heq.ge
    exact Or.inr ⟨heq.symm,hne,hbefore⟩

theorem ranked_keys_perm : (keys (ranked order xs)).Perm (keys xs).dedup :=
  (List.perm_ext_iff_of_nodup ranked_nodup (List.nodup_dedup _)).mpr fun key => by rw [mem_keys_ranked, List.mem_dedup]

theorem keys_take : keys (xs.take n) = (keys xs).take n := List.map_take

theorem take_nodup : (keys ((ranked order xs).take n)).Nodup := by
  rw [keys_take]
  exact ranked_nodup.sublist (List.take_sublist _ _)

theorem mem_take_ranked : key ∈ keys ((ranked order xs).take n) ↔ Kept order n xs key := by
  rw [keys_take, Kept, ← @mem_keys_ranked order xs key]
  have hlength := ((@ranked_keys_perm order xs).filter fun k => decide (Ahead order (fun k => total k xs) k key)).length_eq
  rw [← hlength]
  constructor
  · intro h
    have hin := List.mem_of_mem_take h
    exact ⟨hin,(mem_take_iff ranked_pairwise (ahead_asymm _) hin).mp h⟩
  · rintro ⟨hin,h⟩
    exact (mem_take_iff ranked_pairwise (ahead_asymm _) hin).mpr h

theorem total_take_ranked : total key ((ranked order xs).take n) = keptTotal order n xs key := by
  rw [keptTotal]
  split
  · rename_i hkept
    obtain ⟨e,he,rfl⟩ := List.mem_map.mp (mem_take_ranked.mpr hkept)
    rw [total_of_mem take_nodup he, ranked_value (List.mem_of_mem_take he)]
  · rename_i hno
    exact total_of_notMem fun hin => hno (mem_take_ranked.mp hin)

/-- Where nothing is cut off, nothing is lost. -/
theorem take_whole (h : (ranked order xs).length ≤ n) :
    (key ∈ keys ((ranked order xs).take n) ↔ key ∈ keys xs) ∧ total key ((ranked order xs).take n) = total key xs := by
  rw [List.take_of_length_le h]
  exact ⟨mem_keys_ranked,total_ranked⟩

/-- A part of the rows has at least as many ranked entries as distinct keys. -/
theorem length_le_ranked {zs : Results} (hnd : (keys zs).Nodup) (hsub : ∀ k ∈ keys zs, k ∈ keys xs) :
    zs.length ≤ (ranked order xs).length := by
  have hle := (hnd.subperm fun k hk => (@mem_keys_ranked order xs k).mpr (hsub k hk)).length_le
  rwa [keys, keys, List.length_map, List.length_map] at hle

end Ranked

/-! ## Merging -/

/-- What is left of the rows of the days and of the hours after both were cut. -/
def cutRows (orders : DictOrders) (topn : ℕ) (long recent : Results) : Results :=
  (ranked orders.long long).take topn ++ (ranked orders.recent recent).take topn

section Merging
variable {orders : DictOrders} {long recent : Results} {key : CString} {topn : ℕ}

theorem mem_cutRows : key ∈ keys (cutRows orders topn long recent) ↔ Stays orders topn long recent key := by
  rw [cutRows, keys, List.map_append, List.mem_append, ← keys, ← keys, mem_take_ranked, mem_take_ranked, Stays]

theorem total_cutRows : total key (cutRows orders topn long recent) = part orders topn long recent key := by
  rw [cutRows, total_append, total_take_ranked, total_take_ranked, part]

/-- Either nothing was cut, or there are `topn` entries to return. -/
theorem cut_cases (order : DictOrder) (orders : DictOrders) (topn : ℕ) (long recent : Results) :
    (∀ key, (key ∈ keys (cutRows orders topn long recent) ↔ key ∈ keys (long ++ recent)) ∧
      total key (cutRows orders topn long recent) = total key (long ++ recent)) ∨
    topn ≤ (ranked order (cutRows orders topn long recent)).length := by
  by_cases hlong : (ranked orders.long long).length ≤ topn
  · by_cases hrecent : (ranked orders.recent recent).length ≤ topn
    · left
      intro key
      obtain ⟨hmem,htotal⟩ := @take_whole orders.long long key topn hlong
      obtain ⟨hmem',htotal'⟩ := @take_whole orders.recent recent key topn hrecent
      rw [cutRows, total_append, total_append, htotal, htotal']
      refine ⟨?_,rfl⟩
      simp only [keys, List.map_append, List.mem_append] at hmem hmem' ⊢
      rw [hmem, hmem']
    · right
      have hlen : ((ranked orders.recent recent).take topn).length = topn := List.length_take_of_le (by omega)
      rw [← hlen]
      apply length_le_ranked take_nodup
      intro k hk
      rw [cutRows, keys, List.map_append, hlen]
      exact List.mem_append_right _ hk
  · right
    have hlen : ((ranked orders.long long).take topn).length = topn := List.length_take_of_le (by omega)
    rw [← hlen]
    apply length_le_ranked take_nodup
    intro k hk
    rw [cutRows, keys, List.map_append, hlen]
    exact List.mem_append_left _ hk

theorem cutRows_keys (h : key ∈ keys (cutRows orders topn long recent)) : key ∈ keys (long ++ recent) := by
  rw [keys, List.map_append, List.mem_append]
  exact (mem_cutRows.mp h).imp And.left And.left

theorem staying_perm (order : DictOrder) :
    (keys (ranked order (cutRows orders topn long recent))).Perm (stayingKeys orders topn long recent) := by
  apply (List.perm_ext_iff_of_nodup ranked_nodup ((List.nodup_dedup _).filter _)).mpr
  intro key
  simp only [mem_keys_ranked, List.mem_filter, List.mem_dedup, decide_eq_true_eq, ← mem_cutRows]
  exact (and_iff_right_of_imp cutRows_keys).symm

/-- The entries in front of a key, told by the keys that stay. -/
theorem length_inFront {v : ℤ} (order : DictOrder) (orders : DictOrders) (topn : ℕ) (long recent : Results) :
    ((inFront key (ranked order (cutRows orders topn long recent))).filter fun e => v ≤ e.2).length =
      ((stayingKeys orders topn long recent).filter fun k =>
        (Stays orders topn long recent key → Ahead order (part orders topn long recent) k key) ∧
          v ≤ part orders topn long recent k).length := by
  have hpart : (fun k => total k (cutRows orders topn long recent)) = part orders topn long recent :=
    funext fun k => total_cutRows
  -- the keys in front
  have hfront : keys (inFront key (ranked order (cutRows orders topn long recent))) =
      (keys (ranked order (cutRows orders topn long recent))).filter fun k =>
        Stays orders topn long recent key → Ahead order (part orders topn long recent) k key := by
    have hkeys : keys (inFront key (ranked order (cutRows orders topn long recent))) =
        (keys (ranked order (cutRows orders topn long recent))).takeWhile (· ≠ key) := by
      rw [inFront, keys, keys, List.takeWhile_map]
      rfl
    rw [hkeys]
    by_cases hstays : Stays orders topn long recent key
    · rw [takeWhile_eq_filter ranked_pairwise (ahead_asymm _) (mem_keys_ranked.mpr (mem_cutRows.mpr hstays)), hpart]
      simp only [hstays, true_imp_iff]
    · have hno : key ∉ keys (ranked order (cutRows orders topn long recent)) := fun hin =>
        hstays (mem_cutRows.mp (mem_keys_ranked.mp hin))
      rw [List.takeWhile_eq_self_iff.mpr, List.filter_eq_self.mpr]
      · intro k _
        simp [hstays]
      · intro k hk
        have hne : k ≠ key := fun he => hno (he ▸ hk)
        simpa using hne
  have hvalues : ((inFront key (ranked order (cutRows orders topn long recent))).filter fun e => v ≤ e.2) =
      (inFront key (ranked order (cutRows orders topn long recent))).filter
        fun e => v ≤ part orders topn long recent e.1 := by
    apply List.filter_congr
    intro e he
    rw [ranked_value (inFront_sublist.subset he), total_cutRows]
  have hmap : ((inFront key (ranked order (cutRows orders topn long recent))).filter
      fun e => v ≤ part orders topn long recent e.1).length =
      ((keys (inFront key (ranked order (cutRows orders topn long recent)))).filter
        fun k => v ≤ part orders topn long recent k).length := by
    rw [keys, List.filter_map, List.length_map]
    rfl
  rw [hvalues, hmap, hfront, List.filter_filter]
  have hperm := (@staying_perm orders long recent topn order).filter fun k =>
    decide (v ≤ part orders topn long recent k) &&
      decide (Stays orders topn long recent key → Ahead order (part orders topn long recent) k key)
  rw [hperm.length_eq]
  congr 2
  funext k
  rw [Bool.decide_and, Bool.and_comm]

end Merging

section Cut
variable {order : DictOrder} {cut rows : Results} {key : CString} {topn : ℕ}

theorem mem_of_returned {e : CString × ℤ} (he : e ∈ (ranked order cut).take topn) : e ∈ ranked order cut :=
  List.mem_of_mem_take he

/-- A key of which something was lost is not among exact results. -/
theorem lost_not_returned (hexact : ExactTop rows topn ((ranked order cut).take topn))
    (hlost : key ∉ keys cut ∨ total key cut ≠ total key rows) : key ∉ keys ((ranked order cut).take topn) := by
  intro hmem
  obtain ⟨e,he,rfl⟩ := List.mem_map.mp hmem
  rcases hlost with hno | hne
  · exact hno ((@mem_keys_ranked order cut _).mp (List.mem_map_of_mem (mem_of_returned he)))
  · exact hne ((ranked_value (mem_of_returned he)).symm.trans (hexact.counts e he))

/-- Exact results stand in front of such a key, and have no less than it. -/
theorem front_of_exact (hexact : ExactTop rows topn ((ranked order cut).take topn)) (hkey : key ∈ keys rows)
    (hout : key ∉ keys ((ranked order cut).take topn)) (hlong : topn ≤ (ranked order cut).length) :
    topn ≤ ((inFront key (ranked order cut)).filter fun e => total key rows ≤ e.2).length := by
  have hfront : ((ranked order cut).take topn).Sublist (inFront key (ranked order cut)) := by
    apply take_sublist_inFront
    rintro f hf rfl
    exact hout (List.mem_map_of_mem hf)
  have hall : ((ranked order cut).take topn).filter (fun e => total key rows ≤ e.2) = (ranked order cut).take topn := by
    apply List.filter_eq_self.mpr
    intro e he
    rw [decide_eq_true_eq, hexact.counts e he]
    exact hexact.greatest key hkey hout e he
  have hle := (hfront.filter (fun e => decide (total key rows ≤ e.2))).length_le
  rwa [hall, List.length_take_of_le hlong] at hle

/-- Of a returned entry nothing was lost: with `topn` entries in front of it, it would not be returned. -/
theorem returned_counts (hkeys : ∀ key ∈ keys cut, key ∈ keys rows)
    (hfront : ∀ key ∈ keys rows, key ∉ keys cut ∨ total key cut ≠ total key rows →
      topn ≤ ((inFront key (ranked order cut)).filter fun e => total key rows ≤ e.2).length) :
    ∀ e ∈ (ranked order cut).take topn, e.2 = total e.1 rows := by
  intro e he
  by_contra hne
  have hmem : e.1 ∈ keys cut := (@mem_keys_ranked order cut _).mp (List.mem_map_of_mem (mem_of_returned he))
  have hlost : total e.1 cut ≠ total e.1 rows := by
    rw [← ranked_value (mem_of_returned he)]
    exact hne
  have hmany := hfront e.1 (hkeys _ hmem) (Or.inr hlost)
  have hfew := length_inFront_lt he
  exact absurd (hmany.trans (List.length_filter_le _ _)) (by omega)

/-- A key that is not returned has no more than a returned entry. -/
theorem omitted_le (hfront : ∀ key ∈ keys rows, key ∉ keys cut ∨ total key cut ≠ total key rows →
      topn ≤ ((inFront key (ranked order cut)).filter fun e => total key rows ≤ e.2).length)
    (hkey : key ∈ keys rows) (hout : key ∉ keys ((ranked order cut).take topn)) :
    ∀ e ∈ (ranked order cut).take topn, total key rows ≤ e.2 := by
  intro e he
  have hdesc := @ranked_descending order cut
  by_cases hlost : key ∉ keys cut ∨ total key cut ≠ total key rows
  · apply hdesc.le_of_count _ he
    exact (hfront key hkey hlost).trans (inFront_sublist.filter _).length_le
  · obtain ⟨hmem,hsame⟩ := not_or.mp hlost
    rw [not_not] at hmem hsame
    -- the entry of the key is one of those that were not returned
    obtain ⟨f,hf,rfl⟩ := List.mem_map.mp ((@mem_keys_ranked order cut key).mpr hmem)
    rw [← hsame, ← ranked_value hf]
    rw [← List.take_append_drop topn (ranked order cut)] at hf
    rcases List.mem_append.mp hf with hf | hf
    · exact absurd (List.mem_map_of_mem hf) hout
    · exact hdesc.take_drop he hf

/-- Fewer than `topn` results are all there are. -/
theorem returned_all (hshort : ((ranked order cut).take topn).length < topn)
    (hmem : key ∈ keys cut) : key ∈ keys ((ranked order cut).take topn) := by
  have hle : (ranked order cut).length ≤ topn := by
    by_contra hgt
    rw [List.length_take_of_le (by omega)] at hshort
    exact Nat.lt_irrefl _ hshort
  rw [List.take_of_length_le hle]
  exact (@mem_keys_ranked order cut key).mpr hmem

end Cut

section Merging
variable {orders : DictOrders} {long recent : Results} {key : CString} {topn : ℕ}

/-- The merged list is a top list if and only if what the cuts took is outranked. -/
theorem merge_exact_iff :
    ExactTop (long ++ recent) topn ((ranked orders.union (cutRows orders topn long recent)).take topn) ↔
      Outranked orders topn long recent := by
  have hcases := cut_cases orders.union orders topn long recent
  have hkeys : ∀ key ∈ keys (cutRows orders topn long recent), key ∈ keys (long ++ recent) := fun key => cutRows_keys
  have hfront : Outranked orders topn long recent ↔ ∀ key ∈ keys (long ++ recent),
      key ∉ keys (cutRows orders topn long recent) ∨
        total key (cutRows orders topn long recent) ≠ total key (long ++ recent) →
      topn ≤ ((inFront key (ranked orders.union (cutRows orders topn long recent))).filter fun e =>
        total key (long ++ recent) ≤ e.2).length := by
    simp only [length_inFront, mem_cutRows, total_cutRows]
    rfl
  rw [hfront]
  clear hfront
  generalize cutRows orders topn long recent = cut at hcases hkeys ⊢
  generalize long ++ recent = rows at hcases hkeys ⊢
  constructor
  · intro hexact key hkey hlost
    apply front_of_exact hexact hkey (lost_not_returned hexact hlost)
    -- something was cut, so that the list is full
    rcases hcases with hsame | hlong
    · rcases hlost with hno | hne
      · exact absurd ((hsame key).1.mpr hkey) hno
      · exact absurd (hsame key).2 hne
    · exact hlong
  · intro houtranked
    have hcounts := returned_counts hkeys houtranked
    refine ⟨take_nodup,?_,by simp,?_,ranked_descending.take topn,hcounts,?_⟩
    · intro key hkey
      rw [keys_take] at hkey
      exact hkeys key ((@mem_keys_ranked orders.union cut key).mp (List.mem_of_mem_take hkey))
    · intro hshort key hkey
      rcases hcases with hsame | hlong
      · exact returned_all hshort ((hsame key).1.mpr hkey)
      · rw [List.length_take_of_le hlong] at hshort
        exact absurd hshort (Nat.lt_irrefl _)
    · intro key hkey hout e he
      rw [← hcounts e he]
      exact omitted_le houtranked hkey hout e he

/-- The keys that are returned, told by the tables. -/
theorem mem_returned : key ∈ keys ((ranked orders.union (cutRows orders topn long recent)).take topn) ↔
    Returned orders topn long recent key := by
  have hpart : (fun k => total k (cutRows orders topn long recent)) = part orders topn long recent :=
    funext fun k => total_cutRows
  have hperm : (keys (cutRows orders topn long recent)).dedup.Perm (stayingKeys orders topn long recent) :=
    ranked_keys_perm.symm.trans (staying_perm orders.union)
  have hlength := (hperm.filter fun k => decide (Ahead orders.union (part orders topn long recent) k key)).length_eq
  rw [mem_take_ranked, Kept, mem_cutRows, hpart, hlength, Returned]

/-- What is returned has the parts of its keys. -/
theorem returned_value {e : CString × ℤ} (he : e ∈ (ranked orders.union (cutRows orders topn long recent)).take topn) :
    Returned orders topn long recent e.1 ∧ e.2 = part orders topn long recent e.1 :=
  ⟨mem_returned.mp (List.mem_map_of_mem he),(ranked_value (List.mem_of_mem_take he)).trans total_cutRows⟩

/-- Keys that are returned are among those of the result. -/
theorem returned_subperm (orders : DictOrders) (topn : ℕ) (long recent : Results) (v : ℤ) :
    ((stayingKeys orders topn long recent).filter fun k =>
      Returned orders topn long recent k ∧ v ≤ part orders topn long recent k).Subperm
      (keys ((ranked orders.union (cutRows orders topn long recent)).take topn)) := by
  apply List.subperm_of_subset (((List.nodup_dedup _).filter _).filter _)
  intro k hk
  exact mem_returned.mpr (of_decide_eq_true (List.mem_filter.mp hk).2).1

/-- The merged list is a top list of any rows if and only if what it returns is right for them. -/
theorem merge_suits_iff {rows : Results} :
    ExactTop rows topn ((ranked orders.union (cutRows orders topn long recent)).take topn) ↔
      Suits orders topn long recent rows := by
  have hmem : ∀ key, Returned orders topn long recent key → key ∈ stayingKeys orders topn long recent := fun key h =>
    (staying_perm orders.union).subset (mem_keys_ranked.mpr (mem_cutRows.mpr h.1))
  have hlen : (keys ((ranked orders.union (cutRows orders topn long recent)).take topn)).length ≤ topn := by simp [keys]
  constructor
  · intro hexact
    have hcount : ∀ key, Returned orders topn long recent key → part orders topn long recent key = total key rows := by
      intro key hreturned
      obtain ⟨e,he,rfl⟩ := List.mem_map.mp (mem_returned.mpr hreturned)
      rw [← (returned_value he).2, hexact.counts e he]
    refine ⟨fun key _ hreturned => ⟨hexact.stored key (mem_returned.mpr hreturned),hcount key hreturned⟩,?_⟩
    intro key hkey hout
    have hout : key ∉ keys ((ranked orders.union (cutRows orders topn long recent)).take topn) := fun hin =>
      hout (mem_returned.mp hin)
    have hfull : topn ≤ (keys ((ranked orders.union (cutRows orders topn long recent)).take topn)).length := by
      by_contra hshort
      rw [keys, List.length_map, Nat.not_le] at hshort
      exact hout (hexact.full hshort key hkey)
    refine hfull.trans (List.subperm_of_subset hexact.nodup fun k hk => ?_).length_le
    obtain ⟨e,he,rfl⟩ := List.mem_map.mp hk
    have hreturned := (returned_value he).1
    rw [List.mem_filter, decide_eq_true_eq, hcount _ hreturned]
    exact ⟨hmem _ hreturned,hreturned,hexact.greatest key hkey hout e he⟩
  · rintro ⟨hreturned,homitted⟩
    refine ⟨take_nodup,?_,by simp,?_,ranked_descending.take topn,?_,?_⟩
    · intro key hkey
      exact (hreturned key (hmem key (mem_returned.mp hkey)) (mem_returned.mp hkey)).1
    · intro hshort key hkey
      by_contra hout
      have hmany := homitted key hkey fun hin => hout (mem_returned.mpr hin)
      have hfew := (returned_subperm orders topn long recent (total key rows)).length_le
      rw [keys, List.length_map] at hfew
      exact absurd (hmany.trans hfew) (Nat.not_le.mpr hshort)
    · intro e he
      obtain ⟨hin,hvalue⟩ := returned_value he
      rw [hvalue]
      exact (hreturned e.1 (hmem e.1 hin) hin).2
    · intro key hkey hout e he
      have hmany := homitted key hkey fun hin => hout (mem_returned.mpr hin)
      have hsub := returned_subperm orders topn long recent (total key rows)
      -- the list has no other keys than these
      have hin := (hsub.perm_of_length_le (hlen.trans hmany)).mem_iff.mpr (List.mem_map_of_mem he)
      rw [List.mem_filter, decide_eq_true_eq, ← (returned_value he).2] at hin
      obtain ⟨-,-,hle⟩ := hin
      obtain ⟨hin,hvalue⟩ := returned_value he
      rwa [← (hreturned e.1 (hmem e.1 hin) hin).2, ← hvalue]

/-- What is returned is right for its own tables if all that the cuts took is outranked. -/
theorem suits_outranked : Suits orders topn long recent (long ++ recent) ↔ Outranked orders topn long recent :=
  merge_suits_iff.symm.trans merge_exact_iff

/-! ## Counts that are not negative -/

theorem total_nonneg {xs : Results} (h : ∀ r ∈ xs, 0 ≤ r.2) : 0 ≤ total key xs := by
  induction xs with
  | nil => exact le_rfl
  | cons r xs ih =>
    have hr := h r List.mem_cons_self
    have hxs := ih fun q hq => h q (List.mem_cons_of_mem r hq)
    rw [total_cons]
    split <;> omega

/-- A cut leaves all of the count of a key or nothing. -/
theorem keptTotal_le {order : DictOrder} {xs : Results} (h : ∀ r ∈ xs, 0 ≤ r.2) :
    0 ≤ keptTotal order topn xs key ∧ keptTotal order topn xs key ≤ total key xs := by
  have hnonneg := @total_nonneg key xs h
  rw [keptTotal]
  split
  · exact ⟨hnonneg,le_rfl⟩
  · exact ⟨le_rfl,hnonneg⟩

/-- Where a key is gone, `topn` others stay. -/
theorem length_staying (hkey : key ∈ keys (long ++ recent)) (hgone : ¬Stays orders topn long recent key) :
    topn ≤ (stayingKeys orders topn long recent).length := by
  rcases cut_cases orders.union orders topn long recent with hall | hlong
  · exact absurd (mem_cutRows.mp ((hall key).1.mpr hkey)) hgone
  · have hlen := (@staying_perm orders long recent topn orders.union).length_eq
    rw [keys, List.length_map] at hlen
    omega

/-- With counts that are not negative the order among equals does not matter. -/
theorem outranked_iff (hlong : ∀ r ∈ long, 0 ≤ r.2) (hrecent : ∀ r ∈ recent, 0 ≤ r.2) :
    Outranked orders topn long recent ↔ Outnumbered orders topn long recent := by
  have hpart : ∀ k, 0 ≤ part orders topn long recent k ∧ part orders topn long recent k ≤ total k (long ++ recent) := by
    intro k
    have hl := @keptTotal_le k topn orders.long long hlong
    have hr := @keptTotal_le k topn orders.recent recent hrecent
    rw [part, total_append]
    omega
  constructor
  · intro houtranked key hkey hlost
    refine (houtranked key hkey (Or.inr hlost)).trans (List.Sublist.length_le ?_)
    apply List.monotone_filter_right
    intro k hk
    simp only [decide_eq_true_eq] at hk ⊢
    exact hk.2
  · intro houtnumbered key hkey hlost
    by_cases hsame : part orders topn long recent key = total key (long ++ recent)
    · -- a key that is gone has no count
      have hgone : ¬Stays orders topn long recent key := hlost.resolve_right fun hne => hne hsame
      have hzero : part orders topn long recent key = 0 := by
        rw [Stays, not_or] at hgone
        rw [part, keptTotal, keptTotal, if_neg hgone.1, if_neg hgone.2, add_zero]
      rw [List.filter_eq_self.mpr]
      · exact length_staying hkey hgone
      · intro k _
        rw [decide_eq_true_eq, ← hsame, hzero]
        exact ⟨fun h => absurd h hgone,(hpart k).1⟩
    · have hless : part orders topn long recent key < total key (long ++ recent) := lt_of_le_of_ne (hpart key).2 hsame
      refine (houtnumbered key hkey hsame).trans (List.Sublist.length_le ?_)
      apply List.monotone_filter_right
      intro k hk
      simp only [decide_eq_true_eq] at hk ⊢
      exact ⟨fun _ => Or.inl (hless.trans_le hk),hk⟩

end Merging

/-! ## The queries -/

/-- The rows of the days in a range. -/
def TopnDB.longRows (db : TopnDB) (p : TopnType) (name : CString) (vDate vEnd : ℕ) : Results :=
  selectRows (db.oneDayHistory p) name vDate vEnd

/-- The rows since the last day. -/
def TopnDB.recentRows (db : TopnDB) (p : TopnType) (name : CString) (vEnd : ℕ) : Results :=
  selectRows (db.history p) name (getLatestTime (db.oneDayHistory p)) vEnd

section Queries
variable {db : TopnDB} {orders : DictOrders} {p : TopnType} {view name : CString} {vDate vEnd topn : ℕ}

theorem getLongTopn_eq (hrange : ¬lessThanSomeInterval vDate vEnd timeInterval) :
    db.getLongTopn orders p view vDate vEnd topn = (asked view).map fun name =>
      (ranked orders.union (cutRows orders topn (db.longRows p name vDate vEnd) (db.recentRows p name vEnd))).take topn := by
  rw [TopnDB.getLongTopn, if_neg hrange, getTopn, getTopn]
  cases asked view <;> rfl

/-- What is returned is right if a name is asked for and its tables suit the rows of the view. -/
theorem getLongTopn_suits (hrange : ¬lessThanSomeInterval vDate vEnd timeInterval) {rows : Results} :
    (∃ result ∈ db.getLongTopn orders p view vDate vEnd topn, ExactTop rows topn result) ↔
    ∃ name, asked view = some name ∧ Suits orders topn (db.longRows p name vDate vEnd) (db.recentRows p name vEnd) rows := by
  rw [getLongTopn_eq hrange]
  simp only [← merge_suits_iff, Option.mem_def, Option.map_eq_some_iff]
  constructor
  · rintro ⟨_,⟨name,hname,rfl⟩,hexact⟩
    exact ⟨name,hname,hexact⟩
  · rintro ⟨name,hname,hexact⟩
    exact ⟨_,⟨name,hname,rfl⟩,hexact⟩

theorem getLongTopn_exact (hrange : ¬lessThanSomeInterval vDate vEnd timeInterval) (hplain : 39 ∉ view.bytes) :
    (∃ result ∈ db.getLongTopn orders p view vDate vEnd topn,
      ExactTop (db.longRows p view vDate vEnd ++ db.recentRows p view vEnd) topn result) ↔
    Outranked orders topn (db.longRows p view vDate vEnd) (db.recentRows p view vEnd) := by
  rw [getLongTopn_suits hrange, asked_plain hplain, ← suits_outranked]
  simp

end Queries

/-- What a long range returns for a view is the top list of the combined counts if and only if the
query asks for a name and the tables of that name suit the rows of the view. A name without a single
quote is asked for as it stands: all that the cuts take must be outranked, and with counts that are
not negative that is, outnumbered. -/
theorem getLongTopn_exact_iff (db : TopnDB) (orders : DictOrders) (view : CString) (vDate vEnd topn : ℕ)
    (hrange : ¬lessThanSomeInterval vDate vEnd timeInterval) :
    ((∃ result ∈ db.getIpTopn orders view vDate vEnd topn,
        ExactTop (db.longRows .iptopn view vDate vEnd ++ db.recentRows .iptopn view vEnd) topn result) ↔
      ∃ name, asked view = some name ∧
        Suits orders topn (db.longRows .iptopn name vDate vEnd) (db.recentRows .iptopn name vEnd)
          (db.longRows .iptopn view vDate vEnd ++ db.recentRows .iptopn view vEnd)) ∧
    ((∃ result ∈ db.getDomainTopn orders view vDate vEnd topn,
        ExactTop (db.longRows .domaintopn view vDate vEnd ++ db.recentRows .domaintopn view vEnd) topn result) ↔
      ∃ name, asked view = some name ∧
        Suits orders topn (db.longRows .domaintopn name vDate vEnd) (db.recentRows .domaintopn name vEnd)
          (db.longRows .domaintopn view vDate vEnd ++ db.recentRows .domaintopn view vEnd)) ∧
    (39 ∉ view.bytes →
      ((∃ result ∈ db.getIpTopn orders view vDate vEnd topn,
          ExactTop (db.longRows .iptopn view vDate vEnd ++ db.recentRows .iptopn view vEnd) topn result) ↔
        Outranked orders topn (db.longRows .iptopn view vDate vEnd) (db.recentRows .iptopn view vEnd)) ∧
      ((∃ result ∈ db.getDomainTopn orders view vDate vEnd topn,
          ExactTop (db.longRows .domaintopn view vDate vEnd ++ db.recentRows .domaintopn view vEnd) topn result) ↔
        Outranked orders topn (db.longRows .domaintopn view vDate vEnd) (db.recentRows .domaintopn view vEnd))) ∧
    ∀ p, (∀ r ∈ db.longRows p view vDate vEnd ++ db.recentRows p view vEnd, 0 ≤ r.2) →
      (Outranked orders topn (db.longRows p view vDate vEnd) (db.recentRows p view vEnd) ↔
        Outnumbered orders topn (db.longRows p view vDate vEnd) (db.recentRows p view vEnd)) := by
  refine ⟨getLongTopn_suits hrange,getLongTopn_suits hrange,
    fun hplain => ⟨getLongTopn_exact hrange hplain,getLongTopn_exact hrange hplain⟩,fun p hrows => outranked_iff ?_ ?_⟩
  · exact fun r hr => hrows r (List.mem_append_left _ hr)
  · exact fun r hr => hrows r (List.mem_append_right _ hr)

/-- Keys in their own order. -/
def keyOrder : DictOrder where
  before a b := decide (a ≤ b)
  trans a b c hab hbc := decide_eq_true ((of_decide_eq_true hab).trans (of_decide_eq_true hbc))
  total a b := by
    rw [Bool.or_eq_true, decide_eq_true_eq, decide_eq_true_eq]
    exact le_total a b
  antisymm a b hab hba := (of_decide_eq_true hab).antisymm (of_decide_eq_true hba)

def keyOrders : DictOrders := ⟨keyOrder,keyOrder,keyOrder⟩

/-- Two clients on a day, the second of which has a query in the hours after it. -/
def leadTables : TopnDB where
  history _ := [⟨letters 1,20130109000000,letters 3,1⟩]
  oneDayHistory _ := [⟨letters 1,20130101000000,letters 2,10⟩,⟨letters 1,20130101000000,letters 3,8⟩]

/-- One client is asked for: of the second the queries of the day are cut off, but all of its
9 are not as many as 10. -/
theorem getLongTopn_exact_iff_lead :
    ∃ result ∈ leadTables.getIpTopn keyOrders (letters 1) 20130101000000 20130110000000 1,
      ExactTop (leadTables.longRows .iptopn (letters 1) 20130101000000 20130110000000 ++
        leadTables.recentRows .iptopn (letters 1) 20130110000000) 1 result := by
  obtain ⟨-,-,hplain,-⟩ := getLongTopn_exact_iff leadTables keyOrders (letters 1) 20130101000000 20130110000000 1
    (by decide +kernel)
  exact (hplain (by decide)).1.mpr (by decide +kernel)

/-- Two clients on a day and two in the hours after it; the second of both is the first in all. -/
def twoTables : TopnDB where
  history _ := [⟨letters 1,20130109000000,letters 2,6⟩,⟨letters 1,20130109000000,letters 3,5⟩]
  oneDayHistory _ := [⟨letters 1,20130101000000,letters 1,10⟩,⟨letters 1,20130101000000,letters 3,9⟩]

/-- Nothing is sorted where the keys and the counts come in the right order. -/
theorem ranked_keyOrder {xs : Results} (hkeys : (countResults xs).Pairwise fun a b => decide (a.1 ≤ b.1) = true)
    (hcounts : (countResults xs).Pairwise fun a b => decide (b.2 ≤ a.2) = true) :
    ranked keyOrder xs = countResults xs := by
  have hitems : keyOrder.items (countResults xs) = countResults xs := List.mergeSort_of_pairwise hkeys
  rw [ranked, hitems]
  exact List.mergeSort_of_pairwise hcounts

/-- One client is asked for: the one with 14 queries is left out for one with 10. -/
theorem getIpTopn_not_exact :
    twoTables.getIpTopn keyOrders (letters 1) 20130101000000 20130110000000 1 = some [(letters 1,10)] ∧
    total (letters 3) (twoTables.longRows .iptopn (letters 1) 20130101000000 20130110000000 ++
      twoTables.recentRows .iptopn (letters 1) 20130110000000) = 14 ∧
    ¬∃ result ∈ twoTables.getIpTopn keyOrders (letters 1) 20130101000000 20130110000000 1,
      ExactTop (twoTables.longRows .iptopn (letters 1) 20130101000000 20130110000000 ++
        twoTables.recentRows .iptopn (letters 1) 20130110000000) 1 result := by
  have hresult : twoTables.getIpTopn keyOrders (letters 1) 20130101000000 20130110000000 1 = some [(letters 1,10)] := by
    have hlong := @ranked_keyOrder (twoTables.longRows .iptopn (letters 1) 20130101000000 20130110000000)
      (by decide +kernel) (by decide +kernel)
    have hrecent := @ranked_keyOrder (twoTables.recentRows .iptopn (letters 1) 20130110000000)
      (by decide +kernel) (by decide +kernel)
    rw [TopnDB.getIpTopn, getLongTopn_eq (by decide +kernel), asked_plain (by decide), Option.map_some]
    simp only [cutRows, keyOrders, hlong, hrecent]
    rw [ranked_keyOrder (by decide +kernel) (by decide +kernel)]
    decide +kernel
  refine ⟨hresult,by decide +kernel,?_⟩
  rw [TopnDB.getIpTopn, getLongTopn_exact (by decide +kernel) (by decide)]
  decide +kernel

end LogStats
