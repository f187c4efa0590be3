import LogStats.Library.Boundary
import LogStats.NameTree.Counting

/-! # The closest ancestor of a name

`name_tree_closely_find` looks up the name, then what follows its first dot, and so on to
the root. A name of 31 bytes without a dot at its end becomes one of 32, which is not looked
up.
-/
namespace LogStats

/-- `name_is_root`, which asserts that the name is not empty. -/
def nameIsRoot (name : CString) : Option Bool :=
  if name.strlen = 0 then none else some (name.strlen = 1 ∧ name.bytes.head? = some 46)

/-- `generate_parent_name`, where NULL is `some none`; a name without a dot is not expected. -/
def generateParentName (name : CString) : Option (Option CString) := do
  if ← nameIsRoot name then some none
  else
    let dotPos ← name.strchr 46
    if dotPos = name.strlen - 1 then some (some (name.drop dotPos)) else some (some (name.drop (dotPos + 1)))

/-- The loop of `name_tree_closely_find` from a position in the name on. -/
def closelyFindLoop (t : NameTree) : ℕ → CString → Option (Option ℕ)
  | 0, _ => none
  | fuel + 1, namePos => do
    match ← nameTreeExactlyFind t namePos with
    | some nv => some (some nv)
    | none =>
      match ← generateParentName namePos with
      | none => some none
      | some parent => closelyFindLoop t fuel parent

/-- `name_tree_closely_find`; each round takes at least a byte off the name. -/
def nameTreeCloselyFind (t : NameTree) (name : CString) : Option (Option ℕ) :=
  if maxNameLen ≤ name.strlen then some none
  else do
    let fqdn ← dotted name
    closelyFindLoop t (fqdn.strlen + 1) fqdn

/-! ## Parents and ancestors -/

/-- The name itself, what follows one of its dots, or the root. -/
def Ancestor (u s : CString) : Prop := (u.strlen ≠ 0 ∧ BoundarySuffix 46 u.bytes s.bytes) ∨ u = dot

section Parents
variable {u s : CString}

theorem dotted_strlen_ne_zero (hs : dotted s = some s) : s.strlen ≠ 0 := by
  intro hzero
  rw [dotted_eq_none.mpr hzero] at hs
  cases hs

theorem Ancestor.strlen_le (h : Ancestor u s) (hs : dotted s = some s) : u.strlen ≤ s.strlen := by
  rcases h with ⟨-,hu⟩ | rfl
  · exact hu.length_le
  · exact Nat.one_le_iff_ne_zero.mpr (dotted_strlen_ne_zero hs)

theorem ancestor_refl (hs : dotted s = some s) : Ancestor s s := Or.inl ⟨dotted_strlen_ne_zero hs,.refl _⟩

theorem ancestor_dot_iff : Ancestor u dot ↔ u = dot := by
  constructor
  · rintro (⟨hne,hu⟩ | rfl)
    · refine CString.ext (hu.eq_of_length_le ?_)
      exact Nat.one_le_iff_ne_zero.mpr hne
    · rfl
  · rintro rfl
    exact Or.inr rfl

/-- A name that is as long as the name it is an ancestor of is that name. -/
theorem Ancestor.eq_of_strlen_le (h : Ancestor u s) (hs : dotted s = some s) (hle : s.strlen ≤ u.strlen) : u = s := by
  rcases h with ⟨-,hu⟩ | rfl
  · exact CString.ext (hu.eq_of_length_le hle)
  · have hlast := dotted_getLast hs
    have hone : s.bytes.length = 1 :=
      Nat.le_antisymm hle (Nat.one_le_iff_ne_zero.mpr (dotted_strlen_ne_zero hs))
    obtain ⟨b,hb⟩ := List.length_eq_one_iff.mp hone
    rw [hb, List.getLast?_singleton] at hlast
    obtain rfl := Option.some_inj.mp hlast
    exact CString.ext hb.symm

theorem nameIsRoot_long (h : 1 < s.strlen) : nameIsRoot s = some false := by
  have hne : s.strlen ≠ 0 := by omega
  have hone : s.strlen ≠ 1 := by omega
  simp only [nameIsRoot, if_neg hne, hone, false_and, decide_false]

section Cut
variable {front rest : List UInt8}

/-- Apart from the name, its ancestors are those that what follows the first dot has. -/
theorem ancestor_cut (hne : s.strlen ≠ 0) (hsplit : s.bytes = front ++ 46 :: rest) (hfront : 46 ∉ front) (u : CString) :
    Ancestor u s ↔ u = s ∨ (u.strlen ≠ 0 ∧ BoundarySuffix 46 u.bytes rest) ∨ u = dot := by
  rw [Ancestor, hsplit, BoundarySuffix.cut_iff hfront, ← hsplit, ← or_assoc]
  apply or_congr_left
  constructor
  · rintro ⟨hu,he | hrest⟩
    · exact Or.inl (CString.ext he)
    · exact Or.inr ⟨hu,hrest⟩
  · rintro (rfl | ⟨hu,hrest⟩)
    · exact ⟨hne,Or.inl rfl⟩
    · exact ⟨hu,Or.inr hrest⟩

/-- The parent begins behind the first dot, or with it if nothing follows. -/
theorem generateParentName_cut (hlong : 1 < s.strlen) (hsplit : s.bytes = front ++ 46 :: rest) (hfront : 46 ∉ front) :
    ∃ parent, generateParentName s = some (some parent) ∧ parent.bytes = if rest = [] then [46] else rest := by
  have hroot := nameIsRoot_long hlong
  have hpos := CString.strchr_split hsplit hfront
  have hlen : s.strlen = front.length + (rest.length + 1) := by
    rw [CString.strlen, hsplit, List.length_append, List.length_cons]
  simp only [generateParentName, hroot, hpos, Option.bind_eq_bind, Option.bind_some, Bool.false_eq_true, if_false]
  by_cases hrest : rest = []
  · subst hrest
    have hend : front.length = s.strlen - 1 := by rw [hlen]; rfl
    rw [if_pos hend, if_pos rfl]
    refine ⟨_,rfl,?_⟩
    change s.bytes.drop front.length = [46]
    rw [hsplit, List.drop_left]
  · have hpos' := List.length_pos_of_ne_nil hrest
    have hinner : front.length ≠ s.strlen - 1 := by omega
    rw [if_neg hinner, if_neg hrest]
    refine ⟨_,rfl,?_⟩
    change s.bytes.drop (front.length + 1) = rest
    rw [hsplit, List.drop_append]
    simp

end Cut

/-- The ancestors of a name are the name and the ancestors of its parent. -/
theorem generateParentName_spec (hs : dotted s = some s) : (s = dot ∧ generateParentName s = some none) ∨
    ∃ parent, generateParentName s = some (some parent) ∧ dotted parent = some parent ∧ parent.strlen < s.strlen ∧
      ∀ u, Ancestor u s ↔ u = s ∨ Ancestor u parent := by
  have hlast := dotted_getLast hs
  have hne := dotted_strlen_ne_zero hs
  by_cases hroot : s = dot
  · exact Or.inl ⟨hroot,by rw [hroot]; rfl⟩
  right
  have hlong : 1 < s.strlen := by
    have hdot : Ancestor dot s := Or.inr rfl
    by_contra hle
    exact hroot (hdot.eq_of_strlen_le hs (not_lt.mp hle)).symm
  obtain ⟨front,rest,hsplit,hfront⟩ := List.eq_append_cons_of_mem (List.mem_of_getLast? hlast)
  obtain ⟨parent,hparent,hbytes⟩ := generateParentName_cut hlong hsplit hfront
  refine ⟨parent,hparent,?_⟩
  simp only [ancestor_cut hne hsplit hfront]
  cases rest with
  | nil =>
    obtain rfl : parent = dot := CString.ext hbytes
    refine ⟨rfl,hlong,?_⟩
    intro u
    have hnone : ¬(u.strlen ≠ 0 ∧ BoundarySuffix 46 u.bytes []) := by
      rintro ⟨hu,hnil⟩
      exact hu (congrArg List.length hnil.nil_right)
    rw [ancestor_dot_iff, or_iff_right hnone]
  | cons b rest =>
    rw [if_neg (List.cons_ne_nil b rest)] at hbytes
    refine ⟨dotted_of_getLast ?_,?_,?_⟩
    · rw [hbytes, ← hlast, hsplit, List.getLast?_append, List.getLast?_cons_cons, List.getLast?_cons, Option.some_or]
    · simp only [CString.strlen, hsplit, hbytes, List.length_append, List.length_cons]
      omega
    · intro u
      rw [Ancestor, hbytes]

end Parents

/-! ## The loop -/

namespace NameTree

/-- The node with the longest name among those whose name is an ancestor of `s`. -/
def ClosestNode (t : NameTree) (s : CString) : Option ℕ → Prop
  | some v => v ∈ t.values ∧ Ancestor (t.nameOf v) s ∧
      ∀ w ∈ t.values, Ancestor (t.nameOf w) s → (t.nameOf w).strlen ≤ (t.nameOf v).strlen
  | none => ∀ w ∈ t.values, ¬Ancestor (t.nameOf w) s

section Search
variable {t : NameTree} {cells : List ℕ} {name s : CString}

/-- No node has a name of 32 bytes, so that refusing to look one up makes no difference. -/
theorem Wf.exactlyFind_dotted (h : t.Wf cells) (hs : dotted s = some s) (hlen : s.strlen ≤ maxNameLen) :
    (∃ v, nameTreeExactlyFind t s = some (some v) ∧ v ∈ t.values ∧ t.nameOf v = s) ∨
      (nameTreeExactlyFind t s = some none ∧ ∀ v ∈ t.values, t.nameOf v ≠ s) := by
  rcases Nat.lt_or_ge s.strlen maxNameLen with hlt | hge
  · by_cases hv : ∃ v ∈ t.values, t.nameOf v = s
    · obtain ⟨v,hv,hn⟩ := hv
      exact Or.inl ⟨v,(h.exactlyFind_some hlt hs).mpr ⟨hv,hn⟩,hv,hn⟩
    · have hnone : ∀ v ∈ t.values, t.nameOf v ≠ s := fun v hm hn => hv ⟨v,hm,hn⟩
      exact Or.inr ⟨(h.exactlyFind_none hlt hs).mpr hnone,hnone⟩
  · refine Or.inr ⟨if_pos hge,?_⟩
    rintro v hv rfl
    have hf := (NodeValue.strlen_lt_iff _).mpr (h.fits_of_name hv hlen)
    exact absurd hge (not_le.mpr hf)

theorem closelyFindLoop_spec (h : t.Wf cells) {fuel : ℕ} (hs : dotted s = some s) (hlen : s.strlen ≤ maxNameLen)
    (hfuel : s.strlen < fuel) : ∃ r, closelyFindLoop t fuel s = some r ∧ ClosestNode t s r := by
  induction fuel generalizing s with
  | zero => exact absurd hfuel (Nat.not_lt_zero _)
  | succ fuel ih =>
    rcases h.exactlyFind_dotted hs hlen with ⟨v,hfind,hv,hn⟩ | ⟨hfind,hnone⟩
    · refine ⟨some v,?_,hv,hn ▸ ancestor_refl (hn.symm ▸ hs),?_⟩
      · simp only [closelyFindLoop, hfind, Option.bind_eq_bind, Option.bind_some]
      · intro w _ hanc
        exact hn ▸ hanc.strlen_le hs
    · rcases generateParentName_spec hs with ⟨rfl,hparent⟩ | ⟨parent,hparent,hdot,hshort,hanc⟩
      · refine ⟨none,?_,?_⟩
        · simp only [closelyFindLoop, hfind, hparent, Option.bind_eq_bind, Option.bind_some]
        · intro w hw hroot
          exact hnone w hw (ancestor_dot_iff.mp hroot)
      · obtain ⟨r,hrun,hr⟩ := ih hdot (by omega) (by omega)
        have hparents : ∀ w ∈ t.values, Ancestor (t.nameOf w) s ↔ Ancestor (t.nameOf w) parent := by
          intro w hw
          rw [hanc, or_iff_right (hnone w hw)]
        refine ⟨r,?_,?_⟩
        · simp only [closelyFindLoop, hfind, hparent, Option.bind_eq_bind, Option.bind_some]
          exact hrun
        · cases r with
          | none =>
            intro w hw
            rw [hparents w hw]
            exact hr w hw
          | some v =>
            obtain ⟨hv,hancv,hmax⟩ := hr
            refine ⟨hv,(hparents v hv).mpr hancv,?_⟩
            intro w hw hancw
            exact hmax w hw ((hparents w hw).mp hancw)

theorem closelyFind_spec (h : t.Wf cells) (hlen : name.strlen < maxNameLen) (hs : dotted name = some s) :
    ∃ r, nameTreeCloselyFind t name = some r ∧ ClosestNode t s r := by
  obtain ⟨r,hrun,hr⟩ := closelyFindLoop_spec h (dotted_dotted hs) (dotted_strlen_le hs hlen) (Nat.lt_succ_self s.strlen)
  refine ⟨r,?_,hr⟩
  rw [nameTreeCloselyFind, if_neg (by omega), hs]
  exact hrun

/-- The node of the name itself is the closest. -/
theorem ClosestNode.eq_of_name {r : Option ℕ} (hr : ClosestNode t s r) (h : t.Wf cells) (hs : dotted s = some s)
    {v : ℕ} (hv : v ∈ t.values) (hf : (t.mem v).Fits) (hn : t.nameOf v = s) : r = some v := by
  have hanc : Ancestor (t.nameOf v) s := hn.symm ▸ ancestor_refl hs
  cases r with
  | none => exact absurd hanc (hr v hv)
  | some w =>
    obtain ⟨hw,hancw,hmax⟩ := hr
    have hname := hancw.eq_of_strlen_le hs (hn ▸ hmax v hv hanc)
    rw [h.name_inj hv hw hf (hn.trans hname.symm)]

end Search

/-! ## The names that were inserted -/

/-- The node of the longest inserted name that is an ancestor of `s`. -/
def ClosestInserted (t : NameTree) (log : List CString) (s : CString) : Option ℕ → Prop
  | some v => v ∈ t.values ∧ t.nameOf v ∈ log ∧ Ancestor (t.nameOf v) s ∧
      ∀ u ∈ log, Ancestor u s → u.strlen ≤ (t.nameOf v).strlen
  | none => ∀ u ∈ log, ¬Ancestor u s

section Inserted
variable {t : NameTree} {cells : List ℕ} {log : List CString} {s : CString} {r : Option ℕ}

theorem ClosestNode.inserted_iff (hr : ClosestNode t s r) (h : t.Wf cells) (htally : Tallied t log)
    (hs : dotted s = some s) (hlen : s.strlen ≤ maxNameLen) :
    ClosestInserted t log s r ↔ (s ∈ log → s.strlen < maxNameLen) := by
  have hfits : ∀ v ∈ t.values, Ancestor (t.nameOf v) s → (t.mem v).Fits := fun v hv hanc =>
    h.fits_of_name hv ((hanc.strlen_le hs).trans hlen)
  constructor
  · intro hins hmem
    cases r with
    | none => exact absurd (ancestor_refl hs) (hins s hmem)
    | some v =>
      obtain ⟨hv,-,hanc,hmax⟩ := hins
      exact (hmax s hmem (ancestor_refl hs)).trans_lt ((NodeValue.strlen_lt_iff _).mpr (hfits v hv hanc))
  · intro hfit
    -- every inserted ancestor has a node: only the name itself can be too long
    have hnode : ∀ u ∈ log, Ancestor u s → ∃ w ∈ t.values, t.nameOf w = u := by
      intro u hu hanc
      apply htally.tracked u hu
      rcases Nat.lt_or_ge u.strlen s.strlen with hlt | hge
      · omega
      · obtain rfl := hanc.eq_of_strlen_le hs hge
        exact hfit hu
    cases r with
    | none =>
      intro u hu hanc
      obtain ⟨w,hw,rfl⟩ := hnode u hu hanc
      exact hr w hw hanc
    | some v =>
      obtain ⟨hv,hanc,hmax⟩ := hr
      refine ⟨hv,(htally.counts v hv (hfits v hv hanc)).1,hanc,?_⟩
      intro u hu hancu
      obtain ⟨w,hw,rfl⟩ := hnode u hu hancu
      exact hmax w hw hancu

end Inserted

/-- In a tree that insertions built, `name_tree_closely_find` returns, and agrees with the exact
look-up where that finds a node. It returns the node of the longest inserted ancestor if and
only if the name was not itself inserted with 31 bytes and no dot at the end. -/
theorem closelyFind_closest_iff (memory : NameTreeMemory) (calls : List Insertion) (st : Logged) (name : CString)
    (hrun : insertRun memory calls = some st) (hne : name.strlen ≠ 0) (hlen : name.strlen < maxNameLen) :
    ∃ s r, dotted name = some s ∧ nameTreeCloselyFind st.tree name = some r ∧
      (∀ v, nameTreeExactlyFind st.tree name = some (some v) → r = some v) ∧
      (ClosestInserted st.tree st.log s r ↔ (s ∈ st.log → s.strlen < maxNameLen)) := by
  obtain ⟨s,hs⟩ := Option.ne_none_iff_exists'.mp (fun hno => hne (dotted_eq_none.mp hno))
  have hinv := insertRun_inv hrun
  obtain ⟨cells,hwf⟩ := hinv.wf
  have hle := dotted_strlen_le hs hlen
  obtain ⟨r,hfind,hr⟩ := closelyFind_spec hwf hlen hs
  refine ⟨s,r,hs,hfind,?_,hr.inserted_iff hwf hinv.tallied (dotted_dotted hs) hle⟩
  intro v hv
  obtain ⟨hmem,hn,hf⟩ := hwf.found hlen hs hv
  exact hr.eq_of_name hwf (dotted_dotted hs) hmem hf hn

/-- A name of two labels, of which only the second was inserted. -/
theorem closelyFind_closest_parent : ∃ st, insertRun staleMemory (insertAll [letters 2,letters 1]) = some st ∧
    ∃ v, nameTreeCloselyFind st.tree (letters 3 ++ dot ++ letters 1) = some (some v) ∧
      ClosestInserted st.tree st.log (letters 3 ++ dot ++ letters 1 ++ dot) (some v) := by
  obtain ⟨st,hst⟩ := Option.isSome_iff_exists.mp
    (by decide +kernel : (insertRun staleMemory (insertAll [letters 2,letters 1])).isSome = true)
  have hfacts : (insertRun staleMemory (insertAll [letters 2,letters 1])).map (fun st =>
      ((nameTreeCloselyFind st.tree (letters 3 ++ dot ++ letters 1)).map Option.isSome,st.log)) =
        some (some true,[letters 1 ++ dot,letters 2 ++ dot]) := by decide +kernel
  rw [hst, Option.map_some, Option.some_inj, Prod.mk.injEq] at hfacts
  obtain ⟨s,r,hs,hrun,-,hiff⟩ := closelyFind_closest_iff staleMemory _ st (letters 3 ++ dot ++ letters 1) hst
    (by decide) (by decide)
  obtain rfl : letters 3 ++ dot ++ letters 1 ++ dot = s :=
    Option.some_inj.mp ((by decide : dotted (letters 3 ++ dot ++ letters 1) = _).symm.trans hs)
  rw [hrun] at hfacts
  obtain ⟨v,rfl⟩ := Option.isSome_iff_exists.mp (Option.some_inj.mp hfacts.1)
  exact ⟨st,hst,v,hrun,hiff.mpr (fun _ => by decide)⟩

/-- A name of 31 letters was inserted, and nothing is found for it. -/
theorem closelyFind_not_closest : ∃ st, insertRun staleMemory (insertAll [letters 31]) = some st ∧
    nameTreeCloselyFind st.tree (letters 31) = some none ∧
    ¬ClosestInserted st.tree st.log (letters 31 ++ dot) none := by
  obtain ⟨st,hst⟩ := Option.isSome_iff_exists.mp
    (by decide +kernel : (insertRun staleMemory (insertAll [letters 31])).isSome = true)
  have hfacts : (insertRun staleMemory (insertAll [letters 31])).map (fun st =>
      (nameTreeCloselyFind st.tree (letters 31),st.log)) = some (some none,[letters 31 ++ dot]) := by decide +kernel
  rw [hst, Option.map_some, Option.some_inj, Prod.mk.injEq] at hfacts
  refine ⟨st,hst,hfacts.1,?_⟩
  intro hnone
  exact hnone (letters 31 ++ dot) (hfacts.2 ▸ List.mem_singleton_self _) (ancestor_refl (by decide))

end NameTree

end LogStats
