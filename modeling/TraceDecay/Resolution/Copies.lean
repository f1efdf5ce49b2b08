import Mathlib.Data.List.Chain
import TraceDecay.Resolution.Resolver

/-!
# Resolution.Copies

The roots of copies do not depend on what earlier walks remembered: `copyRootMemoized` finds the
root of the plain walk (`copyRoot`), as long as what is remembered are ends of chains (`Sound`).
With that, materialisation is a filter and a map (`materialize_all`).
-/

namespace TraceDecay.Resolution

open Domain Relation List

section Roots

variable (sources : CopySources) (eligibleIds : Finset MessageOccurrenceIdV1)

/-- The walk of `copy_root`, which remembers nothing between occurrences. -/
def copyRootFrom : Nat → List MessageOccurrenceIdV1 → MessageOccurrenceIdV1 → MessageOccurrenceIdV1
  | 0, _, current => current
  | fuel + 1, visited, current =>
    if current ∈ visited then current
    else
      match eligibleParent sources eligibleIds current with
      | some parent => copyRootFrom fuel (visited ++ [current]) parent
      | none => current

def copyRoot (occurrenceId : MessageOccurrenceIdV1) : MessageOccurrenceIdV1 :=
  copyRootFrom sources eligibleIds (eligibleIds.card + 2) [] occurrenceId

/-- The chain of copies from an occurrence ends after so many steps, in this root. -/
inductive Ends : Nat → MessageOccurrenceIdV1 → MessageOccurrenceIdV1 → Prop
  | root {r} : eligibleParent sources eligibleIds r = none → Ends 0 r r
  | step {n k p r} : eligibleParent sources eligibleIds k = some p → Ends n p r → Ends (n + 1) k r

/-- What is remembered are ends of chains. -/
def Sound (memo : CopySources) : Prop :=
  ∀ k r, memo.find? k = some r → ∃ n, Ends sources eligibleIds n k r

variable {sources eligibleIds}

variable {k r current : MessageOccurrenceIdV1} {path : List MessageOccurrenceIdV1}
  {memo : CopySources} {n fuel : Nat} {p : MessageOccurrenceIdV1}

theorem Ends.unique {n' : Nat} {r' : MessageOccurrenceIdV1} (h : Ends sources eligibleIds n k r)
    (h' : Ends sources eligibleIds n' k r') : n = n' ∧ r = r' := by
  induction h generalizing n' with
  | root hnone =>
    cases h' with
    | root => exact ⟨rfl, rfl⟩
    | step hs => simp [hnone] at hs
  | step hs _ ih =>
    cases h' with
    | root hnone => simp [hnone] at hs
    | step hs' h' =>
      obtain rfl : _ = _ := Option.some.inj (hs.symm.trans hs')
      obtain ⟨rfl, rfl⟩ := ih h'
      exact ⟨rfl, rfl⟩

theorem eligible_of_parent
    (h : eligibleParent sources eligibleIds k = some p) : p ∈ eligibleIds := by
  simpa using (Option.filter_eq_some_iff.mp h).2

variable (sources eligibleIds) in
/-- The occurrences walked through lead to the current one. -/
def LeadsTo (path : List MessageOccurrenceIdV1) (current : MessageOccurrenceIdV1) : Prop :=
  (path ++ [current]).IsChain fun k p => eligibleParent sources eligibleIds k = some p

theorem LeadsTo.start (current : MessageOccurrenceIdV1) : LeadsTo sources eligibleIds [] current :=
  isChain_singleton current

theorem LeadsTo.concat {parent : MessageOccurrenceIdV1}
    (h : LeadsTo sources eligibleIds path current)
    (hp : eligibleParent sources eligibleIds current = some parent) :
    LeadsTo sources eligibleIds (path ++ [current]) parent := by
  exact isChain_append.mpr ⟨h, isChain_singleton _, by simpa using hp⟩

variable (sources eligibleIds) in
/-- The step of a walk. -/
abbrev CopiedFrom (k p : MessageOccurrenceIdV1) : Prop :=
  eligibleParent sources eligibleIds k = some p

theorem LeadsTo.reaches (h : LeadsTo sources eligibleIds path current) (hk : k ∈ path) :
    TransGen (CopiedFrom sources eligibleIds) k current := by
  have hc : (path ++ [current]).IsChain (TransGen (CopiedFrom sources eligibleIds)) :=
    List.IsChain.imp (fun _ _ hs => .single hs) h
  obtain ⟨-, -, hb⟩ := pairwise_append.mp (isChain_iff_pairwise.mp hc)
  exact hb k hk current (mem_singleton_self _)

theorem Ends.next (hs : CopiedFrom sources eligibleIds k p) (h : Ends sources eligibleIds n k r) :
    ∃ m < n, Ends sources eligibleIds m p r := by
  cases h with
  | root hnone => cases hnone.symm.trans hs
  | step hs' h =>
    obtain rfl := Option.some.inj (hs.symm.trans hs')
    exact ⟨_, Nat.lt_succ_self _, h⟩

theorem Ends.forward (hk : TransGen (CopiedFrom sources eligibleIds) k p)
    (h : Ends sources eligibleIds n k r) : ∃ m < n, Ends sources eligibleIds m p r := by
  induction hk with
  | single hs => exact h.next hs
  | tail _ hs ih =>
    obtain ⟨m, hm, he⟩ := ih
    obtain ⟨m', hm', he'⟩ := he.next hs
    exact ⟨m', hm'.trans hm, he'⟩

theorem Ends.back (hk : TransGen (CopiedFrom sources eligibleIds) k p)
    (h : Ends sources eligibleIds n p r) : ∃ m, Ends sources eligibleIds m k r := by
  induction hk using TransGen.head_induction_on with
  | single hs => exact ⟨_, .step hs h⟩
  | head hs _ ih => obtain ⟨m, he⟩ := ih; exact ⟨_, .step hs he⟩

/-- The plain walk stops where no source is left or where it has been before. It passes no
occurrence twice, and all but the first are eligible, so the fuel lasts. -/
theorem copyRootFrom_stops (hpath : LeadsTo sources eligibleIds path current)
    (hn : path.Nodup) (hf : path.length + fuel = eligibleIds.card + 2) :
    ∃ w root, copyRootFrom sources eligibleIds fuel path current = root ∧
      path ++ [current] <+: w ++ [root] ∧ LeadsTo sources eligibleIds w root ∧
      w.Nodup ∧ (root ∈ w ∨ eligibleParent sources eligibleIds root = none) := by
  induction fuel generalizing path current with
  | zero =>
    cases path with
    | nil => simp at hf
    | cons s path =>
      have hsub : path.toFinset ⊆ eligibleIds := by
        intro k hk
        obtain ⟨before, after, rfl⟩ := append_of_mem (mem_toFinset.mp hk)
        have hc : List.IsChain (CopiedFrom sources eligibleIds)
            ((s :: before) ++ (k :: (after ++ [current]))) := by simpa [LeadsTo] using hpath
        obtain ⟨-, -, hl⟩ := isChain_append.mp hc
        exact eligible_of_parent (hl _ (getLast?_eq_some_getLast (by simp)) k rfl)
      have hcard := Finset.card_le_card hsub
      rw [toFinset_card_of_nodup (nodup_cons.mp hn).2] at hcard
      simp only [length_cons] at hf; omega
  | succ fuel ih =>
    rw [copyRootFrom]
    by_cases hr : current ∈ path
    · rw [if_pos hr]; exact ⟨path, current, rfl, prefix_rfl, hpath, hn, .inl hr⟩
    rw [if_neg hr]
    cases hp : eligibleParent sources eligibleIds current with
    | none => exact ⟨path, current, rfl, prefix_rfl, hpath, hn, .inr hp⟩
    | some parent =>
      obtain ⟨w, root, hroot, hpre, hw⟩ := ih (hpath.concat hp)
        (nodup_append'.mpr ⟨hn, nodup_singleton _, by simpa using hr⟩)
        (by rw [length_append, length_singleton]; omega)
      exact ⟨w, root, hroot, (prefix_append _ _).trans hpre, hw⟩

/-- Where a chain ends, the plain walk cannot go round, so it stops at the end. -/
theorem copyRootFrom_of_ends (hpath : LeadsTo sources eligibleIds path current) (hn : path.Nodup)
    (hf : path.length + fuel = eligibleIds.card + 2) (h : Ends sources eligibleIds n current r) :
    copyRootFrom sources eligibleIds fuel path current = r := by
  obtain ⟨w, root, hroot, hpre, hw, -, hstop⟩ := copyRootFrom_stops hpath hn hf
  obtain ⟨m, he⟩ : ∃ m, Ends sources eligibleIds m root r := by
    rcases mem_append.mp (hpre.subset (by simp) : current ∈ w ++ [root]) with hmem | hmem
    · exact (h.forward (hw.reaches hmem)).imp fun _ => And.right
    · exact ⟨n, mem_singleton.mp hmem ▸ h⟩
  rw [hroot]
  rcases hstop with hmem | hnone
  · obtain ⟨m', hlt, he'⟩ := he.forward (hw.reaches hmem)
    exact absurd (he.unique he').1 (Nat.ne_of_gt hlt)
  · exact ((Ends.root hnone).unique he).2

theorem Sound.remember (h : Sound sources eligibleIds memo) {root : MessageOccurrenceIdV1}
    (hpath : ∀ x ∈ path, ∃ n, Ends sources eligibleIds n x root) :
    Sound sources eligibleIds (remember root path memo) := by
  induction path generalizing memo with
  | nil => exact h
  | cons x path ih =>
    refine ih (fun k r hk => ?_) fun y hy => hpath y (mem_cons_of_mem _ hy)
    rw [OrdMap.find?_insert] at hk
    split_ifs at hk with hkx
    · cases hk; exact hkx ▸ hpath x mem_cons_self
    · exact h k r hk

/-- The remembering walk finds the root the plain walk finds, and remembers only ends. -/
theorem copyRootWalk_eq (hmemo : Sound sources eligibleIds memo)
    (hpath : LeadsTo sources eligibleIds path current) (hn : path.Nodup)
    (hfuel : path.length + fuel = eligibleIds.card + 2) :
    (copyRootWalk sources eligibleIds memo fuel path current).1 =
        copyRootFrom sources eligibleIds fuel path current ∧
      Sound sources eligibleIds (copyRootWalk sources eligibleIds memo fuel path current).2 := by
  induction fuel generalizing path current with
  | zero => exact ⟨rfl, hmemo⟩
  | succ fuel ih =>
    unfold copyRootWalk
    cases hfind : memo.find? current with
    | some root =>
      obtain ⟨n, he⟩ := hmemo current root hfind
      exact ⟨(copyRootFrom_of_ends hpath hn hfuel he).symm,
        hmemo.remember fun x hx => he.back (hpath.reaches hx)⟩
    | none =>
      rw [copyRootFrom]
      by_cases hr : current ∈ path
      · simp only [if_pos hr]; exact ⟨trivial, hmemo⟩
      simp only [if_neg hr]
      cases hp : eligibleParent sources eligibleIds current with
      | some parent =>
        exact ih (hpath.concat hp) (nodup_append'.mpr ⟨hn, nodup_singleton _, by simpa using hr⟩)
          (by rw [length_append, length_singleton]; omega)
      | none =>
        have he : Ends sources eligibleIds 0 current current := .root hp
        refine ⟨rfl, fun k r hk => ?_⟩
        rw [OrdMap.find?_insert] at hk
        split_ifs at hk with hcopy
        · cases hk; exact ⟨0, hcopy ▸ he⟩
        · exact hmemo.remember (fun x hx => he.back (hpath.reaches hx)) k r hk

theorem copyRootMemoized_eq (hm : Sound sources eligibleIds memo) (o : MessageOccurrenceIdV1) :
    (copyRootMemoized o sources eligibleIds memo).1 = copyRoot sources eligibleIds o ∧
      Sound sources eligibleIds (copyRootMemoized o sources eligibleIds memo).2 :=
  copyRootWalk_eq hm (.start _) nodup_nil (Nat.zero_add _)

theorem copyRoot_of_no_parent {occurrenceId : MessageOccurrenceIdV1}
    (h : eligibleParent sources eligibleIds occurrenceId = none) :
    copyRoot sources eligibleIds occurrenceId = occurrenceId :=
  copyRootFrom_of_ends (.start _) nodup_nil (Nat.zero_add _) (.root h)

/-! ### Roots of roots -/

theorem LeadsTo.round {b after : List MessageOccurrenceIdV1} {c : MessageOccurrenceIdV1}
    (h : LeadsTo sources eligibleIds (b ++ c :: after) c) (hk : k ∈ c :: after)
    (hstep : CopiedFrom sources eligibleIds k p) : p ∈ c :: after := by
  obtain ⟨front, back, hs⟩ := append_of_mem hk
  rw [LeadsTo, hs] at h
  have hc : List.IsChain (CopiedFrom sources eligibleIds)
      ((b ++ front) ++ (k :: (back ++ [c]))) := by simpa using h
  have hn := (isChain_cons.mp (isChain_append.mp hc).2.1).1
  cases back with
  | nil =>
    have hl : CopiedFrom sources eligibleIds k c := hn c rfl
    rw [Option.some.inj (hstep.symm.trans hl)]; exact mem_cons_self
  | cons x back =>
    have hl : CopiedFrom sources eligibleIds k x := hn x rfl
    rw [Option.some.inj (hstep.symm.trans hl), hs]; simp

theorem reaches_back {x : MessageOccurrenceIdV1}
    (hc : TransGen (CopiedFrom sources eligibleIds) r r)
    (h : ReflTransGen (CopiedFrom sources eligibleIds) r x) :
    ReflTransGen (CopiedFrom sources eligibleIds) x r := by
  have hn : ∀ {k p : MessageOccurrenceIdV1}, CopiedFrom sources eligibleIds k p →
      TransGen (CopiedFrom sources eligibleIds) k r →
        ReflTransGen (CopiedFrom sources eligibleIds) p r := by
    intro k p hkp hkr
    obtain ⟨q, hkq, hqr⟩ := TransGen.head'_iff.mp hkr
    rwa [Option.some.inj (hkp.symm.trans hkq)]
  induction h with
  | refl => exact .refl
  | tail _ hs ih =>
    rcases reflTransGen_iff_eq_or_transGen.mp ih with rfl | ht
    · exact hn hs hc
    · exact hn hs ht

theorem copyRoot_of_cycle (hc : TransGen (CopiedFrom sources eligibleIds) r r) :
    copyRoot sources eligibleIds r = r := by
  obtain ⟨whole, root, hroot, hpre, hw, hn, hstop⟩ :=
    copyRootFrom_stops (.start r) nodup_nil (Nat.zero_add _)
  refine hroot.trans ?_
  cases whole with
  | nil => exact (by simpa using hpre : r = root).symm
  | cons first rest =>
    obtain rfl : r = first := by simpa using hpre
    have hb := reaches_back hc (hw.reaches mem_cons_self).to_reflTransGen
    rcases hstop with hmem | hnone
    · by_contra hne
      have hmem : root ∈ rest := (mem_cons.mp hmem).resolve_left hne
      obtain ⟨before, after, rfl⟩ := append_of_mem hmem
      have hr : LeadsTo sources eligibleIds ((r :: before) ++ root :: after) root := hw
      -- going round from the root never comes to the start
      have hi : ∀ x, ReflTransGen (CopiedFrom sources eligibleIds) root x → x ∈ root :: after := by
        intro x hx
        induction hx with
        | refl => exact mem_cons_self
        | tail _ hs ih => exact hr.round ih hs
      exact (nodup_cons.mp hn).1 (mem_append_right _ (hi r hb))
    · rcases hb.cases_head with heq | ⟨p, hp, -⟩
      · exact heq
      · rw [CopiedFrom, hnone] at hp; cases hp

theorem copyRoot_copyRoot (occurrenceId : MessageOccurrenceIdV1) :
    copyRoot sources eligibleIds (copyRoot sources eligibleIds occurrenceId) =
      copyRoot sources eligibleIds occurrenceId := by
  obtain ⟨whole, root, hr, -, hw, -, hstop⟩ :=
    copyRootFrom_stops (.start occurrenceId) nodup_nil (Nat.zero_add _)
  have heq : copyRoot sources eligibleIds occurrenceId = root := hr
  rw [heq]
  rcases hstop with hmem | hnone
  · exact copyRoot_of_cycle (hw.reaches hmem)
  · exact copyRoot_of_no_parent hnone

variable (sources eligibleIds) in
/-- The roots of several occurrences, found one after the other with one memo. -/
def copyRootsMemoized : CopySources → List MessageOccurrenceIdV1 → List MessageOccurrenceIdV1
  | _, [] => []
  | memo, occurrenceId :: rest =>
    let (root, memo) := copyRootMemoized occurrenceId sources eligibleIds memo
    root :: copyRootsMemoized memo rest

theorem copyRootsMemoized_eq (hm : Sound sources eligibleIds memo)
    (s : List MessageOccurrenceIdV1) :
    copyRootsMemoized sources eligibleIds memo s = s.map (copyRoot sources eligibleIds) := by
  induction s generalizing memo with
  | nil => rfl
  | cons start s ih =>
    obtain ⟨hr, hs⟩ := copyRootMemoized_eq hm start
    simp only [copyRootsMemoized, map_cons, hr, ih hs]

theorem Sound.empty : Sound sources eligibleIds .empty := by
  intro k root hk; cases hk

end Roots

/-! ## Materialisation -/

namespace Resolving

/-- The occurrence is a copy of an eligible one that stands for it. -/
def collapses (r : Resolving) (occurrence : ResolutionOccurrence) : Bool :=
  let root := copyRoot r.sources r.eligibleIds occurrence.occurrenceId
  r.mode ≠ .forensic && root ≠ occurrence.occurrenceId && root ∈ r.eligibleIds

def isShown (r : Resolving) (occurrence : ResolutionOccurrence) : Bool :=
  occurrence.anchorId ∉ r.relations.suppressedAnchors && !r.collapses occurrence

def resolved (r : Resolving) (occurrence : ResolutionOccurrence) : ResolvedOccurrence :=
  { occurrence
    representativeId := copyRoot r.sources r.eligibleIds occurrence.occurrenceId
    conflicted := occurrence.anchorId ∈ r.relations.conflictAnchors
    uncertain := occurrence.validTime = .unknown
    supportingAnchorIds := (r.support.find? occurrence.anchorId).getD ∅ }

end Resolving

theorem materialize_step (r : Resolving) {memo : CopySources}
    (hm : Sound r.sources r.eligibleIds memo) (done : List ResolvedOccurrence)
    (o : ResolutionOccurrence) :
    (materialize r (done, memo) o).1 = done ++ (if r.isShown o then [r.resolved o] else []) ∧
      Sound r.sources r.eligibleIds (materialize r (done, memo) o).2 := by
  obtain ⟨hr, hsound⟩ := copyRootMemoized_eq hm o.occurrenceId
  unfold materialize
  by_cases hs : o.anchorId ∈ r.relations.suppressedAnchors
  · simp [hs, Resolving.isShown, hm]
  simp only [hs, if_false, hr]
  cases hc : r.collapses o with
  | true =>
    have := hc
    simp only [Resolving.collapses] at this
    simp only [this, if_true]; simp [Resolving.isShown, hc, hsound]
  | false =>
    have := hc
    simp only [Resolving.collapses] at this
    simp only [this, Bool.false_eq_true, if_false]
    simp [Resolving.isShown, hc, hsound, hs, Resolving.resolved]

theorem materialize_all (r : Resolving) (o : List ResolutionOccurrence) :
    (o.foldl (materialize r) ([], .empty)).1 = (o.filter r.isShown).map r.resolved := by
  have hrun : ∀ (done : List ResolvedOccurrence) (memo : CopySources),
      Sound r.sources r.eligibleIds memo → (o.foldl (materialize r) (done, memo)).1 =
          done ++ (o.filter r.isShown).map r.resolved := by
    induction o with
    | nil => intro done memo _; simp
    | cons occurrence o ih =>
      intro done memo hm
      obtain ⟨hd, hs⟩ := materialize_step r hm done occurrence
      rw [foldl_cons, ← Prod.eta (materialize r (done, memo) occurrence), hd,
        ih _ _ hs, filter_cons]
      split <;> simp
  simpa using hrun [] .empty .empty

/-- Roots found with a shared memo are those of the plain walk, a root is its own root, and an
occurrence collapses into an eligible one that does not collapse. -/
theorem memoized_copy_roots (sources : CopySources) (eligibleIds : Finset MessageOccurrenceIdV1)
    (starts : List MessageOccurrenceIdV1) (occurrences : List ResolutionOccurrence)
    (copies : List LogicalCopyRecordV1) (assertions : List ResolutionAssertion)
    (mode : TemporalModeV1) :
    copyRootsMemoized sources eligibleIds .empty starts =
        starts.map (copyRoot sources eligibleIds) ∧
      (∀ start, copyRoot sources eligibleIds (copyRoot sources eligibleIds start) =
        copyRoot sources eligibleIds start) ∧
      ∀ occurrence, (resolving occurrences copies assertions mode).collapses occurrence = true →
        ∃ representative ∈ eligibleOccurrences occurrences mode,
          representative.occurrenceId = copyRoot (copySources copies mode)
            (resolving occurrences copies assertions mode).eligibleIds occurrence.occurrenceId ∧
          (resolving occurrences copies assertions mode).collapses representative = false := by
  refine ⟨copyRootsMemoized_eq .empty starts, copyRoot_copyRoot, fun occurrence hc => ?_⟩
  simp only [Resolving.collapses, Bool.and_eq_true, decide_eq_true_eq] at hc
  have hmem := hc.2
  simp only [resolving, mem_toFinset, mem_map] at hmem
  obtain ⟨representative, hr, hid⟩ := hmem
  refine ⟨representative, hr, hid, ?_⟩
  have hown : copyRoot (resolving occurrences copies assertions mode).sources
      (resolving occurrences copies assertions mode).eligibleIds representative.occurrenceId =
        representative.occurrenceId := by
    rw [hid]; exact copyRoot_copyRoot occurrence.occurrenceId
  simp [Resolving.collapses, hown]

def shown (occurrences : List ResolutionOccurrence) (copies : List LogicalCopyRecordV1)
    (assertions : List ResolutionAssertion) (mode : TemporalModeV1) : List ResolvedOccurrence :=
  let r := resolving occurrences copies assertions mode
  ((eligibleOccurrences occurrences mode).filter r.isShown).map r.resolved

theorem resolveTemporal_occurrences (o : List ResolutionOccurrence) (c : List LogicalCopyRecordV1)
    (a : List ResolutionAssertion) (mode : TemporalModeV1) :
    (resolveTemporal o c a mode).occurrences =
      if mode = .evolution then
        orderEvolution (shown o c a mode) (eligibleAssertions o a mode)
      else Sorting.sortBy stableOccurrenceOrder (shown o c a mode) := by
  unfold resolveTemporal shown
  simp only [materialize_all]
  split <;> rfl

end TraceDecay.Resolution
