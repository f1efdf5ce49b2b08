import TraceDecay.Lib.Folds
import TraceDecay.Resolution.Copies

/-!
# Resolution.Suppression

What the assertions settle, and whether suppression leaves a survivor. `Suppresses` is the relation
of suppressor and suppressed, `Reciprocal` the pairs that replaced each other. An anchor stays
suppressed when something suppresses it and it is in no reciprocal pair (`mem_suppressedAnchors`).
Survivors can only be missing on the cycles of the relation: `suppression_keeps_survivor_iff` says
which cycles leave one.
-/

namespace TraceDecay.Resolution

open Domain Folds Graph Relation
open Relations (conflict relate suppress wipeReciprocal)

/-! ## What the assertions settle -/

section Relations

variable (byAnchor : ByAnchor) (support : Support) (assertions : List ResolutionAssertion)

/-- A successful correction or supersession. -/
def Replaces (a b : RetrievalAnchorId) : Prop :=
  ∃ assertion ∈ assertions, judge byAnchor support assertion = .replaces ∧
    assertion.subjectAnchorId = a ∧ assertion.objectAnchorId = b

/-- The suppressor and the suppressed anchor of an assertion with this verdict. -/
def Verdict.suppression (assertion : ResolutionAssertion) :
    Verdict → Option (RetrievalAnchorId × RetrievalAnchorId)
  | .replaces | .objectLoses => some (assertion.subjectAnchorId, assertion.objectAnchorId)
  | .subjectLoses => some (assertion.objectAnchorId, assertion.subjectAnchorId)
  | .disputed | .silent => none

/-- A successful correction, supersession or contradiction. -/
def Suppresses (a b : RetrievalAnchorId) : Prop :=
  ∃ assertion ∈ assertions, (judge byAnchor support assertion).suppression assertion = some (a, b)

/-- The anchor is one of two that replaced each other. -/
def Reciprocal (a : RetrievalAnchorId) : Prop :=
  ∃ b, Replaces byAnchor support assertions a b ∧ Replaces byAnchor support assertions b a

/-- The anchor is an endpoint of an assertion nobody won. -/
def Disputed (a : RetrievalAnchorId) : Prop :=
  ∃ assertion ∈ assertions, judge byAnchor support assertion = .disputed ∧
    (a = assertion.subjectAnchorId ∨ a = assertion.objectAnchorId)

variable {byAnchor support} (s : Relations) (assertion : ResolutionAssertion)

theorem relate_suppressed (b : RetrievalAnchorId) :
    b ∈ (s.relate byAnchor support assertion).suppressedAnchors ↔ b ∈ s.suppressedAnchors ∨
        ∃ a, (judge byAnchor support assertion).suppression assertion = some (a, b) := by
  unfold relate
  cases judge byAnchor support assertion <;>
    simp [suppress, conflict, Verdict.suppression, or_comm, eq_comm]

variable (a b : RetrievalAnchorId)

theorem relate_edges :
    (s.relate byAnchor support assertion).suppressionEdges.contains (toLex (a, b)) = true ↔
      s.suppressionEdges.contains (toLex (a, b)) = true ∨
        (judge byAnchor support assertion = .replaces ∧ assertion.subjectAnchorId = a ∧
          assertion.objectAnchorId = b) := by
  unfold relate
  cases judge byAnchor support assertion with
  | replaces =>
    simp only [suppress, OrdMap.contains, OrdMap.find?_insert, true_and]
    by_cases hab : toLex (a, b) = toLex (assertion.subjectAnchorId, assertion.objectAnchorId)
    · have h := Prod.mk.inj (toLex.injective hab); simp [h.1, h.2]
    · have hne : ¬ (assertion.subjectAnchorId = a ∧ assertion.objectAnchorId = b) := by
        rintro ⟨rfl, rfl⟩; exact hab rfl
      simp [hab, hne]
  | objectLoses | subjectLoses => simp [suppress]
  | disputed => simp [conflict]
  | silent => simp

theorem relate_conflicts (a : RetrievalAnchorId) :
    a ∈ (s.relate byAnchor support assertion).conflictAnchors ↔
      a ∈ s.conflictAnchors ∨ (judge byAnchor support assertion = .disputed ∧
        (a = assertion.subjectAnchorId ∨ a = assertion.objectAnchorId)) := by
  unfold relate
  cases judge byAnchor support assertion with
  | disputed =>
    simp only [conflict, Finset.mem_insert, true_and]
    tauto
  | replaces | objectLoses | subjectLoses => simp [suppress]
  | silent => simp

variable {assertions}

theorem foldl_relate_suppressed {b : RetrievalAnchorId} :
    b ∈ (assertions.foldl (relate byAnchor support) {}).suppressedAnchors ↔
      ∃ a, Suppresses byAnchor support assertions a b := by
  refine (foldl_iff_exists (p := fun s : Relations => b ∈ s.suppressedAnchors)
    (fun s x => relate_suppressed s x b) {} assertions).trans ?_
  simp only [Finset.notMem_empty, false_or, Suppresses]
  constructor
  · rintro ⟨x, hx, a, ha⟩; exact ⟨a, x, hx, ha⟩
  · rintro ⟨a, x, hx, ha⟩; exact ⟨x, hx, a, ha⟩

theorem foldl_relate_edges {a b : RetrievalAnchorId} :
    (assertions.foldl (relate byAnchor support) {}).suppressionEdges.contains
        (toLex (a, b)) = true ↔ Replaces byAnchor support assertions a b := by
  refine (foldl_iff_exists
    (p := fun s : Relations => s.suppressionEdges.contains (toLex (a, b)) = true)
    (fun s x => relate_edges s x a b) {} assertions).trans ?_
  simp [OrdMap.contains, Replaces]

theorem foldl_relate_conflicts {a : RetrievalAnchorId} :
    a ∈ (assertions.foldl (relate byAnchor support) {}).conflictAnchors ↔
      Disputed byAnchor support assertions a := by
  refine (foldl_iff_exists (p := fun s : Relations => a ∈ s.conflictAnchors)
    (fun s x => relate_conflicts s x a) {} assertions).trans ?_
  simp [Disputed]

theorem wipeReciprocal_edges (e : RetrievalAnchorId ×ₗ RetrievalAnchorId) :
    (s.wipeReciprocal e).suppressionEdges = s.suppressionEdges := by
  unfold wipeReciprocal
  split
  split <;> rfl

theorem mem_wipeReciprocal (c : RetrievalAnchorId) :
    let wiped := s.suppressionEdges.contains (toLex (b, a)) = true ∧ (c = a ∨ c = b)
    (c ∈ (s.wipeReciprocal (toLex (a, b))).suppressedAnchors ↔ c ∈ s.suppressedAnchors ∧ ¬ wiped) ∧
      (c ∈ (s.wipeReciprocal (toLex (a, b))).conflictAnchors ↔ c ∈ s.conflictAnchors ∨ wiped) := by
  unfold wipeReciprocal
  by_cases hb : s.suppressionEdges.contains (toLex (b, a)) = true
  · simp only [ofLex_toLex, hb, if_true, Finset.mem_erase, Finset.mem_insert, true_and, not_or,
      conflict]
    tauto
  · simp [hb]

theorem reciprocal_iff_edge {c : RetrievalAnchorId} :
    (∃ e ∈ (assertions.foldl (relate byAnchor support) {}).suppressionEdges.keys,
      (assertions.foldl (relate byAnchor support) {}).suppressionEdges.contains
          (toLex ((ofLex e).2, (ofLex e).1)) = true ∧ (c = (ofLex e).1 ∨ c = (ofLex e).2)) ↔
      Reciprocal byAnchor support assertions c := by
  constructor
  · rintro ⟨e, he, hb, hc⟩
    have hf := foldl_relate_edges.mp (OrdMap.mem_keys.mp he)
    have hb := foldl_relate_edges.mp hb
    rcases hc with rfl | rfl
    · exact ⟨_, hf, hb⟩
    · exact ⟨_, hb, hf⟩
  · rintro ⟨b, hf, hb⟩
    exact ⟨toLex (c, b), OrdMap.mem_keys.mpr (foldl_relate_edges.mpr hf),
      foldl_relate_edges.mpr hb, .inl rfl⟩

variable {mode : TemporalModeV1}

theorem relations_suppressed (hm : suppresses mode = true) {b : RetrievalAnchorId} :
    b ∈ (relations byAnchor support assertions mode).suppressedAnchors ↔
      (∃ a, Suppresses byAnchor support assertions a b) ∧
        ¬ Reciprocal byAnchor support assertions b := by
  rw [relations, if_pos hm, ← reciprocal_iff_edge, ← foldl_relate_suppressed]
  generalize assertions.foldl (relate byAnchor support) {} = related
  refine (foldl_iff_and (I := fun s => s.suppressionEdges = related.suppressionEdges)
    (p := fun s : Relations => b ∈ s.suppressedAnchors)
    (q := fun e => ¬ (related.suppressionEdges.contains (toLex ((ofLex e).2, (ofLex e).1)) = true ∧
      (b = (ofLex e).1 ∨ b = (ofLex e).2)))
    (fun s e hs => (wipeReciprocal_edges s e).trans hs)
    (fun s e hs => ?_) rfl related.suppressionEdges.keys).trans ?_
  · rw [← hs]; exact (mem_wipeReciprocal s (ofLex e).1 (ofLex e).2 b).1
  · simp

theorem relations_conflicts (hm : suppresses mode = true) {a : RetrievalAnchorId} :
    a ∈ (relations byAnchor support assertions mode).conflictAnchors ↔
      Disputed byAnchor support assertions a ∨ Reciprocal byAnchor support assertions a := by
  rw [relations, if_pos hm, ← reciprocal_iff_edge, ← foldl_relate_conflicts]
  generalize assertions.foldl (relate byAnchor support) {} = related
  refine foldl_iff_or (I := fun s => s.suppressionEdges = related.suppressionEdges)
    (p := fun s : Relations => a ∈ s.conflictAnchors)
    (fun s e hs => (wipeReciprocal_edges s e).trans hs)
    (fun s e hs => ?_) rfl related.suppressionEdges.keys
  rw [← hs]; exact (mem_wipeReciprocal s (ofLex e).1 (ofLex e).2 a).2

end Relations

/-! ## Survivors -/

section Survivors

variable (occurrences : List ResolutionOccurrence) (assertions : List ResolutionAssertion)
  (mode : TemporalModeV1)

/-- The suppressions among the eligible anchors. -/
def SuppressedBy (a b : RetrievalAnchorId) : Prop :=
  Suppresses (byAnchorOf occurrences mode) (supportOf occurrences assertions mode)
    (eligibleAssertions occurrences assertions mode) a b

/-- One of two eligible anchors that replaced each other. -/
def ReplacedEachOther (a : RetrievalAnchorId) : Prop :=
  Reciprocal (byAnchorOf occurrences mode) (supportOf occurrences assertions mode)
    (eligibleAssertions occurrences assertions mode) a

def suppressedAnchors : Finset RetrievalAnchorId :=
  (relations (byAnchorOf occurrences mode) (supportOf occurrences assertions mode)
    (eligibleAssertions occurrences assertions mode) mode).suppressedAnchors

/-- Suppression erases nothing without a survivor: a suppressed anchor is reached, through
suppressions, from an eligible one that is not, and eligible occurrences without copies never
resolve to nothing. -/
structure SurvivorKept : Prop where
  reached : ∀ b ∈ suppressedAnchors occurrences assertions mode,
    ∃ a ∈ anchorsOf (eligibleOccurrences occurrences mode),
      a ∉ suppressedAnchors occurrences assertions mode ∧
        TransGen (SuppressedBy occurrences assertions mode) a b
  nonempty : eligibleOccurrences occurrences mode ≠ [] →
    (resolveTemporal occurrences [] assertions mode).occurrences ≠ []

/-- Every cycle of suppressions contains, or is reached from, an anchor that nothing suppresses or
that is one of a reciprocal pair. -/
def CyclesEscaped : Prop :=
  ∀ b, TransGen (SuppressedBy occurrences assertions mode) b b →
    ∃ a, ReflTransGen (SuppressedBy occurrences assertions mode) a b ∧
      ((∀ x, ¬ SuppressedBy occurrences assertions mode x a) ∨
        ReplacedEachOther occurrences assertions mode a)

variable {occurrences assertions mode} {a b : RetrievalAnchorId}

theorem mem_anchorsOf {l : List ResolutionOccurrence} :
    a ∈ anchorsOf l ↔ ∃ o ∈ l, o.anchorId = a := by
  simp [anchorsOf]

theorem eligible_endpoints {a : ResolutionAssertion}
    (h : a ∈ eligibleAssertions occurrences assertions mode) :
    a.subjectAnchorId ∈ anchorsOf (eligibleOccurrences occurrences mode) ∧
      a.objectAnchorId ∈ anchorsOf (eligibleOccurrences occurrences mode) := by
  have he := (List.mem_filter.mp h).2
  simp only [ResolutionAssertion.isEligible, Bool.and_eq_true, decide_eq_true_eq] at he
  exact ⟨he.1.2, he.2⟩

theorem SuppressedBy.eligible (h : SuppressedBy occurrences assertions mode a b) :
    a ∈ anchorsOf (eligibleOccurrences occurrences mode) := by
  obtain ⟨assertion, hmem, hp⟩ := h
  obtain ⟨hs, ho⟩ := eligible_endpoints hmem
  generalize judge _ _ assertion = verdict at hp
  cases verdict with
  | replaces | objectLoses => cases hp; exact hs
  | subjectLoses => cases hp; exact ho
  | disputed | silent => cases hp

variable (hm : suppresses mode = true)
include hm

theorem mem_suppressedAnchors : b ∈ suppressedAnchors occurrences assertions mode ↔
      (∃ a, SuppressedBy occurrences assertions mode a b) ∧
        ¬ ReplacedEachOther occurrences assertions mode b :=
  relations_suppressed hm

theorem resolveTemporal_no_copies :
    (resolveTemporal occurrences [] assertions mode).occurrences.Perm
      (((eligibleOccurrences occurrences mode).filter
          fun o => o.anchorId ∉ suppressedAnchors occurrences assertions mode).map
        (resolving occurrences [] assertions mode).resolved) := by
  have hr : ∀ id ids, copyRoot (copySources [] mode) ids id = id :=
    fun id ids => copyRoot_of_no_parent rfl
  have hs : (resolving occurrences [] assertions mode).isShown = fun o =>
      decide (o.anchorId ∉ suppressedAnchors occurrences assertions mode) := by
    funext o
    have hown : (resolving occurrences [] assertions mode).collapses o = false := by
      simp [Resolving.collapses, resolving, hr]
    rw [Resolving.isShown, hown, Bool.not_false, Bool.and_true]; rfl
  rw [resolveTemporal_occurrences, if_neg (by rintro rfl; cases hm)]
  refine (Sorting.sortBy_perm _ _).trans ?_
  rw [shown, hs]

theorem not_mem_suppressedAnchors : a ∉ suppressedAnchors occurrences assertions mode ↔
      (∀ x, ¬ SuppressedBy occurrences assertions mode x a) ∨
        ReplacedEachOther occurrences assertions mode a := by
  rw [mem_suppressedAnchors hm, not_and_or, not_not, not_exists]

theorem CyclesEscaped.reached (hc : CyclesEscaped occurrences assertions mode)
    (hb : b ∈ suppressedAnchors occurrences assertions mode) :
    ∃ a ∈ anchorsOf (eligibleOccurrences occurrences mode),
      a ∉ suppressedAnchors occurrences assertions mode ∧
        TransGen (SuppressedBy occurrences assertions mode) a b := by
  obtain ⟨a, hab, hfree⟩ : ∃ a, ReflTransGen (SuppressedBy occurrences assertions mode) a b ∧
      a ∉ suppressedAnchors occurrences assertions mode := by
    -- going back from a suppressed anchor ends, or comes to a cycle
    obtain ⟨o, hob, ho | ho⟩ := exists_origin
      (fun a b (hab : SuppressedBy occurrences assertions mode a b) => hab.eligible) b
    · exact ⟨o, hob, (not_mem_suppressedAnchors hm).mpr (.inl ho)⟩
    · obtain ⟨a, hao, ha⟩ := hc o ho
      exact ⟨a, hao.trans hob, (not_mem_suppressedAnchors hm).mpr ha⟩
  rcases reflTransGen_iff_eq_or_transGen.mp hab with rfl | ht
  · exact absurd hb hfree
  · obtain ⟨c, hac, -⟩ := TransGen.head'_iff.mp ht; exact ⟨a, hac.eligible, hfree, ht⟩

omit hm

/-- In the modes that suppress, evidence is erased without a survivor exactly when a cycle of
suppressions has no way out. -/
theorem suppression_keeps_survivor_iff (hmode : suppresses mode = true) :
    SurvivorKept occurrences assertions mode ↔ CyclesEscaped occurrences assertions mode := by
  constructor
  · intro hk b hcorrects
    by_cases hb : ReplacedEachOther occurrences assertions mode b
    · exact ⟨b, .refl, .inr hb⟩
    · obtain ⟨x, -, hx⟩ := TransGen.tail'_iff.mp hcorrects
      obtain ⟨a, -, hfree, hab⟩ := hk.reached b ((mem_suppressedAnchors hmode).mpr ⟨⟨x, hx⟩, hb⟩)
      exact ⟨a, hab.to_reflTransGen, (not_mem_suppressedAnchors hmode).mp hfree⟩
  · intro hc
    refine ⟨fun b => hc.reached hmode, fun hs hnone => ?_⟩
    obtain ⟨a, ha, hfree⟩ : ∃ a ∈ anchorsOf (eligibleOccurrences occurrences mode),
        a ∉ suppressedAnchors occurrences assertions mode := by
      obtain ⟨occurrence, hmem⟩ := List.exists_mem_of_ne_nil _ hs
      by_cases hb : occurrence.anchorId ∈ suppressedAnchors occurrences assertions mode
      · obtain ⟨a, ha, hfree, -⟩ := hc.reached hmode hb; exact ⟨a, ha, hfree⟩
      · exact ⟨_, mem_anchorsOf.mpr ⟨occurrence, hmem, rfl⟩, hb⟩
    obtain ⟨occurrence, hmem, rfl⟩ := mem_anchorsOf.mp ha
    have hi : (resolving occurrences [] assertions mode).resolved occurrence ∈
        (resolveTemporal occurrences [] assertions mode).occurrences := by
      refine (resolveTemporal_no_copies hmode).symm.subset (List.mem_map_of_mem ?_)
      exact List.mem_filter.mpr ⟨hmem, by simpa using hfree⟩
    rw [hnone] at hi; cases hi

/-! ## Corrections -/

variable (occurrences assertions mode) in
/-- An eligible correction or supersession of `o` by `s` succeeds. -/
def ReplacedBy (s o : RetrievalAnchorId) : Prop :=
  Replaces (byAnchorOf occurrences mode) (supportOf occurrences assertions mode)
    (eligibleAssertions occurrences assertions mode) s o

/-- An anchor that another one replaced for good stays out of the answer exactly when it is in no
reciprocal pair with a third one, or its occurrences collapse as copies anyway. -/
theorem correction_stands_iff {copies : List LogicalCopyRecordV1} {s o : RetrievalAnchorId}
    (hmode : suppresses mode = true) (hreplaced : ReplacedBy occurrences assertions mode s o)
    (hback : ¬ ReplacedBy occurrences assertions mode o s) :
    (∀ x ∈ (resolveTemporal occurrences copies assertions mode).occurrences,
        x.occurrence.anchorId ≠ o) ↔
      (¬ ∃ t, t ≠ s ∧ ReplacedBy occurrences assertions mode o t ∧
          ReplacedBy occurrences assertions mode t o) ∨
        ∀ occurrence ∈ eligibleOccurrences occurrences mode, occurrence.anchorId = o →
          (resolving occurrences copies assertions mode).collapses occurrence = true := by
  have ht : ReplacedEachOther occurrences assertions mode o ↔
      ∃ t, t ≠ s ∧ ReplacedBy occurrences assertions mode o t ∧
        ReplacedBy occurrences assertions mode t o := by
    constructor
    · rintro ⟨t, hf, hanchor⟩
      refine ⟨t, ?_, hf, hanchor⟩
      rintro rfl; exact hback hf
    · rintro ⟨t, -, hb⟩; exact ⟨t, hb⟩
  have hsupp : o ∈ suppressedAnchors occurrences assertions mode ↔
      ¬ ReplacedEachOther occurrences assertions mode o := by
    refine (mem_suppressedAnchors hmode).trans (and_iff_right ?_)
    obtain ⟨assertion, hmem, hj, rfl, rfl⟩ := hreplaced
    exact ⟨_, assertion, hmem, by rw [hj]; rfl⟩
  rw [resolveTemporal_occurrences, if_neg (by rintro rfl; cases hmode), ← ht, ← hsupp]
  simp only [(Sorting.sortBy_perm _ _).mem_iff, shown, List.mem_map, List.mem_filter,
    Resolving.isShown, Bool.and_eq_true, decide_eq_true_eq, Bool.not_eq_true']
  constructor
  · intro hout
    refine or_iff_not_imp_left.mpr fun hfree occurrence hmem ha => ?_
    by_contra hs
    exact hout _ ⟨occurrence, ⟨hmem, ha ▸ hfree, by simpa using hs⟩, rfl⟩ ha
  · rintro (hin | hc) _ ⟨occurrence, ⟨hmem, hfree, hs⟩, rfl⟩ ha
    · exact hfree (ha ▸ hin)
    · rw [hc occurrence hmem ha] at hs; cases hs

end Survivors

def firstAnchor : RetrievalAnchorId := ⟨"first", by decide⟩

def secondAnchor : RetrievalAnchorId := ⟨"second", by decide⟩

def thirdAnchor : RetrievalAnchorId := ⟨"third", by decide⟩

def firstId : MessageOccurrenceIdV1 :=
  ⟨"sha256:" ++ "1111111111111111111111111111111111111111111111111111111111111111", by decide⟩

def secondId : MessageOccurrenceIdV1 :=
  ⟨"sha256:" ++ "2222222222222222222222222222222222222222222222222222222222222222", by decide⟩

def thirdId : MessageOccurrenceIdV1 :=
  ⟨"sha256:" ++ "3333333333333333333333333333333333333333333333333333333333333333", by decide⟩

def observed : ResolutionEvidence := ⟨.canonicalObservation, true, ∅⟩

def observedAt (id : MessageOccurrenceIdV1) (anchor : RetrievalAnchorId) : ResolutionOccurrence :=
  ⟨id, anchor, 0, .known 0, observed⟩

def asserted (kind : TemporalAssertionKindV1) (subject object : RetrievalAnchorId) :
    ResolutionAssertion :=
  ⟨kind, subject, object, 0, .known 0, observed⟩

def threeObserved : List ResolutionOccurrence :=
  [observedAt firstId firstAnchor, observedAt secondId secondAnchor, observedAt thirdId thirdAnchor]

/-- Each corrects the next one, and the last one the first. -/
def correctedInARound : List ResolutionAssertion :=
  [asserted .corrects firstAnchor secondAnchor, asserted .corrects secondAnchor thirdAnchor,
    asserted .corrects thirdAnchor firstAnchor]

theorem suppression_keeps_survivor_iff_round : suppresses .current = true ∧
    (SurvivorKept threeObserved correctedInARound .current ↔
      CyclesEscaped threeObserved correctedInARound .current) :=
  ⟨rfl, suppression_keeps_survivor_iff rfl⟩

/-- Three corrections in a round erase all the evidence. -/
theorem round_of_corrections_erases_all : (eligibleOccurrences threeObserved .current).length = 3 ∧
      (resolveTemporal threeObserved [] correctedInARound .current).occurrences = [] ∧
        ¬ SurvivorKept threeObserved correctedInARound .current := by
  have he : (resolveTemporal threeObserved [] correctedInARound .current).occurrences = [] := by
    decide
  exact ⟨by decide, he, fun hk => hk.nonempty (by decide) he⟩

/-- The first corrects the second, while the second and the third correct each other. -/
def correctedAndDisputed : List ResolutionAssertion :=
  [asserted .corrects firstAnchor secondAnchor, asserted .corrects secondAnchor thirdAnchor,
    asserted .corrects thirdAnchor secondAnchor]

theorem replaced_and_disputed :
    ReplacedBy threeObserved correctedAndDisputed .current firstAnchor secondAnchor ∧
      ¬ ReplacedBy threeObserved correctedAndDisputed .current secondAnchor firstAnchor := by
  unfold ReplacedBy Replaces; decide

theorem correction_stands_iff_disputed :
    (∀ x ∈ (resolveTemporal threeObserved [] correctedAndDisputed .current).occurrences,
        x.occurrence.anchorId ≠ secondAnchor) ↔
      (¬ ∃ t, t ≠ firstAnchor ∧
          ReplacedBy threeObserved correctedAndDisputed .current secondAnchor t ∧
            ReplacedBy threeObserved correctedAndDisputed .current t secondAnchor) ∨
        ∀ occurrence ∈ eligibleOccurrences threeObserved .current,
          occurrence.anchorId = secondAnchor →
            (resolving threeObserved [] correctedAndDisputed .current).collapses occurrence = true :=
  correction_stands_iff rfl replaced_and_disputed.1 replaced_and_disputed.2

/-- The dispute with the third brings the second back although the first corrected it. -/
theorem dispute_cancels_correction :
    ReplacedBy threeObserved correctedAndDisputed .current firstAnchor secondAnchor ∧
      ¬ ReplacedBy threeObserved correctedAndDisputed .current secondAnchor firstAnchor ∧
        secondAnchor ∈ (resolveTemporal threeObserved [] correctedAndDisputed
          .current).occurrences.map (·.occurrence.anchorId) :=
  ⟨replaced_and_disputed.1, replaced_and_disputed.2, by decide⟩

end TraceDecay.Resolution
