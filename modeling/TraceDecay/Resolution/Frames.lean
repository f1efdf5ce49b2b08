import TraceDecay.Context.Lineage
import TraceDecay.Resolution.EvolutionOrder

/-!
# Resolution.Frames

The lineage and the conflicts that context assembly is handed (`temporal_context_frames`), and
whether they pass its lineage rule. The rule looks at every reported edge, while the resolver marks
conflicts mode by mode and among visible anchors only; `frames_pass_lineage_rule_iff` says when the
two agree.
-/

namespace TraceDecay.Resolution

open Domain Context Relation List

/-! ## The frames -/

/-- What the frames read of a summary. -/
structure SummaryProvenance where
  summaryAnchorId : RetrievalAnchorId
  sourceAnchors : List RetrievalAnchorId
  createdAt : UtcMicros

structure TemporalContextFrames where
  conflicts : List CompactContextConflictV1
  lineage : List CompactContextLineageEdgeV1

def contextLineageKind : ResolutionLineageEdgeKind → TemporalAssertionKindV1
  | .correction => .corrects
  | .contradiction => .contradicts
  | .supersession => .supersedes

def contextLineageEdge (edge : ResolutionLineageEdge) : CompactContextLineageEdgeV1 :=
  { edge with
    kind := contextLineageKind edge.kind
    authority := edge.evidence.authority
    authorized := edge.evidence.authorized
    supportingAnchorIds := edge.evidence.supportingAnchorIds }

/-- A summary derives from each of its sources. -/
def summaryLineage (summary : SummaryProvenance) : List CompactContextLineageEdgeV1 :=
  summary.sourceAnchors.map fun source =>
    { kind := .supports
      subjectAnchorId := summary.summaryAnchorId
      objectAnchorId := source
      knowledgeAt := summary.createdAt
      authority := .immutableSummary
      authorized := true
      supportingAnchorIds := ∅ }

def temporalContextFrames (resolution : TemporalResolution) (summaries : List SummaryProvenance)
    (eligibleSummaries rankedAnchors : Finset RetrievalAnchorId) : TemporalContextFrames :=
  let lineage := (resolution.lineageEdges.filter fun edge =>
    edge.subjectAnchorId ∈ rankedAnchors || edge.objectAnchorId ∈ rankedAnchors).map
      contextLineageEdge
  let lineageAnchors := (lineage.flatMap fun edge =>
    [edge.subjectAnchorId, edge.objectAnchorId]).toFinset
  let conflicts := (resolution.occurrences.filter fun item =>
    item.conflicted && (item.occurrence.anchorId ∈ rankedAnchors ||
      item.occurrence.anchorId ∈ lineageAnchors)).map fun item =>
        ⟨item.occurrence.anchorId, item.supportingAnchorIds⟩
  let ranked := summaries.filter fun summary =>
    summary.summaryAnchorId ∈ rankedAnchors && summary.summaryAnchorId ∈ eligibleSummaries
  ⟨conflicts, lineage ++ ranked.flatMap summaryLineage⟩

/-! ## When the lineage rule passes -/

section Rule

variable (occurrences : List ResolutionOccurrence) (copies : List LogicalCopyRecordV1)
  (assertions : List ResolutionAssertion) (mode : TemporalModeV1)

/-- An assertion that is reported as lineage, from the object to the subject. -/
def Reported (rankedAnchors : Finset RetrievalAnchorId) (a b : RetrievalAnchorId) : Prop :=
  ∃ assertion ∈ eligibleAssertions occurrences assertions mode, assertion.kind ≠ .supports ∧
    (assertion.subjectAnchorId ∈ rankedAnchors ∨ assertion.objectAnchorId ∈ rankedAnchors) ∧
      assertion.objectAnchorId = a ∧ assertion.subjectAnchorId = b

/-- The mode suppresses, something suppresses the anchor, and it is in no reciprocal pair. -/
def StaysSuppressed (v : RetrievalAnchorId) : Prop :=
  suppresses mode = true ∧ (∃ a, SuppressedBy occurrences assertions mode a v) ∧
    ¬ ReplacedEachOther occurrences assertions mode v

/-- The anchor has an eligible occurrence that is neither suppressed nor a collapsed copy. -/
def Visible (v : RetrievalAnchorId) : Prop :=
  ¬ StaysSuppressed occurrences assertions mode v ∧
    ∃ occurrence ∈ eligibleOccurrences occurrences mode, occurrence.anchorId = v ∧
      (resolving occurrences copies assertions mode).collapses occurrence = false

/-- The anchor is an endpoint of an eligible contradiction. -/
def Contradicted (v : RetrievalAnchorId) : Prop :=
  ∃ assertion ∈ eligibleAssertions occurrences assertions mode, assertion.kind = .contradicts ∧
    (v = assertion.subjectAnchorId ∨ v = assertion.objectAnchorId)

/-- What each mode takes for a conflict. -/
def InConflict (v : RetrievalAnchorId) : Prop :=
  if suppresses mode = true then
    Disputed (byAnchorOf occurrences mode) (supportOf occurrences assertions mode)
      (eligibleAssertions occurrences assertions mode) v ∨
        ReplacedEachOther occurrences assertions mode v
  else Contradicted occurrences assertions mode v ∨ mode = .evolution ∧
    OnSuccessionCycle (Visible occurrences copies assertions mode)
      (eligibleAssertions occurrences assertions mode) v

variable {occurrences copies assertions mode} {v : RetrievalAnchorId}

theorem mem_resolving_suppressed :
    v ∈ (resolving occurrences copies assertions mode).relations.suppressedAnchors ↔
      StaysSuppressed occurrences assertions mode v := by
  by_cases hm : suppresses mode = true
  · exact (relations_suppressed hm).trans (and_iff_right hm).symm
  have he : (resolving occurrences copies assertions mode).relations.suppressedAnchors = ∅ := by
    simp only [resolving, relations, if_neg hm]
    exact Folds.foldl_inv (I := fun s : Relations => s.suppressedAnchors = ∅)
      (f := fun s (a : ResolutionAssertion) =>
        s.conflict a.subjectAnchorId a.objectAnchorId) (s := {})
      (fun _ _ h => h) rfl _
  simp [he, StaysSuppressed, hm]

theorem isShown_iff {o : ResolutionOccurrence} :
    (resolving occurrences copies assertions mode).isShown o = true ↔
      ¬ StaysSuppressed occurrences assertions mode o.anchorId ∧
        (resolving occurrences copies assertions mode).collapses o = false := by
  rw [Resolving.isShown, Bool.and_eq_true, decide_eq_true_eq, mem_resolving_suppressed,
    Bool.not_eq_true']

variable {x : ResolvedOccurrence} {edge : ResolutionLineageEdge} {a : ResolutionAssertion}

theorem mem_shown : x ∈ shown occurrences copies assertions mode ↔
      ∃ o ∈ eligibleOccurrences occurrences mode,
        (¬ StaysSuppressed occurrences assertions mode o.anchorId ∧
          (resolving occurrences copies assertions mode).collapses o = false) ∧
            (resolving occurrences copies assertions mode).resolved o = x := by
  simp only [shown, mem_map, mem_filter, isShown_iff, and_assoc]

theorem shown_conflicted (hx : x ∈ shown occurrences copies assertions mode) :
    Visible occurrences copies assertions mode x.occurrence.anchorId ∧
      (x.conflicted = true ↔ x.occurrence.anchorId ∈
        (resolving occurrences copies assertions mode).relations.conflictAnchors) := by
  obtain ⟨occurrence, hmem, ⟨hk, hown⟩, rfl⟩ := mem_shown.mp hx
  exact ⟨⟨hk, occurrence, hmem, rfl, hown⟩, decide_eq_true_iff⟩

theorem exists_shown (hv : Visible occurrences copies assertions mode v) :
    ∃ x ∈ shown occurrences copies assertions mode, x.occurrence.anchorId = v := by
  obtain ⟨hk, occurrence, hmem, rfl, hown⟩ := hv
  exact ⟨_, mem_shown.mpr ⟨occurrence, hmem, ⟨hk, hown⟩, rfl⟩, rfl⟩

theorem mem_keys_itemsByAnchor :
    v ∈ (itemsByAnchor (shown occurrences copies assertions mode)).keys ↔
      Visible occurrences copies assertions mode v := by
  refine OrdMap.mem_keys.trans (OrdMap.contains_ofList.trans ?_)
  simp only [List.map_map, mem_map, Function.comp_apply]
  constructor
  · rintro ⟨x, hx, rfl⟩; exact (shown_conflicted hx).1
  · exact exists_shown

theorem inConflict_iff : InConflict occurrences copies assertions mode v ↔
      v ∈ (resolving occurrences copies assertions mode).relations.conflictAnchors ∨
        mode = .evolution ∧ OnSuccessionCycle (Visible occurrences copies assertions mode)
          (eligibleAssertions occurrences assertions mode) v := by
  rw [InConflict]
  split_ifs with hm
  · refine (relations_conflicts hm).symm.trans (or_iff_left ?_).symm; rintro ⟨rfl, -⟩; cases hm
  · simp only [resolving, relations, if_neg hm]
    refine or_congr_left (Iff.symm ((Folds.foldl_iff_exists
      (p := fun s : Relations => v ∈ s.conflictAnchors)
      (q := fun a => v = a.subjectAnchorId ∨ v = a.objectAnchorId) (fun s a => ?_) _ _).trans ?_))
    · simp only [Relations.conflict, Finset.mem_insert]
      tauto
    · simp [Contradicted, and_assoc]

theorem resolved_conflicted :
    (∃ x ∈ (resolveTemporal occurrences copies assertions mode).occurrences,
      x.occurrence.anchorId = v ∧ x.conflicted = true) ↔
        Visible occurrences copies assertions mode v ∧
          InConflict occurrences copies assertions mode v := by
  rw [resolveTemporal_occurrences, inConflict_iff]
  split_ifs with hm
  · rw [orderEvolution_conflicted, funext fun a => propext mem_keys_itemsByAnchor]
    constructor
    · rintro ⟨y, hy, hwhy⟩
      obtain ⟨hs, rfl⟩ := of_find?_itemsByAnchor hy
      obtain ⟨hvis, hf⟩ := shown_conflicted hs
      exact ⟨hvis, hwhy.imp hf.mp fun hc => ⟨hm, hc⟩⟩
    · rintro ⟨hvis, hwhy⟩
      obtain ⟨y, hy⟩ := Option.isSome_iff_exists.mp
        (OrdMap.mem_keys.mp (mem_keys_itemsByAnchor.mpr hvis))
      refine ⟨y, hy, hwhy.imp (fun hv => ?_) And.right⟩
      obtain ⟨hs, rfl⟩ := of_find?_itemsByAnchor hy
      exact (shown_conflicted hs).2.mpr hv
  · simp only [(Sorting.sortBy_perm _ _).mem_iff, hm, false_and, or_false]
    constructor
    · rintro ⟨x, hx, rfl, hf⟩; exact ⟨(shown_conflicted hx).1, (shown_conflicted hx).2.mp hf⟩
    · rintro ⟨hvis, hv⟩
      obtain ⟨x, hx, rfl⟩ := exists_shown hvis
      exact ⟨x, hx, rfl, (shown_conflicted hx).2.mpr hv⟩

theorem mem_lineageEdges :
    edge ∈ (resolveTemporal occurrences copies assertions mode).lineageEdges ↔
      ∃ a ∈ eligibleAssertions occurrences assertions mode, lineageEdge a = some edge := by
  unfold resolveTemporal
  split <;> rw [(Sorting.sortBy_perm _ _).mem_iff, mem_filterMap]

theorem lineageEdge_eq_some (h : lineageEdge a = some edge) :
    a.kind ≠ .supports ∧ edge.subjectAnchorId = a.subjectAnchorId ∧
      edge.objectAnchorId = a.objectAnchorId := by
  obtain ⟨kind, hk, rfl⟩ := Option.map_eq_some_iff.mp h
  refine ⟨fun hs => ?_, rfl, rfl⟩
  rw [hs] at hk; cases hk

theorem exists_lineageEdge (h : a.kind ≠ .supports) : ∃ edge, lineageEdge a = some edge := by
  unfold lineageEdge
  cases hk : a.kind with
  | corrects | supersedes | contradicts => exact ⟨_, rfl⟩
  | supports => exact absurd hk h

variable {rankedAnchors : Finset RetrievalAnchorId}

theorem frames_lineage_step :
    LineageStep (temporalContextFrames (resolveTemporal occurrences copies assertions mode) [] ∅
        rankedAnchors).lineage = Reported occurrences assertions mode rankedAnchors := by
  funext a b
  refine propext ⟨?_, ?_⟩
  · rintro ⟨_, hmem, rfl, rfl⟩
    simp only [temporalContextFrames, filter_nil, flatMap_nil, append_nil,
      mem_map, mem_filter] at hmem
    obtain ⟨edge, ⟨he, hr⟩, rfl⟩ := hmem
    obtain ⟨assertion, ha, hl⟩ := mem_lineageEdges.mp he
    obtain ⟨hk, hs, ho⟩ := lineageEdge_eq_some hl
    simp only [Bool.or_eq_true, decide_eq_true_eq, hs, ho] at hr
    exact ⟨assertion, ha, hk, hr, ho.symm, hs.symm⟩
  · rintro ⟨assertion, ha, hk, hr, rfl, rfl⟩
    obtain ⟨edge, hl⟩ := exists_lineageEdge hk
    obtain ⟨-, hs, ho⟩ := lineageEdge_eq_some hl
    refine ⟨contextLineageEdge edge, ?_, ho, hs⟩
    simp only [temporalContextFrames, filter_nil, flatMap_nil, append_nil,
      mem_map, mem_filter, Bool.or_eq_true, decide_eq_true_eq]
    refine ⟨edge, ⟨mem_lineageEdges.mpr ⟨assertion, ha, hl⟩, ?_⟩, rfl⟩
    rw [hs, ho]; exact hr

theorem mem_frames_conflicts (hv : ∃ a, Reported occurrences assertions mode rankedAnchors a v) :
    v ∈ (temporalContextFrames (resolveTemporal occurrences copies assertions mode) [] ∅
        rankedAnchors).conflicts.map (·.anchorId) ↔
      ∃ x ∈ (resolveTemporal occurrences copies assertions mode).occurrences,
        x.occurrence.anchorId = v ∧ x.conflicted = true := by
  simp only [temporalContextFrames, List.map_map, mem_map, mem_filter,
    Bool.and_eq_true, Function.comp_apply]
  constructor
  · rintro ⟨x, ⟨hx, hf, -⟩, rfl⟩; exact ⟨x, hx, rfl, hf⟩
  · rintro ⟨x, hx, rfl, hf⟩
    refine ⟨x, ⟨hx, hf, ?_⟩, rfl⟩
    rw [← @frames_lineage_step _ copies] at hv
    obtain ⟨a, edge, hmem, -, hs⟩ := hv
    simp only [temporalContextFrames, filter_nil, flatMap_nil, append_nil] at hmem
    rw [Bool.or_eq_true, decide_eq_true_eq, decide_eq_true_eq, mem_toFinset, mem_flatMap]
    exact .inr ⟨edge, hmem, hs ▸ mem_cons_self⟩

/-- The lineage rule accepts what the resolver reports exactly when every anchor on a reported cycle
is visible and in conflict in the sense of the mode. -/
theorem frames_pass_lineage_rule_iff
    (hself : ∀ assertion ∈ assertions, assertion.subjectAnchorId ≠ assertion.objectAnchorId) :
    validateLineageCyclesAreConflicted
        (temporalContextFrames (resolveTemporal occurrences copies assertions mode) [] ∅
          rankedAnchors).lineage
        (temporalContextFrames (resolveTemporal occurrences copies assertions mode) [] ∅
          rankedAnchors).conflicts = .ok () ↔
      ∀ v, TransGen (Reported occurrences assertions mode rankedAnchors) v v →
        Visible occurrences copies assertions mode v ∧
          InConflict occurrences copies assertions mode v := by
  rw [validateLineageCyclesAreConflicted_ok, frames_lineage_step]
  · refine forall_congr' fun v => imp_congr_right fun hc => ?_
    obtain ⟨a, -, hav⟩ := TransGen.tail'_iff.mp hc
    rw [mem_frames_conflicts ⟨a, hav⟩, resolved_conflicted]
  · intro edge he
    have hstep : LineageStep _ edge.objectAnchorId edge.subjectAnchorId := ⟨edge, he, rfl, rfl⟩
    rw [frames_lineage_step] at hstep
    obtain ⟨assertion, ha, -, -, ho, hs⟩ := hstep
    rw [← ho, ← hs]; exact hself assertion (mem_of_mem_filter ha)

end Rule

/-- The first occurrence has the stronger evidence. -/
def firstStronger : List ResolutionOccurrence :=
  [⟨firstId, firstAnchor, 0, .known 0, ⟨.providerNative, true, ∅⟩⟩, observedAt secondId secondAnchor]

/-- The first corrects the second, and the second tries to correct the first. -/
def correctedBack : List ResolutionAssertion :=
  [asserted .corrects firstAnchor secondAnchor, asserted .corrects secondAnchor firstAnchor]

theorem frames_pass_lineage_rule_iff_corrected_back :
    (∀ assertion ∈ correctedBack, assertion.subjectAnchorId ≠ assertion.objectAnchorId) ∧
      (validateLineageCyclesAreConflicted
          (temporalContextFrames (resolveTemporal firstStronger [] correctedBack .current) [] ∅
            {firstAnchor}).lineage
          (temporalContextFrames (resolveTemporal firstStronger [] correctedBack .current) [] ∅
            {firstAnchor}).conflicts = .ok () ↔
        ∀ v, TransGen (Reported firstStronger correctedBack .current {firstAnchor}) v v →
          Visible firstStronger [] correctedBack .current v ∧
            InConflict firstStronger [] correctedBack .current v) :=
  ⟨by decide, frames_pass_lineage_rule_iff (by decide)⟩

/-- A correction that succeeds and one back that fails: only the first occurrence is visible, it is
ranked, both edges are reported, and the suppressed end of the cycle is no reported conflict. -/
theorem corrected_back_refused :
    (resolveTemporal firstStronger [] correctedBack .current).occurrences.map
        (·.occurrence.anchorId) = [firstAnchor] ∧
      validateLineageCyclesAreConflicted
        (temporalContextFrames (resolveTemporal firstStronger [] correctedBack .current) [] ∅
          {firstAnchor}).lineage
        (temporalContextFrames (resolveTemporal firstStronger [] correctedBack .current) [] ∅
          {firstAnchor}).conflicts ≠ .ok () := by
  refine ⟨by decide, ?_⟩
  rw [Ne, validateLineageCyclesAreConflicted_ok (by decide), frames_lineage_step]
  intro h
  have hf : Reported firstStronger correctedBack .current {firstAnchor} secondAnchor
      firstAnchor := ⟨asserted .corrects firstAnchor secondAnchor, by decide⟩
  have hb : Reported firstStronger correctedBack .current {firstAnchor} firstAnchor
      secondAnchor := ⟨asserted .corrects secondAnchor firstAnchor, by decide⟩
  exact absurd (h secondAnchor (.tail (.single hf) hb)) (by decide)

end TraceDecay.Resolution
