import Mathlib.Data.Prod.Lex
import TraceDecay.Composition.Types

/-!
# Composition.Fusion

Admission of the lanes and fixed-point fusion of their compact candidates (`fusion.rs`,
`ordering.rs`). Every lane comes once, every batch is valid and of its own lane. The candidates of
one anchor and logical evidence become one fused candidate, which keeps every contribution; the
fused candidates are put in their final order once, and each records what it was compared by.
-/

namespace TraceDecay.Composition

open Domain Sorting

structure CompositionLaneInput where
  lane : RetrieverKind
  outcome : RetrieverOutcome RetrieverBatch

structure FusionStageInput where
  profile : FusionProfile
  lanes : List CompositionLaneInput

structure AdmittedLanes where
  candidates : List CompactCandidate
  internalLaneOutcomes : OrdMap RetrieverKind (RetrieverOutcome Unit)
  publicLaneStatuses : OrdMap RetrieverKind PublicRetrieverStatus
  freshness : List SourceFreshness
  laneCheckpoints : List RetrieverContinuation

def unitOutcome : RetrieverOutcome RetrieverBatch → RetrieverOutcome Unit
  | .complete _ => .complete ()
  | .partialBatch _ reason => .partialBatch () reason
  | .unavailable reason => .unavailable reason
  | .denied => .denied
  | .stale freshness => .stale freshness
  | .budgetExceeded usage => .budgetExceeded usage
  | .timedOut usage => .timedOut usage
  | .cancelled => .cancelled

def publicStatus : RetrieverOutcome RetrieverBatch → PublicRetrieverStatus
  | .complete _ => .complete
  | .partialBatch _ _ => .degraded
  | .budgetExceeded _ => .degraded
  | .stale _ => .stale
  | .unavailable _ => .unavailable
  | .denied => .unavailable
  | .timedOut _ => .unavailable
  | .cancelled => .unavailable

def batch? : RetrieverOutcome RetrieverBatch → Option RetrieverBatch
  | .complete batch => some batch
  | .partialBatch batch _ => some batch
  | _ => none

def freshnessCmp (left right : SourceFreshness) : Ordering :=
  (compare left.sourceNamespace right.sourceNamespace).then <|
  (compare left.sourceInstance right.sourceInstance).then <|
  (compare left.sourceGeneration right.sourceGeneration).then <|
  (compare left.projectionWatermark right.projectionWatermark).then <|
  compare left.policyRevision right.policyRevision

def checkpointCmp (left right : RetrieverContinuation) : Ordering :=
  (compare left.lane right.lane).then (compare left.checkpointDigest right.checkpointDigest)

structure LaneTotals where
  seen : OrdSet RetrieverKind
  candidates : List CompactCandidate
  internalLaneOutcomes : OrdMap RetrieverKind (RetrieverOutcome Unit)
  publicLaneStatuses : OrdMap RetrieverKind PublicRetrieverStatus
  freshness : List SourceFreshness
  laneCheckpoints : List RetrieverContinuation

def LaneTotals.empty : LaneTotals := ⟨.empty, [], .empty, .empty, [], []⟩

/-- A batch goes in when it is valid and all of it is of the lane it came on. -/
def admitBatch (totals : LaneTotals) (lane : RetrieverKind) (batch : RetrieverBatch) :
    Except FusionStageError LaneTotals := do
  batch.validate.mapError .ofContract
  if batch.candidates.any (·.retriever ≠ lane) then
    .error (.contract "lane key does not match batch candidates")
  else
    .ok { totals with
      candidates := totals.candidates ++ batch.candidates
      freshness := totals.freshness ++ batch.candidates.map (·.freshness)
      laneCheckpoints := totals.laneCheckpoints ++ batch.continuation.toList }

def admitLane (required : List RetrieverKind) (totals : LaneTotals)
    (input : CompositionLaneInput) : Except FusionStageError LaneTotals :=
  if totals.seen.contains input.lane then .error .duplicateLane
  else
    let totals := { totals with
      seen := totals.seen.insert input.lane ()
      internalLaneOutcomes := totals.internalLaneOutcomes.insert input.lane
        (unitOutcome input.outcome)
      publicLaneStatuses := totals.publicLaneStatuses.insert input.lane
        (publicStatus input.outcome) }
    match batch? input.outcome with
    | some batch => admitBatch totals input.lane batch
    | none =>
      if input.lane ∈ required then .error .requiredLaneUnavailable else .ok totals

def FusionProfile.lanes (profile : FusionProfile) : List RetrieverKind :=
  profile.calibrations.keys ++ profile.minimumCalibratedFeatureMicros.keys ++
    profile.weightsMicros.keys

def admittedLanes (input : FusionStageInput) (required : List RetrieverKind) :
    Except FusionStageError AdmittedLanes := do
  let totals ← input.lanes.foldlM (admitLane required) .empty
  if required.any fun lane => !totals.seen.contains lane then .error .requiredLaneUnavailable
  else if input.profile.lanes.any fun lane => !totals.seen.contains lane then
    .error .profileLaneMismatch
  else
    .ok { totals with
      freshness := dedup (sortBy freshnessCmp totals.freshness)
      laneCheckpoints := sortBy checkpointCmp totals.laneCheckpoints }

/-! ## Comparators -/

def compactCandidateCmp (left right : CompactCandidate) : Ordering :=
  (compare left.anchorId right.anchorId).then <|
  (compare left.logicalEvidenceId right.logicalEvidenceId).then <|
  (compare left.sourceOccurrenceId right.sourceOccurrenceId).then <|
  (compare left.retriever right.retriever).then <|
  (compare left.retrieverEvidenceAnchor right.retrieverEvidenceAnchor).then <|
  compare left.logicalCopyEvidenceAnchor right.logicalCopyEvidenceAnchor

def occurrenceCmp (left right : OccurrenceProvenance) : Ordering :=
  (compare left.sourceOccurrenceId right.sourceOccurrenceId).then <|
  (compare left.retrieverEvidenceAnchor right.retrieverEvidenceAnchor).then <|
  compare left.logicalCopyEvidenceAnchor right.logicalCopyEvidenceAnchor

def contributionCmp (left right : CandidateContribution) : Ordering :=
  (compare left.retriever right.retriever).then <|
  (compare left.ordinalRank right.ordinalRank).then <|
  (compare left.sourceOccurrenceId right.sourceOccurrenceId).then <|
  compare left.scoreDomain right.scoreDomain

def decisionCmp (left right : RankingDecision) : Ordering :=
  (compare left.kind right.kind).then <|
  (compare left.retriever right.retriever).then <|
  (compare left.policyAnchor right.policyAnchor).then <|
  (compare left.evidenceAnchor right.evidenceAnchor).then <|
  compare left.detail right.detail

def exactClassRank : ExactClass → Nat
  | .exactMessage => 0
  | .exactLiteralPhrase => 1
  | .approximate => 2

def compatibilityRank : FreshnessCompatibilityV1 → Nat
  | .current => 4
  | .unknown => 3
  | .stale => 2
  | .missing => 1
  | .incompatible => 0

variable (candidate : FusedCandidate)

def sourceValidityRank : Nat :=
  (candidate.freshness.map fun freshness => compatibilityRank freshness.compatibility).foldl max 0

def domainScoreCmp (left right : RetrieverKind × ScoreDomainId × Nat) : Ordering :=
  (compare left.1 right.1).then <| (compare left.2.1 right.2.1).then <| compare right.2.2 left.2.2

def orderedDomainScores : List (RetrieverKind × ScoreDomainId × Nat) :=
  let scores := (candidate.contributions.filter (0 < ·.weightMicros)).map fun contribution =>
    (contribution.retriever, contribution.scoreDomain, contribution.rawScore)
  dedup (sortBy domainScoreCmp scores)

def orderedRetrieverEvidenceAnchors : List RetrievalAnchorId :=
  dedup (sortBy compare (candidate.occurrences.map (·.retrieverEvidenceAnchor)))

def orderedOccurrenceIds : List SourceOccurrenceId :=
  dedup (sortBy compare (candidate.occurrences.map (·.sourceOccurrenceId)))

def compareFused (left right : FusedCandidate) : Ordering :=
  (compare (exactClassRank left.exactClass) (exactClassRank right.exactClass)).then <|
  (compare left.sourceRole.admissionRank right.sourceRole.admissionRank).then <|
  (compare right.utilityMicros left.utilityMicros).then <|
  (compare (sourceValidityRank right) (sourceValidityRank left)).then <|
  (List.compareLex domainScoreCmp (orderedDomainScores left) (orderedDomainScores right)).then <|
  (List.compareLex compare (orderedRetrieverEvidenceAnchors left)
    (orderedRetrieverEvidenceAnchors right)).then <|
  List.compareLex compare (orderedOccurrenceIds left) (orderedOccurrenceIds right)

/-! ## Fusing -/

def strongestExactClass (left right : ExactClass) : ExactClass :=
  if exactClassRank left ≤ exactClassRank right then left else right

def occurrenceFrom (candidate : CompactCandidate) : OccurrenceProvenance := { candidate with }

variable (profile : FusionProfile)

/-- The contribution of a candidate, or none when its feature is below the floor of its lane. -/
def contributionOf (candidate : CompactCandidate) :
    Except FusionStageError (Option CandidateContribution) := do
  let calibrationProfileId ← (profile.calibrations.find? candidate.retriever).elim
    (.error .profileLaneMismatch) .ok
  let weightMicros ← (profile.weightsMicros.find? candidate.retriever).elim
    (.error .profileLaneMismatch) .ok
  let calibration ← (profile.scoreDomainCalibrations.find? candidate.scoreDomain).elim
    (.error .profileLaneMismatch) .ok
  if calibration.calibrationProfileId ≠ calibrationProfileId ∨
      calibration.scoreDomain ≠ candidate.scoreDomain then .error .profileLaneMismatch
  else do
    let calibratedFeatureMicros ← (calibration.calibrate candidate.rawScore).mapError .ofContract
    let minimum := (profile.minimumCalibratedFeatureMicros.find? candidate.retriever).getD 0
    if 1000000 < minimum then .error .invalidCalibratedFeature
    else if calibratedFeatureMicros < minimum then .ok none
    else do
      let weighted ← (checkedWeight calibratedFeatureMicros weightMicros).mapError .ofContract
      .ok (some { candidate with
        calibrationProfileId
        calibratedFeatureMicros
        weightMicros
        weightedContributionMicros := weighted })

def FusedCandidate.start (candidate : CompactCandidate) : FusedCandidate :=
  { candidate with
    occurrences := []
    exactClass := candidate.exactClass
    utilityMicros := 0
    contributions := []
    freshness := []
    decisions := [] }

def exactTierDecision (candidate : CompactCandidate) : List RankingDecision :=
  if candidate.exactClass = .approximate then []
  else [{
    kind := .exactTierAdmission
    retriever := some .exactLiteral
    policyAnchor := some profile.evaluationResultAnchor
    evidenceAnchor := some candidate.retrieverEvidenceAnchor
    detail := "validated exact admission proof" }]

def FusedCandidate.absorb (candidate : CompactCandidate) (contribution : CandidateContribution)
    (entry : FusedCandidate) : FusedCandidate :=
  { entry with
    exactClass := strongestExactClass entry.exactClass candidate.exactClass
    sourceRole :=
      if candidate.sourceRole.admissionRank < entry.sourceRole.admissionRank then
        candidate.sourceRole
      else entry.sourceRole
    occurrences := entry.occurrences ++ [occurrenceFrom candidate]
    contributions := entry.contributions ++ [contribution]
    freshness := entry.freshness ++ [candidate.freshness]
    decisions := entry.decisions ++ exactTierDecision profile candidate }

abbrev FusedKey := RetrievalAnchorId ×ₗ LogicalEvidenceId

def fuseCandidate (fused : OrdMap FusedKey FusedCandidate)
    (candidate : CompactCandidate) : Except FusionStageError (OrdMap FusedKey FusedCandidate) := do
  match ← contributionOf profile candidate with
  | none => .ok fused
  | some contribution =>
    .ok <| fused.upsert (toLex (candidate.anchorId, candidate.logicalEvidenceId)) fun entry =>
      (entry.getD (.start candidate)).absorb profile candidate contribution

def checkedAdd (left right : Nat) : Except FusionStageError Nat :=
  if left + right < u64Size then .ok (left + right) else .error .fixedPointOverflow

/-- Utility is the sum over lanes of each lane's strongest weighted contribution. -/
def laneSaturatedUtilityMicros (contributions : List CandidateContribution) :
    Except FusionStageError Nat :=
  let strongestByLane : OrdMap RetrieverKind Nat := contributions.foldl
    (fun strongest contribution => strongest.upsert contribution.retriever fun micros =>
      max (micros.getD 0) contribution.weightedContributionMicros) .empty
  strongestByLane.values.foldlM checkedAdd 0

def FusedCandidate.finish : Except FusionStageError FusedCandidate := do
  let utilityMicros ← laneSaturatedUtilityMicros candidate.contributions
  let candidate := { candidate with
    utilityMicros
    occurrences := dedup (sortBy occurrenceCmp candidate.occurrences)
    contributions := sortBy contributionCmp candidate.contributions
    freshness := dedup (sortBy freshnessCmp candidate.freshness)
    decisions := dedup (sortBy decisionCmp candidate.decisions) }
  candidate.validate.mapError .ofContract
  .ok candidate

def fuseCompact (candidates : List CompactCandidate) :
    Except FusionStageError (List FusedCandidate) := do
  let fused ← (sortBy compactCandidateCmp candidates).foldlM (fuseCandidate profile) .empty
  fused.values.mapM FusedCandidate.finish

/-! ## The final order -/

structure FusionComparatorRecordV1 where
  anchorTier : Nat
  exactClass : ExactClass
  (sourceRoleRank utilityMicros sourceValidityRank : Nat)
  anchorId : RetrievalAnchorId
  logicalEvidenceId : LogicalEvidenceId
  domainScores : List (RetrieverKind × ScoreDomainId × Nat)
  retrieverEvidenceAnchors : List RetrievalAnchorId
  sourceOccurrenceIds : List SourceOccurrenceId
  comparatorRevision : ComponentRevision

abbrev AnchorTiers := OrdMap RetrievalAnchorId Nat

def anchorTier (tiers : AnchorTiers) (candidate : FusedCandidate) : Nat :=
  (tiers.find? candidate.anchorId).getD 0

def orderedFusedCandidates (candidates : List FusedCandidate) (tiers : AnchorTiers) :
    List FusedCandidate :=
  sortBy (fun left right => (compare (anchorTier tiers right) (anchorTier tiers left)).then
    (compareFused left right)) candidates

def comparatorRecord (revision : ComponentRevision) (candidate : FusedCandidate)
    (anchorTier : Nat) : FusionComparatorRecordV1 :=
  { candidate with
    anchorTier
    sourceRoleRank := candidate.sourceRole.admissionRank
    sourceValidityRank := sourceValidityRank candidate
    domainScores := orderedDomainScores candidate
    retrieverEvidenceAnchors := orderedRetrieverEvidenceAnchors candidate
    sourceOccurrenceIds := orderedOccurrenceIds candidate
    comparatorRevision := revision }

def commaSeparated (values : List String) : String := String.intercalate "," values

def FusionComparatorRecordV1.detail (record : FusionComparatorRecordV1) : String :=
  let scores := commaSeparated <| record.domainScores.map fun (retriever, domain, score) =>
    retriever.asStr ++ ":" ++ domain.value ++ ":" ++ toString score
  let anchors := commaSeparated (record.retrieverEvidenceAnchors.map (·.value))
  let occurrences := commaSeparated (record.sourceOccurrenceIds.map (·.value))
  "anchor_tier=" ++ toString record.anchorTier ++ ";exact=" ++ record.exactClass.debug ++
    ";source_role=" ++ toString record.sourceRoleRank ++ ";utility=" ++
    toString record.utilityMicros ++ ";source_validity=" ++ toString record.sourceValidityRank ++
    ";domain_scores=[" ++ scores ++ "];evidence_anchors=[" ++ anchors ++ "];occurrences=[" ++
    occurrences ++ "];revision=" ++ record.comparatorRevision.value

def FusedCandidate.withDecision (decision : RankingDecision) : FusedCandidate :=
  { candidate with decisions := sortBy decisionCmp (candidate.decisions ++ [decision]) }

def comparatorProvenance (record : FusionComparatorRecordV1) : RankingDecision where
  kind := .comparatorProvenance
  retriever := none
  policyAnchor := none
  evidenceAnchor := candidate.occurrences.head?.map (·.retrieverEvidenceAnchor)
  detail := record.detail

def orderFused (revision : ComponentRevision) (candidates : List FusedCandidate)
    (tiers : AnchorTiers) : List FusedCandidate × List FusionComparatorRecordV1 :=
  List.unzip <| (orderedFusedCandidates candidates tiers).map fun candidate =>
    let record := comparatorRecord revision candidate (anchorTier tiers candidate)
    (candidate.withDecision (comparatorProvenance candidate record), record)

end TraceDecay.Composition
