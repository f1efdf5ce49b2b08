import TraceDecay.Lib.OrdMap
import TraceDecay.Lib.Sorting
import TraceDecay.Domain.Session

/-!
# Composition.Types

The values composition works on (`tracedecay-domain/src/retrieval.rs`): lane batches of compact
candidates, what is kept of them when they are fused, and the profile and policy that say how.
-/

namespace TraceDecay.Composition

open Domain

abbrev SourceOccurrenceId := CanonicalString

abbrev LogicalEvidenceId := CanonicalString

abbrev FileOccurrenceId := CanonicalString

abbrev RepositoryId := CanonicalString

abbrev SessionOrThreadId := CanonicalString

abbrev LogicalCopyClusterId := CanonicalString

abbrev SourceNamespace := CanonicalString

abbrev SourceInstanceKey := CanonicalString

abbrev ScoreDomainId := CanonicalString

abbrev CalibrationProfileId := CanonicalString

abbrev FusionProfileId := CanonicalString

abbrev ComponentRevision := CanonicalString

abbrev ExactAdmissionRuleRevision := CanonicalString

abbrev AuthorizationRevision := CanonicalString

abbrev CandidateSetDigest := ManifestDigest

abbrev CursorPayloadDigest := ManifestDigest

def u32Size : Nat := 2 ^ 32

def u64Size : Nat := 2 ^ 64

/-! ## Errors -/

inductive RetrievalContractError where
  | invalidIdentity (field : String)
  | empty (field : String)
  | duplicate (field : String)
  | fixedPointOverflow (operation : String)
  | invalidCalibrationRange
  | nonCanonicalOrder (field : String)
  | mixedRetrieverBatch
  | exactClassWithoutProof
  | exactProofOutsideExactLane
  | unexpectedExactTierAdmission
  | missingOccurrenceEvidence (field : String)
  | unexpectedOccurrenceEvidence (field : String)
deriving DecidableEq

def RetrievalContractError.toString : RetrievalContractError → String
  | .invalidIdentity field => field ++ " is not a canonical identity"
  | .empty field => field ++ " must not be empty"
  | .duplicate field => field ++ " contains a duplicate identity"
  | .fixedPointOverflow operation => "fixed-point arithmetic overflowed in " ++ operation
  | .invalidCalibrationRange => "a score-domain calibration must have a positive raw score span"
  | .nonCanonicalOrder field => field ++ " is not in canonical order"
  | .mixedRetrieverBatch => "a retriever batch may contain candidates from only one lane"
  | .exactClassWithoutProof =>
    "exact-class candidates require a validated exact admission proof"
  | .exactProofOutsideExactLane =>
    "only the independent exact lane may attach an exact admission proof"
  | .unexpectedExactTierAdmission =>
    "approximate candidates cannot carry an exact-tier admission decision"
  | .missingOccurrenceEvidence field =>
    "batch evidence is missing for a returned occurrence: " ++ field
  | .unexpectedOccurrenceEvidence field => "batch evidence has no returned occurrence: " ++ field

inductive FusionStageError where
  | requiredLaneUnavailable
  | missingOccurrenceEvidence
  | fixedPointOverflow
  | profileLaneMismatch
  | duplicateLane
  | invalidCalibratedFeature
  | contract (message : String)
deriving DecidableEq

def FusionStageError.ofContract : RetrievalContractError → FusionStageError
  | .fixedPointOverflow _ => .fixedPointOverflow
  | .missingOccurrenceEvidence _ => .missingOccurrenceEvidence
  | .unexpectedOccurrenceEvidence _ => .missingOccurrenceEvidence
  | other => .contract other.toString

inductive DedupeStageError where
  | copyRelationWithoutEvidence
  | contract (message : String)
deriving DecidableEq

def DedupeStageError.toString : DedupeStageError → String
  | .copyRelationWithoutEvidence => "a logical-copy relation lacks its evidence anchor"
  | .contract message => "contract violation: " ++ message

inductive DiversityStageError where
  | capWithoutEvidenceAnchor
deriving DecidableEq

def DiversityStageError.toString : DiversityStageError → String
  | .capWithoutEvidenceAnchor => "an enabled diversity cap lacks its locked evaluation anchor"

/-! ## Lanes and roles -/

inductive RetrieverKind where
  | exactLiteral
  | lexical
  | graph
  | temporal
  | taskSession
  | diagnostic
deriving DecidableEq

theorem RetrieverKind.ctorIdx_injective : Function.Injective RetrieverKind.ctorIdx := by
  intro a b h
  cases a <;> cases b <;> first | rfl | cases h

instance : LinearOrder RetrieverKind :=
  LinearOrder.lift' RetrieverKind.ctorIdx RetrieverKind.ctorIdx_injective

def RetrieverKind.asStr : RetrieverKind → String
  | .exactLiteral => "exact_literal"
  | .lexical => "lexical"
  | .graph => "graph"
  | .temporal => "temporal"
  | .taskSession => "task_session"
  | .diagnostic => "diagnostic"

inductive FreshnessCompatibilityV1 where
  | current
  | stale
  | incompatible
  | missing
  | unknown
deriving DecidableEq

inductive EvidenceRole where
  | primary
  | corroboration
  | contradiction
  | context
deriving DecidableEq

theorem EvidenceRole.ctorIdx_injective : Function.Injective EvidenceRole.ctorIdx := by
  intro a b h
  cases a <;> cases b <;> first | rfl | cases h

instance : LinearOrder EvidenceRole :=
  LinearOrder.lift' EvidenceRole.ctorIdx EvidenceRole.ctorIdx_injective

inductive RetrievalSourceRoleV1 where
  | productionDefinition
  | productionOther
  | testReference
deriving DecidableEq

def RetrievalSourceRoleV1.admissionRank : RetrievalSourceRoleV1 → Nat
  | .productionDefinition => 0
  | .productionOther => 1
  | .testReference => 1

inductive ExactClass where
  | exactMessage
  | exactLiteralPhrase
  | approximate
deriving DecidableEq

/-- The name `Debug` prints. -/
def ExactClass.debug : ExactClass → String
  | .exactMessage => "ExactMessage"
  | .exactLiteralPhrase => "ExactLiteralPhrase"
  | .approximate => "Approximate"

/-! ## Candidates and batches -/

structure SourceFreshness where
  sourceNamespace : SourceNamespace
  sourceInstance : SourceInstanceKey
  (sourceWatermark projectionWatermark : Option Nat)
  observedAt : UtcMicros
  (sourceGeneration generationLag : Option Nat)
  compatibility : FreshnessCompatibilityV1
  policyRevision : ComponentRevision
deriving DecidableEq

structure ExactAdmissionProof where
  ruleRevision : ExactAdmissionRuleRevision
  field : ExactFieldV1
  (originalBytes canonicalBytes : List UInt8)
  normalizationSteps : List String
  scopeDigest : CandidateSetDigest
  authorizationRevision : AuthorizationRevision
  snapshotDigest : CandidateSetDigest

def ExactAdmissionProof.validate (proof : ExactAdmissionProof) :
    Except RetrievalContractError Unit :=
  if !proof.ruleRevision.validate then .error (.invalidIdentity "ExactAdmissionRuleRevision")
  else if !proof.scopeDigest.validate then .error (.invalidIdentity "CandidateSetDigest")
  else if !proof.authorizationRevision.validate then
    .error (.invalidIdentity "AuthorizationRevision")
  else if !proof.snapshotDigest.validate then .error (.invalidIdentity "CandidateSetDigest")
  else if proof.originalBytes.isEmpty then .error (.empty "exact admission original bytes")
  else if proof.canonicalBytes.isEmpty then .error (.empty "exact admission canonical bytes")
  else if proof.normalizationSteps.any fun step =>
      !isCanonicalTextWithin step.toList canonicalTextMaxBytes then
    .error (.invalidIdentity "exact admission normalization step")
  else .ok ()

structure CompactCandidate where
  anchorId : RetrievalAnchorId
  logicalEvidenceId : LogicalEvidenceId
  sourceOccurrenceId : SourceOccurrenceId
  fileOccurrenceId : Option FileOccurrenceId
  sourceNamespace : SourceNamespace
  repositoryId : Option RepositoryId
  sessionOrThreadId : Option SessionOrThreadId
  logicalCopyClusterId : Option LogicalCopyClusterId
  logicalCopyEvidenceAnchor : Option RetrievalAnchorId
  evidenceRole : EvidenceRole
  sourceRole : RetrievalSourceRoleV1
  retriever : RetrieverKind
  retrieverRevision : ComponentRevision
  scoreDomain : ScoreDomainId
  (rawScore ordinalRank : Nat)
  exactAdmissionProof : Option ExactAdmissionProof
  retrieverEvidenceAnchor : RetrievalAnchorId
  freshness : SourceFreshness

def CompactCandidate.exactClass (candidate : CompactCandidate) : ExactClass :=
  match candidate.exactAdmissionProof with
  | some proof => if proof.field = .quotedPhrase then .exactLiteralPhrase else .exactMessage
  | none => .approximate

structure RetrieverCoverage where
  (examined eligible excluded capped unknown : Nat)

structure RetrieverContinuation where
  lane : RetrieverKind
  checkpointDigest : CursorPayloadDigest
  exhausted : Bool

/-- A lane's batch. Composition keeps the occurrences evidence was given for, not the evidence. -/
structure RetrieverBatch where
  candidates : List CompactCandidate
  evidenceByOccurrence : OrdSet SourceOccurrenceId
  coverage : RetrieverCoverage
  continuation : Option RetrieverContinuation

namespace RetrieverBatch

variable (batch : RetrieverBatch)

def lane? : Option RetrieverKind :=
  (batch.candidates.head?.map (·.retriever)).or (batch.continuation.map (·.lane))

/-- The proof goes with the lane: the exact one has it, the others do not. -/
def validateProof (candidate : CompactCandidate) : Except RetrievalContractError Unit :=
  match candidate.retriever, candidate.exactAdmissionProof with
  | .exactLiteral, some proof => proof.validate
  | .exactLiteral, none => .error .exactClassWithoutProof
  | _, some _ => .error .exactProofOutsideExactLane
  | _, none => .ok ()

def validateCandidate (returned : List SourceOccurrenceId)
    (entry : CompactCandidate × Nat) : Except RetrievalContractError (List SourceOccurrenceId) :=
  let (candidate, expectedOrdinal) := entry
  if some candidate.retriever ≠ batch.lane? then .error .mixedRetrieverBatch
  else do
    validateProof candidate
    if candidate.ordinalRank ≠ expectedOrdinal % u32Size then
      .error (.nonCanonicalOrder "retriever batch candidate ordinals")
    else if candidate.sourceOccurrenceId ∈ returned then
      .error (.duplicate "retriever batch source occurrences")
    else if !batch.evidenceByOccurrence.contains candidate.sourceOccurrenceId then
      .error (.missingOccurrenceEvidence "retriever batch evidence")
    else .ok (returned ++ [candidate.sourceOccurrenceId])

def validate : Except RetrievalContractError Unit := do
  let returned ← batch.candidates.zipIdx.foldlM batch.validateCandidate []
  if batch.continuation.map (·.lane) ≠ batch.lane? ∧ batch.continuation.isSome then
    .error .mixedRetrieverBatch
  else if batch.evidenceByOccurrence.keys.any fun occurrence => occurrence ∉ returned then
    .error (.unexpectedOccurrenceEvidence "retriever batch evidence")
  else .ok ()

end RetrieverBatch

structure RetrievalBudgetUsage where
  (candidatesExamined candidatesReturned hydratedResults hydrationBytes elapsedMicros : Nat)
deriving DecidableEq

inductive RetrievalFailure where
  | candidateSourcesPruned (termSources : List (String × Nat)) (documentFrequencyBudget : Nat)
  | authorityUnavailable (detail : String)
  | graphWarming
  | incompatibleProjection (detail : String)
  | staleSource
  | invalidRequest (detail : String)
  | internal (detail : String)
deriving DecidableEq

/-- `partialBatch` is the outcome `Partial`. -/
inductive RetrieverOutcome (α : Type) where
  | complete (value : α)
  | partialBatch (value : α) (reason : RetrievalFailure)
  | unavailable (reason : RetrievalFailure)
  | denied
  | stale (freshness : SourceFreshness)
  | budgetExceeded (usage : RetrievalBudgetUsage)
  | timedOut (usage : RetrievalBudgetUsage)
  | cancelled
deriving DecidableEq

/-- `degraded` is the status `Partial`. -/
inductive PublicRetrieverStatus where
  | complete
  | degraded
  | stale
  | unavailable
deriving DecidableEq

/-! ## Fused candidates -/

structure CandidateContribution where
  retriever : RetrieverKind
  retrieverRevision : ComponentRevision
  sourceOccurrenceId : SourceOccurrenceId
  (ordinalRank rawScore : Nat)
  scoreDomain : ScoreDomainId
  calibrationProfileId : CalibrationProfileId
  (calibratedFeatureMicros weightMicros weightedContributionMicros : Nat)

structure OccurrenceProvenance where
  sourceOccurrenceId : SourceOccurrenceId
  fileOccurrenceId : Option FileOccurrenceId
  retrieverEvidenceAnchor : RetrievalAnchorId
  sourceNamespace : SourceNamespace
  repositoryId : Option RepositoryId
  sessionOrThreadId : Option SessionOrThreadId
  logicalCopyClusterId : Option LogicalCopyClusterId
  logicalCopyEvidenceAnchor : Option RetrievalAnchorId
  evidenceRole : EvidenceRole
  freshness : SourceFreshness
deriving DecidableEq

inductive RankingDecisionKind where
  | exactTierAdmission
  | sameSourceDuplicateCollapse
  | logicalCopyRepresentativeSelection
  | contradictionPreservation
  | diversityCap
  | comparatorProvenance
  | fallback
deriving DecidableEq

theorem RankingDecisionKind.ctorIdx_injective : Function.Injective RankingDecisionKind.ctorIdx := by
  intro a b h
  cases a <;> cases b <;> first | rfl | cases h

instance : LinearOrder RankingDecisionKind :=
  LinearOrder.lift' RankingDecisionKind.ctorIdx RankingDecisionKind.ctorIdx_injective

structure RankingDecision where
  kind : RankingDecisionKind
  retriever : Option RetrieverKind
  (policyAnchor evidenceAnchor : Option RetrievalAnchorId)
  detail : String
deriving DecidableEq

structure FusedCandidate where
  anchorId : RetrievalAnchorId
  logicalEvidenceId : LogicalEvidenceId
  occurrences : List OccurrenceProvenance
  exactClass : ExactClass
  sourceRole : RetrievalSourceRoleV1
  utilityMicros : Nat
  contributions : List CandidateContribution
  freshness : List SourceFreshness
  decisions : List RankingDecision

namespace FusedCandidate

/-- An exact-tier decision names the exact lane, its policy and one of the occurrences. -/
def bindsAdmission (candidate : FusedCandidate) (decision : RankingDecision) : Bool :=
  decision.retriever == some .exactLiteral && decision.policyAnchor.isSome &&
    decision.evidenceAnchor.any fun anchor =>
      candidate.occurrences.any (·.retrieverEvidenceAnchor == anchor)

def validate (candidate : FusedCandidate) : Except RetrievalContractError Unit :=
  let exactDecisions := candidate.decisions.filter (·.kind == .exactTierAdmission)
  if candidate.exactClass = .approximate then
    if exactDecisions.length ≠ 0 then .error .unexpectedExactTierAdmission else .ok ()
  else if !exactDecisions.all candidate.bindsAdmission then .error .exactClassWithoutProof
  else if exactDecisions.isEmpty then .error .exactClassWithoutProof
  else .ok ()

end FusedCandidate

structure RankedCandidate where
  candidate : FusedCandidate
  finalOrdinal : Nat

/-! ## Profiles and policies -/

structure ScoreDomainCalibrationV1 where
  calibrationProfileId : CalibrationProfileId
  scoreDomain : ScoreDomainId
  (rawMinMicros rawMaxMicros : Nat)

/-- The feature is below a million, so the conversion to `u32` never fails. -/
def ScoreDomainCalibrationV1.calibrate (calibration : ScoreDomainCalibrationV1) (rawScore : Nat) :
    Except RetrievalContractError Nat :=
  if calibration.rawMaxMicros ≤ calibration.rawMinMicros then .error .invalidCalibrationRange
  else if rawScore ≤ calibration.rawMinMicros then .ok 0
  else if calibration.rawMaxMicros ≤ rawScore then .ok 1000000
  else
    .ok ((rawScore - calibration.rawMinMicros) * 1000000 /
      (calibration.rawMaxMicros - calibration.rawMinMicros))

/-- `FixedPointScore::checked_weight`. -/
def checkedWeight (score weightMicros : Nat) : Except RetrievalContractError Nat :=
  if score * weightMicros < u64Size then .ok (score * weightMicros / 1000000)
  else .error (.fixedPointOverflow "weight")

structure FusionProfile where
  profileId : FusionProfileId
  evaluationResultAnchor : RetrievalAnchorId
  calibrations : OrdMap RetrieverKind CalibrationProfileId
  scoreDomainCalibrations : OrdMap ScoreDomainId ScoreDomainCalibrationV1
  (minimumCalibratedFeatureMicros weightsMicros : OrdMap RetrieverKind Nat)

structure DiversityPolicy where
  evaluationResultAnchor : Option RetrievalAnchorId
  (perSourceNamespace perSourceInstance perRepository perFile perSessionOrThread : Option Nat)
  (perCopyCluster perEvidenceRole : Option Nat)

end TraceDecay.Composition
