import TraceDecay.Composition.Fusion

/-!
# Composition.Selection

What of the candidates is ranked (`dedupe.rs`, `diversity.rs`). Rows of one source occurrence are
recorded as collapsed before fusion; of the fused candidates one per logical-copy cluster is kept,
and the caps of the policy are applied in the order of the rest. The composition kernel
(`compose_required` in `fusion.rs`) runs the stages one after another.
-/

namespace TraceDecay.Composition

open Domain Sorting

structure DedupeDecisionV1 where
  keptOccurrence : SourceOccurrenceId
  collapsedOccurrences : List SourceOccurrenceId
  collapsedCandidates : List FusedCandidate
  copyCluster : Option LogicalCopyClusterId
  decision : RankingDecision

/-! ## Rows of one source -/

def collapseCmp (left right : CompactCandidate) : Ordering :=
  (compare left.sourceOccurrenceId right.sourceOccurrenceId).then <|
  (compare left.retrieverEvidenceAnchor right.retrieverEvidenceAnchor).then <|
  (compare left.anchorId right.anchorId).then <|
  (compare left.logicalEvidenceId right.logicalEvidenceId).then <|
  compare left.retriever right.retriever

/-- The same occurrence and evidence, from whatever retriever. -/
def sameSource (first candidate : CompactCandidate) : Bool :=
  candidate.sourceOccurrenceId == first.sourceOccurrenceId &&
    candidate.retrieverEvidenceAnchor == first.retrieverEvidenceAnchor &&
    candidate.anchorId == first.anchorId &&
    candidate.logicalEvidenceId == first.logicalEvidenceId

def collapseDecision (selected : CompactCandidate) (duplicates : List CompactCandidate) :
    List DedupeDecisionV1 :=
  if duplicates.isEmpty then []
  else [{
    keptOccurrence := selected.sourceOccurrenceId
    collapsedOccurrences := duplicates.map (·.sourceOccurrenceId)
    collapsedCandidates := []
    copyCluster := selected.logicalCopyClusterId
    decision := {
      kind := .sameSourceDuplicateCollapse
      retriever := none
      policyAnchor := none
      evidenceAnchor := some selected.retrieverEvidenceAnchor
      detail := "collapsed " ++ toString duplicates.length ++ " duplicate occurrence rows for " ++
        selected.sourceOccurrenceId.value ++ "; retained every retriever contribution" } }]

/-- The groups of the sorted rows, one after the other; `fuel` is the number of rows. -/
def collapseDecisions : Nat → List CompactCandidate → List DedupeDecisionV1
  | 0, _ => []
  | _, [] => []
  | fuel + 1, first :: rest =>
    collapseDecision first (rest.takeWhile (sameSource first)) ++
      collapseDecisions fuel (rest.dropWhile (sameSource first))

def collapseCompactCandidates (candidates : List CompactCandidate) :
    List CompactCandidate × List DedupeDecisionV1 :=
  let sorted := sortBy collapseCmp candidates
  (sorted, collapseDecisions sorted.length sorted)

def noFusedCandidate : FusionStageError :=
  .contract "same-source collapse decision lost its fused candidate"

variable (candidates : List FusedCandidate)

/-- The first candidate that has the occurrence a decision kept. -/
def decisionTarget (recorded : DedupeDecisionV1) : Except FusionStageError Nat :=
  match recorded.decision.evidenceAnchor with
  | none => .error noFusedCandidate
  | some anchor =>
    (candidates.findIdx? fun candidate => candidate.occurrences.any fun occurrence =>
      occurrence.sourceOccurrenceId == recorded.keptOccurrence &&
        occurrence.retrieverEvidenceAnchor == anchor).elim (.error noFusedCandidate) .ok

def attachDecision (entry : DedupeDecisionV1 × Nat) : List FusedCandidate :=
  candidates.modify entry.2 fun candidate =>
    { candidate with
      decisions := dedup (sortBy decisionCmp (candidate.decisions ++ [entry.1.decision])) }

def attachSameSourceDecisions
    (decisions : List DedupeDecisionV1) : Except FusionStageError (List FusedCandidate) := do
  let targets ← decisions.mapM (decisionTarget candidates)
  .ok ((decisions.zip targets).foldl attachDecision candidates)

/-! ## Logical copies -/

/-- The candidate, with its contradiction recorded, and the cluster of a plain copy. -/
def copyClusterMember (candidate : FusedCandidate) :
    Except DedupeStageError (FusedCandidate × Option LogicalCopyClusterId) :=
  let clusterIds := OrdSet.ofList (candidate.occurrences.filterMap (·.logicalCopyClusterId))
  if candidate.occurrences.any fun occurrence =>
      occurrence.logicalCopyClusterId.isSome && occurrence.logicalCopyEvidenceAnchor.isNone then
    .error .copyRelationWithoutEvidence
  else if 1 < clusterIds.keys.length then
    .error (.contract "one fused candidate spans multiple logical-copy clusters")
  else if candidate.occurrences.any (·.evidenceRole == .contradiction) then
    match candidate.occurrences.head? with
    | none => .error .copyRelationWithoutEvidence
    | some occurrence =>
      .ok (candidate.withDecision {
        kind := .contradictionPreservation
        retriever := none
        policyAnchor := none
        evidenceAnchor := some occurrence.retrieverEvidenceAnchor
        detail := "preserved admitted contradiction" }, none)
  else if candidate.occurrences.any (·.evidenceRole == .corroboration) then .ok (candidate, none)
  else .ok (candidate, clusterIds.keys.head?)

/-- A cluster: its first member and the copies after it, each with its place in the order. The
source keeps the places alone and looks the candidates up. -/
structure CopyCluster where
  representative : FusedCandidate × Nat
  copies : List (FusedCandidate × Nat)

def joinCluster (clusters : OrdMap LogicalCopyClusterId CopyCluster)
    (entry : (FusedCandidate × Option LogicalCopyClusterId) × Nat) :
    OrdMap LogicalCopyClusterId CopyCluster :=
  let ((candidate, member), index) := entry
  match member with
  | none => clusters
  | some cluster => clusters.upsert cluster fun
    | none => ⟨(candidate, index), []⟩
    | some joined => { joined with copies := joined.copies ++ [(candidate, index)] }

def copyDecision (entry : LogicalCopyClusterId × CopyCluster) :
    Except DedupeStageError DedupeDecisionV1 := do
  let (cluster, ⟨(representative, _), copies⟩) := entry
  let evidenceAnchor ← (representative.occurrences.findSome? (·.logicalCopyEvidenceAnchor)).elim
    (.error .copyRelationWithoutEvidence) .ok
  let kept ← representative.occurrences.head?.elim (.error .copyRelationWithoutEvidence) .ok
  .ok {
    keptOccurrence := kept.sourceOccurrenceId
    collapsedOccurrences := copies.flatMap fun copy => copy.1.occurrences.map (·.sourceOccurrenceId)
    collapsedCandidates := copies.map Prod.fst
    copyCluster := some cluster
    decision := {
      kind := .logicalCopyRepresentativeSelection
      retriever := none
      policyAnchor := none
      evidenceAnchor := some evidenceAnchor
      detail := "selected " ++ representative.anchorId.value ++ " from logical-copy cluster " ++
        cluster.value ++ "; collapsed [" ++
        commaSeparated (copies.map fun copy => copy.1.anchorId.value) ++ "]" } }

/-- A candidate that no decision took, with the decision it represents its cluster by. -/
def survivor (decided : List ((LogicalCopyClusterId × CopyCluster) × DedupeDecisionV1))
    (entry : FusedCandidate × Nat) : Option FusedCandidate :=
  if decided.any fun d => d.1.2.copies.any (·.2 == entry.2) then none
  else
    match decided.find? (·.1.2.representative.2 == entry.2) with
    | none => some entry.1
    | some d => some (entry.1.withDecision d.2.decision)

def selectRepresentativesWithDecisions :
    Except DedupeStageError (List FusedCandidate × List DedupeDecisionV1) := do
  let members ← candidates.mapM copyClusterMember
  let clusters := members.zipIdx.foldl joinCluster .empty
  let copied := clusters.entries.filter fun entry => !entry.2.copies.isEmpty
  let decisions ← copied.mapM copyDecision
  .ok ((members.map Prod.fst).zipIdx.filterMap (survivor (copied.zip decisions)), decisions)

/-! ## Caps -/

structure DiversityDecisionV1 where
  capped : List RetrievalAnchorId
  decision : RankingDecision

def isProtected (candidate : FusedCandidate) : Bool :=
  candidate.exactClass != .approximate ||
    candidate.occurrences.any (·.evidenceRole == .contradiction)

section Dimension
variable {κ : Type} [LinearOrder κ]

def enabledKeys (cap : Option Nat) (occurrences : List OccurrenceProvenance)
    (key : OccurrenceProvenance → Option κ) : List κ :=
  if cap.isNone then [] else (OrdSet.ofList (occurrences.filterMap key)).keys

def anyReached (counts : OrdMap κ Nat) (keys : List κ) (cap : Option Nat) : Bool :=
  cap.any fun cap => keys.any fun key => decide (cap ≤ (counts.find? key).getD 0)

def incrementAll (counts : OrdMap κ Nat) (keys : List κ) : OrdMap κ Nat :=
  keys.foldl (fun counts key => counts.upsert key fun count => count.getD 0 + 1) counts

end Dimension

structure CandidateCapKeys where
  namespaces : List SourceNamespace
  instances : List SourceInstanceKey
  repositories : List RepositoryId
  files : List FileOccurrenceId
  sessions : List SessionOrThreadId
  copyClusters : List LogicalCopyClusterId
  evidenceRoles : List EvidenceRole

variable (policy : DiversityPolicy)

def CandidateCapKeys.derive (candidate : FusedCandidate) : CandidateCapKeys :=
  let occurrences := candidate.occurrences
  { namespaces := enabledKeys policy.perSourceNamespace occurrences fun o => some o.sourceNamespace
    instances :=
      enabledKeys policy.perSourceInstance occurrences fun o => some o.freshness.sourceInstance
    repositories := enabledKeys policy.perRepository occurrences (·.repositoryId)
    files := enabledKeys policy.perFile occurrences (·.fileOccurrenceId)
    sessions := enabledKeys policy.perSessionOrThread occurrences (·.sessionOrThreadId)
    copyClusters := enabledKeys policy.perCopyCluster occurrences (·.logicalCopyClusterId)
    evidenceRoles := enabledKeys policy.perEvidenceRole occurrences fun o => some o.evidenceRole }

structure CapCounters where
  namespaces : OrdMap SourceNamespace Nat
  instances : OrdMap SourceInstanceKey Nat
  repositories : OrdMap RepositoryId Nat
  files : OrdMap FileOccurrenceId Nat
  sessions : OrdMap SessionOrThreadId Nat
  copyClusters : OrdMap LogicalCopyClusterId Nat
  evidenceRoles : OrdMap EvidenceRole Nat

namespace CapCounters

def empty : CapCounters := ⟨.empty, .empty, .empty, .empty, .empty, .empty, .empty⟩

def reachedCaps (counters : CapCounters) (policy : DiversityPolicy) (keys : CandidateCapKeys) :
    List String :=
  let dimensions := [
    (anyReached counters.namespaces keys.namespaces policy.perSourceNamespace, "source_namespace"),
    (anyReached counters.instances keys.instances policy.perSourceInstance, "source_instance"),
    (anyReached counters.repositories keys.repositories policy.perRepository, "repository"),
    (anyReached counters.files keys.files policy.perFile, "file"),
    (anyReached counters.sessions keys.sessions policy.perSessionOrThread, "session_or_thread"),
    (anyReached counters.copyClusters keys.copyClusters policy.perCopyCluster,
      "logical_copy_cluster"),
    (anyReached counters.evidenceRoles keys.evidenceRoles policy.perEvidenceRole, "evidence_role")]
  (dimensions.filter Prod.fst).map Prod.snd

def admitKeys (counters : CapCounters) (keys : CandidateCapKeys) : CapCounters where
  namespaces := incrementAll counters.namespaces keys.namespaces
  instances := incrementAll counters.instances keys.instances
  repositories := incrementAll counters.repositories keys.repositories
  files := incrementAll counters.files keys.files
  sessions := incrementAll counters.sessions keys.sessions
  copyClusters := incrementAll counters.copyClusters keys.copyClusters
  evidenceRoles := incrementAll counters.evidenceRoles keys.evidenceRoles

end CapCounters

def capDecision (candidate : FusedCandidate) (dimensions : List String) : DiversityDecisionV1 where
  capped := [candidate.anchorId]
  decision := {
    kind := .diversityCap
    retriever := none
    policyAnchor := policy.evaluationResultAnchor
    evidenceAnchor := candidate.occurrences.head?.map (·.retrieverEvidenceAnchor)
    detail := "capped by " ++ commaSeparated dimensions }

/-- Protected evidence passes and is not counted; any other candidate passes while none of the caps
of its keys is used up. -/
def capCandidates (policy : DiversityPolicy) :
    CapCounters → List FusedCandidate → List FusedCandidate × List DiversityDecisionV1
  | _, [] => ([], [])
  | counters, candidate :: rest =>
    if isProtected candidate then
      let (admitted, decisions) := capCandidates policy counters rest
      (candidate :: admitted, decisions)
    else
      let keys := CandidateCapKeys.derive policy candidate
      let dimensions := counters.reachedCaps policy keys
      if dimensions.isEmpty then
        let (admitted, decisions) := capCandidates policy (counters.admitKeys keys) rest
        (candidate :: admitted, decisions)
      else
        let (admitted, decisions) := capCandidates policy counters rest
        (admitted, capDecision policy candidate dimensions :: decisions)

def DiversityPolicy.enabled : Bool :=
  [policy.perSourceNamespace, policy.perSourceInstance, policy.perRepository, policy.perFile,
    policy.perSessionOrThread, policy.perCopyCluster, policy.perEvidenceRole].any Option.isSome

def applyCaps (candidates : List FusedCandidate) :
    Except DiversityStageError (List RankedCandidate × List DiversityDecisionV1) :=
  if policy.enabled && policy.evaluationResultAnchor.isNone then .error .capWithoutEvidenceAnchor
  else
    let (admitted, decisions) :=
      if policy.enabled then capCandidates policy .empty candidates else (candidates, [])
    .ok (admitted.zipIdx.map fun (candidate, ordinal) => ⟨candidate, ordinal % u32Size⟩, decisions)

/-! ## The kernel -/

structure CompositionKernel where
  rankingRevision : ComponentRevision

structure CompositionOutputV1 where
  profileId : FusionProfileId
  rankedCandidates : List RankedCandidate
  comparatorRecords : List FusionComparatorRecordV1
  internalLaneOutcomes : OrdMap RetrieverKind (RetrieverOutcome Unit)
  publicLaneStatuses : OrdMap RetrieverKind PublicRetrieverStatus
  freshness : List SourceFreshness
  laneCheckpoints : List RetrieverContinuation
  dedupeDecisions : List DedupeDecisionV1
  diversityDecisions : List DiversityDecisionV1

/-- One forward pass over the records finds that of each ranked candidate. -/
def rankedComparatorRecords : List RankedCandidate → List FusionComparatorRecordV1 →
    Except FusionStageError (List FusionComparatorRecordV1)
  | [], _ => .ok []
  | ranked :: rest, records =>
    let found := records.dropWhile fun record =>
      !(record.anchorId == ranked.candidate.anchorId &&
        record.logicalEvidenceId == ranked.candidate.logicalEvidenceId)
    match found with
    | [] => .error (.contract "a ranked candidate lost its comparator record")
    | record :: records => do
      let others ← rankedComparatorRecords rest records
      .ok (record :: others)

/-- What the candidates of all lanes come to. -/
structure Ranking where
  rankedCandidates : List RankedCandidate
  comparatorRecords : List FusionComparatorRecordV1
  dedupeDecisions : List DedupeDecisionV1
  diversityDecisions : List DiversityDecisionV1

/-- The stages of `compose_required` after the lanes are admitted. -/
def CompositionKernel.rank (kernel : CompositionKernel) (profile : FusionProfile)
    (policy : DiversityPolicy) (tiers : AnchorTiers) (candidates : List CompactCandidate) :
    Except FusionStageError Ranking := do
  let (compact, dedupeDecisions) := collapseCompactCandidates candidates
  let fused ← fuseCompact profile compact
  let attached ← attachSameSourceDecisions fused dedupeDecisions
  let (ordered, records) := orderFused kernel.rankingRevision attached tiers
  let (deduped, copyDecisions) ←
    (selectRepresentativesWithDecisions ordered).mapError fun error => .contract error.toString
  let (ranked, diversityDecisions) ←
    (applyCaps policy deduped).mapError fun error => .contract error.toString
  let comparatorRecords ← rankedComparatorRecords ranked records
  .ok ⟨ranked, comparatorRecords, dedupeDecisions ++ copyDecisions, diversityDecisions⟩

def CompositionKernel.composeRequired (kernel : CompositionKernel) (input : FusionStageInput)
    (policy : DiversityPolicy) (required : List RetrieverKind) (tiers : AnchorTiers) :
    Except FusionStageError CompositionOutputV1 := do
  let admitted ← admittedLanes input required
  let ranking ← kernel.rank input.profile policy tiers admitted.candidates
  .ok { admitted, ranking with profileId := input.profile.profileId }

end TraceDecay.Composition
