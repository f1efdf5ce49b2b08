import TraceDecay.Lib.Sorting
import TraceDecay.Context.Admission

/-!
# Context.Assembly

`assemble_context_parts_with_frames`: bounds and consistency checks on the inputs, the omissions
of the bundle in their canonical order, then admission, materialization and rendering. A binary
search of the sorted available anchors is membership; allocation does not fail.
-/

namespace TraceDecay.Context

open Domain Json Sorting

def maxContextRecords : Nat := 64

def maxContextAnchors : Nat := 256

def maxContextFrameItems : Nat := 256

structure TemporalContextFrames where
  coverage : TemporalCoverageCountsV1 := {}
  conflicts : List CompactContextConflictV1 := []
  lineage : List CompactContextLineageEdgeV1 := []
  omissions : List CompactContextOmissionV1 := []
  summaryOmissions : List SummaryOmission := []

structure UnavailableItem where
  anchorId : RetrievalAnchorId
  state : HydrationStateV1

structure CompactContext where
  rendered : Text
  bundle : CompactContextBundleV1
  (accountedBytes estimatedTokens : Nat)
  estimatorVersion : String

def omissionReason : HydrationStateV1 → ContextOmissionReasonV1
  | .unauthorized => .unauthorized
  | .redacted => .redacted
  | .deleted => .deleted
  | .retentionExpired => .retentionExpired
  | .locked => .locked
  | .available | .retainedButUnavailable | .unverifiable => .unavailable

def isTerminalPrivacy : ContextOmissionReasonV1 → Bool
  | .unauthorized | .redacted | .deleted | .retentionExpired | .locked => true
  | _ => false

/-! ## Comparisons -/

def compareAnchorSets (left right : Finset RetrievalAnchorId) : Ordering :=
  compare (ascending left) (ascending right)

def compareOmissions (left right : CompactContextOmissionV1) : Ordering :=
  (compare left.anchorId right.anchorId).then (compare left.reason right.reason)

def compareConflicts (left right : CompactContextConflictV1) : Ordering :=
  (compare left.anchorId right.anchorId).then
    (compareAnchorSets left.supportingAnchorIds right.supportingAnchorIds)

def compareLineage (left right : CompactContextLineageEdgeV1) : Ordering :=
  (compare left.objectAnchorId right.objectAnchorId).then
    ((compare left.subjectAnchorId right.subjectAnchorId).then
      ((compare left.kind right.kind).then
        ((compare left.knowledgeAt right.knowledgeAt).then
          ((compare left.authority right.authority).then
            ((compare left.authorized right.authorized).then
              (compareAnchorSets left.supportingAnchorIds right.supportingAnchorIds))))))

def summaryRejectionRank : SummaryLineageRejection → Nat
  | .sessionMismatch => 0
  | .createdAfterCutoff => 1
  | .horizonAfterCutoff => 2
  | .missingValidHorizon => 3
  | .staleSource _ => 4
  | .deletedSource _ => 5
  | .redactedSource _ => 6
  | .missingSource _ => 7
  | .unauthorizedSource _ => 8
  | .lockedSource _ => 9
  | .expiredSource _ => 10
  | .unavailableSource _ => 11
  | .cycleSource _ => 12
  | .sourceBeyondKnowledgeHorizon _ => 13
  | .unknownSourceValidTime _ => 14
  | .sourceBeyondValidHorizon _ => 15
  | .missingPredecessor _ => 16
  | .ineligiblePredecessor _ => 17
  | .horizonRegression _ => 18
  | .cycle => 19

def rejectedSummaryDetailAnchor : SummaryLineageRejection → Option RetrievalAnchorId
  | .staleSource a | .deletedSource a | .redactedSource a | .missingSource a
  | .unauthorizedSource a | .lockedSource a | .expiredSource a | .unavailableSource a
  | .cycleSource a | .sourceBeyondKnowledgeHorizon a | .unknownSourceValidTime a
  | .sourceBeyondValidHorizon a => some a
  | _ => none

def summaryRejectionValue : SummaryLineageRejection → String
  | .missingPredecessor s | .ineligiblePredecessor s | .horizonRegression s => s.value
  | rejection => (rejectedSummaryDetailAnchor rejection).elim "" (·.value)

def compareSummaryOmissions (left right : SummaryOmission) : Ordering :=
  (compare left.summaryId right.summaryId).then
    ((compare left.anchorId right.anchorId).then
      ((compare (summaryRejectionRank left.rejection) (summaryRejectionRank right.rejection)).then
        (compare (summaryRejectionValue left.rejection) (summaryRejectionValue right.rejection))))

/-! ## Checks -/

variable (available : List Payload) (availableIds : List RetrievalAnchorId)
  (unavailable : List UnavailableItem) (frames : TemporalContextFrames)

def validateFrozenBounds (requestedMaxBytes : Nat) : Except ContextError Unit := do
  [(available.length, maxContextRecords, "record count"),
    (unavailable.length, maxContextAnchors, "anchor count"),
    (frames.omissions.length, maxContextFrameItems, "omission count"),
    (frames.conflicts.length, maxContextFrameItems, "conflict count"),
    (frames.lineage.length, maxContextFrameItems, "lineage count"),
    (frames.summaryOmissions.length, maxContextFrameItems, "summary omissions")].forM
      fun (count, limit, resource) =>
        if count > limit then .error (.budgetExceeded resource) else .ok ()
  let anchorCount := available.length + unavailable.length + frames.omissions.length +
    frames.conflicts.length + frames.lineage.length * 2 + frames.summaryOmissions.length * 2
  if anchorCount > maxContextAnchors then .error (.budgetExceeded "anchor count")
  else if requestedMaxBytes = 0 then .error (.budgetExceeded "byte")
  else .ok ()

def anyNeighbours {α : Type} (test : α → α → Bool) (l : List α) : Bool :=
  (l.zip l.tail).any fun (a, b) => test a b

def canonicalizeFrames : Except ContextError TemporalContextFrames := do
  let sorted : TemporalContextFrames :=
    { frames with
      omissions := sortBy compareOmissions frames.omissions
      conflicts := sortBy compareConflicts frames.conflicts
      lineage := sortBy compareLineage frames.lineage
      summaryOmissions := sortBy compareSummaryOmissions frames.summaryOmissions }
  if anyNeighbours (fun a b => compareLineage a b = .eq) sorted.lineage then
    .error (.invalidBundle "duplicate compact context lineage edge")
  else do
    validateLineageCyclesAreConflicted sorted.lineage sorted.conflicts
    .ok sorted

def terminalRejectedDetail : SummaryLineageRejection → Option RetrievalAnchorId
  | .deletedSource a | .redactedSource a | .unauthorizedSource a | .lockedSource a
  | .expiredSource a => some a
  | _ => none

def validatePrivacyAndAnchorOverlap : Except ContextError Unit :=
  if anyNeighbours (fun a b => a = b) availableIds then
    .error (.invalidBundle "duplicate available compact context anchor")
  else if unavailable.any fun item => item.anchorId ∈ availableIds then
    .error (.invalidBundle "compact context anchor is both available and unavailable")
  else if frames.omissions.any fun omission => isTerminalPrivacy omission.reason &&
      omission.anchorId.any (· ∈ availableIds) then
    .error (.invalidBundle "available compact context anchor has a terminal omission")
  else if frames.summaryOmissions.any fun omission =>
      (terminalRejectedDetail omission.rejection).any (· ∈ availableIds) then
    .error (.invalidBundle "available compact context anchor is terminally rejected")
  else .ok ()

/-! ## Omissions -/

def rejectedDetailOmissionReason : SummaryLineageRejection → ContextOmissionReasonV1
  | .unauthorizedSource _ | .sessionMismatch => .unauthorized
  | .deletedSource _ => .deleted
  | .redactedSource _ => .redacted
  | .expiredSource _ => .retentionExpired
  | .lockedSource _ => .locked
  | .unavailableSource _ => .unavailable
  | _ => .summaryHorizonMismatch

def preserveRejectedSummaryDetails (omissions : List CompactContextOmissionV1)
    (summaryOmissions : List SummaryOmission) :
    Except ContextError (List CompactContextOmissionV1) := do
  let (_, omissions) ← summaryOmissions.foldlM (fun (claimed, omissions) omission =>
      match rejectedSummaryDetailAnchor omission.rejection with
      | none => .ok (claimed, omissions)
      | some detail =>
        if detail ∈ claimed then .ok (claimed, omissions)
        else if omissions.length ≥ maxContextFrameItems then
          .error (.budgetExceeded "omission count")
        else .ok (detail :: claimed,
          omissions ++ [⟨some detail, rejectedDetailOmissionReason omission.rejection⟩]))
    (omissions.filterMap (·.anchorId), omissions)
  .ok omissions

/-- An available anchor is not named by an omission that does not protect it. -/
def clearAvailable (omission : CompactContextOmissionV1) : CompactContextOmissionV1 :=
  if !isTerminalPrivacy omission.reason && omission.anchorId.any (· ∈ availableIds) then
    { omission with anchorId := none }
  else omission

def orderContextOmissions (omissions : List CompactContextOmissionV1)
    (unavailable : List UnavailableItem) : List CompactContextOmissionV1 :=
  let hydrationPosition (omission : CompactContextOmissionV1) : Option Nat :=
    omission.anchorId.bind fun anchor => unavailable.findIdx? fun item => item.anchorId = anchor
  sortBy (fun left right =>
    match hydrationPosition left, hydrationPosition right with
    | some left, some right => compare left right
    | some _, none => .gt
    | none, some _ => .lt
    | none, none => compareOmissions left right) omissions

variable (ser : Serializer) (policy : TokenPolicy)

def baseBundle : Except ContextError CompactContextBundleV1 := do
  let withUnavailable := frames.omissions ++ unavailable.map fun item =>
    ⟨some item.anchorId, omissionReason item.state⟩
  let preserved ← preserveRejectedSummaryDetails withUnavailable frames.summaryOmissions
  let cleared := preserved.map (clearAvailable availableIds)
  .ok { omissions := orderContextOmissions cleared unavailable
        coverage := frames.coverage
        conflicts := frames.conflicts
        lineage := frames.lineage }

def assembleContextPartsWithFrames (available : List Payload) (unavailable : List UnavailableItem)
    (grain : RetrievalGrainV1) (frames : TemporalContextFrames) (budget : ContextBudget) :
    Except ContextError CompactContext := do
  validateFrozenBounds available unavailable frames budget.maxBytes
  let frames ← canonicalizeFrames frames
  let availableIds := sortBy compare (available.map (·.anchorId))
  validatePrivacyAndAnchorOverlap availableIds unavailable frames
  let base ← baseBundle availableIds unavailable frames
  let prepared ← prepareAdmission ser policy available grain base frames.summaryOmissions
    budget.estimatorVersion
  let decision ← chooseAdmission ser policy prepared budget
  let bundle := materializeAdmission base available prepared decision.admitted decision.limit
  validateBundle bundle
  let admitted := available.take decision.admitted
  let measurement ← measureContext ser policy bundle frames.summaryOmissions admitted
    budget.estimatorVersion
  if measurement.bytes ≠ decision.bytes ∨ measurement.tokens ≠ decision.tokens then
    .error (.invalidBundle "compact context admission accounting drifted")
  else do
    let rendered ← renderExact ser policy bundle frames.summaryOmissions admitted
      budget.estimatorVersion measurement.bytes
    .ok ⟨rendered, bundle, measurement.bytes, measurement.tokens, budget.estimatorVersion⟩

end TraceDecay.Context
