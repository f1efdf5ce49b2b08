import Mathlib.Data.Prod.Lex
import TraceDecay.Context.Bundle
import TraceDecay.Lib.OrdMap

/-!
# Resolution.Summary

Which session summaries may take part in an answer (`resolution/summary.rs`), and what is published
of those that may not (`public_summary_omissions` in `lib.rs`). A summary is rejected for a reason of
its own, or for the chain of its predecessors.
-/

namespace TraceDecay.Resolution

open Domain Context

structure SummarySourceHorizonV1 where
  knowledgeThrough : UtcMicros
  validThrough : Option UtcMicros
deriving DecidableEq

/-- The fields that eligibility reads. -/
structure SessionSummaryRecordV1 where
  summaryId : SessionSummaryIdV1
  sessionId : SessionId
  summaryAnchorId : RetrievalAnchorId
  sourceAnchors : List RetrievalAnchorId
  sourceHorizon : SummarySourceHorizonV1
  createdAt : UtcMicros
  predecessorSummaryId : Option SessionSummaryIdV1
deriving DecidableEq

inductive SummarySourceState where
  | covered (knowledgeAt : UtcMicros) (validTime : TemporalValidityV1)
  | stale
  | deleted
  | redacted
  | missing
  | unauthorized
  | locked
  | expired
  | unavailable
  | cycle

abbrev Rejections := OrdMap SessionSummaryIdV1 SummaryLineageRejection

/-! ## A summary's own rejection -/

def summaryRejectionOrder : SummaryLineageRejection → Nat ×ₗ Nat ×ₗ String
  | .unauthorizedSource a => order 0 0 a.value
  | .sessionMismatch => order 0 1 ""
  | .redactedSource a => order 1 0 a.value
  | .deletedSource a => order 1 1 a.value
  | .expiredSource a => order 1 2 a.value
  | .lockedSource a => order 2 0 a.value
  | .unavailableSource a => order 3 0 a.value
  | .cycleSource a => order 3 1 a.value
  | .missingSource a => order 3 2 a.value
  | .staleSource a => order 4 0 a.value
  | .sourceBeyondKnowledgeHorizon a => order 5 0 a.value
  | .unknownSourceValidTime a => order 5 1 a.value
  | .sourceBeyondValidHorizon a => order 5 2 a.value
  | .createdAfterCutoff => order 6 0 ""
  | .horizonAfterCutoff => order 6 1 ""
  | .missingValidHorizon => order 6 2 ""
  | .missingPredecessor p => order 7 0 p.value
  | .ineligiblePredecessor p => order 7 1 p.value
  | .horizonRegression p => order 7 2 p.value
  | .cycle => order 7 3 ""
where
  order (privacy kind : Nat) (identity : String) : Nat ×ₗ Nat ×ₗ String :=
    toLex (privacy, toLex (kind, identity))

def preferSummaryRejection (current : Option SummaryLineageRejection)
    (candidate : SummaryLineageRejection) : Option SummaryLineageRejection :=
  match current with
  | none => some candidate
  | some existing =>
    if summaryRejectionOrder candidate < summaryRejectionOrder existing then some candidate
    else some existing

variable (summary : SessionSummaryRecordV1)

/-- What the cutoff of the mode says against the summary. -/
def cutoffRejection : TemporalModeV1 → Option SummaryLineageRejection
  | .asOf cutoff =>
    let rejection :=
      if summary.createdAt > cutoff then preferSummaryRejection none .createdAfterCutoff else none
    match summary.sourceHorizon.validThrough with
    | none => preferSummaryRejection rejection .missingValidHorizon
    | some validThrough =>
      if summary.sourceHorizon.knowledgeThrough > cutoff || validThrough > cutoff then
        preferSummaryRejection rejection .horizonAfterCutoff
      else rejection
  | .current | .evolution | .forensic => none

/-- What the state of one source says against the summary. -/
def sourceCandidate (horizon : SummarySourceHorizonV1) (anchorId : RetrievalAnchorId) :
    SummarySourceState → Option SummaryLineageRejection
  | .covered knowledgeAt validTime =>
    if knowledgeAt > horizon.knowledgeThrough then some (.sourceBeyondKnowledgeHorizon anchorId)
    else
      match validTime, horizon.validThrough with
      | .known validAt, some validThrough =>
        if validAt ≤ validThrough then none else some (.sourceBeyondValidHorizon anchorId)
      | _, _ => none
  | .stale => some (.staleSource anchorId)
  | .deleted => some (.deletedSource anchorId)
  | .redacted => some (.redactedSource anchorId)
  | .missing => some (.missingSource anchorId)
  | .unauthorized => some (.unauthorizedSource anchorId)
  | .locked => some (.lockedSource anchorId)
  | .expired => some (.expiredSource anchorId)
  | .unavailable => some (.unavailableSource anchorId)
  | .cycle => some (.cycleSource anchorId)

def summarySourceRejection (sourceStates : OrdMap RetrievalAnchorId SummarySourceState)
    (sessionId : SessionId) (mode : TemporalModeV1) : Option SummaryLineageRejection :=
  if summary.sessionId ≠ sessionId then some .sessionMismatch
  else
    summary.sourceAnchors.foldl (fun rejection anchorId =>
      match sourceCandidate summary.sourceHorizon anchorId
        ((sourceStates.find? anchorId).getD .missing) with
      | some candidate => preferSummaryRejection rejection candidate
      | none => rejection) (cutoffRejection summary mode)

/-! ## The chain of predecessors -/

/-- Later in the order of options, in which `None` is the least. -/
def later : Option UtcMicros → Option UtcMicros → Bool
  | some a, some b => a > b
  | some _, none => true
  | none, _ => false

def regresses (cursor predecessor : SessionSummaryRecordV1) : Bool :=
  predecessor.sourceHorizon.knowledgeThrough > cursor.sourceHorizon.knowledgeThrough ||
    later predecessor.sourceHorizon.validThrough cursor.sourceHorizon.validThrough

abbrev SummariesById := OrdMap SessionSummaryIdV1 SessionSummaryRecordV1

/-- The first walk: whether the chain comes back to a summary it has passed. -/
def chainReturns (byId : SummariesById) :
    Nat → Finset SessionSummaryIdV1 → SessionSummaryRecordV1 → Bool
  | 0, _, _ => false
  | fuel + 1, visited, cursor =>
    match cursor.predecessorSummaryId with
    | none => false
    | some p =>
      if p ∈ visited then true
      else
        match byId.find? p with
        | none => false
        | some predecessor => chainReturns byId fuel (insert p visited) predecessor

/-- The second walk: the first obstacle on the chain. -/
def chainObstacle (byId : SummariesById) (localRejections : Rejections) :
    Nat → Finset SessionSummaryIdV1 → SessionSummaryRecordV1 → Option SummaryLineageRejection
  | 0, _, _ => none
  | fuel + 1, visited, cursor =>
    match cursor.predecessorSummaryId with
    | none => none
    | some p =>
      if p ∈ visited then some .cycle
      else
        match byId.find? p with
        | none => some (.missingPredecessor p)
        | some predecessor =>
          if localRejections.contains p then some (.ineligiblePredecessor p)
          else if regresses cursor predecessor then some (.horizonRegression p)
          else chainObstacle byId localRejections fuel (insert p visited) predecessor

/-- Every turn of a walk but the last passes a summary of the map. -/
def summaryChainRejection (byId : SummariesById)
    (localRejections : Rejections) : Option SummaryLineageRejection :=
  let fuel := byId.keys.length + 1
  if chainReturns byId fuel {summary.summaryId} summary then some .cycle
  else chainObstacle byId localRejections fuel {summary.summaryId} summary

/-! ## Eligibility -/

structure SummaryLineageEligibility where
  eligibleAnchorIds : Finset RetrievalAnchorId
  suppressedSummaryIds : Finset SessionSummaryIdV1
  rejections : Rejections
  omissions : List SummaryOmission

/-- The pairs a loop over the summaries inserts. -/
def rejectionEntries (f : SessionSummaryRecordV1 → Option SummaryLineageRejection)
    (summaries : List SessionSummaryRecordV1) :
    List (SessionSummaryIdV1 × SummaryLineageRejection) :=
  summaries.filterMap fun summary => (f summary).map fun rejection => (summary.summaryId, rejection)

section
variable (summaries : List SessionSummaryRecordV1)
  (sourceStates : OrdMap RetrievalAnchorId SummarySourceState) (sessionId : SessionId)
  (mode : TemporalModeV1)

def byIdOf : SummariesById := .ofList (summaries.map fun summary => (summary.summaryId, summary))

def localRejectionsOf : Rejections :=
  .ofList (rejectionEntries (summarySourceRejection · sourceStates sessionId mode) summaries)

def rejectionsOf : Rejections :=
  let localRejections := localRejectionsOf summaries sourceStates sessionId mode
  (rejectionEntries (fun summary =>
    if localRejections.contains summary.summaryId then none
    else summaryChainRejection summary (byIdOf summaries) localRejections) summaries).foldl
      (fun rejections entry => rejections.insert entry.1 entry.2) localRejections

def eligibleIdsOf (rejections : Rejections) : Finset SessionSummaryIdV1 :=
  ((summaries.filter fun summary => !rejections.contains summary.summaryId).map
    (·.summaryId)).toFinset

def suppressedIdsOf (eligibleIds : Finset SessionSummaryIdV1) : Finset SessionSummaryIdV1 :=
  if mode = .current then
    (((summaries.filter (·.summaryId ∈ eligibleIds)).filterMap
      (·.predecessorSummaryId)).filter (· ∈ eligibleIds)).toFinset
  else ∅

def evaluateSummaryLineageEligibility : SummaryLineageEligibility :=
  let rejections := rejectionsOf summaries sourceStates sessionId mode
  let eligibleIds := eligibleIdsOf summaries rejections
  let suppressedSummaryIds := suppressedIdsOf summaries mode eligibleIds
  { eligibleAnchorIds := ((summaries.filter fun summary =>
      summary.summaryId ∈ eligibleIds && summary.summaryId ∉ suppressedSummaryIds).map
        (·.summaryAnchorId)).toFinset
    suppressedSummaryIds
    rejections
    omissions := summaries.filterMap fun summary =>
      (rejections.find? summary.summaryId).map fun rejection =>
        ⟨summary.summaryId, summary.summaryAnchorId, rejection⟩ }

end

/-! ## What is published -/

inductive SummaryRejectionClass where
  | unauthorized
  | sessionMismatch
  | redacted
  | unknown
deriving DecidableEq

def SummaryRejectionClass.hidesDetails : SummaryRejectionClass → Bool
  | .unauthorized | .sessionMismatch => true
  | .redacted | .unknown => false

/-- The loop over the links; every turn but the last passes a rejection of the map. -/
def rejectionClass (rejections : Rejections) :
    Nat → Finset SessionSummaryIdV1 → SummaryLineageRejection → SummaryRejectionClass
  | 0, _, _ => .unknown
  | fuel + 1, visited, rejection =>
    match rejection with
    | .unauthorizedSource _ => .unauthorized
    | .sessionMismatch => .sessionMismatch
    | .deletedSource _ | .redactedSource _ | .expiredSource _ => .redacted
    | .ineligiblePredecessor p =>
      if p ∈ visited then .unknown
      else
        match rejections.find? p with
        | none => .unknown
        | some rejection => rejectionClass rejections fuel (insert p visited) rejection
    | _ => .unknown

def summaryRejectionClass (rejection : SummaryLineageRejection) (rejections : Rejections) :
    SummaryRejectionClass := rejectionClass rejections (rejections.keys.length + 2) ∅ rejection

def publicSummaryOmissions (eligibility : SummaryLineageEligibility) : List SummaryOmission :=
  eligibility.omissions.filter fun omission =>
    !(summaryRejectionClass omission.rejection eligibility.rejections).hidesDetails

def summaryRejectionReason : SummaryLineageRejection → ContextOmissionReasonV1
  | .unauthorizedSource _ | .sessionMismatch => .unauthorized
  | .deletedSource _ => .deleted
  | .redactedSource _ => .redacted
  | .expiredSource _ => .retentionExpired
  | _ => .summaryHorizonMismatch

/-- The omissions of the frames. -/
def publicOmissions (eligibility : SummaryLineageEligibility) : List CompactContextOmissionV1 :=
  (publicSummaryOmissions eligibility).map fun omission =>
    ⟨some omission.anchorId, summaryRejectionReason omission.rejection⟩

end TraceDecay.Resolution
