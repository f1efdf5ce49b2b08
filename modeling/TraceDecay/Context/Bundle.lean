import Mathlib.Data.Finset.Sort
import TraceDecay.Lib.Json
import TraceDecay.Domain.Session
import TraceDecay.Context.Estimation

/-!
# Context.Bundle

The compact-context contracts (`session/context.rs`, `resolution/summary.rs`) and their canonical
rendering: `render` of each type is what its derived serializer writes, fields in declaration
order. A `BTreeSet` of anchors is a `Finset`, written in ascending order.
-/

namespace TraceDecay.Context

open Domain Json

inductive ContextOmissionReasonV1 where
  | byteBudget
  | tokenBudget
  | unauthorized
  | redacted
  | deleted
  | retentionExpired
  | locked
  | unavailable
  | summaryHorizonMismatch
  | duplicateRepresentative
  | rootContinuationUnavailable
deriving DecidableEq, Ord

def ContextOmissionReasonV1.asStr : ContextOmissionReasonV1 → String
  | .byteBudget => "byte_budget"
  | .tokenBudget => "token_budget"
  | .unauthorized => "unauthorized"
  | .redacted => "redacted"
  | .deleted => "deleted"
  | .retentionExpired => "retention_expired"
  | .locked => "locked"
  | .unavailable => "unavailable"
  | .summaryHorizonMismatch => "summary_horizon_mismatch"
  | .duplicateRepresentative => "duplicate_representative"
  | .rootContinuationUnavailable => "root_continuation_unavailable"

structure TemporalCoverageCountsV1 where
  visible : Nat := 0
  hidden : Nat := 0
  unknown : Nat := 0
  redacted : Nat := 0

structure CompactContextRecordV1 where
  anchorId : RetrievalAnchorId
  grain : RetrievalGrainV1
  hydration : HydrationStateV1
  encodedBytes : Nat

structure CompactContextOmissionV1 where
  anchorId : Option RetrievalAnchorId
  reason : ContextOmissionReasonV1

structure CompactContextConflictV1 where
  anchorId : RetrievalAnchorId
  supportingAnchorIds : Finset RetrievalAnchorId

structure CompactContextLineageEdgeV1 where
  kind : TemporalAssertionKindV1
  (subjectAnchorId objectAnchorId : RetrievalAnchorId)
  knowledgeAt : UtcMicros
  authority : SessionAuthorityClassV1
  authorized : Bool
  supportingAnchorIds : Finset RetrievalAnchorId

structure CompactContextBundleV1 where
  records : List CompactContextRecordV1 := []
  omissions : List CompactContextOmissionV1 := []
  continuationAnchors : List RetrievalAnchorId := []
  coverage : TemporalCoverageCountsV1 := {}
  conflicts : List CompactContextConflictV1 := []
  lineage : List CompactContextLineageEdgeV1 := []
  encodedBytes : Nat := 0

inductive SummaryLineageRejection where
  | sessionMismatch
  | createdAfterCutoff
  | horizonAfterCutoff
  | missingValidHorizon
  | staleSource (anchorId : RetrievalAnchorId)
  | deletedSource (anchorId : RetrievalAnchorId)
  | redactedSource (anchorId : RetrievalAnchorId)
  | missingSource (anchorId : RetrievalAnchorId)
  | unauthorizedSource (anchorId : RetrievalAnchorId)
  | lockedSource (anchorId : RetrievalAnchorId)
  | expiredSource (anchorId : RetrievalAnchorId)
  | unavailableSource (anchorId : RetrievalAnchorId)
  | cycleSource (anchorId : RetrievalAnchorId)
  | sourceBeyondKnowledgeHorizon (anchorId : RetrievalAnchorId)
  | unknownSourceValidTime (anchorId : RetrievalAnchorId)
  | sourceBeyondValidHorizon (anchorId : RetrievalAnchorId)
  | missingPredecessor (predecessorSummaryId : SessionSummaryIdV1)
  | ineligiblePredecessor (predecessorSummaryId : SessionSummaryIdV1)
  | horizonRegression (predecessorSummaryId : SessionSummaryIdV1)
  | cycle
deriving DecidableEq

structure SummaryOmission where
  summaryId : SessionSummaryIdV1
  anchorId : RetrievalAnchorId
  rejection : SummaryLineageRejection
deriving DecidableEq

/-! ## Rendering -/

def renderName (name : String) : Text := Json.string name.toList

def renderAnchor (anchor : RetrievalAnchorId) : Text := Json.string anchor.chars

/-- The order in which a set of anchors is iterated. -/
def ascending (anchors : Finset RetrievalAnchorId) : List RetrievalAnchorId := anchors.sort (· ≤ ·)

def renderAnchors (anchors : Finset RetrievalAnchorId) : Text :=
  Json.array ((ascending anchors).map renderAnchor)

def CompactContextRecordV1.render (r : CompactContextRecordV1) : Text :=
  Json.object [("anchor_id", renderAnchor r.anchorId), ("grain", renderName r.grain.asStr),
    ("hydration", renderName r.hydration.asStr), ("encoded_bytes", Json.number r.encodedBytes)]

def CompactContextOmissionV1.render (o : CompactContextOmissionV1) : Text :=
  Json.object [("anchor_id", o.anchorId.elim Json.null renderAnchor),
    ("reason", renderName o.reason.asStr)]

def TemporalCoverageCountsV1.render (c : TemporalCoverageCountsV1) : Text :=
  Json.object [("visible", Json.number c.visible), ("hidden", Json.number c.hidden),
    ("unknown", Json.number c.unknown), ("redacted", Json.number c.redacted)]

def CompactContextConflictV1.render (c : CompactContextConflictV1) : Text :=
  Json.object [("anchor_id", renderAnchor c.anchorId),
    ("supporting_anchor_ids", renderAnchors c.supportingAnchorIds)]

def CompactContextLineageEdgeV1.render (e : CompactContextLineageEdgeV1) : Text :=
  Json.object [("kind", renderName e.kind.asStr),
    ("subject_anchor_id", renderAnchor e.subjectAnchorId),
    ("object_anchor_id", renderAnchor e.objectAnchorId),
    ("knowledge_at", Json.number e.knowledgeAt), ("authority", renderName e.authority.asStr),
    ("authorized", Json.bool e.authorized),
    ("supporting_anchor_ids", renderAnchors e.supportingAnchorIds)]

def CompactContextBundleV1.render (b : CompactContextBundleV1) : Text :=
  Json.object [("records", Json.array (b.records.map (·.render))),
    ("omissions", Json.array (b.omissions.map (·.render))),
    ("continuation_anchors", Json.array (b.continuationAnchors.map renderAnchor)),
    ("coverage", b.coverage.render),
    ("conflicts", Json.array (b.conflicts.map (·.render))),
    ("lineage", Json.array (b.lineage.map (·.render))),
    ("encoded_bytes", Json.number b.encodedBytes)]

/-- A variant without fields is its name, one with a field an object under its name. -/
def SummaryLineageRejection.render : SummaryLineageRejection → Text
  | .sessionMismatch => renderName "SessionMismatch"
  | .createdAfterCutoff => renderName "CreatedAfterCutoff"
  | .horizonAfterCutoff => renderName "HorizonAfterCutoff"
  | .missingValidHorizon => renderName "MissingValidHorizon"
  | .staleSource a => variant "StaleSource" "anchor_id" a
  | .deletedSource a => variant "DeletedSource" "anchor_id" a
  | .redactedSource a => variant "RedactedSource" "anchor_id" a
  | .missingSource a => variant "MissingSource" "anchor_id" a
  | .unauthorizedSource a => variant "UnauthorizedSource" "anchor_id" a
  | .lockedSource a => variant "LockedSource" "anchor_id" a
  | .expiredSource a => variant "ExpiredSource" "anchor_id" a
  | .unavailableSource a => variant "UnavailableSource" "anchor_id" a
  | .cycleSource a => variant "CycleSource" "anchor_id" a
  | .sourceBeyondKnowledgeHorizon a => variant "SourceBeyondKnowledgeHorizon" "anchor_id" a
  | .unknownSourceValidTime a => variant "UnknownSourceValidTime" "anchor_id" a
  | .sourceBeyondValidHorizon a => variant "SourceBeyondValidHorizon" "anchor_id" a
  | .missingPredecessor s => variant "MissingPredecessor" "predecessor_summary_id" s
  | .ineligiblePredecessor s => variant "IneligiblePredecessor" "predecessor_summary_id" s
  | .horizonRegression s => variant "HorizonRegression" "predecessor_summary_id" s
  | .cycle => renderName "Cycle"
where
  variant (name field : String) (id : CanonicalString) : Text :=
    Json.object [(name, Json.object [(field, renderAnchor id)])]

def SummaryOmission.render (o : SummaryOmission) : Text :=
  Json.object [("summary_id", renderAnchor o.summaryId), ("anchor_id", renderAnchor o.anchorId),
    ("rejection", o.rejection.render)]

end TraceDecay.Context
