import TraceDecay.Domain.Text

/-!
# Domain.Session

The closed vocabularies of the session contracts (`session/occurrence.rs`, `session/context.rs`),
with the snake-case names they are written under. Declaration order is the derived order.
-/

namespace TraceDecay.Domain

/-- Microseconds from the Unix epoch. -/
abbrev UtcMicros := Int

inductive HydrationStateV1 where
  | available
  | retainedButUnavailable
  | redacted
  | deleted
  | retentionExpired
  | unauthorized
  | locked
  | unverifiable
deriving DecidableEq, Ord

def HydrationStateV1.asStr : HydrationStateV1 → String
  | .available => "available"
  | .retainedButUnavailable => "retained_but_unavailable"
  | .redacted => "redacted"
  | .deleted => "deleted"
  | .retentionExpired => "retention_expired"
  | .unauthorized => "unauthorized"
  | .locked => "locked"
  | .unverifiable => "unverifiable"

inductive RetrievalGrainV1 where
  | occurrence
  | logicalMessage
  | turn
  | session
  | thread
  | agent
  | summary
deriving DecidableEq, Ord

def RetrievalGrainV1.asStr : RetrievalGrainV1 → String
  | .occurrence => "occurrence"
  | .logicalMessage => "logical_message"
  | .turn => "turn"
  | .session => "session"
  | .thread => "thread"
  | .agent => "agent"
  | .summary => "summary"

inductive TemporalAssertionKindV1 where
  | corrects
  | supersedes
  | contradicts
  | supports
deriving DecidableEq, Ord

def TemporalAssertionKindV1.asStr : TemporalAssertionKindV1 → String
  | .corrects => "corrects"
  | .supersedes => "supersedes"
  | .contradicts => "contradicts"
  | .supports => "supports"

inductive SessionAuthorityClassV1 where
  | providerNative
  | canonicalObservation
  | explicitAnchorAssertion
  | derivedProjection
  | immutableSummary
deriving DecidableEq, Ord

def SessionAuthorityClassV1.asStr : SessionAuthorityClassV1 → String
  | .providerNative => "provider_native"
  | .canonicalObservation => "canonical_observation"
  | .explicitAnchorAssertion => "explicit_anchor_assertion"
  | .derivedProjection => "derived_projection"
  | .immutableSummary => "immutable_summary"

/-- A half-open byte range that is not empty. -/
structure ByteRangeV1 where
  (start stop : Nat)
  lt : start < stop
deriving DecidableEq

inductive TemporalValidityV1 where
  | known (validAt : UtcMicros)
  | unknown
deriving DecidableEq

inductive TemporalModeV1 where
  | current
  | asOf (cutoff : UtcMicros)
  | evolution
  | forensic
deriving DecidableEq

def TemporalModeV1.asStr : TemporalModeV1 → String
  | .current => "current"
  | .asOf _ => "as_of"
  | .evolution => "evolution"
  | .forensic => "forensic"

/-- Whether evidence may take part in a representative answer for `mode`. -/
def TemporalValidityV1.isRepresentativeAt (validTime : TemporalValidityV1)
    (knowledgeAt : UtcMicros) : TemporalModeV1 → Bool
  | .asOf cutoff =>
    match validTime with
    | .known validAt => knowledgeAt ≤ cutoff && validAt ≤ cutoff
    | .unknown => false
  | .current | .evolution | .forensic => true

/-- The evidence for a copy. Every proof names the occurrence that was copied. -/
inductive CopyProofV1 where
  | providerLinkage (sourceOccurrenceId : MessageOccurrenceIdV1)
  | parentMessageLinkage (sourceOccurrenceId : MessageOccurrenceIdV1)
  | explicitAnchorAssertion (sourceOccurrenceId : MessageOccurrenceIdV1)
deriving DecidableEq

def CopyProofV1.sourceOccurrenceId : CopyProofV1 → MessageOccurrenceIdV1
  | .providerLinkage source | .parentMessageLinkage source | .explicitAnchorAssertion source =>
    source

structure LogicalCopyRecordV1 where
  (occurrenceId copiedFromOccurrenceId : MessageOccurrenceIdV1)
  proof : CopyProofV1
  knowledgeAt : UtcMicros
  validTime : TemporalValidityV1

/-- A copy is of another occurrence, and its proof is about that one. -/
def LogicalCopyRecordV1.isValid (copy : LogicalCopyRecordV1) : Bool :=
  copy.occurrenceId ≠ copy.copiedFromOccurrenceId &&
    copy.proof.sourceOccurrenceId = copy.copiedFromOccurrenceId

end TraceDecay.Domain
