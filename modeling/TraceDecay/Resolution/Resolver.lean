import TraceDecay.Resolution.Evolution
import Mathlib.Data.Prod.Lex

/-!
# Resolution.Resolver

Temporal resolution (`resolve_temporal`): which occurrences answer a query in a temporal mode, which
of them are in conflict, and the lineage among them. The control and the hook are polled and change
nothing as long as they do not stop the query, so the model leaves them out and always returns.
-/

namespace TraceDecay.Resolution

open Domain Sorting

def authorityRank : SessionAuthorityClassV1 → Nat
  | .providerNative => 5
  | .canonicalObservation => 4
  | .explicitAnchorAssertion => 3
  | .immutableSummary => 2
  | .derivedProjection => 1

abbrev Support := OrdMap RetrievalAnchorId (Finset RetrievalAnchorId)

/-- The authority counts first, then the number of supporting anchors. -/
def evidenceStrength (occurrence : ResolutionOccurrence) (support : Support) : Nat ×ₗ Nat :=
  toLex (authorityRank occurrence.evidence.authority,
    ((support.find? occurrence.anchorId).map Finset.card).getD 0)

/-! ## Copies -/

abbrev CopySources := OrdMap MessageOccurrenceIdV1 MessageOccurrenceIdV1

def copyOrder (left right : LogicalCopyRecordV1) : Ordering :=
  (compare left.occurrenceId right.occurrenceId).then
    (compare left.copiedFromOccurrenceId right.copiedFromOccurrenceId)

/-- The source of each copy. Of several sources of one occurrence the least stays. -/
def copySources (copies : List LogicalCopyRecordV1) (mode : TemporalModeV1) : CopySources :=
  let validated := copies.filter fun copy =>
    copy.isValid && copy.validTime.isRepresentativeAt copy.knowledgeAt mode
  (sortBy copyOrder validated).foldl (fun sources copy =>
      sources.upsert copy.occurrenceId fun known => known.getD copy.copiedFromOccurrenceId) .empty

def remember (root : MessageOccurrenceIdV1) (path : List MessageOccurrenceIdV1)
    (memo : CopySources) : CopySources :=
  path.foldl (fun memo node => memo.insert node root) memo

/-- The source of a copy, where the walk to the root goes on. -/
def eligibleParent (sources : CopySources) (eligibleIds : Finset MessageOccurrenceIdV1)
    (current : MessageOccurrenceIdV1) : Option MessageOccurrenceIdV1 :=
  (sources.find? current).filter (· ∈ eligibleIds)

/-- Walk to the root of a chain of copies. The occurrences walked through are the path, so a walk
is back on its path exactly when it meets one of them again. -/
def copyRootWalk (sources : CopySources) (eligibleIds : Finset MessageOccurrenceIdV1)
    (memo : CopySources) :
    Nat → List MessageOccurrenceIdV1 → MessageOccurrenceIdV1 → MessageOccurrenceIdV1 × CopySources
  | 0, _, current => (current, memo)
  | fuel + 1, path, current =>
    match memo.find? current with
    | some root => (root, remember root path memo)
    | none =>
      -- a cycle: the root depends on the start and is not remembered
      if current ∈ path then (current, memo)
      else
        match eligibleParent sources eligibleIds current with
        | some parent => copyRootWalk sources eligibleIds memo fuel (path ++ [current]) parent
        | none => (current, (remember current path memo).insert current current)

/-- All but the first occurrence of a path are eligible, which bounds the walk. -/
def copyRootMemoized (occurrenceId : MessageOccurrenceIdV1) (sources : CopySources)
    (eligibleIds : Finset MessageOccurrenceIdV1) (memo : CopySources) :
    MessageOccurrenceIdV1 × CopySources :=
  copyRootWalk sources eligibleIds memo (eligibleIds.card + 2) [] occurrenceId

/-! ## Eligibility and support -/

def ResolutionOccurrence.isEligible (mode : TemporalModeV1) (occurrence : ResolutionOccurrence) :
    Bool :=
  occurrence.evidence.authorized &&
    occurrence.validTime.isRepresentativeAt occurrence.knowledgeAt mode

variable (occurrences : List ResolutionOccurrence) (mode : TemporalModeV1)

def eligibleOccurrences : List ResolutionOccurrence := occurrences.filter (·.isEligible mode)

def anchorsOf : Finset RetrievalAnchorId := (occurrences.map (·.anchorId)).toFinset

def ResolutionAssertion.isEligible (eligibleAnchors : Finset RetrievalAnchorId)
    (assertion : ResolutionAssertion) : Bool :=
  assertion.evidence.authorized &&
    assertion.validTime.isRepresentativeAt assertion.knowledgeAt mode &&
    assertion.subjectAnchorId ∈ eligibleAnchors && assertion.objectAnchorId ∈ eligibleAnchors

variable (assertions : List ResolutionAssertion)

def collectSupport : Support :=
  let eligibleAnchors := anchorsOf occurrences
  let own := occurrences.foldl (fun support occurrence =>
      support.insert occurrence.anchorId
        (occurrence.evidence.supportingAnchorIds.filter (· ∈ eligibleAnchors))) .empty
  assertions.foldl (fun support assertion =>
      if assertion.kind = .supports then
        support.upsert assertion.objectAnchorId fun anchors =>
          insert assertion.subjectAnchorId (anchors.getD ∅) ∪
            assertion.evidence.supportingAnchorIds.filter (· ∈ eligibleAnchors)
      else support) own

/-! ## Suppression -/

abbrev ByAnchor := OrdMap RetrievalAnchorId ResolutionOccurrence

/-- What one assertion settles about the anchors it relates. -/
inductive Verdict where
  /-- A successful correction or supersession: the subject suppresses the object. -/
  | replaces
  /-- A contradiction the object loses. -/
  | objectLoses
  /-- A contradiction the subject loses. -/
  | subjectLoses
  | disputed
  | silent
deriving DecidableEq

variable (byAnchor : ByAnchor) (support : Support)

def judge (assertion : ResolutionAssertion) : Verdict :=
  match byAnchor.find? assertion.subjectAnchorId, byAnchor.find? assertion.objectAnchorId with
  | some subject, some object =>
    let subjectStrength := evidenceStrength subject support
    let objectStrength := evidenceStrength object support
    let assertionRank := authorityRank assertion.evidence.authority
    match assertion.kind with
    | .corrects | .supersedes =>
      if authorityRank object.evidence.authority ≤ assertionRank ∧
          objectStrength ≤ subjectStrength then .replaces
      else .disputed
    | .contradicts =>
      if objectStrength < subjectStrength ∧
          authorityRank object.evidence.authority ≤ assertionRank then .objectLoses
      else if subjectStrength < objectStrength ∧
          authorityRank subject.evidence.authority ≤ assertionRank then .subjectLoses
      else .disputed
    | .supports => .silent
  -- an eligible assertion relates eligible anchors, so both lookups succeed
  | _, _ => .silent

/-- What the assertions have settled so far. -/
structure Relations where
  suppressedAnchors : Finset RetrievalAnchorId := ∅
  conflictAnchors : Finset RetrievalAnchorId := ∅
  /-- Suppressor and suppressed, from successful corrections and supersessions only. -/
  suppressionEdges : OrdSet (RetrievalAnchorId ×ₗ RetrievalAnchorId) := .empty

variable (s : Relations)

def Relations.conflict (a b : RetrievalAnchorId) : Relations :=
  { s with conflictAnchors := insert b (insert a s.conflictAnchors) }

def Relations.suppress (anchor : RetrievalAnchorId) : Relations :=
  { s with suppressedAnchors := insert anchor s.suppressedAnchors }

def Relations.relate (assertion : ResolutionAssertion) : Relations :=
  match judge byAnchor support assertion with
  | .replaces =>
    let s := s.suppress assertion.objectAnchorId
    { s with
      suppressionEdges := s.suppressionEdges.insert
        (toLex (assertion.subjectAnchorId, assertion.objectAnchorId)) () }
  | .objectLoses => s.suppress assertion.objectAnchorId
  | .subjectLoses => s.suppress assertion.subjectAnchorId
  | .disputed => s.conflict assertion.subjectAnchorId assertion.objectAnchorId
  | .silent => s

/-- Two anchors that suppress each other are in conflict and both stay. -/
def Relations.wipeReciprocal (edge : RetrievalAnchorId ×ₗ RetrievalAnchorId) : Relations :=
  let (subject, object) := ofLex edge
  if s.suppressionEdges.contains (toLex (object, subject)) then
    let s := s.conflict subject object
    { s with suppressedAnchors := (s.suppressedAnchors.erase subject).erase object }
  else s

/-- The modes that answer with what holds, and hide what was replaced. -/
def suppresses : TemporalModeV1 → Bool
  | .current | .asOf _ => true
  | .evolution | .forensic => false

def relations (assertions : List ResolutionAssertion) (mode : TemporalModeV1) : Relations :=
  if suppresses mode then
    let related := assertions.foldl (Relations.relate byAnchor support) {}
    related.suppressionEdges.keys.foldl Relations.wipeReciprocal related
  else
    (assertions.filter (·.kind = .contradicts)).foldl
      (fun s assertion => s.conflict assertion.subjectAnchorId assertion.objectAnchorId) {}

/-! ## Resolution -/

/-- What materialisation reads. -/
structure Resolving where
  mode : TemporalModeV1
  eligibleIds : Finset MessageOccurrenceIdV1
  sources : CopySources
  support : Support
  relations : Relations

/-- One occurrence: it is skipped when suppressed or when it is a copy of an eligible one. -/
def materialize (r : Resolving) (state : List ResolvedOccurrence × CopySources)
    (occurrence : ResolutionOccurrence) : List ResolvedOccurrence × CopySources :=
  let (resolved, memo) := state
  if occurrence.anchorId ∈ r.relations.suppressedAnchors then (resolved, memo)
  else
    let (representativeId, memo) :=
      copyRootMemoized occurrence.occurrenceId r.sources r.eligibleIds memo
    let collapseCopy := r.mode ≠ .forensic && representativeId ≠ occurrence.occurrenceId &&
      representativeId ∈ r.eligibleIds
    if collapseCopy then (resolved, memo)
    else
      (resolved ++ [{
        occurrence
        representativeId
        conflicted := occurrence.anchorId ∈ r.relations.conflictAnchors
        uncertain := occurrence.validTime = .unknown
        supportingAnchorIds := (r.support.find? occurrence.anchorId).getD ∅ }], memo)

def lineageKind : TemporalAssertionKindV1 → Option ResolutionLineageEdgeKind
  | .corrects => some .correction
  | .contradicts => some .contradiction
  | .supersedes => some .supersession
  | .supports => none

def lineageEdge (assertion : ResolutionAssertion) : Option ResolutionLineageEdge :=
  (lineageKind assertion.kind).map fun kind =>
    { assertion with kind }

def lineageOrder (left right : ResolutionLineageEdge) : Ordering :=
  (compare left.knowledgeAt right.knowledgeAt).then <|
    (compare left.objectAnchorId right.objectAnchorId).then <|
      (compare left.subjectAnchorId right.subjectAnchorId).then (compare left.kind right.kind)

/-- The position of an anchor among the resolved ones; an anchor that is not there comes last. -/
def position (positions : OrdMap RetrievalAnchorId Nat) (anchor : RetrievalAnchorId) : Nat :=
  (positions.find? anchor).getD (2 ^ 64 - 1)

def evolutionLineageOrder (positions : OrdMap RetrievalAnchorId Nat)
    (left right : ResolutionLineageEdge) : Ordering :=
  (compare (position positions left.objectAnchorId)
      (position positions right.objectAnchorId)).then <|
    (compare (position positions left.subjectAnchorId)
      (position positions right.subjectAnchorId)).then <|
      (compare left.kind right.kind).then <| (compare left.knowledgeAt right.knowledgeAt).then <|
          (compare left.objectAnchorId right.objectAnchorId).then
            (compare left.subjectAnchorId right.subjectAnchorId)

def eligibleAssertions (mode : TemporalModeV1) : List ResolutionAssertion :=
  let eligibleAnchors := anchorsOf (eligibleOccurrences occurrences mode)
  assertions.filter (·.isEligible mode eligibleAnchors)

/-- Of several eligible occurrences of an anchor the last one stands for it. -/
def byAnchorOf : ByAnchor :=
  .ofList ((eligibleOccurrences occurrences mode).map fun occurrence =>
    (occurrence.anchorId, occurrence))

def supportOf (mode : TemporalModeV1) : Support :=
  collectSupport (eligibleOccurrences occurrences mode)
    (eligibleAssertions occurrences assertions mode)

variable (copies : List LogicalCopyRecordV1) (assertions : List ResolutionAssertion)
  (mode : TemporalModeV1)

def resolving : Resolving :=
  { mode
    eligibleIds := ((eligibleOccurrences occurrences mode).map (·.occurrenceId)).toFinset
    sources := copySources copies mode
    support := supportOf occurrences assertions mode
    relations := relations (byAnchorOf occurrences mode) (supportOf occurrences assertions mode)
      (eligibleAssertions occurrences assertions mode) mode }

def resolveTemporal : TemporalResolution :=
  let resolved := ((eligibleOccurrences occurrences mode).foldl
    (materialize (resolving occurrences copies assertions mode)) ([], .empty)).1
  let lineageEdges := (eligibleAssertions occurrences assertions mode).filterMap lineageEdge
  if mode = .evolution then
    let resolved := orderEvolution resolved (eligibleAssertions occurrences assertions mode)
    let positions : OrdMap RetrievalAnchorId Nat :=
      .ofList (resolved.zipIdx.map fun item => (item.1.occurrence.anchorId, item.2))
    ⟨resolved, sortBy (evolutionLineageOrder positions) lineageEdges⟩
  else ⟨sortBy stableOccurrenceOrder resolved, sortBy lineageOrder lineageEdges⟩

end TraceDecay.Resolution
