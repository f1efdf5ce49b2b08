import TraceDecay.Lib.Graph
import TraceDecay.Lib.Scc
import TraceDecay.Lib.Sorting
import TraceDecay.Domain.Session

/-!
# Resolution.Evolution

What temporal resolution reads and returns (`resolution/types.rs`), and the order of an evolution
answer (`order_evolution`): corrections and supersessions run from the
object to the subject, the anchors no cycle holds back come first, then the members of cycles, which
are flagged as conflicted, then what the cycles blocked.
-/

namespace TraceDecay.Resolution

open Domain Sorting

structure ResolutionEvidence where
  authority : SessionAuthorityClassV1
  authorized : Bool
  supportingAnchorIds : Finset RetrievalAnchorId
deriving DecidableEq

structure ResolutionOccurrence where
  occurrenceId : MessageOccurrenceIdV1
  anchorId : RetrievalAnchorId
  knowledgeAt : UtcMicros
  validTime : TemporalValidityV1
  evidence : ResolutionEvidence

structure ResolutionAssertion where
  kind : TemporalAssertionKindV1
  (subjectAnchorId objectAnchorId : RetrievalAnchorId)
  knowledgeAt : UtcMicros
  validTime : TemporalValidityV1
  evidence : ResolutionEvidence
deriving DecidableEq

structure ResolvedOccurrence where
  occurrence : ResolutionOccurrence
  representativeId : MessageOccurrenceIdV1
  (conflicted uncertain : Bool)
  supportingAnchorIds : Finset RetrievalAnchorId

inductive ResolutionLineageEdgeKind where
  | correction
  | contradiction
  | supersession
deriving DecidableEq, Ord

structure ResolutionLineageEdge where
  kind : ResolutionLineageEdgeKind
  (subjectAnchorId objectAnchorId : RetrievalAnchorId)
  knowledgeAt : UtcMicros
  evidence : ResolutionEvidence

structure TemporalResolution where
  occurrences : List ResolvedOccurrence
  lineageEdges : List ResolutionLineageEdge

/-! ## The order -/

def stableOccurrenceOrder (left right : ResolvedOccurrence) : Ordering :=
  (compare left.occurrence.knowledgeAt right.occurrence.knowledgeAt).then
    (compare left.occurrence.occurrenceId right.occurrence.occurrenceId)

abbrev Descendants := OrdMap RetrievalAnchorId (OrdSet RetrievalAnchorId)

def Descendants.of (descendants : Descendants) (anchor : RetrievalAnchorId) :
    List RetrievalAnchorId :=
  ((descendants.find? anchor).map OrdMap.keys).getD []

variable (nodes : List RetrievalAnchorId) (descendants : Descendants)

/-- Nodes that lie on a cycle within the subgraph induced by `nodes`. -/
def cycleMembersAmong : Finset RetrievalAnchorId :=
  let childrenInSubgraph := fun node => (descendants.of node).filter (· ∈ nodes)
  let selfLoop := fun member => decide (member ∈ descendants.of member)
  Scc.cycleMembers childrenInSubgraph selfLoop nodes

def inducedEdges : Graph.Edges RetrievalAnchorId :=
  nodes.flatMap fun node =>
    ((descendants.of node).filter (· ∈ nodes)).map fun child => (node, child)

/-- One search of its own for every node, the baseline for `cycleMembersAmong`. -/
def nodeReachesSelf (start : RetrievalAnchorId) (nodes : List RetrievalAnchorId)
    (descendants : Descendants) : Bool :=
  let edges := inducedEdges nodes descendants
  Graph.returnsTo edges start (edges.length + 1) (Graph.outgoing edges start).reverse [start]

def cycleMembersAmongReference : Finset RetrievalAnchorId :=
  (nodes.filter fun start => nodeReachesSelf start nodes descendants).toFinset

/-- The subject takes the place of the object. -/
def ResolutionAssertion.isSuccession (assertion : ResolutionAssertion) : Bool :=
  assertion.kind = .corrects || assertion.kind = .supersedes

/-- The successors of every anchor and the number of edges into it. -/
structure Succession where
  descendants : Descendants
  indegree : OrdMap RetrievalAnchorId Nat

/-- One assertion: an edge between two visible anchors counts once. -/
def Succession.link (visible : OrdMap RetrievalAnchorId ResolvedOccurrence) (s : Succession)
    (assertion : ResolutionAssertion) : Succession :=
  if visible.contains assertion.subjectAnchorId && visible.contains assertion.objectAnchorId then
    let children := (s.descendants.find? assertion.objectAnchorId).getD .empty
    let descendants :=
      s.descendants.insert assertion.objectAnchorId (children.insert assertion.subjectAnchorId ())
    if children.contains assertion.subjectAnchorId then { s with descendants }
    else ⟨descendants, s.indegree.upsert assertion.subjectAnchorId fun n => n.getD 0 + 1⟩
  else s

def noEdges (anchors : List RetrievalAnchorId) : OrdMap RetrievalAnchorId Nat :=
  .ofList (anchors.map fun anchor => (anchor, 0))

def ready (indegree : OrdMap RetrievalAnchorId Nat) : OrdSet RetrievalAnchorId :=
  .ofList ((indegree.entries.filter fun e => e.2 = 0).map Prod.fst)

/-- Count one edge into `child` less; a child left without one is ready. The first pass of the code
subtracts unchecked: by `Graph.Peeling.count_outgoing_le` it never goes below zero. -/
def release (state : OrdMap RetrievalAnchorId Nat × OrdSet RetrievalAnchorId)
    (child : RetrievalAnchorId) : OrdMap RetrievalAnchorId Nat × OrdSet RetrievalAnchorId :=
  match state.1.find? child with
  | some degree =>
    (state.1.insert child (degree - 1),
      if degree - 1 = 0 then state.2.insert child () else state.2)
  | none => state

/-- Emit the ready items, the least anchor first, until none is ready. Each anchor gets ready at
most once, which bounds the turns. -/
def drain (descendants : Descendants) :
    Nat → OrdMap RetrievalAnchorId ResolvedOccurrence → OrdMap RetrievalAnchorId Nat →
      OrdSet RetrievalAnchorId → List ResolvedOccurrence →
        OrdMap RetrievalAnchorId ResolvedOccurrence × List ResolvedOccurrence
  | 0, waiting, _, _, ordered => (waiting, ordered)
  | fuel + 1, waiting, indegree, ready, ordered =>
    match ready.popFirst? with
    | none => (waiting, ordered)
    | some (anchor, ready) =>
      let emitted := (waiting.find? anchor).toList
      let (indegree, ready) := (descendants.of anchor).foldl release (indegree, ready)
      drain descendants fuel (waiting.erase anchor) indegree ready (ordered ++ emitted)

/-- One blocked parent adds an edge into each of its blocked children. -/
def blockedDegrees
    (blocked : OrdMap RetrievalAnchorId ResolvedOccurrence) : OrdMap RetrievalAnchorId Nat :=
  let edges := (descendants.keys.filter blocked.contains).flatMap fun parent =>
    (descendants.of parent).filter blocked.contains
  edges.foldl (fun degrees child => degrees.upsert child fun n => n.getD 0 + 1)
    (noEdges blocked.keys)

/-- Of several items of one anchor the last one stays. -/
def itemsByAnchor (resolved : List ResolvedOccurrence) :
    OrdMap RetrievalAnchorId ResolvedOccurrence :=
  .ofList (resolved.map fun item => (item.occurrence.anchorId, item))

def successionAmong (visible : OrdMap RetrievalAnchorId ResolvedOccurrence)
    (assertions : List ResolutionAssertion) : Succession :=
  (assertions.filter (·.isSuccession)).foldl (Succession.link visible)
    ⟨.empty, noEdges visible.keys⟩

/-- Once the rest is ordered, the members of cycles are flagged and come next, and then what only
edges among blocked anchors still order. -/
def releaseCycles (cycleMembers : Finset RetrievalAnchorId)
    (remaining : OrdMap RetrievalAnchorId ResolvedOccurrence)
    (ordered : List ResolvedOccurrence) : List ResolvedOccurrence :=
  let cyclicItems := (remaining.entries.filter fun e => e.1 ∈ cycleMembers).map fun e =>
    { e.2 with conflicted := true }
  let blocked := .ofList (remaining.entries.filter fun e => e.1 ∉ cycleMembers)
  let degrees := blockedDegrees descendants blocked
  let drained := drain descendants blocked.keys.length blocked degrees (ready degrees)
    (ordered ++ sortBy stableOccurrenceOrder cyclicItems)
  drained.2 ++ sortBy stableOccurrenceOrder drained.1.values

def orderEvolution (resolved : List ResolvedOccurrence) (assertions : List ResolutionAssertion) :
    List ResolvedOccurrence :=
  let byAnchor := itemsByAnchor resolved
  let succession := successionAmong byAnchor assertions
  let drained := drain succession.descendants byAnchor.keys.length byAnchor succession.indegree
    (ready succession.indegree) []
  releaseCycles succession.descendants
    (cycleMembersAmong drained.1.keys succession.descendants) drained.1 drained.2

end TraceDecay.Resolution
