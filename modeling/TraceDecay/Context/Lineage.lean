import TraceDecay.Lib.Graph
import TraceDecay.Context.Bundle

/-!
# Context.Lineage

The lineage rule of context assembly: an anchor on a directed cycle of the lineage must be reported
as a conflict. Edges run from the object to the subject. The node arrays of the source are indexed
by position in the sorted list of endpoints; here they are indexed by the endpoint itself, so the
searches that turn an endpoint into its position have nothing to miss.
-/

namespace TraceDecay.Context

open Domain Graph Relation Fallible

inductive SessionContractError where
  | invalidIdentity (field : String)
  | assertionSelfReference
  | duplicateContextAnchor
  | compactContextEncodedBytesMismatch
  | compactContextEncodedBytesOverflow
deriving DecidableEq

def SessionContractError.message : SessionContractError → String
  | .invalidIdentity field => field ++ " is not a canonical identity"
  | .assertionSelfReference => "a temporal assertion cannot relate an anchor to itself"
  | .duplicateContextAnchor => "compact context contains a duplicate anchor"
  | .compactContextEncodedBytesMismatch =>
    "compact context encoded bytes do not match its records"
  | .compactContextEncodedBytesOverflow =>
    "compact context record bytes overflow the aggregate"

def validateIdentity (field : String) (id : CanonicalString) : Except SessionContractError Unit :=
  if id.validate then .ok () else .error (.invalidIdentity field)

def CompactContextLineageEdgeV1.validate (edge : CompactContextLineageEdgeV1) :
    Except SessionContractError Unit := do
  if edge.subjectAnchorId = edge.objectAnchorId then .error .assertionSelfReference
  validateIdentity "compact context lineage subject" edge.subjectAnchorId
  validateIdentity "compact context lineage object" edge.objectAnchorId
  (ascending edge.supportingAnchorIds).forM
    (validateIdentity "compact context lineage supporting anchor")

variable (lineage : List CompactContextLineageEdgeV1)

def lineageEdges : Edges RetrievalAnchorId :=
  lineage.map fun edge => (edge.objectAnchorId, edge.subjectAnchorId)

/-- The endpoints, sorted and without repetition. -/
def lineageNodes : List RetrievalAnchorId :=
  ascending (lineage.flatMap fun edge => [edge.objectAnchorId, edge.subjectAnchorId]).toFinset

def onCycle (edges : Edges RetrievalAnchorId) (start : RetrievalAnchorId) : Bool :=
  returnsTo edges start (edges.length + 1) (outgoing edges start).reverse [start]

def validateLineageCyclesAreConflicted
    (conflicts : List CompactContextConflictV1) : Except ContextError Unit := do
  lineage.forM fun edge => edge.validate.mapError fun error => .invalidBundle error.message
  let edges := lineageEdges lineage
  let nodes := lineageNodes lineage
  let queue := nodes.filter fun node => indegree edges node = 0
  let (degree, visited) := peel edges (nodes.length + edges.length) queue (indegree edges) 0
  if visited ≠ nodes.length then
    let conflicted := conflicts.map (·.anchorId)
    if nodes.any fun start => degree start ≠ 0 && onCycle edges start && start ∉ conflicted then
      .error (.invalidBundle "unresolved compact context lineage cycle")

def LineageStep (lineage : List CompactContextLineageEdgeV1) (a b : RetrievalAnchorId) : Prop :=
  ∃ edge ∈ lineage, edge.objectAnchorId = a ∧ edge.subjectAnchorId = b

variable {lineage : List CompactContextLineageEdgeV1}

theorem leads_lineageEdges : Leads (lineageEdges lineage) = LineageStep lineage := by
  funext a b
  simp [Leads, lineageEdges, LineageStep]

theorem mem_lineageNodes {a : RetrievalAnchorId} : a ∈ lineageNodes lineage ↔
      ∃ edge ∈ lineage, a = edge.objectAnchorId ∨ a = edge.subjectAnchorId := by
  simp [lineageNodes, ascending]

theorem validateIdentity_ok (field : String) (id : CanonicalString) :
    validateIdentity field id = .ok () := by
  simp [validateIdentity]

theorem edge_validate_ok {edge : CompactContextLineageEdgeV1}
    (h : edge.subjectAnchorId ≠ edge.objectAnchorId) : edge.validate = .ok () := by
  have hall : (ascending edge.supportingAnchorIds).forM
      (validateIdentity "compact context lineage supporting anchor") = .ok () :=
    forM_ok fun anchor _ => validateIdentity_ok _ anchor
  simp only [CompactContextLineageEdgeV1.validate, if_neg h, validateIdentity_ok, hall]; rfl

/-- The lineage rule: an edge relates two anchors, and the anchors on cycles are in conflict. -/
theorem validateLineageCyclesAreConflicted_ok
    (hs : ∀ edge ∈ lineage, edge.subjectAnchorId ≠ edge.objectAnchorId)
    (c : List CompactContextConflictV1) :
    validateLineageCyclesAreConflicted lineage c = .ok () ↔
      ∀ a, TransGen (LineageStep lineage) a a → a ∈ c.map (·.anchorId) := by
  have hedges : lineage.forM (fun edge => edge.validate.mapError fun error =>
      ContextError.invalidBundle error.message) = .ok () :=
    forM_ok fun edge he => by rw [edge_validate_ok (hs edge he)]; rfl
  have hnodes : ∀ a b, Leads (lineageEdges lineage) a b → b ∈ lineageNodes lineage := by
    intro a b hab
    rw [leads_lineageEdges] at hab
    obtain ⟨edge, he, -, rfl⟩ := hab
    exact mem_lineageNodes.mpr ⟨edge, he, .inr rfl⟩
  have hn : (lineageNodes lineage).Nodup := by
    unfold lineageNodes ascending; exact Finset.sort_nodup _ _
  -- a cycle leaves nodes unvisited and its own nodes with an edge into them
  have hp := fun a => peel_of_cycle (v := a) hnodes hn
    ((lineageNodes lineage).length + (lineageEdges lineage).length)
  rw [validateLineageCyclesAreConflicted, hedges, ok_bind, ← leads_lineageEdges]
  dsimp only at hp ⊢
  generalize peel (lineageEdges lineage)
    ((lineageNodes lineage).length + (lineageEdges lineage).length) _ _ 0 = peeled at hp ⊢
  obtain ⟨degree, visited⟩ := peeled
  constructor
  · intro h a hc
    obtain ⟨hd, hv⟩ := hp a hc
    rw [if_pos hv] at h
    split at h
    · cases h
    · rename_i hnone
      by_contra hout
      obtain ⟨b, -, hba⟩ := TransGen.tail'_iff.mp hc
      refine hnone (List.any_eq_true.mpr ⟨a, hnodes b a hba, ?_⟩)
      simp only [Bool.and_eq_true, decide_eq_true_eq]; exact ⟨⟨hd, returnsTo_iff.mpr hc⟩, hout⟩
  · intro h
    split
    · rw [if_neg]
      · rfl
      · intro hany
        obtain ⟨a, -, ha⟩ := List.any_eq_true.mp hany
        simp only [Bool.and_eq_true, decide_eq_true_eq] at ha
        exact ha.2 (h a (returnsTo_iff.mp ha.1.2))
    · rfl

end TraceDecay.Context
