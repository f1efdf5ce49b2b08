import Mathlib.Data.String.Basic
import TraceDecay.Lib.Sorting

/-!
# CodeIndex.Lineage

The resolver of symbol lineage between two generations: each current symbol is given the prior
symbol its evidence names, by its exact identity tuple, by its content and then by its qualified
structure. A prior symbol is consumed by the symbol it is given to; where the evidence is ambiguous,
the resolver abstains.

Identities are distinct within an index, so a prior symbol is told by its identity where the source
tells it by its position.
-/

namespace TraceDecay.CodeIndex

abbrev SymbolOccurrenceId := String

abbrev SymbolIdentityDigest := String

inductive LineageKind where
  | unchanged
  | renamed
  | moved
  | split
  | merged
  | structuralContinuity
deriving DecidableEq

inductive LineageMethod where
  | exactIdentityTuple
  | structuralBoundaryMatch
  | contentDigestMatch
  | qualifiedStructureMatch
  | declaredAbstention
deriving DecidableEq

inductive LineageConfidenceKind where
  | exact
  | structural
  | ambiguous
  | abstained
deriving DecidableEq

structure LineageEvidence where
  (priorGeneration currentGeneration : String)
  (priorDigest currentDigest : Option String)
  evidenceDigest : String

structure LineageAbstention where
  reason : String
  candidateCount : Nat

structure SymbolLineageCandidate where
  (priorOccurrence currentOccurrence : SymbolOccurrenceId)
  kind : LineageKind
  method : LineageMethod
  evidence : LineageEvidence
  confidence : LineageConfidenceKind
  alternatives : List SymbolOccurrenceId
  abstention : Option LineageAbstention

def abstainAmbiguousContentMatch : String :=
  "multiple content-identical prior candidates without a unique qualified-name match"

def abstainContentOnlyMatch : String :=
  "content-identical prior candidate lacks structural continuity"

def abstainAmbiguousNameGroup : String :=
  "multiple prior candidates in the qualified-structure group"

def abstainCandidateCountMismatch : String :=
  "prior and current qualified-structure group sizes differ; possible split or merge"

structure LineageSymbolRecord where
  occurrence : SymbolOccurrenceId
  identity : SymbolIdentityDigest
  (qualifiedName kind fileIdentity contentDigest : String)
deriving DecidableEq

def LineageSymbolRecord.groupKey (s : LineageSymbolRecord) : String × String × String :=
  (s.fileIdentity, s.qualifiedName, s.kind)

/-- The symbols of one generation, in the order of their occurrences. -/
structure GenerationSymbolIndex where
  generationId : String
  symbols : List LineageSymbolRecord
  sorted : symbols.Pairwise fun a b => a.occurrence < b.occurrence
  identities : (symbols.map (·.identity)).Nodup

inductive LineageResolutionError where
  | sameGeneration
  | duplicateOccurrence
  | duplicateIdentity
deriving DecidableEq

/-- Sorts the records and refuses repeated occurrences and identities. -/
def GenerationSymbolIndex.new (generationId : String) (symbols : List LineageSymbolRecord) :
    Except LineageResolutionError GenerationSymbolIndex :=
  let sorted := Sorting.sortBy (fun a b => compare a.occurrence b.occurrence) symbols
  if hsorted : sorted.Pairwise fun a b => a.occurrence < b.occurrence then
    if hidentities : (sorted.map (·.identity)).Nodup then
      .ok ⟨generationId, sorted, hsorted, hidentities⟩
    else .error .duplicateIdentity
  else .error .duplicateOccurrence

/-- What the evidence digest is taken of. -/
structure EvidenceInput where
  (priorGeneration currentGeneration : String)
  currentOccurrence : SymbolOccurrenceId
  priorOccurrence : Option SymbolOccurrenceId
  kind : LineageKind
  method : LineageMethod
  priorDigest : Option String
  currentDigest : String

/-- What becomes of one symbol. -/
inductive Selection where
  | chosen (ancestor : LineageSymbolRecord) (kind : LineageKind) (method : LineageMethod)
      (confidence : LineageConfidenceKind) (alternatives : List LineageSymbolRecord)
  | abstained (candidates : List LineageSymbolRecord) (reason : String) (count : Nat)
  | unresolved

def remaining (symbols : List LineageSymbolRecord) (consumed : List SymbolIdentityDigest) :
    List LineageSymbolRecord :=
  symbols.filter fun a => !decide (a.identity ∈ consumed)

variable (sha256 : EvidenceInput → String) (prior current : GenerationSymbolIndex)
  (symbol : LineageSymbolRecord) (consumed : List SymbolIdentityDigest)

def evidence (ancestor : Option LineageSymbolRecord) (kind : LineageKind) (method : LineageMethod) :
    LineageEvidence where
  priorGeneration := prior.generationId
  currentGeneration := current.generationId
  priorDigest := ancestor.map (·.contentDigest)
  currentDigest := some symbol.contentDigest
  evidenceDigest := sha256
    { priorGeneration := prior.generationId
      currentGeneration := current.generationId
      currentOccurrence := symbol.occurrence
      priorOccurrence := ancestor.map (·.occurrence)
      kind
      method
      priorDigest := ancestor.map (·.contentDigest)
      currentDigest := symbol.contentDigest }

def candidate (ancestor : LineageSymbolRecord) (kind : LineageKind) (method : LineageMethod)
    (confidence : LineageConfidenceKind) (alternatives : List SymbolOccurrenceId)
    (abstention : Option LineageAbstention) : SymbolLineageCandidate where
  priorOccurrence := ancestor.occurrence
  currentOccurrence := symbol.occurrence
  kind
  method
  evidence := evidence sha256 prior current symbol (some ancestor) kind method
  confidence
  alternatives := Sorting.dedup (Sorting.sortBy compare alternatives)
  abstention

/-- The first of the candidates stands for all of them; none of them is attested. -/
def abstain (candidates : List LineageSymbolRecord) (reason : String) (candidateCount : Nat) :
    Option SymbolLineageCandidate :=
  match Sorting.sortBy (fun a b => compare a.occurrence b.occurrence) candidates with
  | [] => none
  | first :: rest =>
    some { candidate sha256 prior current symbol first .structuralContinuity .declaredAbstention
        .abstained (rest.map (·.occurrence)) (some ⟨reason, candidateCount % 2 ^ 32⟩) with
      evidence := evidence sha256 prior current symbol none .structuralContinuity
        .declaredAbstention }

/-- A byte-identical body counts where the qualified name or the file is kept as well. -/
def selectByContent (contentCandidates : List LineageSymbolRecord) : Selection :=
  let sameName := contentCandidates.filter fun ancestor =>
    ancestor.kind = symbol.kind && ancestor.qualifiedName = symbol.qualifiedName
  let sameFile := contentCandidates.filter fun ancestor =>
    ancestor.kind = symbol.kind && ancestor.fileIdentity = symbol.fileIdentity
  let confidence : LineageConfidenceKind :=
    if contentCandidates.length = 1 then .exact else .structural
  let chosen ancestor kind : Selection := .chosen ancestor kind .contentDigestMatch confidence
    (contentCandidates.filter fun other => decide (other.identity ≠ ancestor.identity))
  match sameName, sameFile with
  | [ancestor], _ => chosen ancestor .moved
  | [], [ancestor] => chosen ancestor .renamed
  | [], [] => .abstained contentCandidates abstainContentOnlyMatch contentCandidates.length
  | _, _ => .abstained contentCandidates abstainAmbiguousContentMatch contentCandidates.length

def selectByStructure : Selection :=
  let allGroupCandidates := prior.symbols.filter fun a => decide (a.groupKey = symbol.groupKey)
  let currentGroupSize :=
    (current.symbols.filter fun s => decide (s.groupKey = symbol.groupKey)).length
  if allGroupCandidates ≠ [] ∧ allGroupCandidates.length ≠ currentGroupSize then
    .abstained allGroupCandidates abstainCandidateCountMismatch
      (max allGroupCandidates.length currentGroupSize)
  else
    match remaining allGroupCandidates consumed with
    | [] => .unresolved
    | [ancestor] =>
      .chosen ancestor .structuralContinuity .qualifiedStructureMatch .structural []
    | candidates => .abstained candidates abstainAmbiguousNameGroup candidates.length

/-- Exact identity, then content, then qualified structure. -/
def select : Selection :=
  match (remaining prior.symbols consumed).filter fun a => decide (a.identity = symbol.identity) with
  | ancestor :: _ =>
    .chosen ancestor
      (if ancestor.contentDigest = symbol.contentDigest then .unchanged else .structuralContinuity)
      .exactIdentityTuple .exact []
  | [] =>
    match (remaining prior.symbols consumed).filter fun a =>
      decide (a.contentDigest = symbol.contentDigest) with
    | [] => selectByStructure prior current symbol consumed
    | contentCandidates => selectByContent symbol contentCandidates

def resolveOne : Option SymbolLineageCandidate × List SymbolIdentityDigest :=
  match select prior current symbol consumed with
  | .chosen ancestor kind method confidence alternatives =>
    (some (candidate sha256 prior current symbol ancestor kind method confidence
      (alternatives.map (·.occurrence)) none), ancestor.identity :: consumed)
  | .abstained candidates reason count =>
    (abstain sha256 prior current symbol candidates reason count, consumed)
  | .unresolved => (none, consumed)

/-- The symbols in their order, with one shared table of what is consumed. -/
def resolveAll : List LineageSymbolRecord → List SymbolIdentityDigest → List SymbolLineageCandidate
  | [], _ => []
  | symbol :: symbols, consumed =>
    (resolveOne sha256 prior current symbol consumed).1.toList ++
      resolveAll symbols (resolveOne sha256 prior current symbol consumed).2

def resolve : Except LineageResolutionError (List SymbolLineageCandidate) :=
  if prior.generationId = current.generationId then .error .sameGeneration
  else .ok (resolveAll sha256 prior current current.symbols [])

end TraceDecay.CodeIndex
