import Mathlib.Data.Prod.Lex
import TraceDecay.Lib.OrdMap
import TraceDecay.Lib.Sorting
import TraceDecay.Domain.Session

/-!
# Ranking.Fusion

Rank fusion (`ranking.rs`). Rows of one stable id are merged, rows of one record are collapsed to
their best score, every channel and source partition is scored by ordinals, and the best tier of
each id decides its score. A `BTreeMap` is an `OrdMap`; the scores stay far below `2 ^ 64`, so the
saturating operations are plain ones.
-/

namespace TraceDecay.Ranking

open Domain Sorting

inductive CandidateChannel where
  | scope
  | anchor
  | exactMessage
  | phrase
  | entity
  | time
  | lexical
  | lexicalRelaxed
  | summary
  | span
  | burst
deriving DecidableEq

theorem CandidateChannel.ctorIdx_injective : Function.Injective CandidateChannel.ctorIdx := by
  intro a b h
  cases a <;> cases b <;> first | rfl | cases h

instance : LinearOrder CandidateChannel :=
  LinearOrder.lift' CandidateChannel.ctorIdx CandidateChannel.ctorIdx_injective

structure RankingCandidate where
  stableId : String
  anchorId : RetrievalAnchorId
  retrieverRecordId : String
  channel : CandidateChannel
  (rawScore knowledgeAtMicros : Int)
  (logicalMessage turn session source evidenceRole : Option String)
  exactRanges : List ByteRangeV1

structure DiversityLimits where
  (perLogicalMessage perTurn perSession perSource perEvidenceRole : Nat)

structure RetrieverContribution where
  channel : CandidateChannel
  source : Option String
  retrieverRecordId : String
  retrieverOrdinal : Nat
  rawScore : Int
  calibratedScoreMicros : Nat
  exactRanges : List ByteRangeV1
deriving DecidableEq

structure RankedCandidate where
  stableId : String
  anchorId : RetrievalAnchorId
  normalizedScoreMicros : Nat
  knowledgeAtMicros : Int
  (logicalMessage turn session source evidenceRole : Option String)
  contributions : List RetrieverContribution
deriving DecidableEq

inductive RankTier where
  | approximate
  | exactPhrase
  | exactMessage
deriving DecidableEq

def RankTier.toNat : RankTier → Nat
  | .approximate => 1
  | .exactPhrase => 2
  | .exactMessage => 3

inductive RankingError where
  | conflictingDuplicateMetadata (stableId : String)
deriving DecidableEq

def tierSpan : Nat := 1000000

/-- Absent sources stay singleton partitions. -/
inductive SourcePartitionKey where
  | absent (stableId : String)
  | present (source : String)

def SourcePartitionKey.new (stableId : String) : Option String → SourcePartitionKey
  | some source => .present source
  | none => .absent stableId

/-- Absent keys come first, each kind in the order of its text. -/
def SourcePartitionKey.position : SourcePartitionKey → Nat ×ₗ String
  | .absent stableId => toLex (0, stableId)
  | .present source => toLex (1, source)

theorem SourcePartitionKey.position_injective : Function.Injective position := by
  rintro (a | a) (b | b) h
  all_goals
    have hp := Prod.mk.inj (toLex.injective h)
    simp_all

instance : LinearOrder SourcePartitionKey :=
  LinearOrder.lift' SourcePartitionKey.position SourcePartitionKey.position_injective

/-! ## Preparing the rows -/

/-- The metadata shared by the rows of one stable id. Of the first row the source keeps a
reference; these are the fields it reads there, and the optional ones filled by later rows. -/
structure MergedMetadata where
  stableId : String
  anchorId : RetrievalAnchorId
  knowledgeAtMicros : Int
  (source logicalMessage turn session evidenceRole : Option String)

def MergedMetadata.first (c : RankingCandidate) : MergedMetadata :=
  ⟨c.stableId, c.anchorId, c.knowledgeAtMicros, c.source, c.logicalMessage, c.turn, c.session,
    c.evidenceRole⟩

def MergedMetadata.intoRanked (m : MergedMetadata) (score : Nat)
    (provenance : RetrieverContribution) : RankedCandidate :=
  ⟨m.stableId, m.anchorId, score, m.knowledgeAtMicros, m.logicalMessage, m.turn, m.session,
    m.source, m.evidenceRole, [provenance]⟩

def optionConflicts : Option String → Option String → Bool
  | some left, some right => left ≠ right
  | _, _ => false

def mergedMetadataConflicts (existing : MergedMetadata) (c : RankingCandidate) : Bool :=
  existing.anchorId ≠ c.anchorId || existing.knowledgeAtMicros ≠ c.knowledgeAtMicros ||
    existing.source ≠ c.source || optionConflicts existing.logicalMessage c.logicalMessage ||
    optionConflicts existing.turn c.turn || optionConflicts existing.session c.session ||
    optionConflicts existing.evidenceRole c.evidenceRole

/-- `fill_absent` on every optional slot. -/
def MergedMetadata.fill (m : MergedMetadata) (c : RankingCandidate) : MergedMetadata :=
  { m with
    logicalMessage := m.logicalMessage.or c.logicalMessage
    turn := m.turn.or c.turn
    session := m.session.or c.session
    evidenceRole := m.evidenceRole.or c.evidenceRole }

abbrev MetadataById := OrdMap String MergedMetadata

def mergeRow (metadata : MetadataById) (c : RankingCandidate) : Except RankingError MetadataById :=
  match metadata.find? c.stableId with
  | some existing =>
    if mergedMetadataConflicts existing c then .error (.conflictingDuplicateMetadata c.stableId)
    else .ok (metadata.insert c.stableId (existing.fill c))
  | none => .ok (metadata.insert c.stableId (.first c))

/-- One record of a stable id on a channel. -/
abbrev RecordKey := String ×ₗ CandidateChannel ×ₗ String

def recordKey (c : RankingCandidate) : RecordKey :=
  toLex (c.stableId, toLex (c.channel, c.retrieverRecordId))

/-- `best_index` stands for the score and source read at that index. -/
structure UniqueEntry where
  bestRawScore : Int
  bestSource : Option String
  exactRanges : List ByteRangeV1

abbrev UniqueByRecord := OrdMap RecordKey UniqueEntry

def collapseRow (unique : UniqueByRecord) (c : RankingCandidate) :
    Except RankingError UniqueByRecord :=
  match unique.find? (recordKey c) with
  | some existing =>
    if existing.bestSource ≠ c.source then .error (.conflictingDuplicateMetadata c.stableId)
    else
      let exactRanges := existing.exactRanges ++ c.exactRanges
      let entry : UniqueEntry :=
        if c.rawScore > existing.bestRawScore then ⟨c.rawScore, c.source, exactRanges⟩
        else ⟨existing.bestRawScore, existing.bestSource, exactRanges⟩
      .ok (unique.insert (recordKey c) entry)
  | none => .ok (unique.insert (recordKey c) ⟨c.rawScore, c.source, c.exactRanges⟩)

structure PreparedCandidate where
  stableId : String
  channel : CandidateChannel
  retrieverRecordId : String
  rawScore : Int
  exactRanges : List ByteRangeV1
  metadata : MergedMetadata

def compareRanges (left right : ByteRangeV1) : Ordering :=
  (compare left.start right.start).then (compare left.stop right.stop)

def prepareEntry (metadata : MetadataById) (row : RecordKey × UniqueEntry) :
    Except RankingError PreparedCandidate :=
  let (stableId, rest) := ofLex row.1
  let (channel, retrieverRecordId) := ofLex rest
  match metadata.find? stableId with
  | none => .error (.conflictingDuplicateMetadata stableId)
  | some metadata => .ok ⟨stableId, channel, retrieverRecordId, row.2.bestRawScore,
      dedup (sortBy compareRanges row.2.exactRanges), metadata⟩

def prepareCandidates (candidates : List RankingCandidate) :
    Except RankingError (List PreparedCandidate) := do
  let metadata ← candidates.foldlM mergeRow .empty
  let unique ← candidates.foldlM collapseRow .empty
  unique.entries.mapM (prepareEntry metadata)

/-! ## Scoring and fusing -/

def rankTier : CandidateChannel → RankTier
  | .anchor | .exactMessage => .exactMessage
  | .phrase | .span | .burst => .exactPhrase
  | .scope | .entity | .time | .lexical | .lexicalRelaxed | .summary => .approximate

def encodeScore (tier : RankTier) (withinTier : Nat) : Nat :=
  tier.toNat * tierSpan + min withinTier (tierSpan - 1)

abbrev PartitionKey := CandidateChannel ×ₗ SourcePartitionKey

variable (prepared : List PreparedCandidate)

def partitionRows : OrdMap PartitionKey (List PreparedCandidate) :=
  prepared.foldl (fun rows c =>
    rows.upsert (toLex (c.channel, .new c.stableId c.metadata.source)) fun row =>
      row.getD [] ++ [c]) .empty

def comparePrepared (left right : PreparedCandidate) : Ordering :=
  (compare right.rawScore left.rawScore).then
    ((compare right.metadata.knowledgeAtMicros left.metadata.knowledgeAtMicros).then
      (compare left.stableId right.stableId))

structure ScoredFusion where
  tier : RankTier
  withinTierScore : Nat
  ranked : RankedCandidate

def mergeContribution (existing : ScoredFusion) (tier : RankTier) (contribution : Nat)
    (provenance : RetrieverContribution) : ScoredFusion :=
  let ranked := { existing.ranked with
    contributions := existing.ranked.contributions ++ [provenance] }
  if tier.toNat > existing.tier.toNat then ⟨tier, contribution, ranked⟩
  else if tier = existing.tier then ⟨tier, max existing.withinTierScore contribution, ranked⟩
  else ⟨existing.tier, existing.withinTierScore, ranked⟩

abbrev BestById := OrdMap String ScoredFusion

def fuseCandidate (channel : CandidateChannel) (count : Nat) (best : BestById)
    (row : PreparedCandidate × Nat) : BestById :=
  let (candidate, index) := row
  let tier := rankTier channel
  let ordinal := count - index
  let contribution := encodeScore tier (ordinal * (tierSpan - 1) / count)
  let provenance : RetrieverContribution :=
    ⟨channel, candidate.metadata.source, candidate.retrieverRecordId, index, candidate.rawScore,
      contribution, candidate.exactRanges⟩
  best.upsert candidate.stableId fun
    | some existing => mergeContribution existing tier contribution provenance
    | none => ⟨tier, contribution, candidate.metadata.intoRanked contribution provenance⟩

def fusePartition (best : BestById) (partition : PartitionKey × List PreparedCandidate) :
    BestById :=
  let sorted := sortBy comparePrepared partition.2
  sorted.zipIdx.foldl (fuseCandidate (ofLex partition.1).1 sorted.length) best

def compareContributions (left right : RetrieverContribution) : Ordering :=
  (compare (rankTier right.channel).toNat (rankTier left.channel).toNat).then
    ((compare left.channel right.channel).then
      ((compare left.source right.source).then
        (compare left.retrieverOrdinal right.retrieverOrdinal)))

def ScoredFusion.finish (fusion : ScoredFusion) : RankedCandidate :=
  { fusion.ranked with
    normalizedScoreMicros := fusion.withinTierScore
    contributions := sortBy compareContributions fusion.ranked.contributions }

def compareRanked (left right : RankedCandidate) : Ordering :=
  (compare right.normalizedScoreMicros left.normalizedScoreMicros).then
    ((compare right.knowledgeAtMicros left.knowledgeAtMicros).then
      (compare left.stableId right.stableId))

/-! ## Diversity -/

abbrev Counts := OrdMap String Nat

def atLimit (counts : Counts) (key : Option String) (limit : Nat) : Bool :=
  match key with
  | none => false
  | some key => (counts.find? key).getD 0 ≥ limit

def increment (counts : Counts) (key : Option String) : Counts :=
  match key with
  | none => counts
  | some key => counts.upsert key fun count => count.getD 0 + 1

def RankedCandidate.diversityKeys (c : RankedCandidate) : List (Option String) :=
  [c.logicalMessage, c.turn, c.session, c.source, c.evidenceRole]

def DiversityLimits.caps (limits : DiversityLimits) : List Nat :=
  [limits.perLogicalMessage, limits.perTurn, limits.perSession, limits.perSource,
    limits.perEvidenceRole]

/-- The filter with its counters, one for every key. -/
def diversify (limits : DiversityLimits) : List Counts → List RankedCandidate → List RankedCandidate
  | _, [] => []
  | counts, c :: rest =>
    if (counts.zip (c.diversityKeys.zip limits.caps)).any fun (count, key, cap) =>
        atLimit count key cap then
      diversify limits counts rest
    else c :: diversify limits (List.zipWith increment counts c.diversityKeys) rest

def applyDiversity (ranked : List RankedCandidate) (limits : DiversityLimits) :
    List RankedCandidate := diversify limits (List.replicate 5 .empty) ranked

def fuseAll : BestById := (partitionRows prepared).entries.foldl fusePartition .empty

def rankPrepared (limits : DiversityLimits) : List RankedCandidate :=
  applyDiversity (sortBy compareRanked ((fuseAll prepared).values.map (·.finish))) limits

def rankCandidates (candidates : List RankingCandidate) (limits : DiversityLimits) :
    Except RankingError (List RankedCandidate) := do
  let prepared ← prepareCandidates candidates
  .ok (rankPrepared prepared limits)

end TraceDecay.Ranking
