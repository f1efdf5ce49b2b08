import TraceDecay.Lcm.Messages

/-!
# Lcm.Compression

Compression passes over a session (`compression.rs`, `compression_policy.rs`): which messages a pass
may summarise, and the chunks it cuts from them. A run keeps the history and what every pass did.
-/

namespace TraceDecay.Lcm

/-- What a request says of the fresh tail, of pressure and of the chunks. -/
structure CompressionLimits where
  freshTailCount : Option Nat
  (currentTokens thresholdTokens leafChunkTokens : Option Int)
  dynamicLeafChunkEnabled : Option Bool
  dynamicLeafChunkMax : Option Int
  maxSourceMessages : Option Nat
  forcedOverflowRecovery : Bool

def isPolicyAnchorRole (role : String) : Bool := role == "system" || role == "developer"

def lcmDefaultFreshTailCount : Nat := 2

def maxForcedCatchupPasses : Nat := 4

def thresholdPressure : Option Int → Option Int → Bool
  | some currentTokens, some thresholdTokens =>
    0 < thresholdTokens && thresholdTokens ≤ currentTokens
  | _, _ => false

structure CompressionWindow where
  (pinnedAnchors backlog freshTail : List LcmRawMessage)

def unsummarized (rawMessages : List LcmRawMessage) (frontier : Option Int) : List LcmRawMessage :=
  rawMessages.dropWhile fun message => message.storeId ≤ frontier.getD 0

/-- How many of them come before the fresh tail. -/
def backlogLen (messages : List LcmRawMessage) (limits : CompressionLimits) : Nat :=
  let configured := limits.freshTailCount.getD lcmDefaultFreshTailCount
  let effective :=
    if 1 < messages.length ∧ thresholdPressure limits.currentTokens limits.thresholdTokens then
      min configured (messages.length - 1)
    else configured
  atomicTailStart messages (messages.length - effective)

def compressionWindow (rawMessages : List LcmRawMessage) (frontier : Option Int)
    (limits : CompressionLimits) : CompressionWindow :=
  let messages := unsummarized rawMessages frontier
  let freshTail := messages.drop (backlogLen messages limits)
  { pinnedAnchors := rawMessages.filter fun message =>
      message.storeId < (freshTail.head?.map (·.storeId)).getD 0x7FFFFFFFFFFFFFFF &&
        isPolicyAnchorRole message.role
    backlog := (messages.take (backlogLen messages limits)).filter fun message =>
      !isPolicyAnchorRole message.role
    freshTail }

variable (backlog : List LcmRawMessage)

def sourceTokenCount : Int := (backlog.map fun message => lcmBudgetTokens message.content).sum

def saturatingDouble (value : Int) : Int := min (value * 2) 0x7FFFFFFFFFFFFFFF

/-- The doubling of the working limit; 64 doublings reach any ceiling. -/
def growChunk (ceiling outside : Int) : Nat → Int → Int
  | 0, working => working
  | fuel + 1, working =>
    if working < ceiling ∧ saturatingDouble working < outside then
      growChunk ceiling outside fuel (min ceiling (saturatingDouble working))
    else working

def effectiveLeafChunkTokens (limits : CompressionLimits) (rawTokensOutsideTail : Int) : Option Int :=
  if limits.dynamicLeafChunkEnabled.getD false then
    let base := max (limits.leafChunkTokens.getD 1) 1
    let ceiling := max (limits.dynamicLeafChunkMax.getD base) base
    some (growChunk ceiling rawTokensOutsideTail 64 base)
  else limits.leafChunkTokens

/-- How many messages fit the token limit, after `selectedTokens`. -/
def fittingLen (tokenLimit : Option Int) : List LcmRawMessage → Int → Nat
  | [], _ => 0
  | message :: rest, selectedTokens =>
    let total := selectedTokens + lcmBudgetTokens message.content
    if tokenLimit.any (· < total) then 0 else fittingLen tokenLimit rest total + 1

def boundedLeafChunkLen (leafChunkTokens : Option Int) (maxSourceMessages : Option Nat) : Nat :=
  if backlog = [] then 0
  else if leafChunkTokens = none ∧ maxSourceMessages = none then backlog.length
  else
    let maxMessages := min ((maxSourceMessages.filter (0 < ·)).getD backlog.length) backlog.length
    boundedAtomicPrefixLen backlog
      (fittingLen (leafChunkTokens.filter (0 < ·)) (backlog.take maxMessages) 0)

def progressLeafChunkLen (leafChunkTokens : Option Int) (maxSourceMessages : Option Nat) : Nat :=
  let selectedLen := boundedLeafChunkLen backlog leafChunkTokens maxSourceMessages
  if selectedLen = 0 ∧ backlog ≠ [] then firstAtomicUnitLen backlog else selectedLen

/-- The chunk a pass cuts from the backlog next. -/
def chunkLen (limits : CompressionLimits) (backlog : List LcmRawMessage) : Nat :=
  progressLeafChunkLen backlog (effectiveLeafChunkTokens limits (sourceTokenCount backlog))
    limits.maxSourceMessages

/-- The loop of `persist_compression_transaction_writes`: the sources of the summaries it creates. -/
def createdSummaries (limits : CompressionLimits) : Nat → List LcmRawMessage →
    List (List LcmRawMessage)
  | 0, _ => []
  | _ + 1, [] => []
  | passes + 1, message :: rest =>
    (message :: rest).take (chunkLen limits (message :: rest)) ::
      createdSummaries limits passes ((message :: rest).drop (chunkLen limits (message :: rest)))

/-! ## Runs -/

/-- What a pass did: the history it saw, the first message of its fresh tail and its summaries. -/
structure PassRecord where
  history : List LcmRawMessage
  tailStart : Option Int
  created : List (List LcmRawMessage)

structure Session where
  history : List LcmRawMessage
  frontier : Option Int
  passes : List PassRecord

namespace Session

def empty : Session := ⟨[], none, []⟩

def summaries (s : Session) : List (List LcmRawMessage) := s.passes.flatMap (·.created)

def lastStoreId (messages : List LcmRawMessage) : Option Int := messages.getLast?.map (·.storeId)

def compress (s : Session) (limits : CompressionLimits) : Session :=
  let window := compressionWindow s.history s.frontier limits
  let created := createdSummaries limits
    (if limits.forcedOverflowRecovery then maxForcedCatchupPasses else 1) window.backlog
  { s with
    frontier := (lastStoreId created.flatten).or s.frontier
    passes := s.passes ++ [⟨s.history, window.freshTail.head?.map (·.storeId), created⟩] }

end Session

/-- Passes over a growing history whose store ids increase. -/
inductive Compressed : Session → Prop
  | empty : Compressed .empty
  | append {s : Session} (messages : List LcmRawMessage) : Compressed s →
    (s.history ++ messages).Pairwise (fun a b => a.storeId < b.storeId) →
    Compressed { s with history := s.history ++ messages }
  | pass {s : Session} (limits : CompressionLimits) : Compressed s → Compressed (s.compress limits)

end TraceDecay.Lcm
