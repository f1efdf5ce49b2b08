import TraceDecay.Lcm.Messages
import TraceDecay.Lib.Sorting

/-!
# Lcm.Assembly

How a replay is put together under a token cap (`compression.rs`), and how its tool calls and
results are paired in the end (`normalize_replay_tool_pairs`). Sums of token counts stay far below
the range of `i64`; the one difference that can leave it wraps around.
-/

namespace TraceDecay.Lcm

open Json (Tree)
open Domain (isWhitespace)
open Sorting (sortBy)

def preservedTodoContextPrefix : List Char :=
  "[Your active task list was preserved across context compression]".toList

def preservedObjectiveContextPrefix : List Char :=
  "[Current user objective preserved from compacted history]".toList

structure LcmUncondensedSummaryNode where
  nodeId : List Char
  depth : Int
  summaryText : List Char
  firstSourceStoreId : Option Int

/-! ## Pairing calls and results -/

variable (message : Tree)

def messageRole : List Char := ((message.get "role").bind Tree.asStr).getD []

def isToolMessage : Bool := messageRole message == "tool".toList

def resultId : Option (List Char) := (message.get "tool_call_id").bind Tree.asStr

def callsOf : List Tree := ((message.get "tool_calls").bind Tree.asArray).getD []

/-- One call of the message and one result in the run behind it have the id. -/
def paired (calls results : List Tree) (id : Option (List Char)) : Bool :=
  id.any fun id => decide ((calls.filterMap callId).count id = 1) &&
    decide ((results.filterMap resultId).count id = 1)

/-- The last message, whose calls are still open. -/
def openCalls (rest : List Tree) : Bool :=
  rest.isEmpty && !((callsOf message).filterMap callId).isEmpty &&
    ((callsOf message).filterMap callId).all (· ≠ []) &&
    decide ((callsOf message).filterMap callId).Nodup

/-- A message with calls, and the results behind it that it keeps. -/
def pairCalls (results : List Tree) : List Tree :=
  let keptCalls := (callsOf message).filter fun call =>
    paired (callsOf message) results (callId call)
  if keptCalls.isEmpty then
    let message := message.remove "tool_calls"
    if Domain.trim (lcmMessageVisibleText message) = [] then [] else [message]
  else
    message.set "tool_calls" (.array keptCalls) ::
      results.filter fun result => paired (callsOf message) results (resultId result)

/-- The source goes on behind the results of a message with calls; tool messages that are left over
are dropped here all the same. -/
def normalizeReplayToolPairs : List Tree → List Tree
  | [] => []
  | message :: rest =>
    if isToolMessage message then normalizeReplayToolPairs rest
    else if messageRole message ≠ "assistant".toList ∨ (message.get "tool_calls").isNone then
      message :: normalizeReplayToolPairs rest
    else if openCalls message rest then [message]
    else pairCalls message (rest.takeWhile isToolMessage) ++ normalizeReplayToolPairs rest

/-! ## Selecting under a cap -/

def isBudgetDroppableTailMessage (message : LcmRawMessage) : Bool :=
  (message.role == "assistant" || message.role == "tool") &&
    !decide (preservedTodoContextPrefix <:+: message.content) &&
    !decide (preservedObjectiveContextPrefix <:+: message.content)

/-- The loop of `select_budget_tail` over the units from the newest one on: the kept units and their
tokens. -/
def budgetTail (used cap : Int) : List (List LcmRawMessage) → Int → Bool →
    List (List LcmRawMessage) × Int
  | [], tailTokens, _ => ([], tailTokens)
  | unit :: units, tailTokens, skippedGap =>
    if cap < used + tailTokens + tokenCount unit then
      if unit.all isBudgetDroppableTailMessage then budgetTail used cap units tailTokens true
      else ([], tailTokens)
    else if skippedGap then ([], tailTokens)
    else
      let older := budgetTail used cap units (tailTokens + tokenCount unit) false
      (unit :: older.1, older.2)

def selectBudgetTail (raws : List LcmRawMessage) (used cap : Int) : List LcmRawMessage × Int :=
  let kept := budgetTail used cap (replayUnits raws).reverse 0 false
  (kept.1.reverse.flatten, kept.2)

def startsWith (start text : List Char) : Bool := start.isPrefixOf (text.dropWhile isWhitespace)

def isPreservedTodoContextMessage (content : List Char) : Bool :=
  startsWith preservedTodoContextPrefix content

def preservedObjectiveContextContent (content : List Char) : Option (List Char) :=
  if startsWith preservedObjectiveContextPrefix content then some content else none

/-- The loop of `latest_user_context_anchor` over the messages from the newest one on. -/
def contextAnchor (selectedTail : List LcmRawMessage) :
    List LcmRawMessage → Option (Int × List Char × Bool)
  | [] => none
  | message :: older =>
    match preservedObjectiveContextContent message.content with
    | some preserved =>
      if selectedTail.any fun selected =>
          preservedObjectiveContextContent selected.content == some preserved then none
      else some (message.storeId, preserved, true)
    | none =>
      if message.role ≠ "user" then contextAnchor selectedTail older
      else if isPreservedTodoContextMessage message.content then contextAnchor selectedTail older
      else if selectedTail.any fun selected => selected.storeId == message.storeId then none
      else some (message.storeId, preservedObjectiveContextPrefix ++ '\n' :: message.content, false)

def latestUserContextAnchor (raws selectedTail : List LcmRawMessage) :
    Option (Int × List Char × Bool) := contextAnchor selectedTail raws.reverse

/-- The summaries that claim the budget, with their places. -/
def claimBudget (budget : Int) : List (LcmUncondensedSummaryNode × Nat) → Int →
    List (LcmUncondensedSummaryNode × Nat)
  | [], _ => []
  | entry :: entries, used =>
    if budget < used + lcmBudgetTokens entry.1.summaryText then claimBudget budget entries used
    else entry :: claimBudget budget entries (used + lcmBudgetTokens entry.1.summaryText)

/-- Deeper summaries claim the budget first; what does not fit is skipped. -/
def selectBudgetSummaries (summaries : List LcmUncondensedSummaryNode) (summaryBudget : Int) :
    List LcmUncondensedSummaryNode :=
  let byDepth := sortBy (fun a b => compare b.1.depth a.1.depth) summaries.zipIdx
  let selected := (claimBudget summaryBudget byDepth 0).map (·.2)
  (summaries.zipIdx.filter fun entry => entry.2 ∈ selected).map (·.1)

/-! ## Assembling -/

/-- The preserved objective, where it is there already or fits the budget, and the budget left. -/
def chargeObjective (budget : Int) : Option (Int × List Char × Bool) →
    Option (Int × List Char) × Int
  | none => (none, budget)
  | some (storeId, part, true) => (some (storeId, part), budget)
  | some (storeId, part, false) =>
    if lcmBudgetTokens part ≤ budget then (some (storeId, part), budget - lcmBudgetTokens part)
    else (none, budget)

structure Selection where
  raws : List LcmRawMessage
  summaries : List LcmUncondensedSummaryNode
  objective : Option (Int × List Char)

def wrapI64 (value : Int) : Int := (value + 0x8000000000000000) % 0x10000000000000000 -
  0x8000000000000000

variable (anchors : List LcmRawMessage)

def anchorTokens : Int := (anchors.map fun message => lcmBudgetTokens message.content).sum

def selectReplay (summaries : List LcmUncondensedSummaryNode)
    (raws anchorSource : List LcmRawMessage) : Option Int → Selection
  | none =>
    ⟨(replayUnits raws).flatten, summaries,
      (latestUserContextAnchor anchorSource raws).map fun anchor => (anchor.1, anchor.2.1)⟩
  | some cap =>
    let used := anchorTokens anchors
    let tail := selectBudgetTail raws used cap
    let charged := chargeObjective (max (wrapI64 (cap - used - tail.2)) 0)
      (latestUserContextAnchor anchorSource tail.1)
    ⟨tail.1, selectBudgetSummaries summaries charged.2, charged.1⟩

structure ReplayItem where
  storeId : Int
  priority : Nat
  message : Tree

def summaryReplayMessage (summary : LcmUncondensedSummaryNode) : Tree :=
  .object [("role", .string "system".toList), ("content", .string summary.summaryText),
    ("lcm_summary_node_id", .string summary.nodeId)]

def objectiveReplayMessage (objective : List Char) : Tree :=
  .object [("role", .string "system".toList), ("content", .string objective)]

def rawItem (message : LcmRawMessage) : ReplayItem := ⟨message.storeId, 1, rawReplayMessage message⟩

def replayItems (selection : Selection) : List ReplayItem :=
  anchors.map rawItem ++ (selection.summaries.map fun summary =>
      ⟨summary.firstSourceStoreId.getD 0x7FFFFFFFFFFFFFFF, 0, summaryReplayMessage summary⟩) ++
    (selection.objective.map fun objective =>
      ⟨objective.1, 0, objectiveReplayMessage objective.2⟩).toList ++
    selection.raws.map rawItem

def assembleReplayMessages (summaries : List LcmUncondensedSummaryNode)
    (raws anchorSource : List LcmRawMessage) (maxAssemblyTokens : Option Int) : List Tree :=
  let items := replayItems anchors (selectReplay anchors summaries raws anchorSource maxAssemblyTokens)
  let sorted := sortBy
    (fun a b => (compare a.storeId b.storeId).then (compare a.priority b.priority)) items
  normalizeReplayToolPairs (sorted.map (·.message))

end TraceDecay.Lcm
