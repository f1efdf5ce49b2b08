import Mathlib.Algebra.Order.Ring.Int
import Mathlib.Data.Finset.Card
import TraceDecay.Domain.Text
import TraceDecay.Lib.Json
import TraceDecay.Lib.Runs

/-!
# Lcm.Messages

Raw session messages, the budget tokens of their texts, and the tool transactions among them
(`replay_transactions.rs`). A message's metadata is the value its JSON parses to.
-/

namespace TraceDecay.Lcm

open Json (Tree)
open Domain (isWhitespace trim)

structure LcmRawMessage where
  storeId : Int
  role : String
  content : List Char
  metadata : Option Tree

/-! ## Budget tokens -/

/-- The whitespace-delimited words of a text. -/
def wordCount (text : List Char) : Nat := Runs.runs (fun c => !isWhitespace c) text

def lcmBudgetTokens (text : List Char) : Int := max (wordCount text) 1

inductive VisibleContent where
  | empty
  | text (text : List Char)
  | textParts (items : List Tree)
  | structured (value : Tree)

def textPart (item : Tree) : Option (List Char) := (item.get "text").bind Tree.asStr

def visibleContent (message : Tree) : VisibleContent :=
  match message.get "content" with
  | none | some .null => .empty
  | some (.string text) => .text text
  | some other =>
    match textPart other with
    | some text => .text text
    | none =>
      match other.asArray with
      | some items => if items.any fun item => (textPart item).isSome then .textParts items
        else .structured other
      | none => .structured other

/-- Texts one after another with an empty line between them. -/
def joinTexts : List (List Char) → List Char
  | [] => []
  | [text] => text
  | text :: next :: more => text ++ '\n' :: '\n' :: joinTexts (next :: more)

def lcmMessageVisibleText (message : Tree) : List Char :=
  match visibleContent message with
  | .empty => []
  | .text text => text
  | .textParts items => joinTexts (items.filterMap textPart)
  | .structured other => other.render

def lcmMessageBudgetTokens (message : Tree) : Int :=
  match visibleContent message with
  | .empty => lcmBudgetTokens []
  | .text text => lcmBudgetTokens text
  | .textParts items => max ((items.filterMap textPart).map wordCount).sum 1
  | .structured other => lcmBudgetTokens other.render

/-! ## Replay messages -/

/-- ASCII letters in lower case. -/
def eqIgnoreAsciiCase (a b : List Char) : Bool := a.map Char.toLower == b.map Char.toLower

def disposableSidecars : List String :=
  ["codex_message_items", "codex_reasoning_items", "reasoning", "reasoning_content",
    "reasoning_details"]

def stripDisposableAssistantReplaySidecars (replay : Tree) (fallbackRole : List Char) : Tree :=
  if eqIgnoreAsciiCase (((replay.get "role").bind Tree.asStr).getD fallbackRole)
      "assistant".toList then
    disposableSidecars.foldl (fun replay key => replay.remove key) replay
  else replay

variable (message : LcmRawMessage)

/-- `active_replay_message_from_metadata`. -/
def activeReplayValue : Option Tree :=
  message.metadata.bind fun metadata =>
    match metadata.get "lcm_active_replay", metadata.get "active_replay" with
    | some (.bool true), some (.object entries) =>
      let replay := Tree.object entries
      let replay := if (replay.get "content").isSome then replay
        else replay.set "content" (.string message.content)
      some (stripDisposableAssistantReplaySidecars replay message.role.toList)
    | _, _ => none

def storeNumber (storeId : Int) : Tree := .number (Json.number storeId)

def rawReplayMessage : Tree :=
  match activeReplayValue message with
  | some replay =>
    (replay.set "role" (.string message.role.toList)).set "store_id" (storeNumber message.storeId)
  | none =>
    .object [("role", .string message.role.toList), ("content", .string message.content),
      ("store_id", storeNumber message.storeId)]

def replayMessageTokens : Int :=
  match activeReplayValue message with
  | some replay =>
    let serialized := (((replay.remove "content").remove "role").remove "store_id").render
    lcmBudgetTokens message.content + ((Utf8.encode serialized).length + 3) / 4
  | none => lcmBudgetTokens message.content

/-! ## Tool transactions -/

def callId (toolCall : Tree) : Option (List Char) := (toolCall.get "id").bind Tree.asStr

def toolCallIds : Option (Finset (List Char)) :=
  (activeReplayValue message).bind fun replay =>
    ((replay.get "tool_calls").bind Tree.asArray).map fun toolCalls =>
      ((toolCalls.filterMap callId).filter (· ≠ [])).toFinset

def toolResultId : Option (List Char) :=
  (activeReplayValue message).bind fun replay =>
    ((replay.get "tool_call_id").bind Tree.asStr).filter (· ≠ [])

def isTool : Bool := message.role == "tool"

/-- The length of the transaction that `message` starts before `rest`: the results of its calls are
exactly the tool messages that follow. -/
def transactionLen (rest : List LcmRawMessage) : Option Nat :=
  match toolCallIds message with
  | none => none
  | some expectedIds =>
    if message.role ≠ "assistant" ∨ expectedIds = ∅ then none
    else
      let results := rest.takeWhile isTool
      let foundIds := (results.filterMap toolResultId).toFinset
      if foundIds = expectedIds ∧ results.length = foundIds.card then some (results.length + 1)
      else none

/-- The transactions of `messages`, the first of which stands at `index`. The source goes on behind a
transaction; the tool messages in it start none. -/
def transactionRangesFrom : Nat → List LcmRawMessage → List (Nat × Nat)
  | _, [] => []
  | index, message :: rest =>
    ((transactionLen message rest).map fun len => (index, index + len)).toList ++
      transactionRangesFrom (index + 1) rest

variable (messages : List LcmRawMessage)

def transactionRanges : List (Nat × Nat) := transactionRangesFrom 0 messages

/-- Moves a boundary that bisects a transaction back to its start. -/
def atomicBoundary (requested : Nat) : Nat :=
  (transactionRanges messages).foldl
    (fun boundary range => if range.1 < boundary ∧ boundary < range.2 then range.1 else boundary)
    (min requested messages.length)

def boundedAtomicPrefixLen (requestedLen : Nat) : Nat := atomicBoundary messages requestedLen

def atomicTailStart (requestedStart : Nat) : Nat := atomicBoundary messages requestedStart

/-- One complete leading transaction, or one message. -/
def firstAtomicUnitLen : Nat :=
  min ((((transactionRanges messages).find? fun range => range.1 = 0).map (·.2)).getD 1)
    messages.length

/-- Replay-selection units: transactions and single messages, without orphan results and without
calls that say nothing. -/
def replayUnits : List LcmRawMessage → List (List LcmRawMessage)
  | [] => []
  | message :: rest =>
    match transactionLen message rest with
    -- the results in `rest` are tool messages, which the recursion drops
    | some len => (message :: rest.take (len - 1)) :: replayUnits rest
    | none =>
      if isTool message then replayUnits rest
      else if (toolCallIds message).isSome ∧ trim message.content = [] ∧ rest ≠ [] then
        replayUnits rest
      else [message] :: replayUnits rest

def tokenCount (unit : List LcmRawMessage) : Int := (unit.map replayMessageTokens).sum

end TraceDecay.Lcm
