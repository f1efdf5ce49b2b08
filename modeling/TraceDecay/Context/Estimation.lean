import TraceDecay.Lib.Occurrences
import TraceDecay.Lib.Runs
import TraceDecay.Domain.Text

/-!
# Context.Estimation

Token summaries of compact contexts (`context/estimation.rs`). A `&str` is the list of its
characters and `Utf8.encode` its bytes. `scan` summarises one fragment, `concatenate` joins the
summaries of neighbouring fragments, `tokens` reads the count off. Counters are `u64` and every
addition is checked. The execution control is not modelled: its checkpoints read no summary and
change none, so these are the runs in which no checkpoint interrupts.
-/

namespace TraceDecay.Context

open Utf8 Occurrences Domain

inductive TokenPolicy where
  | whitespace
  | characters
  | substring (pattern : List Char)
  | jsonDocument
deriving DecidableEq

inductive ContextError where
  | estimatorVersionMismatch
  | budgetExceeded (resource : String)
  | invalidBundle (message : String)
deriving DecidableEq

def tokenScanChunkBytes : Nat := 4 * 1024

def maxTokenPatternBytes : Nat := 64

/-- `u64::checked_add`, reported as an exceeded budget. -/
def checkedAdd (resource : String) (a b : Nat) : Except ContextError Nat :=
  if a + b < 2 ^ 64 then .ok (a + b) else .error (.budgetExceeded resource)

/-- The edge arrays of the source are the lists of their used bytes; the unused ones are zero. -/
inductive TokenSummary where
  | whitespace (tokens : Nat) (startsToken endsToken empty : Bool)
  | characters (count : Nat)
  | substring (pattern : List Char) (matchCount : Nat) (prefixBytes suffixBytes : List UInt8)
      (totalLen : Nat)
  | jsonDocument (first last : Option Char)
deriving DecidableEq

def validateTokenPattern (pattern : List Char) : Except ContextError Unit :=
  if pattern = [] ∨ (encode pattern).length > maxTokenPatternBytes ∨
      ¬ pattern.all (fun c => c.toNat < 128) then
    .error (.invalidBundle "token substring pattern must be bounded non-empty ASCII")
  else .ok ()

def countSubstrings (bytes pattern : List UInt8) : Nat :=
  if bytes.length < pattern.length then 0
  else ((windows pattern.length bytes).filter (· = pattern)).length

def countCrossingSubstrings (bytes : List UInt8) (boundary : Nat) (pattern : List UInt8) : Nat :=
  if bytes.length < pattern.length then 0
  else ((windows pattern.length bytes).zipIdx.filter fun (window, start) =>
    start < boundary ∧ boundary < start + pattern.length ∧ window = pattern).length

namespace TokenSummary

def empty : TokenPolicy → Except ContextError TokenSummary
  | .whitespace => .ok (.whitespace 0 false false true)
  | .characters => .ok (.characters 0)
  | .substring pattern => do
    validateTokenPattern pattern
    .ok (.substring pattern 0 [] [] 0)
  | .jsonDocument => .ok (.jsonDocument none none)

/-- The locals of the whitespace scan. -/
structure WordScan where
  tokens : Nat := 0
  startsToken : Bool := false
  endsToken : Bool := false
  inToken : Bool := false
  first : Bool := true

def WordScan.step (scan : WordScan) (character : Char) : Except ContextError WordScan := do
  let token := !isWhitespace character
  let startsToken := if scan.first then token else scan.startsToken
  let counted :=
    if token && !scan.inToken then checkedAdd "token" scan.tokens 1 else .ok scan.tokens
  let tokens ← counted
  .ok ⟨tokens, startsToken, token, token, false⟩

def scan (policy : TokenPolicy) (fragment : List Char) : Except ContextError TokenSummary := do
  let _ ← empty policy
  match policy with
  | .whitespace =>
    let words ← fragment.foldlM WordScan.step {}
    .ok (.whitespace words.tokens words.startsToken words.endsToken words.first)
  | .characters =>
    let count ← fragment.foldlM (fun count _ => checkedAdd "token" count 1) 0
    .ok (.characters count)
  | .substring pattern =>
    let bytes := encode fragment
    let matchCount ← (chunks tokenScanChunkBytes bytes).foldlM
      (fun found chunk => checkedAdd "token" found (countSubstrings chunk (encode pattern))) 0
    let keep := (encode pattern).length - 1
    let edgeLen := min keep bytes.length
    .ok (.substring pattern matchCount (bytes.take edgeLen) (bytes.drop (bytes.length - edgeLen))
      bytes.length)
  | .jsonDocument =>
    let (first, last) := fragment.foldl (fun (edges : Option Char × Option Char) character =>
        (if edges.1.isNone then some character else edges.1, some character)) (none, none)
    .ok (.jsonDocument first last)

def concatenate : TokenSummary → TokenSummary → Except ContextError TokenSummary
  | .whitespace leftTokens leftStarts leftEnds leftEmpty,
    .whitespace rightTokens rightStarts rightEnds rightEmpty =>
    if leftEmpty then .ok (.whitespace rightTokens rightStarts rightEnds rightEmpty)
    else if rightEmpty then .ok (.whitespace leftTokens leftStarts leftEnds leftEmpty)
    else do
      let joined := (leftEnds && rightStarts).toNat
      let sum ← checkedAdd "token" leftTokens rightTokens
      if sum < joined then .error (.budgetExceeded "token")
      else .ok (.whitespace (sum - joined) leftStarts rightEnds false)
  | .characters left, .characters right => do
    let count ← checkedAdd "token" left right
    .ok (.characters count)
  | .substring pattern leftMatches leftPrefix leftSuffix leftLen,
    .substring rightPattern rightMatches rightPrefix rightSuffix rightLen =>
    if pattern = rightPattern then do
      let crossing := countCrossingSubstrings (leftSuffix ++ rightPrefix) leftSuffix.length
        (encode pattern)
      let totalLen ← checkedAdd "token" leftLen rightLen
      let keep := (encode pattern).length - 1
      let prefixLen := min keep totalLen
      let prefixBytes :=
        if leftLen ≥ prefixLen then leftPrefix.take prefixLen
        else leftPrefix ++ rightPrefix.take (prefixLen - leftPrefix.length)
      let suffixLen := min keep totalLen
      let suffixBytes :=
        if rightLen ≥ suffixLen then rightSuffix.take suffixLen
        else
          let leftCount := suffixLen - rightSuffix.length
          leftSuffix.drop (leftSuffix.length - leftCount) ++ rightSuffix
      let sum ← checkedAdd "token" leftMatches rightMatches
      let matchCount ← checkedAdd "token" sum crossing
      .ok (.substring pattern matchCount prefixBytes suffixBytes totalLen)
    else .error (.invalidBundle "token summary policies do not match")
  | .jsonDocument leftFirst leftLast, .jsonDocument rightFirst rightLast =>
    .ok (.jsonDocument (leftFirst.or rightFirst) (rightLast.or leftLast))
  | _, _ => .error (.invalidBundle "token summary policies do not match")

def tokens : TokenSummary → Nat
  | .whitespace tokens _ _ _ => tokens
  | .characters count => count
  | .substring _ matchCount _ _ _ => matchCount
  | .jsonDocument first last => if first = some '\x7b' ∧ last = some '\x7d' then 0 else 1

end TokenSummary

end TraceDecay.Context
