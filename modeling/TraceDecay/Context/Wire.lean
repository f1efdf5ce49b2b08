import TraceDecay.Context.Estimation

/-!
# Context.Wire

The streaming writer of `context/wire.rs`: serializer output is collected in a pending buffer,
and whenever that holds a scan chunk its whole characters are scanned and joined to the measure.
A failed `write` leaves the writer as it was at the failure, because `finish` still reads it.
-/

namespace TraceDecay.Context

open Utf8

def maxContextOutputBytes : Nat := 1024 * 1024

structure WireMeasure where
  bytes : Nat
  summary : TokenSummary

namespace WireMeasure

def empty (policy : TokenPolicy) : Except ContextError WireMeasure := do
  let summary ← TokenSummary.empty policy
  .ok ⟨0, summary⟩

def concatenate (left right : WireMeasure) : Except ContextError WireMeasure := do
  let bytes ← checkedAdd "byte" left.bytes right.bytes
  let summary ← left.summary.concatenate right.summary
  .ok ⟨bytes, summary⟩

def tokens (m : WireMeasure) : Nat := m.summary.tokens

end WireMeasure

structure StreamingWriter where
  measure : WireMeasure
  output : Option (List Char)
  pending : List UInt8
  invalidUtf8 : Bool
  policy : TokenPolicy

def pendingCapacity : Nat := tokenScanChunkBytes + 3

namespace StreamingWriter

/-- An `io::Result` and the writer it leaves. -/
abbrev Io := Except String Unit × StreamingWriter

def measuring (policy : TokenPolicy) : Except ContextError StreamingWriter := do
  let measure ← WireMeasure.empty policy
  .ok ⟨measure, none, [], false, policy⟩

def collecting (policy : TokenPolicy) (exactBytes : Nat) : Except ContextError StreamingWriter := do
  if exactBytes > maxContextOutputBytes then .error (.budgetExceeded "byte")
  else
    let writer ← measuring policy
    .ok { writer with output := some [] }

variable (w : StreamingWriter)

def processPendingPrefix (len : Nat) : Io :=
  match decode (w.pending.take len) with
  | none => (.error "invalid UTF-8 prefix", w)
  | some fragment =>
    match TokenSummary.scan w.policy fragment with
    | .error _ => (.error "compact context token scan failed", w)
    | .ok scanned =>
      match w.measure.summary.concatenate scanned with
      | .error _ => (.error "compact context token accounting overflow", w)
      | .ok summary =>
        (.ok (), { w with
          measure := { w.measure with summary }
          output := w.output.map (· ++ fragment) })

def consumePending (consume : Nat) : Io :=
  match w.processPendingPrefix consume with
  | (.error e, w) => (.error e, w)
  | (.ok (), w) => (.ok (), { w with pending := w.pending.drop consume })

/-- The loop of `process_pending` runs at most once: it ends with nothing pending, with the cut
character that stays behind, or with an error. -/
def processPending (finalChunk : Bool) : Io :=
  if w.pending = [] then (.ok (), w)
  else
    let invalid : Io := (.error "canonical context is not UTF-8", { w with invalidUtf8 := true })
    match validate w.pending with
    | (_, .complete) => w.consumePending w.pending.length
    | (valid, .truncated) =>
      if finalChunk then invalid else if valid = 0 then (.ok (), w) else w.consumePending valid
    | (_, .malformed) => invalid

/-- The loop of `write`. Every pass takes at least one byte of what remains, or the buffer is full
of a single character, which cannot be; the length of the buffer is fuel enough. -/
def writeLoop : Nat → StreamingWriter → List UInt8 → Io
  | 0, w, _ => (.ok (), w)
  | fuel + 1, w, remaining =>
    if remaining = [] then (.ok (), w)
    else
      let available := pendingCapacity - w.pending.length
      let take := min available remaining.length
      let w := { w with pending := w.pending ++ remaining.take take }
      let remaining := remaining.drop take
      if w.pending.length ≥ tokenScanChunkBytes then
        match w.processPending false with
        | (.error e, w) => (.error e, w)
        | (.ok (), w) => writeLoop fuel w remaining
      else writeLoop fuel w remaining

def write (buffer : List UInt8) : Io :=
  match checkedAdd "byte" w.measure.bytes buffer.length with
  | .error _ => (.error "compact context byte accounting overflow", w)
  | .ok bytes =>
    writeLoop buffer.length { w with measure := { w.measure with bytes } } buffer

/-- A serializer's calls, up to the first that fails. -/
def writeAll : StreamingWriter → List (List UInt8) → Io
  | w, [] => (.ok (), w)
  | w, buffer :: buffers =>
    match w.write buffer with
    | (.error e, w) => (.error e, w)
    | (.ok (), w) => w.writeAll buffers

def finish (result : Except String Unit) : Except ContextError (WireMeasure × Option (List Char)) :=
  let (pendingResult, w) := w.processPending true
  if w.invalidUtf8 then .error (.invalidBundle "canonical context was not UTF-8")
  else
    match result, pendingResult with
    | .error e, _ => .error (.invalidBundle e)
    | .ok (), .error e => .error (.invalidBundle e)
    | .ok (), .ok () => .ok (w.measure, w.output)

end StreamingWriter

/-- What a measuring writer reports after the given write calls. -/
def measureWrites (policy : TokenPolicy) (writes : List (List UInt8)) :
    Except ContextError WireMeasure := do
  let writer ← StreamingWriter.measuring policy
  let (result, writer) := writer.writeAll writes
  let (measure, _) ← writer.finish result
  .ok measure

end TraceDecay.Context
