/-!
# Framing.Reader

The bounded line reader of `tracedecay-framing`. The buffered transport hands out non-empty
chunks and may suspend or fail between them (`BufSource`); `BoundedLineReader` owns the partial
frame, so that a read future dropped at a suspension point loses nothing.

* `readTurn` is one pass through the loop of `read_bounded`.
* `pollReadBounded` polls the read future once: it passes through the loop until the transport
  suspends or the read returns.
* `Session` is a caller that polls its read future, drops it, and starts the next one.
-/

namespace TraceDecay.Framing

def newline : UInt8 := 10

def carriageReturn : UInt8 := 13

/-- Max leading bytes retained on oversized frames. -/
def mcpOversizeIdInspectBytes : Nat := 4096

inductive IoError where
  | wireInputNotUtf8
  | transport (code : Nat)
deriving DecidableEq

/-! ## The buffered transport -/

/-- What the transport does when it is polled with an empty buffer. -/
inductive Arrival where
  | pending
  | chunk (bytes : List UInt8) (nonempty : bytes ≠ [])
  | failed (code : Nat)
deriving DecidableEq

def Arrival.bytes : Arrival → List UInt8
  | .chunk bytes _ => bytes
  | _ => []

/-- The byte stream a list of arrivals delivers. -/
def delivered (arrivals : List Arrival) : List UInt8 := arrivals.flatMap Arrival.bytes

structure BufSource where
  buffered : List UInt8
  arrivals : List Arrival

/-- Everything the transport has still to hand out. -/
def BufSource.rest (s : BufSource) : List UInt8 := s.buffered ++ delivered s.arrivals

inductive Poll (α : Type) where
  | pending
  | ready (value : α)

/-- `fill_buf`: the buffered bytes, refilled from the transport when there are none. At the end
of the stream it hands out the empty buffer. -/
def BufSource.fillBuf (s : BufSource) : Poll (Except IoError (List UInt8)) × BufSource :=
  if s.buffered ≠ [] then (.ready (.ok s.buffered), s)
  else
    match s.arrivals with
    | [] => (.ready (.ok []), s)
    | .pending :: more => (.pending, { s with arrivals := more })
    | .failed code :: more => (.ready (.error (.transport code)), { s with arrivals := more })
    | .chunk bytes _ :: more => (.ready (.ok bytes), ⟨bytes, more⟩)

def BufSource.consume (s : BufSource) (amount : Nat) : BufSource :=
  { s with buffered := s.buffered.drop amount }

/-! ## The reader -/

inductive BoundedLineOutcome where
  | ready (line : Option String)
  | oversized (inspectPrefix : List UInt8)
deriving DecidableEq

structure BoundedLineReader where
  inner : BufSource
  retained : List UInt8
  oversized : Bool
  inspectPrefix : List UInt8

def BoundedLineReader.new (inner : BufSource) : BoundedLineReader := ⟨inner, [], false, []⟩

def captureInspectPrefix (retained next : List UInt8) : List UInt8 :=
  let out := retained.take (min retained.length mcpOversizeIdInspectBytes)
  if out.length < mcpOversizeIdInspectBytes then
    let need := mcpOversizeIdInspectBytes - out.length
    out ++ next.take (min need next.length)
  else out

def takeLineString (bytes : List UInt8) : Except IoError String :=
  let bytes := if bytes.getLast? = some carriageReturn then bytes.dropLast else bytes
  match String.fromUTF8? ⟨bytes.toArray⟩ with
  | some text => .ok text
  | none => .error .wireInputNotUtf8

namespace BoundedLineReader

abbrev Finished := Except IoError BoundedLineOutcome × BoundedLineReader

variable (self : BoundedLineReader)

def takeOversized : BoundedLineOutcome × BoundedLineReader :=
  (.oversized self.inspectPrefix, { self with oversized := false, inspectPrefix := [] })

def takeLine : Except IoError String × BoundedLineReader :=
  (takeLineString self.retained, { self with retained := [] })

def finishFrame : Finished :=
  if self.oversized then
    let (outcome, self) := self.takeOversized
    (.ok outcome, self)
  else
    let (line, self) := self.takeLine
    (line.map fun text => .ready (some text), self)

def finishAtEof : Finished :=
  if self.oversized then
    let (outcome, self) := self.takeOversized
    (.ok outcome, self)
  else if self.retained = [] then (.ok (.ready none), self)
  else
    let (line, self) := self.takeLine
    (line.map fun text => .ready (some text), self)

/-- Fold the content bytes of one chunk into the partial frame. -/
def retain (maxBytes : Nat) (content : List UInt8) : BoundedLineReader :=
  if self.oversized then self
  else
    let room := maxBytes - self.retained.length
    if content.length > room then
      { self with
        inspectPrefix := captureInspectPrefix self.retained content
        oversized := true
        retained := [] }
    else { self with retained := self.retained ++ content }

end BoundedLineReader

/-- How one pass through the read loop ends. -/
inductive Turn where
  | suspended (self : BoundedLineReader)
  | returned (result : Except IoError BoundedLineOutcome) (self : BoundedLineReader)
  | again (self : BoundedLineReader)

def readTurn (maxBytes : Nat) (self : BoundedLineReader) : Turn :=
  match self.inner.fillBuf with
  | (.pending, inner) => .suspended { self with inner }
  | (.ready (.error e), inner) => .returned (.error e) { self with inner }
  | (.ready (.ok available), inner) =>
    let self := { self with inner }
    if available = [] then
      let (result, self) := self.finishAtEof
      .returned result self
    else
      let newlineAt := available.findIdx? (· == newline)
      let chunkLen := newlineAt.elim available.length (· + 1)
      let contentLen := newlineAt.getD chunkLen
      let self := self.retain maxBytes (available.take contentLen)
      let self := { self with inner := self.inner.consume chunkLen }
      if newlineAt.isSome then
        let (result, self) := self.finishFrame
        .returned result self
      else .again self

/-- The read loop. A pass that goes round again has emptied the buffer, so that the passes of one
poll are bounded by the arrivals left; `pollReadBounded` gives it that fuel. -/
def readLoop (maxBytes : Nat) :
    Nat → BoundedLineReader → Poll (Except IoError BoundedLineOutcome) × BoundedLineReader
  | 0, self => (.pending, self)
  | fuel + 1, self =>
    match readTurn maxBytes self with
    | .suspended self => (.pending, self)
    | .returned result self => (.ready result, self)
    | .again self => readLoop maxBytes fuel self

def pollReadBounded (maxBytes : Nat) (self : BoundedLineReader) :
    Poll (Except IoError BoundedLineOutcome) × BoundedLineReader :=
  readLoop maxBytes (self.inner.arrivals.length + 2) self

/-! ## Polling and dropping -/

/-- A read future between polls. It is suspended in `fill_buf` and owns nothing but its cap. -/
structure ReadFuture where
  maxBytes : Nat

structure Session where
  reader : BoundedLineReader
  future : Option ReadFuture

def Session.start (arrivals : List Arrival) : Session := ⟨.new ⟨[], arrivals⟩, none⟩

inductive Act where
  | poll
  | drop
deriving DecidableEq

/-- Poll the read future, calling `read_bounded` for a new one when none is in flight, or drop
the one in flight. -/
def Session.act (maxBytes : Nat) (s : Session) :
    Act → Session × Option (Except IoError BoundedLineOutcome)
  | .drop => ({ s with future := none }, none)
  | .poll =>
    let future := s.future.getD ⟨maxBytes⟩
    match pollReadBounded future.maxBytes s.reader with
    | (.pending, reader) => (⟨reader, some future⟩, none)
    | (.ready result, reader) => (⟨reader, none⟩, some result)

def outcomes (maxBytes : Nat) : List Act → Session → List (Except IoError BoundedLineOutcome)
  | [], _ => []
  | a :: acts, s =>
    let (s, result) := s.act maxBytes a
    result.toList ++ outcomes maxBytes acts s

end TraceDecay.Framing
