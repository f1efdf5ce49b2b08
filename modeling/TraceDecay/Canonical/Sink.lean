import TraceDecay.Lib.Utf8

/-!
# Canonical.Sink

Where canonical JSON is written to: a sink takes chunks of text, and what it does with them is its
own affair. The buffered sink batches small chunks before it hands them on.

Text is modelled by its UTF-8 bytes.
-/

namespace TraceDecay.Canonical

abbrev Str := List UInt8

def text (s : String) : Str := Utf8.encode s.toList

class CanonicalSink (S : Type) where
  write : S → Str → S

export CanonicalSink (write)

instance : CanonicalSink (List UInt8) where
  write bytes chunk := bytes ++ chunk

/-! ## The buffered sink -/

def sinkBufferCapacity : Nat := 64 * 1024

structure BufferedSink (S : Type) where
  inner : S
  buffer : Str

namespace BufferedSink

variable {S : Type} [CanonicalSink S]

def new (inner : S) : BufferedSink S := ⟨inner, []⟩

/-- The buffer that is reused is cleared first. -/
def withBuffer (inner : S) (_buffer : Str) : BufferedSink S := ⟨inner, []⟩

variable (sink : BufferedSink S)

def flush : BufferedSink S :=
  if sink.buffer = [] then sink else ⟨write sink.inner sink.buffer, []⟩

def finishReuse : S × Str := (sink.flush.inner, sink.flush.buffer)

/-- A chunk that does not fit flushes the buffer; one as large as the buffer goes straight on. -/
def writeChunk (chunk : Str) : BufferedSink S :=
  if sink.buffer.length + chunk.length > sinkBufferCapacity then
    if chunk.length ≥ sinkBufferCapacity then
      { sink.flush with inner := write sink.flush.inner chunk }
    else { sink.flush with buffer := sink.flush.buffer ++ chunk }
  else { sink with buffer := sink.buffer ++ chunk }

instance : CanonicalSink (BufferedSink S) := ⟨writeChunk⟩

end BufferedSink

/-! ## Strings -/

def controlEscapes : List Str :=
  ["\\u0000", "\\u0001", "\\u0002", "\\u0003", "\\u0004", "\\u0005", "\\u0006", "\\u0007", "\\b",
    "\\t", "\\n", "\\u000b", "\\f", "\\r", "\\u000e", "\\u000f", "\\u0010", "\\u0011", "\\u0012",
    "\\u0013", "\\u0014", "\\u0015", "\\u0016", "\\u0017", "\\u0018", "\\u0019", "\\u001a",
    "\\u001b", "\\u001c", "\\u001d", "\\u001e", "\\u001f"].map text

/-- The quote, the backslash and the control bytes are escaped. -/
def escapeOf (byte : UInt8) : Option Str :=
  if byte = 0x22 then some (text "\\\"")
  else if byte = 0x5c then some (text "\\\\")
  else if byte ≤ 0x1f then controlEscapes[byte.toNat]?
  else none

def slice (value : Str) (start stop : Nat) : Str := (value.take stop).drop start

variable {S : Type} [CanonicalSink S]

/-- The bytes from `index` on: a run without escapes is written as a whole. -/
def writeRuns (value : Str) : (index runStart : Nat) → (rest : Str) → S → S × Nat
  | _, runStart, [], output => (output, runStart)
  | index, runStart, byte :: rest, output =>
    match escapeOf byte with
    | none => writeRuns value (index + 1) runStart rest output
    | some escape =>
      let output := if runStart < index then write output (slice value runStart index) else output
      writeRuns value (index + 1) (index + 1) rest (write output escape)

def writeJsonString (value : Str) (output : S) : S :=
  let (output, runStart) := writeRuns value 0 0 value (write output (text "\""))
  let output :=
    if runStart < value.length then write output (slice value runStart value.length) else output
  write output (text "\"")

/-! ## Numbers -/

/-- The digits are put into the buffer from its end; `index` places of it are free. -/
def fillDigits : (index remaining : Nat) → (buffer : Str) → Option Str
  | 0, _, _ => none
  | index + 1, remaining, buffer =>
    let buffer := UInt8.ofNat (0x30 + remaining % 10) :: buffer
    if remaining / 10 = 0 then some buffer else fillDigits index (remaining / 10) buffer

def u64Digits (value : UInt64) : Option Str := fillDigits 20 value.toNat []

-- that there are digits is `u64Digits_eq`
def writeU64 (value : UInt64) (output : S) : S := write output ((u64Digits value).getD [])

def unsignedAbs (value : Int64) : UInt64 := UInt64.ofNat value.toInt.natAbs

def writeI64 (value : Int64) (output : S) : S :=
  if value < 0 then writeU64 (unsignedAbs value) (write output (text "-"))
  else writeU64 (unsignedAbs value) output

end TraceDecay.Canonical
