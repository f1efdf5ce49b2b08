import TraceDecay.Lib.Fallible
import TraceDecay.Lib.Leb128

/-!
# Lexical.Format

The posting lists of the lexical artifact (`artifact/format.rs`): canonical varints, the first
document absolute and each later one as its distance from the one before. With frequencies the
document varint carries a flag in its low bit, which announces a frequency of at least two.
-/

namespace TraceDecay.Lexical

inductive CodeLexicalArtifactError where
  | corrupt (message : String)
  | contract (message : String)
deriving DecidableEq

/-- The values of a `u32`. -/
def u32Size : Nat := 4294967296

/-- `encode_varint`. -/
def encodeVarint (value : Nat) : List UInt8 := Leb128.encode value

/-- `take_varint`: after ten bytes the loop is over, as at the end of the input. -/
def takeVarint (encoded : List UInt8) : Except CodeLexicalArtifactError (Nat × List UInt8) :=
  Leb128.take {
    truncated := .corrupt "lexical artifact posting varint is truncated"
    tooLong := .corrupt "lexical artifact posting varint is truncated"
    overflow := .corrupt "lexical artifact posting varint overflows u64"
    padded := .corrupt "lexical artifact posting varint is not canonical" } encoded

/-- A document and how often the term stands in it. -/
abbrev Posting := Nat × Nat

/-! ## Encoding -/

structure PostingListEncoder where
  bytes : List UInt8
  previous : Option Nat
  len : Nat
  frequencies : Bool

namespace PostingListEncoder

def new (frequencies : Bool) : PostingListEncoder := ⟨[], none, 0, frequencies⟩

/-- The distance of `document` from the previous one, which has to be smaller. -/
def delta? : Option Nat → Nat → Option Nat
  | none, document => some document
  | some previous, document => if previous < document then some (document - previous) else none

def push (self : PostingListEncoder) (document frequency : Nat) :
    Except CodeLexicalArtifactError PostingListEncoder := do
  let delta ← (delta? self.previous document).elim
    (.error (.contract "lexical artifact posting documents are not strictly ascending")) .ok
  if frequency == 0 || (!self.frequencies && frequency != 1) then
    .error (.contract "lexical artifact posting frequency is out of range")
  else
    let written :=
      if self.frequencies then
        encodeVarint (2 * delta + if frequency = 1 then 0 else 1) ++
          if frequency = 1 then [] else encodeVarint frequency
      else encodeVarint delta
    .ok { self with
      bytes := self.bytes ++ written
      previous := some document
      len := self.len + 1 }

def finish (self : PostingListEncoder) : Except CodeLexicalArtifactError (List UInt8) :=
  if self.len = 0 then .error (.contract "lexical artifact posting list is empty")
  else .ok self.bytes

end PostingListEncoder

/-- A whole list, pushed in order and finished. -/
def encodePostings (frequencies : Bool) (postings : List Posting) :
    Except CodeLexicalArtifactError (List UInt8) := do
  let encoder ← postings.foldlM (fun encoder p => encoder.push p.1 p.2)
    (PostingListEncoder.new frequencies)
  encoder.finish

/-! ## Decoding -/

structure PostingListDecoder where
  bytes : List UInt8
  previous : Option Nat
  frequencies : Bool

namespace PostingListDecoder

def new (bytes : List UInt8) (frequencies : Bool) : PostingListDecoder := ⟨bytes, none, frequencies⟩

variable (self : PostingListDecoder)

/-- The distance and the frequency of the next entry, and the bytes behind it. -/
def takeEntry : Except CodeLexicalArtifactError (Posting × List UInt8) := do
  let (token, rest) ← takeVarint self.bytes
  if self.frequencies then
    if token % 2 = 1 then do
      let (frequency, rest) ← takeVarint rest
      if frequency < 2 then
        .error (.corrupt "lexical artifact posting frequency is not canonical")
      else .ok ((token / 2, frequency), rest)
    else .ok ((token / 2, 1), rest)
  else .ok ((token, 1), rest)

/-- The document `delta` behind the previous one. -/
def advance : Option Nat → Nat → Except CodeLexicalArtifactError Nat
  | none, delta => .ok delta
  | some previous, delta =>
    if delta = 0 then .error (.corrupt "lexical artifact posting delta is zero")
    else if u32Size ≤ previous + delta then
      .error (.corrupt "lexical artifact posting delta overflowed")
    else .ok (previous + delta)

def decodeNext : Except CodeLexicalArtifactError (Posting × PostingListDecoder) := do
  let ((delta, frequency), rest) ← self.takeEntry
  if u32Size ≤ delta || decide (u32Size ≤ frequency) then
    .error (.corrupt "lexical artifact posting value overflows u32")
  else do
    let document ← advance self.previous delta
    .ok ((document, frequency), { self with bytes := rest, previous := some document })

/-- `Iterator::next`: nothing more behind an error. -/
def next : Option (Except CodeLexicalArtifactError Posting × PostingListDecoder) :=
  if self.bytes.isEmpty then none
  else
    match self.decodeNext with
    | .error e => some (.error e, { self with bytes := [] })
    | .ok (posting, self) => some (.ok posting, self)

/-- The rest of the list. Every entry takes at least a byte, so as many turns as there are bytes
are enough. -/
def collect : Nat → PostingListDecoder → Except CodeLexicalArtifactError (List Posting)
  | 0, _ => .ok []
  | fuel + 1, self =>
    match self.next with
    | none => .ok []
    | some (.error e, _) => .error e
    | some (.ok posting, self) => do
      let postings ← collect fuel self
      .ok (posting :: postings)

end PostingListDecoder

def decodePostings (frequencies : Bool) (bytes : List UInt8) :
    Except CodeLexicalArtifactError (List Posting) :=
  (PostingListDecoder.new bytes frequencies).collect bytes.length

end TraceDecay.Lexical
