import TraceDecay.Lib.Incremental
import TraceDecay.Domain.Text

/-!
# Lsp.Framing

The strict `Content-Length` codec of the language-server bridge (`tracedecay-lsp`, `framing.rs`).
`decodeFrame` is called on the bytes received so far: with an incomplete header it looks for bare
line endings and at the number of bytes buffered, with a complete one at the length and the grammar
of the header. `decodeChunks` is the reader around it, called until it asks for more after every
chunk and then told of the end of input.
-/

namespace TraceDecay.Lsp

open Utf8 Domain

def maxLspHeaderBytes : Nat := 16 * 1024

def maxLspFrameBytes : Nat := 4 * 1024 * 1024

def usizeMax : Nat := 18446744073709551615

inductive ContentLengthCodecError where
  | headerTooLarge (limit : Nat)
  | malformedHeader
  | missingContentLength
  | duplicateContentLength
  | invalidContentLength
  | frameTooLarge (size limit : Nat)
  | unexpectedEof
deriving DecidableEq

def carriageReturn : UInt8 := 13

def lineFeed : UInt8 := 10

def headerTerminator : List UInt8 := [carriageReturn, lineFeed, carriageReturn, lineFeed]

def findHeaderEnd : List UInt8 → Option Nat
  | [] => none
  | b :: rest =>
    if headerTerminator <+: b :: rest then some 0 else (findHeaderEnd rest).map (· + 1)

variable (input : List UInt8)

/-- Whether the byte at `index` is half a line ending without its other half. A carriage return at
the end of the input may still be completed. -/
def invalidEndingAt (index : Nat) : Bool :=
  if input[index]? = some lineFeed then
    index == 0 || input[index - 1]? != some carriageReturn
  else if input[index]? = some carriageReturn then
    (input[index + 1]?).any (· != lineFeed)
  else false

def hasInvalidLineEnding : Bool := (List.range input.length).any (invalidEndingAt input)

/-! ## The header -/

def isAscii (c : Char) : Bool := c.toNat ≤ 0x7F

def isAsciiControl (c : Char) : Bool := c.toNat ≤ 0x1F || c.toNat == 0x7F

def isAsciiWhitespace (c : Char) : Bool :=
  c == ' ' || c == '\t' || c == '\n' || c == '\x0c' || c == '\r'

def eqIgnoreAsciiCase (a b : List Char) : Bool := a.map Char.toLower == b.map Char.toLower

/-- `header.split("\r\n")`. -/
def splitCrlf : List Char → List (List Char)
  | [] => [[]]
  | '\r' :: '\n' :: rest => [] :: splitCrlf rest
  | c :: rest => (splitCrlf rest).modifyHead (c :: ·)

/-- `line.split_once(c)`. -/
def splitOnce (c : Char) (line : List Char) : Option (List Char × List Char) :=
  match line.dropWhile (· != c) with
  | [] => none
  | _ :: value => some (line.takeWhile (· != c), value)

/-- The grammar of a header field, whatever its name. -/
def isHeaderField (name value : List Char) : Bool :=
  name.all isAscii && value.all isAscii && !name.isEmpty &&
    !name.any (fun c => isAsciiControl c || isAsciiWhitespace c) &&
    !value.any (fun c => isAsciiControl c && c != '\t')

def parseLength (value : List Char) : Except ContentLengthCodecError Nat :=
  let value := trim value
  if value.isEmpty || !value.all Char.isDigit then .error .invalidContentLength
  else
    let length := Nat.ofDigitChars 10 value 0
    if usizeMax < length then .error .invalidContentLength else .ok length

/-- The fields read so far: `contentLength`, and whether a content type was among them. -/
structure HeaderFields where
  contentLength : Option Nat := none
  contentTypeSeen : Bool := false

def parseLine (fields : HeaderFields) (line : List Char) :
    Except ContentLengthCodecError HeaderFields :=
  if line.isEmpty then .error .malformedHeader
  else
    match splitOnce ':' line with
    | none => .error .malformedHeader
    | some (name, value) =>
      if !isHeaderField name value then .error .malformedHeader
      else if eqIgnoreAsciiCase name "content-length".toList then
        if fields.contentLength.isSome then .error .duplicateContentLength
        else do
          let length ← parseLength value
          .ok { fields with contentLength := some length }
      else if eqIgnoreAsciiCase name "content-type".toList then
        if fields.contentTypeSeen || (trim value).isEmpty then .error .malformedHeader
        else .ok { fields with contentTypeSeen := true }
      else .error .malformedHeader

def parseContentLength (header : List UInt8) : Except ContentLengthCodecError Nat :=
  match decode header with
  | none => .error .malformedHeader
  | some header => do
    let fields ← (splitCrlf header).foldlM parseLine {}
    match fields.contentLength with
    | none => .error .missingContentLength
    | some length => .ok length

/-! ## Decoding and encoding -/

abbrev Frame := List UInt8

/-- `decode`: a payload and the input behind its message, or `none` when more bytes are needed. -/
def decodeFrame : Except ContentLengthCodecError (Option (Frame × List UInt8)) :=
  match findHeaderEnd input with
  | none =>
    if hasInvalidLineEnding input || decide (maxLspHeaderBytes < input.length) then
      .error (if maxLspHeaderBytes < input.length then .headerTooLarge maxLspHeaderBytes
        else .malformedHeader)
    else .ok none
  | some headerEnd =>
    if maxLspHeaderBytes < headerEnd then .error (.headerTooLarge maxLspHeaderBytes)
    else do
      let bodyLen ← parseContentLength (input.take headerEnd)
      if maxLspFrameBytes < bodyLen then .error (.frameTooLarge bodyLen maxLspFrameBytes)
      else
        let bodyStart := headerEnd + 4
        -- `checked_add`
        if usizeMax < bodyStart + bodyLen then .error (.frameTooLarge bodyLen maxLspFrameBytes)
        else if input.length < bodyStart + bodyLen then .ok none
        else .ok (some ((input.take (bodyStart + bodyLen)).drop bodyStart,
          input.drop (bodyStart + bodyLen)))

def decodeEof : Except ContentLengthCodecError (Option (Frame × List UInt8)) :=
  match decodeFrame input with
  | .error e => .error e
  | .ok (some frame) => .ok (some frame)
  | .ok none => if input.isEmpty then .ok none else .error .unexpectedEof

def encodedHeader (length : Nat) : List UInt8 :=
  encode ("Content-Length: ".toList ++ Nat.toDigits 10 length ++ "\r\n\r\n".toList)

def encodeFrame (frame : Frame) : Except ContentLengthCodecError (List UInt8) :=
  if maxLspFrameBytes < frame.length then
    .error (.frameTooLarge frame.length maxLspFrameBytes)
  else .ok (encodedHeader frame.length ++ frame)

/-- Several payloads, encoded one behind the other into one output. -/
def encodeFrames (frames : List Frame) : Except ContentLengthCodecError (List UInt8) := do
  let encoded ← frames.mapM encodeFrame
  .ok encoded.flatten

/-- What a reader gets from an input that arrives in `chunks`. -/
def decodeChunks (chunks : List (List UInt8)) : Incremental.Outcome Frame ContentLengthCodecError :=
  Incremental.feed decodeFrame decodeEof [] chunks

end TraceDecay.Lsp
