import Mathlib.Data.String.Basic
import TraceDecay.Lib.OrdMap
import TraceDecay.Lib.Utf8
import TraceDecay.Lib.LittleEndian

/-!
# Admission.Types

The data of the host-admission spool: its bounds, the records it holds and the errors its
operations end in. Lengths and counts are natural numbers; sequences are 64-bit, and the code
keeps them below `u64Max` by its own checks.

A frame of the records file is a header of magic, version, lengths and sequence, the source name,
the payload and a checksum of all that precedes it. `sha256` is the digest both files are sealed
with.
-/

namespace TraceDecay.Admission

def u64Max : Nat := 0xFFFFFFFFFFFFFFFF

def u32Max : Nat := 0xFFFFFFFF

def u16Max : Nat := 0xFFFF

def formatVersion : Nat := 1

def frameHeaderBytes : Nat := 20

def checksumBytes : Nat := 32

structure SpoolBounds where
  (maxRecordBytes maxSourceBytes maxSpoolBytes maxRecords maxSpoolBytesPerSource : Nat)
  (maxRecordsPerSource maxQuarantineBytes maxQuarantineRecords : Nat)

inductive SpoolOverflowDisposition
  | recordTooLarge | sourceTooLarge | maxBytes | maxRecords | maxBytesPerSource
  | maxRecordsPerSource
deriving DecidableEq

inductive SpoolError
  | io
  | overflow (disposition : SpoolOverflowDisposition)
  | corrupted (atOffset : Nat)
  | metadataCorrupted
  | unsupportedVersion (version : Nat)
  | ackOutOfOrder (expected got : Nat)
  | ackUnknown (seq : Nat)
  | appendRecoveryRequired
  | quarantineFull
  | quarantineCorrupted (atOffset : Nat)
  | quarantineRecoveryRequired
deriving DecidableEq

inductive SpoolIntegrity
  | healthy
  | corrupted (atOffset : Nat)
deriving DecidableEq

inductive TerminalReason
  | malformedPayload | staleBranchAuthorization
deriving DecidableEq

namespace TerminalReason

def code : TerminalReason → UInt8
  | malformedPayload => 1
  | staleBranchAuthorization => 3

def fromCode (code : UInt8) : Option TerminalReason :=
  if code = 1 then some malformedPayload
  else if code = 3 then some staleBranchAuthorization
  else none

end TerminalReason

structure SpoolRecord where
  seq : Nat
  source : String
  payload : Bytes
  (fileOffset framedLen : Nat)

def sourceBytes (source : String) : Bytes := Utf8.encode source.toList

/-- `String::from_utf8`. -/
def sourceOfBytes (bytes : Bytes) : Option String := (Utf8.decode bytes).map String.ofList

def minimumFrame : Nat := frameHeaderBytes + checksumBytes

def validateBounds (bounds : SpoolBounds) : Except SpoolError Unit :=
  if u32Max < bounds.maxRecordBytes ∨ u16Max < bounds.maxSourceBytes ∨
      bounds.maxSpoolBytes < minimumFrame ∨ bounds.maxRecords = 0 ∨
      bounds.maxSpoolBytesPerSource < minimumFrame ∨
      bounds.maxSpoolBytes < bounds.maxSpoolBytesPerSource ∨
      bounds.maxRecordsPerSource = 0 ∨ bounds.maxRecords < bounds.maxRecordsPerSource ∨
      bounds.maxQuarantineBytes = 0 ∨ bounds.maxQuarantineRecords = 0 then
    .error .metadataCorrupted
  else .ok ()

def validateRecordBounds (source payload : Bytes) (bounds : SpoolBounds) : Except SpoolError Unit :=
  if bounds.maxSourceBytes < source.length then .error (.overflow .sourceTooLarge)
  else if bounds.maxRecordBytes < payload.length then .error (.overflow .recordTooLarge)
  else .ok ()

/-! ## Frames -/

/-- `b"TDHA"`. -/
def frameMagic : Bytes := [0x54, 0x44, 0x48, 0x41]

structure ParsedHeader where
  (seq sourceLen payloadLen framedLen : Nat)

def parseHeader (header : Bytes) (bounds : SpoolBounds) : Except SpoolError ParsedHeader :=
  let version := LittleEndian.decode (slice header 4 2)
  let sourceLen := LittleEndian.decode (slice header 6 2)
  let payloadLen := LittleEndian.decode (slice header 8 4)
  let framedLen := frameHeaderBytes + sourceLen + payloadLen + checksumBytes
  if slice header 0 4 ≠ frameMagic then .error (.corrupted 0)
  else if version ≠ formatVersion then .error (.unsupportedVersion version)
  else if bounds.maxSourceBytes < sourceLen ∨ bounds.maxRecordBytes < payloadLen then
    .error (.corrupted 0)
  else if bounds.maxSpoolBytes < framedLen then .error (.corrupted 0)
  else .ok ⟨LittleEndian.decode (slice header 12 8), sourceLen, payloadLen, framedLen⟩

def frameHeader (seq sourceLen payloadLen : Nat) : Bytes :=
  frameMagic ++ LittleEndian.encode 2 formatVersion ++ LittleEndian.encode 2 sourceLen ++
    LittleEndian.encode 4 payloadLen ++ LittleEndian.encode 8 seq

def frameBody (seq : Nat) (source payload : Bytes) : Bytes :=
  frameHeader seq source.length payload.length ++ source ++ payload

variable (sha256 : Bytes → FixedBytes 32)

def encodeFrame (seq : Nat) (source payload : Bytes) : Except SpoolError Bytes :=
  if seq = 0 ∨ seq = u64Max then .error .metadataCorrupted
  else if u16Max < source.length then .error (.overflow .sourceTooLarge)
  else if u32Max < payload.length then .error (.overflow .recordTooLarge)
  else .ok (frameBody seq source payload ++ (sha256 (frameBody seq source payload)).bytes)

def SpoolRecord.encodeFrame (record : SpoolRecord) : Except SpoolError Bytes :=
  Admission.encodeFrame sha256 record.seq (sourceBytes record.source) record.payload

def validateQuarantinedActiveFrame (seq : Nat) (frame : Bytes) (bounds : SpoolBounds) : Bool :=
  if frame.length < frameHeaderBytes + checksumBytes then false
  else
    match parseHeader (frame.take frameHeaderBytes) bounds with
    | .error _ => false
    | .ok parsed =>
      let checksumAt := frame.length - checksumBytes
      decide (parsed.seq = seq ∧ parsed.framedLen = frame.length) &&
        decide ((sha256 (frame.take checksumAt)).bytes = frame.drop checksumAt) &&
        (Utf8.decode (slice frame frameHeaderBytes parsed.sourceLen)).isSome

end TraceDecay.Admission
