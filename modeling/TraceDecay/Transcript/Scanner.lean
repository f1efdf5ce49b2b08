import TraceDecay.Lib.LittleEndian
import TraceDecay.Lib.Sorting

/-!
# Transcript.Scanner

Incremental reading of a transcript (`source/jsonl.rs`): the bounded frame reader, one batch over it
and the resume from a recorded cursor. A digest is the bytes it covers; the hashes taken of digests
and generations are parameters. The file does not change during one scan.
-/

namespace TraceDecay.Transcript

open Sorting (sortBy dedup)

def newline : UInt8 := 10

def isAsciiWhitespace (byte : UInt8) : Bool :=
  byte == 9 || byte == 10 || byte == 12 || byte == 13 || byte == 32

/-! ## Frames -/

inductive RawJsonlFrame where
  | eof
  | complete (byteLen : Nat)
  | partialLine (byteLen : Nat)
  | oversized (byteLen : Nat) (terminated : Bool)
  | budgetExhausted (byteLen : Nat) (oversized : Bool)

def RawJsonlFrame.byteLen : RawJsonlFrame → Nat
  | .eof => 0
  | .complete byteLen | .partialLine byteLen | .oversized byteLen _
  | .budgetExhausted byteLen _ => byteLen

/-- `buffers` are what the next calls of `fill_buf` return, none of them empty. -/
structure FrameReader where
  buffers : List Bytes
  (record resumeDigest : Bytes)
  maxRecordBytes : Nat

def consume (count : Nat) (available : Bytes) (rest : List Bytes) : List Bytes :=
  if available.length ≤ count then rest else available.drop count :: rest

/-- The loop of `next_frame_with_budget`. -/
def readFrame (readBudget maxRecordBytes : Nat) (record digest : Bytes) (byteLen : Nat)
    (oversized : Bool) : List Bytes → RawJsonlFrame × FrameReader
  | [] =>
    (if readBudget ≤ byteLen then .budgetExhausted byteLen oversized
      else if byteLen = 0 then .eof
      else if oversized then .oversized byteLen false
      else .partialLine byteLen,
      ⟨[], record, digest, maxRecordBytes⟩)
  | available :: rest =>
    if readBudget ≤ byteLen then
      (.budgetExhausted byteLen oversized, ⟨available :: rest, record, digest, maxRecordBytes⟩)
    else
      let newlineAt := available.findIdx? (· == newline)
      let availableRecord := (newlineAt.map (· + 1)).getD available.length
      let consumed := min availableRecord (readBudget - byteLen)
      let retained := min consumed (maxRecordBytes - record.length)
      let record := if oversized then record else record ++ available.take retained
      let oversized := oversized || retained < consumed
      let digest := digest ++ available.take consumed
      let byteLen := byteLen + consumed
      let reader := ⟨consume consumed available rest, record, digest, maxRecordBytes⟩
      if newlineAt.any (· < consumed) then
        (if oversized then .oversized byteLen true else .complete byteLen, reader)
      else if consumed < availableRecord then (.budgetExhausted byteLen oversized, reader)
      else readFrame readBudget maxRecordBytes record digest byteLen oversized rest

def FrameReader.nextFrameWithBudget (reader : FrameReader) (readBudget : Nat) :
    RawJsonlFrame × FrameReader :=
  readFrame readBudget reader.maxRecordBytes [] reader.resumeDigest 0 false reader.buffers

/-! ## One batch -/

structure RawJsonlRecord where
  (offset endOffset resumeFingerprint : Nat)
  bytes : Bytes

inductive RawJsonlSkippedReason where
  | whitespace
  | oversized
  | retainedPrefix
deriving DecidableEq

structure RawJsonlSkippedRange where
  (offset endOffset resumeFingerprint : Nat)
  reason : RawJsonlSkippedReason

inductive JsonlFrameDeferral where
  | partialLine (offset : Nat)
  | backlog (offset unreadBytes maxNewBytes : Nat)

structure BatchScanner where
  reader : FrameReader
  (fileSize seekTo : Nat)
  maxNewBytes : Option Nat
  maxRecordBytes : Nat
  frames : List RawJsonlRecord
  skipped : List RawJsonlSkippedRange
  (offset readThrough : Nat)
  continuingOversized : Bool
  deferred : Option JsonlFrameDeferral

inductive JsonlScanStep where
  | continued
  | stop (deferred : Option JsonlFrameDeferral)

namespace BatchScanner

variable (s : BatchScanner)

def scanEnd : Option Nat := s.maxNewBytes.map fun cap => min (s.seekTo + cap) s.fileSize

def oneRecordBudget : Nat := s.maxRecordBytes + 1

def backlogAt (offset : Nat) : Option JsonlFrameDeferral :=
  s.maxNewBytes.map fun maxNewBytes => .backlog offset (s.fileSize - offset) maxNewBytes

/-- `left` frames may still be read. -/
def boundaryStep (left : Nat) : Option JsonlScanStep :=
  if s.fileSize ≤ s.offset then some (.stop none)
  else if (s.scanEnd.any fun finish => finish ≤ s.offset && s.offset < s.fileSize) || left == 0 then
    some (.stop (s.backlogAt s.offset))
  else none

/-- Finish at most the current valid record past the nominal cap. -/
def readBudget : Nat :=
  let nominal := (s.scanEnd.map (· - s.offset)).getD 0xFFFFFFFFFFFFFFFF
  if s.continuingOversized then nominal else max nominal s.oneRecordBudget

def pushSkipped (endOffset : Nat) (reason : RawJsonlSkippedReason)
    (resumeFingerprint : Nat) : List RawJsonlSkippedRange :=
  match s.skipped.getLast? with
  | some last =>
    if last.reason = reason ∧ last.endOffset = s.offset then
      s.skipped.dropLast ++ [{ last with endOffset, resumeFingerprint }]
    else s.skipped ++ [⟨s.offset, endOffset, resumeFingerprint, reason⟩]
  | none => s.skipped ++ [⟨s.offset, endOffset, resumeFingerprint, reason⟩]

def handleOversized (byteLen : Nat) (terminated : Bool) (resumeFingerprint : Nat) :
    BatchScanner × JsonlScanStep :=
  let nextOffset := s.offset + byteLen
  let resumed := terminated && s.continuingOversized
  let s := { s with
    skipped := s.pushSkipped nextOffset .oversized resumeFingerprint
    offset := nextOffset
    -- the real record budget is back once the record this scan resumed inside has ended
    reader := { s.reader with
      maxRecordBytes := if resumed then s.maxRecordBytes else s.reader.maxRecordBytes }
    continuingOversized := if resumed then false else s.continuingOversized }
  (s, if s.offset < s.fileSize then .stop (s.backlogAt s.offset) else .continued)

def handleBudgetExhausted (byteLen : Nat) (oversized : Bool)
    (resumeFingerprint : Nat) : BatchScanner × JsonlScanStep :=
  let s := if oversized ∧ 0 < byteLen then
      { s with
        skipped := s.pushSkipped (s.offset + byteLen) .oversized resumeFingerprint
        offset := s.offset + byteLen }
    else s
  (s, .stop (s.backlogAt s.offset))

def handleComplete (byteLen : Nat) (resumeFingerprint : Nat) : BatchScanner × JsonlScanStep :=
  let nextOffset := s.offset + byteLen
  if s.seekTo < s.offset ∧ s.scanEnd.any (· < nextOffset) then (s, .stop (s.backlogAt s.offset))
  else if s.reader.record.all isAsciiWhitespace then
    ({ s with
        skipped := s.pushSkipped nextOffset .whitespace resumeFingerprint
        offset := nextOffset }, .continued)
  else
    ({ s with
        frames := s.frames ++ [⟨s.offset, nextOffset, resumeFingerprint, s.reader.record⟩]
        offset := nextOffset }, .continued)

/-- What the batch does with a frame. -/
def handle (resumeFingerprint : Nat) : RawJsonlFrame → BatchScanner × JsonlScanStep
  | .eof => (s, .stop none)
  | .partialLine _ => (s, .stop (some (.partialLine s.offset)))
  | .oversized byteLen terminated => s.handleOversized byteLen terminated resumeFingerprint
  | .budgetExhausted byteLen oversized => s.handleBudgetExhausted byteLen oversized resumeFingerprint
  | .complete byteLen => s.handleComplete byteLen resumeFingerprint

def read (fingerprint : Bytes → Nat → Nat) (s : BatchScanner) : BatchScanner × JsonlScanStep :=
  let (frame, reader) := s.reader.nextFrameWithBudget s.readBudget
  let s := { s with
    reader
    readThrough := max s.readThrough (s.offset + frame.byteLen) }
  s.handle (fingerprint reader.resumeDigest (s.offset + frame.byteLen)) frame

/-- The loop of a batch that may read `left` more frames. -/
def scan (fingerprint : Bytes → Nat → Nat) : Nat → BatchScanner → BatchScanner
  | left, s =>
    match s.boundaryStep left with
    | some (.stop deferred) => { s with deferred }
    | _ =>
      match left with
      | 0 => s
      | left + 1 =>
        match s.read fingerprint with
        | (s, .stop deferred) => { s with deferred }
        | (s, .continued) => scan fingerprint left s

end BatchScanner

/-! ## Resuming -/

structure StoredCursor where
  (position mtime fileId : Nat)

structure JsonlResumeState where
  (generation fileIdentity fingerprint : Nat)

structure JsonlPrefixCheckpoint where
  (generation position fingerprint : Nat)
deriving DecidableEq

inductive JsonlPrefixRecovery where
  | report
  | checkpoints (checkpoints : List JsonlPrefixCheckpoint)
deriving DecidableEq

/-- A transcript as one scan sees it, with the identity of the file. -/
structure JsonlFile where
  bytes : Bytes
  (identity mtime : Nat)

/-- The hashes of prefixes, of whole files and of generations. -/
structure Hashes where
  fingerprint : Bytes → Nat → Nat
  snapshotFingerprint : Bytes → Nat
  replacementJsonlGeneration : Nat → Nat → Nat
  rewrittenJsonlGeneration : JsonlResumeState → Nat → Nat → Nat → Nat → Nat

def maxJsonlReplacementGenerations : Nat := 64

variable (hashes : Hashes)

def replacementGenerationCounter (fileIdentity generation : Nat) : Option Nat :=
  if generation = 0 ∨ generation = fileIdentity then none
  else ((List.range maxJsonlReplacementGenerations).map (· + 1)).find? fun counter =>
    hashes.replacementJsonlGeneration fileIdentity counter == generation

def isReplacementJsonlGeneration (fileIdentity generation : Nat) : Bool :=
  (replacementGenerationCounter hashes fileIdentity generation).isSome

def nextReplacementJsonlGeneration (fileIdentity previousGeneration : Nat) : Nat :=
  hashes.replacementJsonlGeneration fileIdentity
    (((replacementGenerationCounter hashes fileIdentity previousGeneration).map fun counter =>
      counter % maxJsonlReplacementGenerations + 1).getD 1)

def shouldResumeJsonl (prev : StoredCursor) (fileSize mtime fileId : Nat) : Bool :=
  if prev.position = 0 ∨ fileSize < prev.position then false
  else if prev.fileId ≠ 0 ∧ fileId ≠ 0 then
    prev.fileId == fileId || isReplacementJsonlGeneration hashes fileId prev.fileId
  else prev.mtime ≤ mtime

/-- The walk over the ordered checkpoints; once every generation has diverged the source stops, as
each later checkpoint would be skipped. -/
def walkCheckpoints (file : Bytes) (recorded : Option JsonlPrefixCheckpoint) :
    List JsonlPrefixCheckpoint → List Nat → Nat → Option (JsonlPrefixCheckpoint × Bytes) →
      Option (JsonlPrefixCheckpoint × Bytes)
  | [], _, _, retained => retained
  | checkpoint :: rest, diverged, hashed, retained =>
    if checkpoint.generation ∈ diverged then
      walkCheckpoints file recorded rest diverged hashed retained
    else
      let hashed := max hashed checkpoint.position
      if hashes.fingerprint (file.take hashed) checkpoint.position = checkpoint.fingerprint then
        if some checkpoint = recorded then some (checkpoint, file.take hashed)
        else walkCheckpoints file recorded rest diverged hashed (some (checkpoint, file.take hashed))
      else walkCheckpoints file recorded rest (checkpoint.generation :: diverged) hashed retained

def compareCheckpoints (a b : JsonlPrefixCheckpoint) : Ordering :=
  (compare a.position b.position).then
    ((compare a.generation b.generation).then (compare a.fingerprint b.fingerprint))

def longestRetainedJsonlPrefix (file : Bytes) (checkpoints : List JsonlPrefixCheckpoint)
    (recorded : Option JsonlPrefixCheckpoint) : Option (JsonlPrefixCheckpoint × Bytes) :=
  let ordered := dedup (sortBy compareCheckpoints ((checkpoints ++ recorded.toList).filter
    fun checkpoint => 0 < checkpoint.position && checkpoint.position ≤ file.length))
  walkCheckpoints hashes file recorded ordered [] 0 none

inductive RecordedPrefix where
  | resumes (digest : Bytes)
  | diverged (recovered : Option (JsonlPrefixCheckpoint × Bytes))

def matchRecordedPrefix (file : Bytes) (recorded : Option JsonlPrefixCheckpoint) :
    JsonlPrefixRecovery → RecordedPrefix
  | .report =>
    match recorded with
    | none => .diverged none
    | some recorded =>
      let digest := file.take recorded.position
      if hashes.fingerprint digest recorded.position = recorded.fingerprint then .resumes digest
      else .diverged none
  | .checkpoints checkpoints =>
    match longestRetainedJsonlPrefix hashes file checkpoints recorded with
    | some (checkpoint, digest) =>
      if some checkpoint = recorded then .resumes digest else .diverged (some (checkpoint, digest))
    | none => .diverged none

structure PreparedJsonlScan where
  (fileId fileIdentity seekTo : Nat)
  replacement : Bool
  validatedPrefix : Option (Nat × Bytes)
  retainedPrefix : Option RawJsonlSkippedRange

inductive JsonlCapture where
  | scan (prepared : PreparedJsonlScan)
  | prefixDiverged (fileIdentity : Nat)

/-- A scan from `seekTo` under a generation. -/
def prepared (previous : StoredCursor) (fileIdentity seekTo fileId : Nat)
    (validatedPrefix : Option (Nat × Bytes)) (retainedPrefix : Option RawJsonlSkippedRange) :
    JsonlCapture :=
  .scan
    { fileId, fileIdentity, seekTo, validatedPrefix, retainedPrefix
      replacement := fileId != fileIdentity || (seekTo == 0 && 0 < previous.position) }

/-- `PreparedJsonlScan::capture`; a cached proof only saves hashing the prefix again. -/
def capture (file : JsonlFile) (previous : StoredCursor) (resumeState : Option JsonlResumeState)
    (prefixRecovery : JsonlPrefixRecovery) : JsonlCapture :=
  match resumeState with
  | some resume =>
    let recorded :=
      if 0 < previous.position ∧ previous.fileId = resume.generation ∧
          previous.position ≤ file.bytes.length then
        some ⟨resume.generation, previous.position, resume.fingerprint⟩
      else none
    match matchRecordedPrefix hashes file.bytes recorded prefixRecovery with
    | .resumes digest =>
      prepared previous resume.fileIdentity previous.position resume.generation
        (some (previous.position, digest)) none
    | .diverged recovered =>
      if 0 < previous.position ∧ prefixRecovery = .report then .prefixDiverged file.identity
      else
        match recovered with
        | some (checkpoint, digest) =>
          let resumeFingerprint := hashes.fingerprint digest checkpoint.position
          prepared previous file.identity checkpoint.position
            (hashes.rewrittenJsonlGeneration resume file.identity resumeFingerprint
              file.bytes.length file.mtime)
            (some (checkpoint.position, digest))
            (some ⟨0, checkpoint.position, resumeFingerprint, .retainedPrefix⟩)
        | none =>
          prepared previous file.identity 0 (if file.identity = resume.fileIdentity then
              hashes.rewrittenJsonlGeneration resume file.identity
                (hashes.snapshotFingerprint file.bytes) file.bytes.length file.mtime
            else file.identity) none none
  | none =>
    if shouldResumeJsonl hashes previous file.bytes.length file.mtime file.identity then
      prepared previous file.identity previous.position
        (if previous.fileId = 0 then file.identity else previous.fileId) none none
    else if 0 < previous.position then
      prepared previous file.identity 0
        (nextReplacementJsonlGeneration hashes file.identity previous.fileId) none none
    else if isReplacementJsonlGeneration hashes file.identity previous.fileId then
      prepared previous file.identity 0 previous.fileId none none
    else prepared previous file.identity 0 file.identity none none

/-! ## Scans -/

/-- How the file hands out its bytes in non-empty buffers. -/
structure Chunking where
  cut : Bytes → List Bytes
  flatten_cut : ∀ bytes, (cut bytes).flatten = bytes
  nonempty : ∀ bytes, [] ∉ cut bytes

structure RawJsonlScanRequest where
  previous : StoredCursor
  maxNewBytes : Option Nat
  (maxFrames maxRecordBytes : Nat)
  resumeState : Option JsonlResumeState
  prefixRecovery : JsonlPrefixRecovery

structure RawNewJsonl where
  frames : List RawJsonlRecord
  skipped : List RawJsonlSkippedRange
  (startOffset readThrough fileIdentity : Nat)
  newCursor : StoredCursor
  replacementGeneration : Bool
  deferred : Option JsonlFrameDeferral
  prefixDiverged : Bool

def startsInsideRecord (file : Bytes) (seekTo : Nat) : Bool :=
  seekTo != 0 && file[seekTo - 1]?.any (· != newline)

def BatchScanner.start (chunking : Chunking) (file : JsonlFile) (prepared : PreparedJsonlScan)
    (request : RawJsonlScanRequest) : BatchScanner :=
  let resumeDigest := ((prepared.validatedPrefix.filter (·.1 == prepared.seekTo)).map (·.2)).getD
    (file.bytes.take prepared.seekTo)
  let continuingOversized := startsInsideRecord file.bytes prepared.seekTo
  { reader :=
      { buffers := chunking.cut (file.bytes.drop prepared.seekTo)
        record := []
        resumeDigest
        maxRecordBytes := if continuingOversized then 0 else request.maxRecordBytes }
    fileSize := file.bytes.length
    seekTo := prepared.seekTo
    maxNewBytes := request.maxNewBytes
    maxRecordBytes := request.maxRecordBytes
    frames := []
    skipped := prepared.retainedPrefix.toList
    offset := prepared.seekTo
    readThrough := prepared.seekTo
    continuingOversized
    deferred := none }

/-- `try_stream_new_jsonl_raw_from_file`. -/
def streamNewJsonl (chunking : Chunking) (file : JsonlFile) (request : RawJsonlScanRequest) :
    RawNewJsonl :=
  match capture hashes file request.previous request.resumeState request.prefixRecovery with
  | .prefixDiverged fileIdentity =>
    { frames := []
      skipped := []
      startOffset := request.previous.position
      readThrough := request.previous.position
      fileIdentity
      newCursor := request.previous
      replacementGeneration := false
      deferred := none
      prefixDiverged := true }
  | .scan prepared =>
    let s := if file.bytes.length ≤ prepared.seekTo then .start chunking file prepared request
      else (BatchScanner.start chunking file prepared request).scan hashes.fingerprint request.maxFrames
    { frames := s.frames
      skipped := s.skipped
      startOffset := prepared.seekTo
      readThrough := s.readThrough
      fileIdentity := prepared.fileIdentity
      newCursor := ⟨s.offset, file.mtime, prepared.fileId⟩
      replacementGeneration := prepared.replacement
      deferred := s.deferred
      prefixDiverged := false }

end TraceDecay.Transcript
