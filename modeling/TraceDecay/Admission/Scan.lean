import TraceDecay.Admission.Quarantine

/-!
# Admission.Scan

Reading a records file back: the scan of its frames, the metadata published beside them with the
intent of the batch in flight, and the tests that a torn tail belongs to that batch.
-/

namespace TraceDecay.Admission

structure ScanResult where
  records : List SpoolRecord
  (truncateTo fileLen : Nat)
  integrity : SpoolIntegrity

def partialTail (records : List SpoolRecord) (offset fileLen : Nat) : ScanResult :=
  ⟨records, offset, fileLen, .healthy⟩

def corruptedPrefix (records : List SpoolRecord) (offset fileLen : Nat) : ScanResult :=
  ⟨records, offset, fileLen, .corrupted offset⟩

/-- A frame may follow `previous` if what lies between them is quarantined. -/
def followsSeq (quarantine : TerminalQuarantine) (previous : Option Nat) (seq : Nat) : Bool :=
  match previous with
  | none => true
  | some previous => decide (previous < seq) && quarantine.preservesGap previous seq

variable (sha256 : Bytes → FixedBytes 32)

/-- The record of the frame that `rest` starts with, if its checksum and its source name hold. -/
def readRecord (parsed : ParsedHeader) (rest : Bytes) (offset : Nat) : Option SpoolRecord :=
  let bodyLen := frameHeaderBytes + parsed.sourceLen + parsed.payloadLen
  if (sha256 (rest.take bodyLen)).bytes ≠ slice rest bodyLen checksumBytes then none
  else
    (sourceOfBytes (slice rest frameHeaderBytes parsed.sourceLen)).map fun source =>
      { seq := parsed.seq
        source
        payload := slice rest (frameHeaderBytes + parsed.sourceLen) parsed.payloadLen
        fileOffset := offset
        framedLen := parsed.framedLen }

/-- The loop of `scanRecords`: `rest` are the bytes from `offset` on. A frame is never empty, so
`fuel` above the length of `rest` is never used up. -/
def scanFrames (bounds : SpoolBounds) (quarantine : TerminalQuarantine) (fileLen : Nat) :
    Nat → Bytes → Nat → List SpoolRecord → Except SpoolError ScanResult
  | 0, _, _, records => .ok ⟨records, fileLen, fileLen, .healthy⟩
  | fuel + 1, rest, offset, records =>
    if rest = [] then .ok ⟨records, fileLen, fileLen, .healthy⟩
    else if rest.length < frameHeaderBytes then .ok (partialTail records offset fileLen)
    else
      match parseHeader (rest.take frameHeaderBytes) bounds with
      | .error (.corrupted _) => .ok (corruptedPrefix records offset fileLen)
      | .error e => .error e
      | .ok parsed =>
        if rest.length < parsed.framedLen then .ok (partialTail records offset fileLen)
        else if bounds.maxRecords ≤ records.length then .error (.overflow .maxRecords)
        else if parsed.seq = 0 ∨ parsed.seq = u64Max ∨
            followsSeq quarantine (records.getLast?.map (·.seq)) parsed.seq = false then
          .ok (corruptedPrefix records offset fileLen)
        else
          match readRecord sha256 parsed rest offset with
          | none => .ok (corruptedPrefix records offset fileLen)
          | some record =>
            scanFrames bounds quarantine fileLen fuel (rest.drop parsed.framedLen)
              (offset + parsed.framedLen) (records ++ [record])

/-- `file` is `none` where there is no records file. -/
def scanRecords (file : Option Bytes) (bounds : SpoolBounds) (quarantine : TerminalQuarantine) :
    Except SpoolError ScanResult :=
  match file with
  | none => .ok ⟨[], 0, 0, .healthy⟩
  | some bytes =>
    if bounds.maxSpoolBytes < bytes.length then .error (.overflow .maxBytes)
    else scanFrames sha256 bounds quarantine bytes.length (bytes.length + 1) bytes 0 []

/-! ## Metadata -/

/-- One group-commit batch whose frames may be on disk before the metadata that counts them. -/
structure AppendIntentV1 where
  (seq records fileOffset framedLen : Nat)
  header : Bytes
  checksum : FixedBytes 32

structure SpoolMetaV1 where
  (version committedThrough nextSeq : Nat)
  integrity : SpoolIntegrity
  appendIntent : Option AppendIntentV1

def SpoolMetaV1.fresh : SpoolMetaV1 := ⟨formatVersion, 0, 1, .healthy, none⟩

namespace AppendIntentV1

def new (seq fileOffset records : Nat) (batch : Bytes) : AppendIntentV1 :=
  { seq
    records
    fileOffset
    framedLen := batch.length
    header := batch.take frameHeaderBytes
    checksum := sha256 batch }

variable (intent : AppendIntentV1)

def endSeq : Nat := intent.seq + intent.records

def endOffset : Nat := intent.fileOffset + intent.framedLen

/-- The first scanned frame of the batch stands where the intent says, with its header. -/
def anchored (written : List SpoolRecord) : Bool :=
  match written.head? with
  | none => true
  | some first =>
    decide (first.fileOffset = intent.fileOffset) &&
      match first.encodeFrame sha256 with
      | .error _ => false
      | .ok frame => decide (frame.take frameHeaderBytes = intent.header)

/-- The scanned records that belong to the batch, if they are consecutive. -/
def writtenPrefix (records : List SpoolRecord) : Option (List SpoolRecord) :=
  let written := records.dropWhile fun record => decide (record.seq < intent.seq)
  if written.length ≤ intent.records ∧ written.map (·.seq) = List.range' intent.seq written.length ∧
      intent.anchored sha256 written = true then
    some written
  else none

def matchesBatch (written : List SpoolRecord) : Except SpoolError Bool := do
  let frames ← written.mapM (SpoolRecord.encodeFrame sha256)
  pure (decide (frames.flatten.length = intent.framedLen ∧ sha256 frames.flatten = intent.checksum))

end AppendIntentV1

def validateMetaWatermarks (spoolMeta : SpoolMetaV1) : Except SpoolError Unit :=
  if spoolMeta.committedThrough = u64Max ∨ spoolMeta.nextSeq = 0 ∨
      spoolMeta.nextSeq ≤ spoolMeta.committedThrough then
    .error .metadataCorrupted
  else .ok ()

def validateAppendIntent (spoolMeta : SpoolMetaV1) (bounds : SpoolBounds) :
    Except SpoolError Unit :=
  match spoolMeta.appendIntent with
  | none => .ok ()
  | some intent =>
    match parseHeader intent.header bounds with
    | .error _ => .error .metadataCorrupted
    | .ok parsed =>
      if intent.seq ≠ spoolMeta.nextSeq ∨ parsed.seq ≠ intent.seq ∨ intent.records = 0 ∨
          bounds.maxRecords < intent.records ∨ u64Max ≤ intent.endSeq ∨
          intent.framedLen < parsed.framedLen ∨
          (intent.records = 1 ∧ parsed.framedLen ≠ intent.framedLen) ∨
          bounds.maxSpoolBytes < intent.endOffset then
        .error .metadataCorrupted
      else .ok ()

def AppendIntentV1.writtenEnd (intent : AppendIntentV1) (written : List SpoolRecord) : Nat :=
  match written.getLast? with
  | none => intent.fileOffset
  | some last => last.fileOffset + last.framedLen

/-- The frames the scan found are a prefix of the batch that ends where the file ends. -/
def AppendIntentV1.consistent (intent : AppendIntentV1) (written : List SpoolRecord) :
    Except SpoolError Bool :=
  if written.length = intent.records then
    if intent.writtenEnd written = intent.endOffset then intent.matchesBatch sha256 written
    else .ok false
  else .ok (decide (intent.writtenEnd written < intent.endOffset))

def appendIntentIsReconciled (scan : ScanResult) (spoolMeta : SpoolMetaV1)
    (truncatedPartialTailBytes : Nat) : Except SpoolError Bool :=
  match spoolMeta.appendIntent with
  | none => .ok false
  | some intent =>
    if scan.integrity ≠ .healthy then .ok false
    else if 0 < truncatedPartialTailBytes then
      .ok (decide (intent.fileOffset ≤ scan.truncateTo ∧ scan.truncateTo < intent.endOffset))
    else
      match intent.writtenPrefix sha256 scan.records with
      | none => .error .metadataCorrupted
      | some [] =>
        if scan.fileLen = intent.fileOffset then .ok true else .error .metadataCorrupted
      | some (first :: written) => do
        let consistent ← intent.consistent sha256 (first :: written)
        if consistent = false ∨ intent.writtenEnd (first :: written) ≠ scan.fileLen then
          throw .metadataCorrupted
        else pure true

/-- The first frame's header is known exactly. A later frame's lengths are not recorded, so its
magic, version and sequence must match. -/
def tornHeaderMatches (bytes : Bytes) (scan : ScanResult) (intent : AppendIntentV1)
    (written : Nat) : Bool :=
  let header := slice bytes scan.truncateTo (min (scan.fileLen - scan.truncateTo) frameHeaderBytes)
  if written = 0 then decide (header = intent.header.take header.length)
  else
    let expected := frameHeader (intent.seq + written) 0 0
    (List.range header.length).all fun index =>
      decide (6 ≤ index ∧ index < 12) || decide (header[index]? = expected[index]?)

/-- `bytes` are the contents of the records file. -/
def isProvenUnpublishedActiveTail (bytes : Bytes) (scan : ScanResult) (spoolMeta : SpoolMetaV1)
    (quarantine : TerminalQuarantine) (bounds : SpoolBounds) : Bool :=
  if spoolMeta.integrity ≠ .healthy ∨ scan.fileLen ≤ scan.truncateTo ∨
      spoolMeta.nextSeq < spoolMeta.committedThrough + 1 ∨
      bounds.maxRecords + bounds.maxQuarantineRecords <
        spoolMeta.nextSeq - spoolMeta.committedThrough - 1 ∨
      quarantine.entries.keys.any (fun seq => spoolMeta.nextSeq ≤ seq) = true ∨
      quarantine.covers scan.records spoolMeta.committedThrough spoolMeta.nextSeq = false then
    false
  else
    match spoolMeta.appendIntent with
    | none => false
    | some intent =>
      match intent.writtenPrefix sha256 scan.records with
      | none => false
      | some written =>
        if intent.records ≤ written.length ∨ intent.writtenEnd written ≠ scan.truncateTo ∨
            intent.endOffset ≤ scan.fileLen then
          false
        else tornHeaderMatches bytes scan intent written.length

end TraceDecay.Admission
