import TraceDecay.Admission.Types

/-!
# Admission.Quarantine

The quarantine file: for every terminal record its reason and the exact bytes of its active frame,
sealed by a checksum. Its own path and bounds are the spool's.
-/

namespace TraceDecay.Admission

/-- `b"TDHQ"`. -/
def quarantineMagic : Bytes := [0x54, 0x44, 0x48, 0x51]

def quarantineVersion : Nat := 1

def quarantineHeaderBytes : Nat := 24

structure QuarantineEntry where
  reason : TerminalReason
  activeFrame : Bytes
deriving DecidableEq

structure PartialTail where
  offset : Nat
  bytes : Bytes

structure TerminalQuarantine where
  entries : OrdMap Nat QuarantineEntry
  bytes : Nat
  partialTail : Option PartialTail

structure QuarantineHeader where
  reason : TerminalReason
  (activeLen seq : Nat)

def parseQuarantineHeader (header : Bytes) (atOffset : Nat) : Except SpoolError QuarantineHeader :=
  let version := LittleEndian.decode (slice header 4 2)
  if slice header 0 4 ≠ quarantineMagic ∨ header.getD 7 0 ≠ 0 then
    .error (.quarantineCorrupted atOffset)
  else if version ≠ quarantineVersion then .error (.unsupportedVersion version)
  else
    match TerminalReason.fromCode (header.getD 6 0) with
    | none => .error (.quarantineCorrupted atOffset)
    | some reason =>
      .ok ⟨reason, LittleEndian.decode (slice header 8 8), LittleEndian.decode (slice header 16 8)⟩

def quarantineBody (seq : Nat) (reason : TerminalReason) (activeFrame : Bytes) : Bytes :=
  quarantineMagic ++ LittleEndian.encode 2 quarantineVersion ++ [reason.code, 0] ++
    LittleEndian.encode 8 activeFrame.length ++ LittleEndian.encode 8 seq ++ activeFrame

variable (sha256 : Bytes → FixedBytes 32)

def encodeQuarantine (seq : Nat) (reason : TerminalReason) (activeFrame : Bytes) : Bytes :=
  quarantineBody seq reason activeFrame ++ (sha256 (quarantineBody seq reason activeFrame)).bytes

/-- What the loop of `TerminalQuarantine.open` found: the entries and where the last whole frame
ends. -/
structure QuarantineScan where
  entries : OrdMap Nat QuarantineEntry
  truncateTo : Nat

/-- The loop of `TerminalQuarantine.open`: `rest` are the bytes from `offset` on. A frame is never
empty, so `fuel` above the length of `rest` is never used up. -/
def scanQuarantine (bounds : SpoolBounds) :
    Nat → Bytes → Nat → OrdMap Nat QuarantineEntry → Except SpoolError QuarantineScan
  | 0, _, offset, entries => .ok ⟨entries, offset⟩
  | fuel + 1, rest, offset, entries =>
    if rest.length < quarantineHeaderBytes then .ok ⟨entries, offset⟩
    else
      match parseQuarantineHeader (rest.take quarantineHeaderBytes) offset with
      | .error e => .error e
      | .ok parsed =>
        let framedLen := quarantineHeaderBytes + parsed.activeLen + checksumBytes
        let activeFrame := slice rest quarantineHeaderBytes parsed.activeLen
        if bounds.maxSpoolBytes < parsed.activeLen then .error (.quarantineCorrupted offset)
        else if rest.length < framedLen then .ok ⟨entries, offset⟩
        else if bounds.maxQuarantineRecords ≤ entries.entries.length then .error .quarantineFull
        else if (sha256 (rest.take (quarantineHeaderBytes + parsed.activeLen))).bytes ≠
              slice rest (quarantineHeaderBytes + parsed.activeLen) checksumBytes ∨
            validateQuarantinedActiveFrame sha256 parsed.seq activeFrame bounds = false ∨
            entries.contains parsed.seq = true then
          .error (.quarantineCorrupted offset)
        else
          scanQuarantine bounds fuel (rest.drop framedLen) (offset + framedLen)
            (entries.insert parsed.seq ⟨parsed.reason, activeFrame⟩)

/-- `file` is `none` where there is no quarantine file. -/
def TerminalQuarantine.open (file : Option Bytes) (bounds : SpoolBounds) :
    Except SpoolError TerminalQuarantine :=
  match file with
  | none => .ok ⟨OrdMap.empty, 0, none⟩
  | some bytes =>
    if bounds.maxQuarantineBytes < bytes.length then .error .quarantineFull
    else
      match scanQuarantine sha256 bounds (bytes.length + 1) bytes 0 OrdMap.empty with
      | .error e => .error e
      | .ok scan =>
        .ok
          { entries := scan.entries
            bytes := scan.truncateTo
            partialTail :=
              if scan.truncateTo < bytes.length then
                some ⟨scan.truncateTo, bytes.drop scan.truncateTo⟩
              else none }

namespace TerminalQuarantine

variable (q : TerminalQuarantine)

def contains (seq : Nat) : Bool := q.entries.contains seq

def entry (seq : Nat) : Option QuarantineEntry := q.entries.find? seq

def len : Nat := q.entries.entries.length

def preservesGap (after before : Nat) : Bool :=
  decide (before - after - 1 ≤ q.len) &&
    (List.range' (after + 1) (before - after - 1)).all fun seq => q.contains seq

/-- Every sequence above `after` and below `before` is preserved here or among `records`. -/
def covers (records : List SpoolRecord) (after before : Nat) : Bool :=
  (List.range' (after + 1) (before - after - 1)).all fun seq =>
    q.contains seq || (records.map (·.seq)).contains seq

/-- The check of `recoverPartialTail` that the tail is a strict prefix of the frame of an active
record that the published sequences name. -/
def provenTail (tail : PartialTail) (activeRecords : List SpoolRecord)
    (committedThrough nextSeq : Nat) : Except SpoolError Unit := do
  let corrupted := SpoolError.quarantineCorrupted tail.offset
  if tail.bytes.length < quarantineHeaderBytes then throw corrupted
  else
    let parsed ← parseQuarantineHeader (tail.bytes.take quarantineHeaderBytes) tail.offset
    if parsed.seq ≤ committedThrough ∨ nextSeq ≤ parsed.seq ∨ q.contains parsed.seq = true then
      throw corrupted
    else
      match activeRecords.find? (fun record => record.seq = parsed.seq) with
      | none => throw corrupted
      | some active =>
        let activeFrame ← active.encodeFrame sha256
        let expected := encodeQuarantine sha256 parsed.seq parsed.reason activeFrame
        if parsed.activeLen ≠ activeFrame.length ∨ expected.length ≤ tail.bytes.length ∨
            ¬ tail.bytes <+: expected then
          throw corrupted
        else pure ()

/-- The version check of `recoverPartialTail` on a tail too short for a header. -/
def tailVersion (tail : PartialTail) : Except SpoolError Unit :=
  let version := LittleEndian.decode (slice tail.bytes 4 2)
  if 6 ≤ tail.bytes.length ∧ tail.bytes.take 4 = quarantineMagic ∧ version ≠ quarantineVersion then
    .error (.unsupportedVersion version)
  else .ok ()

/-- Where `recoverPartialTail` cuts the file, if it has a partial tail. -/
def tailCut (activeRecords : List SpoolRecord)
    (committedThrough nextSeq : Nat) : Except SpoolError (Option PartialTail) :=
  match q.partialTail with
  | none => .ok none
  | some tail =>
    let evidence := activeRecords.length + q.len
    if nextSeq < committedThrough + 1 ∨ evidence < nextSeq - committedThrough - 1 ∨
        activeRecords.any (fun record => nextSeq ≤ record.seq) = true ∨
        q.entries.keys.any (fun seq => nextSeq ≤ seq) = true ∨
        q.covers activeRecords committedThrough nextSeq = false then
      .error (.quarantineCorrupted tail.offset)
    else do
      tailVersion tail
      provenTail sha256 q tail activeRecords committedThrough nextSeq
      pure (some tail)

/-- The checks of `preserve`: `none` where the entry is already there, otherwise the frame to
append. -/
def preserveFrame (bounds : SpoolBounds) (seq : Nat) (reason : TerminalReason)
    (activeFrame : Bytes) : Except SpoolError (Option Bytes) :=
  match q.entry seq with
  | some existing =>
    if existing = ⟨reason, activeFrame⟩ then .ok none else .error (.quarantineCorrupted 0)
  | none =>
    let frame := encodeQuarantine sha256 seq reason activeFrame
    if bounds.maxQuarantineRecords ≤ q.len then .error .quarantineFull
    else if bounds.maxQuarantineBytes < q.bytes + frame.length then .error .quarantineFull
    else .ok (some frame)

end TerminalQuarantine

end TraceDecay.Admission
