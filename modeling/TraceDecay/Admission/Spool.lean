import TraceDecay.Admission.Scan
import TraceDecay.Lib.Stateful

/-!
# Admission.Spool

The host-admission spool over the three files of its directory. A `World` holds the files and says
what becomes of every coming write: it succeeds, or it fails after some of it reached the disk. A
write that replaces a whole file reaches it altogether or not at all. An open makes of the frames it
found the records still pending, what they use of the bounds, and the next sequence where frames
reach past the published one.
-/

namespace TraceDecay.Admission

open Stateful (lift)

abbrev SourceUsage := OrdMap String (Nat × Nat)

def SourceUsage.of (usage : SourceUsage) (source : String) : Nat × Nat :=
  (usage.find? source).getD (0, 0)

def SourceUsage.add (usage : SourceUsage) (source : String) (framedLen : Nat) : SourceUsage :=
  usage.upsert source fun entry => ((entry.getD (0, 0)).1 + 1, (entry.getD (0, 0)).2 + framedLen)

structure PendingRecovery where
  pending : List SpoolRecord
  pendingBytes : Nat
  pendingBySource : SourceUsage
  recoveredNextSeq : Option Nat

section Recovery

variable (sha256 : Bytes → FixedBytes 32)

/-- A frame that is both active and quarantined has the same bytes in both files. -/
def checkQuarantined (quarantine : TerminalQuarantine) (record : SpoolRecord) :
    Except SpoolError Unit :=
  match quarantine.entry record.seq with
  | none => .ok ()
  | some entry => do
    let activeFrame ← record.encodeFrame sha256
    if entry.activeFrame ≠ activeFrame then throw (.quarantineCorrupted record.fileOffset)
    else pure ()

variable (records : List SpoolRecord) (quarantine : TerminalQuarantine) (committedThrough : Nat)

/-- Nothing is missing between the watermark and the first frame above it. -/
def checkFirstGap : Except SpoolError Unit :=
  match records.find? (fun record => committedThrough < record.seq) with
  | none => .ok ()
  | some first =>
    if committedThrough + 1 < first.seq ∧
        quarantine.preservesGap committedThrough first.seq = false then
      .error (.corrupted first.fileOffset)
    else .ok ()

/-- The highest sequence above the watermark that either file holds. -/
def highestUnresolved : Option Nat :=
  ((records.map (·.seq) ++ quarantine.entries.keys).filter (committedThrough < ·)).max?

variable (spoolMeta : SpoolMetaV1)

def namedByIntent (highest : Nat) : Bool :=
  match spoolMeta.appendIntent with
  | none => false
  | some intent => decide (intent.seq ≤ highest ∧ highest < intent.endSeq)

/-- The next sequence, where frames of the published intent reach past the published one. -/
def recoverNextSeq : Except SpoolError (Option Nat) :=
  if spoolMeta.integrity ≠ .healthy then .ok none
  else
    match highestUnresolved records quarantine spoolMeta.committedThrough with
    | some highest =>
      if highest = spoolMeta.nextSeq ∨ namedByIntent spoolMeta highest = true then
        if (quarantine.contains highest = true ∧ namedByIntent spoolMeta highest = false) ∨
            records.getLast?.map (·.seq) ≠ some highest ∨ u64Max ≤ highest then
          .error .metadataCorrupted
        else .ok (some (highest + 1))
      else if highest + 1 = spoolMeta.nextSeq then .ok none
      else .error .metadataCorrupted
    | none =>
      if spoolMeta.nextSeq = spoolMeta.committedThrough + 1 then .ok none
      else .error .metadataCorrupted

/-- Every sequence above the watermark that was issued is in one of the files. -/
def checkEvidence (committedThrough nextSeq : Nat) : Except SpoolError Unit :=
  let evidence :=
    (records.filter fun record => decide (committedThrough < record.seq)).length +
      (quarantine.entries.keys.filter fun seq =>
        decide (committedThrough < seq) && !(records.map (·.seq)).contains seq).length
  if evidence < nextSeq - committedThrough - 1 then .error .metadataCorrupted
  else if quarantine.covers records committedThrough nextSeq = false then .error (.corrupted 0)
  else .ok ()

/-- One turn of the loop that collects the pending records. -/
def recoverRecord (bounds : SpoolBounds) (r : PendingRecovery)
    (record : SpoolRecord) : Except SpoolError PendingRecovery :=
  let usage := r.pendingBySource.add record.source record.framedLen
  if record.seq ≤ committedThrough ∨ quarantine.contains record.seq = true then .ok r
  else if bounds.maxRecords ≤ r.pending.length then .error (.overflow .maxRecords)
  else if bounds.maxSpoolBytes < r.pendingBytes + record.framedLen then
    .error (.overflow .maxBytes)
  else if bounds.maxRecordsPerSource < (usage.of record.source).1 then
    .error (.overflow .maxRecordsPerSource)
  else if bounds.maxSpoolBytesPerSource < (usage.of record.source).2 then
    .error (.overflow .maxBytesPerSource)
  else
    .ok
      { r with
        pending := r.pending ++ [record]
        pendingBytes := r.pendingBytes + record.framedLen
        pendingBySource := usage }

def recoverPending (bounds : SpoolBounds) : Except SpoolError PendingRecovery := do
  records.forM (checkQuarantined sha256 quarantine)
  checkFirstGap records quarantine spoolMeta.committedThrough
  let recovered ← recoverNextSeq records quarantine spoolMeta
  let nextSeq := recovered.getD spoolMeta.nextSeq
  if quarantine.entries.keys.any
      (fun seq => decide (seq = 0 ∨ seq = u64Max ∨ nextSeq ≤ seq)) = true then
    throw (.quarantineCorrupted 0)
  else
    let evidence :=
      if spoolMeta.integrity = .healthy then
        checkEvidence records quarantine spoolMeta.committedThrough nextSeq
      else .ok ()
    evidence
    records.foldlM (recoverRecord quarantine spoolMeta.committedThrough bounds)
      ⟨[], 0, OrdMap.empty, recovered⟩

end Recovery

/-- The directory of a spool, `none` being a file that does not exist. -/
structure Disk where
  records : Option Bytes
  metaFile : Option SpoolMetaV1
  quarantine : Option Bytes

def Disk.empty : Disk := ⟨none, none, none⟩

inductive WriteOutcome
  | succeeds
  /-- Of an append the first `reached` bytes arrive; a replacement arrives unless it is 0. -/
  | fails (reached : Nat)
deriving DecidableEq

structure World where
  disk : Disk
  writes : Nat → WriteOutcome

namespace World

/-- One write: `whole` is the directory it makes, `cut n` the one it leaves when it fails. -/
def write (whole : Disk) (cut : Nat → Disk) : EStateM SpoolError World Unit := fun w =>
  match w.writes 0 with
  | .succeeds => .ok () ⟨whole, fun i => w.writes (i + 1)⟩
  | .fails reached => .error .io ⟨cut reached, fun i => w.writes (i + 1)⟩

def replace (change : Disk → Disk) : EStateM SpoolError World Unit := fun w =>
  write (change w.disk) (fun reached => if reached = 0 then w.disk else change w.disk) w

end World

def appended (file : Option Bytes) (bytes : Bytes) : Option Bytes := some (file.getD [] ++ bytes)

def fileLen (file : Option Bytes) : Nat := (file.getD []).length

variable (spoolMeta : SpoolMetaV1)

def writeMetaAtomic : EStateM SpoolError World Unit :=
  World.replace fun d => { d with metaFile := some spoolMeta }

def truncateRecords (len : Nat) : EStateM SpoolError World Unit :=
  World.replace fun d => { d with records := d.records.map (·.take len) }

def replaceRecords (bytes : Bytes) : EStateM SpoolError World Unit :=
  World.replace fun d => { d with records := some bytes }

def truncateQuarantine (len : Nat) : EStateM SpoolError World Unit :=
  World.replace fun d => { d with quarantine := d.quarantine.map (·.take len) }

/-- `append_frame_durable` on the records file: the offset the bytes went to. -/
def appendRecords (bytes : Bytes) : EStateM SpoolError World Nat := fun w =>
  (do
    World.write { w.disk with records := appended w.disk.records bytes }
      (fun reached => { w.disk with records := appended w.disk.records (bytes.take reached) })
    pure (fileLen w.disk.records) : EStateM SpoolError World Nat) w

def appendQuarantine (bytes : Bytes) : EStateM SpoolError World Unit := fun w =>
  World.write { w.disk with quarantine := appended w.disk.quarantine bytes }
    (fun reached => { w.disk with quarantine := appended w.disk.quarantine (bytes.take reached) }) w

structure SpoolOpenReport where
  (pendingRecords truncatedPartialTailBytes : Nat)
  integrity : SpoolIntegrity
  (committedThrough nextSeq quarantinedRecords quarantineBytes : Nat)
  quarantineTruncatedPartialTailBytes : Nat

structure HostAdmissionSpool where
  bounds : SpoolBounds
  spoolMeta : SpoolMetaV1
  pending : List SpoolRecord
  (pendingBytes physicalLen : Nat)
  pendingBySource : SourceUsage
  (cleanupPending metaUnpublished appendRecoveryRequired quarantineRecoveryRequired : Bool)
  quarantine : TerminalQuarantine

variable (sha256 : Bytes → FixedBytes 32)

/-! ## Opening -/

/-- The checks of the metadata before any other file is read. -/
def validateMeta (bounds : SpoolBounds) : Except SpoolError Unit := do
  if spoolMeta.version ≠ formatVersion then throw (.unsupportedVersion spoolMeta.version)
  else
    validateMetaWatermarks spoolMeta
    validateAppendIntent spoolMeta bounds

/-- Complete frames of a published append intent were issued even though `nextSeq` does not count
them yet. -/
def issuedNextSeq (spoolMeta : SpoolMetaV1) (scan : ScanResult) : Nat :=
  match spoolMeta.appendIntent.bind fun intent => intent.writtenPrefix sha256 scan.records with
  | none => spoolMeta.nextSeq
  | some written =>
    match written.getLast? with
    | none => spoolMeta.nextSeq
    | some last => max spoolMeta.nextSeq (last.seq + 1)

/-- `recover_partial_tail`: the quarantine without its torn tail, and the bytes cut off. -/
def recoverPartialTail (quarantine : TerminalQuarantine) (scan : ScanResult)
    (spoolMeta : SpoolMetaV1) : EStateM SpoolError World (TerminalQuarantine × Nat) := do
  let cut ← lift (quarantine.tailCut sha256 scan.records spoolMeta.committedThrough
    (issuedNextSeq sha256 spoolMeta scan))
  match cut with
  | none => pure (quarantine, 0)
  | some tail => do
    truncateQuarantine tail.offset
    pure ({ quarantine with partialTail := none }, tail.bytes.length)

/-- A tail that no published intent explains makes the file corrupt. -/
def judgeTail (file : Option Bytes) (scan : ScanResult) (spoolMeta : SpoolMetaV1)
    (quarantine : TerminalQuarantine) (bounds : SpoolBounds) : ScanResult :=
  if scan.integrity = .healthy ∧ scan.truncateTo < scan.fileLen ∧
      isProvenUnpublishedActiveTail sha256 (file.getD []) scan spoolMeta quarantine bounds =
        false then
    { scan with integrity := .corrupted scan.truncateTo }
  else scan

/-- Cuts a proven tail off, or writes the corruption down; returns the metadata and how many bytes
were cut. -/
def settleTail (scan : ScanResult) (spoolMeta : SpoolMetaV1) :
    EStateM SpoolError World (SpoolMetaV1 × Nat) :=
  match scan.integrity with
  | .healthy =>
    if scan.truncateTo < scan.fileLen then do
      truncateRecords scan.truncateTo
      pure (spoolMeta, scan.fileLen - scan.truncateTo)
    else pure (spoolMeta, 0)
  | .corrupted atOffset => do
    writeMetaAtomic { spoolMeta with integrity := .corrupted atOffset }
    pure ({ spoolMeta with integrity := .corrupted atOffset }, 0)

/-- The metadata an open ends with: the recovered sequence, and no intent that is reconciled. -/
def reconciledMeta (recovered : Option Nat) (clearIntent : Bool) : SpoolMetaV1 :=
  { spoolMeta with
    nextSeq := recovered.getD spoolMeta.nextSeq
    appendIntent := if clearIntent then none else spoolMeta.appendIntent }

/-- Publishes the metadata an open ends with where it changed or was missing. -/
def publishOpened (existed : Bool) (spoolMeta : SpoolMetaV1) (changed : Bool) :
    EStateM SpoolError World Unit :=
  if changed = true ∨ existed = false then writeMetaAtomic spoolMeta else pure ()

/-- The spool and the report of an open whose files are settled; `physicalLen` is what the records
file is left with. -/
def openedSpool (bounds : SpoolBounds) (spoolMeta : SpoolMetaV1) (scan : ScanResult)
    (recovery : PendingRecovery) (quarantine : TerminalQuarantine) (physicalLen : Nat) :
    HostAdmissionSpool :=
  { bounds
    spoolMeta
    pending := recovery.pending
    pendingBytes := recovery.pendingBytes
    physicalLen
    pendingBySource := recovery.pendingBySource
    cleanupPending := decide (scan.integrity = .healthy ∧ recovery.pendingBytes < scan.truncateTo)
    metaUnpublished := false
    appendRecoveryRequired := false
    quarantineRecoveryRequired := false
    quarantine }

variable (spool : HostAdmissionSpool)

def openReport (truncated quarantineTruncated : Nat) : SpoolOpenReport :=
  { pendingRecords := spool.pending.length
    truncatedPartialTailBytes := truncated
    integrity := spool.spoolMeta.integrity
    committedThrough := spool.spoolMeta.committedThrough
    nextSeq := spool.spoolMeta.nextSeq
    quarantinedRecords := spool.quarantine.len
    quarantineBytes := spool.quarantine.bytes
    quarantineTruncatedPartialTailBytes := quarantineTruncated }

def HostAdmissionSpool.open (bounds : SpoolBounds) :
    EStateM SpoolError World (HostAdmissionSpool × SpoolOpenReport) := do
  lift (validateBounds bounds)
  let start ← get
  let published := start.disk.metaFile.getD .fresh
  lift (validateMeta published bounds)
  let found ← lift (TerminalQuarantine.open sha256 start.disk.quarantine bounds)
  let scanned ← lift (scanRecords sha256 start.disk.records bounds found)
  let (quarantine, quarantineTruncated) ← recoverPartialTail sha256 found scanned published
  let scan := judgeTail sha256 start.disk.records scanned published quarantine bounds
  let (settled, truncated) ← settleTail scan published
  let clearIntent ← lift (appendIntentIsReconciled sha256 scan settled truncated)
  let recovery ← lift (recoverPending sha256 scan.records quarantine settled bounds)
  let spoolMeta := reconciledMeta settled recovery.recoveredNextSeq clearIntent
  publishOpened start.disk.metaFile.isSome spoolMeta (recovery.recoveredNextSeq.isSome || clearIntent)
  let done ← get
  let spool := openedSpool bounds spoolMeta scan recovery quarantine (fileLen done.disk.records)
  pure (spool, openReport spool truncated quarantineTruncated)

/-! ## Operations -/

structure Machine where
  spool : HostAdmissionSpool
  world : World

def onDisk {α : Type} (x : EStateM SpoolError World α) : EStateM SpoolError Machine α := fun m =>
  match x m.world with
  | .ok a w => .ok a { m with world := w }
  | .error e w => .error e { m with world := w }

def modifySpool (f : HostAdmissionSpool → HostAdmissionSpool) : EStateM SpoolError Machine Unit :=
  modify fun m => { m with spool := f m.spool }

namespace HostAdmissionSpool

def ensureMutationsAllowed (spool : HostAdmissionSpool) : Except SpoolError Unit :=
  match spool.spoolMeta.integrity with
  | .corrupted atOffset => .error (.corrupted atOffset)
  | .healthy =>
    if spool.quarantineRecoveryRequired then .error .quarantineRecoveryRequired
    else if spool.appendRecoveryRequired then .error .appendRecoveryRequired
    else .ok ()

def pendingRecord (spool : HostAdmissionSpool) (seq : Nat) : Option SpoolRecord :=
  spool.pending.find? fun record => record.seq = seq

/-- Waste must exceed this multiple of the pending bytes, and this fraction of the bound. -/
def compactWasteMultiplier : Nat := 2

def compactMinWasteDivisor : Nat := 16

def shouldCompactRetainedPrefix (spool : HostAdmissionSpool) : Bool :=
  spool.cleanupPending && decide (spool.bounds.maxSpoolBytes / compactMinWasteDivisor ≤
        spool.physicalLen - spool.pendingBytes ∧
      spool.pendingBytes * compactWasteMultiplier < spool.physicalLen)

def sourceUsageRelease (usage : SourceUsage) (source : String) (framedLen : Nat) : SourceUsage :=
  match usage.find? source with
  | none => usage
  | some entry =>
    if entry.1 - 1 = 0 then usage.erase source
    else usage.insert source (entry.1 - 1, entry.2 - framedLen)

def release (spool : HostAdmissionSpool) (record : SpoolRecord) : HostAdmissionSpool :=
  { spool with
    pendingBytes := spool.pendingBytes - record.framedLen
    pendingBySource := sourceUsageRelease spool.pendingBySource record.source record.framedLen }

/-- `ack_through`: how many records were acknowledged. The watermark becomes durable with the next
metadata that is published. -/
def ackThrough (spool : HostAdmissionSpool) (through : Nat) :
    Except SpoolError (Nat × HostAdmissionSpool) := do
  spool.ensureMutationsAllowed
  if through ≤ spool.spoolMeta.committedThrough then pure (0, spool)
  else
    match spool.pending.getLast? with
    | none => throw (.ackUnknown through)
    | some tail =>
      if tail.seq < through then throw (.ackUnknown through)
      else
        match spool.pending.findIdx? fun record => record.seq = through with
        | none =>
          throw (.ackOutOfOrder ((spool.pending.head?.map (·.seq)).getD through) through)
        | some lastIndex =>
          let drained := (spool.pending.take (lastIndex + 1)).foldl release spool
          pure (lastIndex + 1,
            { drained with
              spoolMeta := { spool.spoolMeta with committedThrough := through }
              metaUnpublished := true
              pending := spool.pending.drop (lastIndex + 1)
              cleanupPending := true })

end HostAdmissionSpool

def publishMeta : EStateM SpoolError Machine Unit := do
  let m ← get
  if m.spool.metaUnpublished then do
    onDisk (writeMetaAtomic m.spool.spoolMeta)
    modifySpool fun spool => { spool with metaUnpublished := false }
  else pure ()

/-- The records with the offsets and lengths of the frames written one after another. -/
def rebuilt : Nat → List (SpoolRecord × Bytes) → List SpoolRecord
  | _, [] => []
  | offset, (record, frame) :: rest =>
    { record with fileOffset := offset, framedLen := frame.length } ::
      rebuilt (offset + frame.length) rest

/-- `compact_pending` after the metadata is published. -/
def rewritePending : EStateM SpoolError Machine Unit :=
  if spool.pending = [] then do
    onDisk (truncateRecords 0)
    modifySpool fun spool =>
      { spool with pendingBytes := 0, physicalLen := 0, cleanupPending := false }
  else do
    -- whatever stops the writing of the frames is an I/O error
    let frames ← lift ((spool.pending.mapM (SpoolRecord.encodeFrame sha256)).mapError fun _ => .io)
    onDisk (replaceRecords frames.flatten)
    let pending := rebuilt 0 (spool.pending.zip frames)
    let pendingBytes := (pending.map (·.framedLen)).sum
    modifySpool fun spool =>
      { spool with
        pending
        pendingBytes
        physicalLen := pendingBytes
        cleanupPending := false }

/-- Rewrites the active file down to its pending frames. Metadata is published first: a reopen must
never find acknowledged frames gone while the durable watermark still names them pending, nor an
append intent naming offsets the rewrite moved. -/
def compactPending : EStateM SpoolError Machine Unit := do
  let m ← get
  lift m.spool.ensureMutationsAllowed
  publishMeta
  rewritePending sha256 m.spool

structure PlannedBatch where
  (nextSeq records : Nat)
  bytes : Bytes
  bySource : SourceUsage

def PlannedBatch.new (nextSeq : Nat) : PlannedBatch := ⟨nextSeq, 0, [], OrdMap.empty⟩

structure Planning where
  machine : Machine
  batch : PlannedBatch

variable (batch : PlannedBatch)

/-- The checks of one item before the file is looked at: its frame. -/
def planFrame (source : String) (payload : Bytes) : Except SpoolError Bytes := do
  validateRecordBounds (sourceBytes source) payload spool.bounds
  let durable := spool.pendingBySource.of source
  let planned := batch.bySource.of source
  if spool.bounds.maxRecords ≤ spool.pending.length + batch.records then
    throw (.overflow .maxRecords)
  else if spool.bounds.maxRecordsPerSource ≤ durable.1 + planned.1 then
    throw (.overflow .maxRecordsPerSource)
  else if batch.nextSeq = u64Max then throw .metadataCorrupted
  else
    let frame ← encodeFrame sha256 batch.nextSeq (sourceBytes source) payload
    if spool.bounds.maxSpoolBytesPerSource < durable.2 + planned.2 + frame.length then
      throw (.overflow .maxBytesPerSource)
    else if spool.bounds.maxSpoolBytes <
        spool.pendingBytes + (batch.bytes.length + frame.length) then
      throw (.overflow .maxBytes)
    else pure frame

def exceedsPhysical (unwritten : Nat) : Bool :=
  decide (spool.bounds.maxSpoolBytes < spool.physicalLen + unwritten)

/-- Makes room in the file for `unwritten` more bytes. -/
def ensurePhysicalRoom (unwritten : Nat) : EStateM SpoolError Machine Unit := do
  let m ← get
  if exceedsPhysical m.spool unwritten then do
    compactPending sha256
    let m ← get
    if exceedsPhysical m.spool unwritten then throw (.overflow .maxBytes) else pure ()
  else pure ()

def PlannedBatch.add (batch : PlannedBatch) (source : String) (frame : Bytes) : PlannedBatch :=
  { nextSeq := batch.nextSeq + 1
    records := batch.records + 1
    bytes := batch.bytes ++ frame
    bySource := batch.bySource.add source frame.length }

def onMachine {α : Type} (x : EStateM SpoolError Machine α) : EStateM SpoolError Planning α :=
  fun p =>
    match x p.machine with
    | .ok a m => .ok a { p with machine := m }
    | .error e m => .error e { p with machine := m }

/-- Admits one item into the batch: its sequence and framed length. -/
def planAppend (source : String) (payload : Bytes) : EStateM SpoolError Planning (Nat × Nat) := do
  let p ← get
  let frame ← lift (planFrame sha256 p.machine.spool p.batch source payload)
  onMachine (ensurePhysicalRoom sha256 (p.batch.bytes.length + frame.length))
  modify fun p => { p with batch := p.batch.add source frame }
  pure (p.batch.nextSeq, frame.length)

def planItems : List (String × Bytes) → Planning → List (Except SpoolError (Nat × Nat)) × Planning
  | [], p => ([], p)
  | (source, payload) :: items, p =>
    match planAppend sha256 source payload p with
    | .ok planned p =>
      (.ok planned :: (planItems items p).1, (planItems items p).2)
    | .error e p => (.error e :: (planItems items p).1, (planItems items p).2)

/-- Publishes the batch's append intent, then writes and syncs its frames. -/
def publishBatch : EStateM SpoolError Machine Unit := do
  let m ← get
  let intent := AppendIntentV1.new sha256 m.spool.spoolMeta.nextSeq m.spool.physicalLen
    batch.records batch.bytes
  onDisk (writeMetaAtomic { m.spool.spoolMeta with appendIntent := some intent })
  modifySpool fun spool => { spool with metaUnpublished := true }
  let fileOffset ← onDisk (appendRecords batch.bytes)
  if fileOffset ≠ m.spool.physicalLen then throw (.corrupted m.spool.physicalLen) else pure ()

/-- The records of the planned items, their frames lying one after another from `offset` on. -/
def plannedRecords : Nat → List (Except SpoolError (Nat × Nat)) → List (String × Bytes) →
    List (Except SpoolError SpoolRecord)
  | offset, .ok (seq, framedLen) :: planned, (source, payload) :: items =>
    .ok ⟨seq, source, payload, offset, framedLen⟩ ::
      plannedRecords (offset + framedLen) planned items
  | offset, .error e :: planned, _ :: items => .error e :: plannedRecords offset planned items
  | _, _, _ => []

def accepted (results : List (Except SpoolError SpoolRecord)) : List SpoolRecord :=
  results.filterMap Except.toOption

def HostAdmissionSpool.admitBatch (records : List SpoolRecord) : HostAdmissionSpool :=
  { spool with
    pending := spool.pending ++ records
    pendingBySource := records.foldl
      (fun usage record => usage.add record.source record.framedLen) spool.pendingBySource
    pendingBytes := spool.pendingBytes + batch.bytes.length
    physicalLen := spool.physicalLen + (records.map (·.framedLen)).sum
    spoolMeta := { spool.spoolMeta with nextSeq := batch.nextSeq } }

/-- What an accepted item becomes when its batch cannot be published. -/
def refusePlanned (e : SpoolError) : Except SpoolError (Nat × Nat) → Except SpoolError SpoolRecord
  | .ok _ => .error e
  | .error refused => .error refused

variable (planned : List (Except SpoolError (Nat × Nat)))

def finishBatch (batch : PlannedBatch) (items : List (String × Bytes)) (m : Machine) :
    List (Except SpoolError SpoolRecord) × Machine :=
  (plannedRecords m.spool.physicalLen planned items,
    { m with
      spool := m.spool.admitBatch batch
        (accepted (plannedRecords m.spool.physicalLen planned items)) })

def refuseBatch (e : SpoolError) (m : Machine) : List (Except SpoolError SpoolRecord) × Machine :=
  (planned.map (refusePlanned e),
    { m with spool := { m.spool with appendRecoveryRequired := true } })

variable (items : List (String × Bytes))

def commitPlanned (p : Planning) : List (Except SpoolError SpoolRecord) × Machine :=
  if p.batch.records = 0 then finishBatch planned p.batch items p.machine
  else
    match publishBatch sha256 p.batch p.machine with
    | .ok () m => finishBatch planned p.batch items m
    | .error e m => refuseBatch planned e m

/-- `append_batch` once acknowledged bytes are reclaimed. -/
def appendPlanned (m : Machine) : List (Except SpoolError SpoolRecord) × Machine :=
  commitPlanned sha256
    (planItems sha256 items ⟨m, PlannedBatch.new m.spool.spoolMeta.nextSeq⟩).1 items
    (planItems sha256 items ⟨m, PlannedBatch.new m.spool.spoolMeta.nextSeq⟩).2

def appendBatch (m : Machine) : List (Except SpoolError SpoolRecord) × Machine :=
  match m.spool.ensureMutationsAllowed with
  | .error e => (items.map fun _ => .error e, m)
  | .ok () =>
    if m.spool.spoolMeta.nextSeq = 0 ∨ m.spool.spoolMeta.nextSeq = u64Max then
      (items.map fun _ => .error .metadataCorrupted, m)
    else if m.spool.shouldCompactRetainedPrefix then
      match compactPending sha256 m with
      | .error e m => (items.map fun _ => .error e, m)
      | .ok () m => appendPlanned sha256 items m
    else appendPlanned sha256 items m

/-- `preserve`: appends the entry unless it is there. -/
def preserve (seq : Nat) (reason : TerminalReason) (activeFrame : Bytes) :
    EStateM SpoolError Machine Unit := do
  let m ← get
  let frame ← lift (m.spool.quarantine.preserveFrame sha256 m.spool.bounds seq reason activeFrame)
  match frame with
  | none => pure ()
  | some frame => do
    onDisk (appendQuarantine frame)
    modifySpool fun spool =>
      { spool with
        quarantine :=
          { spool.quarantine with
            bytes := spool.quarantine.bytes + frame.length
            entries := spool.quarantine.entries.insert seq ⟨reason, activeFrame⟩ } }

def requireQuarantineRecovery {α : Type} (e : SpoolError) : EStateM SpoolError Machine α := do
  modifySpool fun spool => { spool with quarantineRecoveryRequired := true }
  throw e

/-- `preserve` as `quarantine` calls it: a failure of the file needs a reopen. -/
def preserveTerminal (seq : Nat) (reason : TerminalReason) (activeFrame : Bytes) :
    EStateM SpoolError Machine Unit := fun m =>
  match preserve sha256 seq reason activeFrame m with
  | .ok () m => .ok () m
  | .error .io m => requireQuarantineRecovery .quarantineRecoveryRequired m
  | .error (.quarantineCorrupted atOffset) m =>
    requireQuarantineRecovery (.quarantineCorrupted atOffset) m
  | .error e m => .error e m

def compactAfterTerminal : EStateM SpoolError Machine Unit := fun m =>
  if m.spool.shouldCompactRetainedPrefix then
    match compactPending sha256 m with
    | .ok () m => .ok () m
    | .error _ m =>
      requireQuarantineRecovery .quarantineRecoveryRequired
        { m with spool := { m.spool with cleanupPending := true } }
  else .ok () m

/-- `quarantine` of a record that is not pending. -/
def quarantineResolved (entry : Option QuarantineEntry) (seq : Nat) (reason : TerminalReason) :
    EStateM SpoolError Machine Unit :=
  match entry with
  | some entry =>
    if entry.reason = reason then pure ()
    else requireQuarantineRecovery (.quarantineCorrupted 0)
  | none => throw (.ackUnknown seq)

/-- Preserves a terminal record in the quarantine before removing it from active replay and
capacity accounting. -/
def quarantine (seq : Nat) (reason : TerminalReason) : EStateM SpoolError Machine Unit := do
  let m ← get
  lift m.spool.ensureMutationsAllowed
  match m.spool.pendingRecord seq with
  | none => quarantineResolved (m.spool.quarantine.entry seq) seq reason
  | some record => do
    let activeFrame ← lift (record.encodeFrame sha256)
    preserveTerminal sha256 seq reason activeFrame
    modifySpool fun spool =>
      { spool.release record with
        pending := spool.pending.eraseP fun record => record.seq = seq
        cleanupPending := true }
    compactAfterTerminal sha256

end TraceDecay.Admission
