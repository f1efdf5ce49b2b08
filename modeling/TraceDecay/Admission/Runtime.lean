import Mathlib.Data.Finset.Card
import TraceDecay.Admission.Schedule
import TraceDecay.Admission.Spool

/-!
# Admission.Runtime

The runtime over the spool: every pending record is queued in the scheduler, leased to a worker, or
completed and waiting for the records before it. Outcomes keep their status, whether they may be
retried and their reason.
-/

namespace TraceDecay.Admission

inductive HostAdmissionStatus
  | supported | degraded | unavailable | unknown | backpressured | acceptedForReplay | committed
  | exactDuplicate | notApplicable
deriving DecidableEq

/-- Statuses that finish a durable replay record. -/
def HostAdmissionStatus.commitsReplayRecord : HostAdmissionStatus → Bool
  | committed | exactDuplicate | notApplicable => true
  | _ => false

structure HostAdmissionOutcome where
  status : HostAdmissionStatus
  retryable : Bool
  reasonCode : Option String
deriving DecidableEq

namespace HostAdmissionOutcome

def acceptedForReplay : HostAdmissionOutcome := ⟨.acceptedForReplay, false, none⟩

def spoolOverflow : HostAdmissionOutcome := ⟨.backpressured, true, some "spool_overflow"⟩

def spoolRecordTooLarge : HostAdmissionOutcome := ⟨.degraded, false, some "spool_record_too_large"⟩

def spoolSourceTooLarge : HostAdmissionOutcome := ⟨.degraded, false, some "spool_source_too_large"⟩

def spoolCorrupted : HostAdmissionOutcome := ⟨.unavailable, false, some "spool_corrupted"⟩

def spoolAckConflict : HostAdmissionOutcome := ⟨.backpressured, true, some "spool_ack_conflict"⟩

def spoolRecoveryRequired : HostAdmissionOutcome :=
  ⟨.unavailable, true, some "spool_recovery_required"⟩

def quarantineFull : HostAdmissionOutcome := ⟨.backpressured, true, some "spool_quarantine_full"⟩

def quarantineCorrupted : HostAdmissionOutcome :=
  ⟨.unavailable, false, some "spool_quarantine_corrupted"⟩

def quarantineRecoveryRequired : HostAdmissionOutcome :=
  ⟨.unavailable, true, some "spool_quarantine_recovery_required"⟩

def durablePayloadUnsupportedVersion : HostAdmissionOutcome :=
  ⟨.unavailable, true, some "host_event_payload_unsupported_version"⟩

def durablePayloadMalformed : HostAdmissionOutcome :=
  ⟨.unavailable, false, some "host_event_payload_malformed"⟩

end HostAdmissionOutcome

def SpoolError.toOutcome : SpoolError → HostAdmissionOutcome
  | .overflow .recordTooLarge => .spoolRecordTooLarge
  | .overflow .sourceTooLarge => .spoolSourceTooLarge
  | .overflow _ => .spoolOverflow
  | .unsupportedVersion _ => ⟨.unavailable, false, some "spool_reset_required"⟩
  | .corrupted _ => .spoolCorrupted
  | .metadataCorrupted => .spoolCorrupted
  | .ackOutOfOrder _ _ => .spoolAckConflict
  | .ackUnknown _ => .spoolAckConflict
  | .appendRecoveryRequired => .spoolRecoveryRequired
  | .quarantineFull => .quarantineFull
  | .quarantineCorrupted _ => .quarantineCorrupted
  | .quarantineRecoveryRequired => .quarantineRecoveryRequired
  | .io => ⟨.unavailable, true, some "spool_io_failed"⟩

structure DurableHostAdmission where
  seq : Nat
  outcome : HostAdmissionOutcome

def runtimeScheduleBounds (bounds : SpoolBounds) : FairScheduleBounds :=
  { totalRecords := bounds.maxRecords
    recordsPerSource := bounds.maxRecordsPerSource
    recordBytes := bounds.maxRecordBytes
    sourceBytes := bounds.maxSourceBytes
    totalBytes := bounds.maxSpoolBytes
    bytesPerSource := bounds.maxSpoolBytesPerSource }

structure HostAdmissionRuntime where
  machine : Machine
  scheduler : FairSourceScheduler
  (queued leased completed : Finset Nat)

abbrev RuntimeM := EStateM HostAdmissionOutcome HostAdmissionRuntime

namespace HostAdmissionRuntime

def spool (rt : HostAdmissionRuntime) : HostAdmissionSpool := rt.machine.spool

variable (seq : Nat)

def finishSchedule (answer : FairEnqueueOutcome × FairSourceScheduler) : RuntimeM Unit := fun rt =>
  match answer.1 with
  | .accepted _ _ => .ok () { rt with scheduler := answer.2, queued := insert seq rt.queued }
  | .recordTooLarge => .error .spoolCorrupted { rt with scheduler := answer.2 }
  | .sourceTooLarge => .error .spoolCorrupted { rt with scheduler := answer.2 }
  | .backpressured => .error .spoolOverflow { rt with scheduler := answer.2 }

def scheduleRecord (record : SpoolRecord) : RuntimeM Unit := fun rt =>
  finishSchedule record.seq
    (rt.scheduler.tryEnqueueReference record.source record.seq record.payload.length) rt

def scheduleUntracked (record : SpoolRecord) : RuntimeM Unit := fun rt =>
  if record.seq ∈ rt.queued ∨ record.seq ∈ rt.leased ∨ record.seq ∈ rt.completed then .ok () rt
  else scheduleRecord record rt

def scheduleEach : List SpoolRecord → RuntimeM Unit
  | [] => pure ()
  | record :: records => do
    scheduleUntracked record
    scheduleEach records

/-- Enqueues every retained record the scheduler does not yet track. -/
def scheduleMissing : RuntimeM Unit := fun rt => scheduleEach rt.spool.pending rt

def rebuildScheduler : RuntimeM Unit := fun rt =>
  scheduleMissing
    { rt with
      scheduler := FairSourceScheduler.new (runtimeScheduleBounds rt.spool.bounds)
      queued := ∅ }

def scheduleAppended : List (Except SpoolError SpoolRecord) → HostAdmissionRuntime →
    List (Except HostAdmissionOutcome DurableHostAdmission) × HostAdmissionRuntime
  | [], rt => ([], rt)
  | .error e :: appended, rt =>
    (.error e.toOutcome :: (scheduleAppended appended rt).1, (scheduleAppended appended rt).2)
  | .ok record :: appended, rt =>
    match scheduleRecord record rt with
    | .ok () rt =>
      (.ok ⟨record.seq, .acceptedForReplay⟩ :: (scheduleAppended appended rt).1,
        (scheduleAppended appended rt).2)
    | .error e rt => (.error e :: (scheduleAppended appended rt).1, (scheduleAppended appended rt).2)

variable (sha256 : Bytes → FixedBytes 32)

/-- Durably appends one group-commit batch, one result per item in order. -/
def admitBatch (items : List (String × Bytes)) (rt : HostAdmissionRuntime) :
    List (Except HostAdmissionOutcome DurableHostAdmission) × HostAdmissionRuntime :=
  scheduleAppended (appendBatch sha256 items rt.machine).1
    { rt with machine := (appendBatch sha256 items rt.machine).2 }

/-- What `try_lease_next` does with a popped reference, `again` being its next turn. -/
def leasePopped (again : RuntimeM (Option SpoolRecord)) : RuntimeM (Option SpoolRecord) := fun rt =>
  if seq ∈ rt.completed ∨ seq ∈ rt.leased then again rt
  else
    match rt.spool.pendingRecord seq with
    | none => .error .spoolCorrupted rt
    | some record => .ok (some record) { rt with leased := insert seq rt.leased }

/-- The loop of `try_lease_next`. Every turn takes a reference out of the scheduler, so `fuel` above
their number is never used up. -/
def leaseNext : Nat → RuntimeM (Option SpoolRecord)
  | 0 => pure none
  | fuel + 1 => fun rt =>
    match rt.scheduler.popNext with
    | (none, scheduler) => .ok none { rt with scheduler := scheduler }
    | (some next, scheduler) =>
      leasePopped next.seq (leaseNext fuel)
        { rt with scheduler := scheduler, queued := rt.queued.erase next.seq }

/-- Leases one fair durable record without deleting it from the spool. -/
def tryLeaseNext : RuntimeM (Option SpoolRecord) := do
  let rt ← get
  let missing : RuntimeM Unit := if rt.scheduler.totalPending = 0 then scheduleMissing else pure ()
  missing
  let rt ← get
  leaseNext (rt.scheduler.totalPending + 1)

/-- Requeues a cancelled or retryable lease. -/
def defer : RuntimeM Unit := fun rt =>
  if seq ∉ rt.leased then .error .spoolAckConflict rt
  else
    match rt.spool.pendingRecord seq with
    | none => .error .spoolAckConflict rt
    | some record =>
      finishSchedule seq
        (rt.scheduler.requeueFrontReference record.source record.seq record.payload.length)
        { rt with leased := rt.leased.erase seq }

/-- Requeues leases abandoned when a replay task was cancelled or dropped. -/
def recoverLeases : RuntimeM Nat := fun rt =>
  match rt.spool.ensureMutationsAllowed with
  | .error e => .error e.toOutcome rt
  | .ok () =>
    if rt.leased = ∅ then .ok 0 rt
    else
      (do
        rebuildScheduler
        pure rt.leased.card : RuntimeM Nat) { rt with leased := ∅ }

/-- The last of the completed records that all records before it are completed with. -/
def completedThrough (rt : HostAdmissionRuntime) : Option Nat :=
  ((rt.spool.pending.takeWhile fun record => decide (record.seq ∈ rt.completed)).getLast?).map
    (·.seq)

/-- Acknowledges the completed records up to `through`; where that fails they are not completed. -/
def ackCompleted (through : Nat) : RuntimeM Nat := fun rt =>
  match rt.spool.ackThrough through with
  | .ok (committed, spool) =>
    .ok committed
      { rt with
        machine := { rt.machine with spool := spool }
        completed := rt.completed.filter (through < ·)
        queued := rt.queued.filter (through < ·)
        leased := rt.leased.filter (through < ·) }
  | .error e =>
    (do
      rebuildScheduler
      throw e.toOutcome : RuntimeM Nat) { rt with completed := ∅ }

/-- Deletes the contiguous completed front of the pending records. -/
def flushCompletedPrefix : RuntimeM Nat := fun rt =>
  match rt.completedThrough with
  | none => .ok 0 rt
  | some through => ackCompleted through rt

/-- Marks an authoritative lease and deletes only the contiguous completed front. -/
def commit : RuntimeM Nat := fun rt =>
  if seq ≤ rt.spool.spoolMeta.committedThrough then .ok 0 rt
  else if seq ∉ rt.leased then .error .spoolAckConflict rt
  else
    flushCompletedPrefix
      { rt with leased := rt.leased.erase seq, completed := insert seq rt.completed }

/-- Resolves a permanent terminal lease without reporting canonical success. -/
def quarantine (seq : Nat) (reason : TerminalReason) : RuntimeM Nat := fun rt =>
  if seq ∉ rt.leased then .error .spoolAckConflict rt
  else
    match Admission.quarantine sha256 seq reason rt.machine with
    | .error e m => .error e.toOutcome { rt with machine := m }
    | .ok () m =>
      (do
        let committed ← flushCompletedPrefix
        rebuildScheduler
        pure (committed + 1) : RuntimeM Nat)
        { rt with
          machine := m
          leased := rt.leased.erase seq
          queued := rt.queued.erase seq
          completed := rt.completed.erase seq }

end HostAdmissionRuntime

/-- Opens the spool and queues what is pending. A failure carries the outcome of its cause. -/
def HostAdmissionRuntime.open (sha256 : Bytes → FixedBytes 32) (bounds : SpoolBounds) (w : World) :
    Except HostAdmissionOutcome HostAdmissionRuntime :=
  match HostAdmissionSpool.open sha256 bounds w with
  | .error e _ => .error e.toOutcome
  | .ok (spool, report) w =>
    if report.integrity ≠ .healthy then .error SpoolError.metadataCorrupted.toOutcome
    else
      match HostAdmissionRuntime.scheduleMissing
        { machine := ⟨spool, w⟩
          scheduler := FairSourceScheduler.new (runtimeScheduleBounds bounds)
          queued := ∅
          leased := ∅
          completed := ∅ } with
      | .error e _ => .error e
      | .ok () rt => .ok rt

/-- A call of the runtime, with any arguments. -/
inductive RuntimeCall
  | admitBatch (items : List (String × Bytes))
  | tryLeaseNext
  | defer (seq : Nat)
  | recoverLeases
  | commit (seq : Nat)
  | quarantine (seq : Nat) (reason : TerminalReason)

/-- The state a call leaves, whether it succeeds or not. -/
def RuntimeCall.apply (sha256 : Bytes → FixedBytes 32) (rt : HostAdmissionRuntime) :
    RuntimeCall → HostAdmissionRuntime
  | admitBatch items => (HostAdmissionRuntime.admitBatch sha256 items rt).2
  | tryLeaseNext => Stateful.left (HostAdmissionRuntime.tryLeaseNext rt)
  | defer seq => Stateful.left (HostAdmissionRuntime.defer seq rt)
  | recoverLeases => Stateful.left (HostAdmissionRuntime.recoverLeases rt)
  | commit seq => Stateful.left (HostAdmissionRuntime.commit seq rt)
  | quarantine seq reason => Stateful.left (HostAdmissionRuntime.quarantine sha256 seq reason rt)

end TraceDecay.Admission
