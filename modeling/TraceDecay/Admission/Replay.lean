import TraceDecay.Admission.Runtime

/-!
# Admission.Replay

Replay passes over the admission runtime, one at a time, with admissions between their calls. A
pass recovers abandoned leases and leases up to 64 records; it commits or quarantines each one or
blocks its source, and in the end defers what it retained. What running a record's plan answers
comes from outside.

A pass can be cancelled wherever it waits. `with_runtime` runs each call in a task of its own, so a
call that was made before the pass was dropped is still outstanding and runs later, in any order.
-/

namespace TraceDecay.Admission

open Stateful (left)

inductive DurableHookEventDecodeError
  | unsupportedVersion | malformed
deriving DecidableEq

def maxRecordsPerPass : Nat := 64

/-- Where a pass waits for the runtime or for a plan. -/
inductive PassStage (π : Type)
  | recovering
  | leasing
  | quarantining (record : SpoolRecord)
  | processing (record : SpoolRecord) (plan : π)
  | deferring (leases : List Nat)

def PassStage.processed {π : Type} : PassStage π → Option SpoolRecord
  | .processing record _ => some record
  | _ => none

structure Pass (π : Type) where
  stage : PassStage π
  targetSeq : Option Nat
  remaining : Nat
  attempted : Finset Nat
  blockedSources : Finset String
  retainedLeases : List Nat
  (nonCommittedOutcome targetOutcome terminalOutcome : Option HostAdmissionOutcome)

namespace Pass

variable {π : Type}

def start (targetSeq : Option Nat) : Pass π :=
  ⟨.recovering, targetSeq, maxRecordsPerPass, ∅, ∅, [], none, none, none⟩

variable (pass : Pass π)

/-- What `replay_host_admission` returns. -/
def outcome : HostAdmissionOutcome :=
  ((pass.terminalOutcome.or pass.targetOutcome).or pass.nonCommittedOutcome).getD .acceptedForReplay

variable (record : SpoolRecord) (outcome : HostAdmissionOutcome)

/-- The loop is over: the retained leases are deferred, the last one first. -/
def finish : Pass π := { pass with stage := .deferring pass.retainedLeases.reverse }

def nextTurn : Pass π :=
  if pass.remaining = 0 then pass.finish else { pass with stage := .leasing }

def stop : Pass π :=
  { pass with terminalOutcome := some outcome }.finish

def noteTarget (seq : Nat) (outcome : HostAdmissionOutcome) : Pass π :=
  if pass.targetSeq = some seq then { pass with targetOutcome := some outcome } else pass

def noteNonCommitted : Pass π :=
  { pass with nonCommittedOutcome := some (pass.nonCommittedOutcome.getD outcome) }

/-- Keeps the lease and blocks the source of a record that was not resolved. -/
def block : Pass π :=
  ({ pass with
      blockedSources := insert record.source pass.blockedSources
      retainedLeases := pass.retainedLeases ++ [record.seq] }.noteNonCommitted outcome).noteTarget
    record.seq outcome

/-- What the loop does with a leased record before any other call. -/
def lease (decode : Bytes → Except DurableHookEventDecodeError π) (pass : Pass π)
    (record : SpoolRecord) : Pass π :=
  if record.source ∈ pass.blockedSources then
    { pass with retainedLeases := pass.retainedLeases ++ [record.seq] }.nextTurn
  else if record.seq ∈ pass.attempted then (pass.block record .spoolAckConflict).nextTurn
  else
    let pass := { pass with attempted := insert record.seq pass.attempted }
    match decode record.payload with
    | .ok plan => { pass with stage := .processing record plan }
    | .error .unsupportedVersion =>
      (pass.block record .durablePayloadUnsupportedVersion).nextTurn
    | .error .malformed => { pass with stage := .quarantining record }

def quarantined : Except HostAdmissionOutcome Nat → Pass π
  | .ok _ => ((pass.noteNonCommitted outcome).noteTarget record.seq outcome).nextTurn
  | .error failure =>
    if failure = .quarantineFull then (pass.block record failure).nextTurn else pass.stop failure

def committed : Except HostAdmissionOutcome Nat → Pass π
  | .ok _ => (pass.noteTarget record.seq outcome).nextTurn
  | .error failure => pass.stop failure

/-- The call of the runtime that the pass makes next, `outcome` being what the plan it waits for
answers. -/
def call : Option RuntimeCall :=
  match pass.stage with
  | .recovering => some .recoverLeases
  | .leasing => some .tryLeaseNext
  | .quarantining record => some (.quarantine record.seq .malformedPayload)
  | .processing record _ =>
    if outcome.reasonCode = some "stale_branch_authorization" ∧ outcome.retryable = false then
      some (.quarantine record.seq .staleBranchAuthorization)
    else if outcome.status.commitsReplayRecord then some (.commit record.seq)
    else none
  | .deferring leases => leases.head?.map .defer

end Pass

/-- The runtime, the pass in progress, and the calls of dropped passes that have not run yet. -/
structure Replayer (π : Type) where
  runtime : HostAdmissionRuntime
  pass : Option (Pass π)
  outstanding : List RuntimeCall

def Replayer.processed {π : Type} (s : Replayer π) : Option SpoolRecord :=
  s.pass.bind (·.stage.processed)

inductive ReplayEvent
  | admission (items : List (String × Bytes))
  | beginReplay (targetSeq : Option Nat)
  /-- The pass goes on by one call; `outcome` is what the plan it waits for answers. -/
  | advance (outcome : HostAdmissionOutcome)
  /-- The pass is dropped between two calls. -/
  | cancel
  /-- The pass is dropped while its next call is outstanding. -/
  | abandon (outcome : HostAdmissionOutcome)
  | runOutstanding (index : Nat)

def answer {α : Type} : EStateM.Result HostAdmissionOutcome HostAdmissionRuntime α →
    Except HostAdmissionOutcome α
  | .ok a _ => .ok a
  | .error e _ => .error e

variable (sha256 : Bytes → FixedBytes 32)

def resolve {π : Type} (rt : HostAdmissionRuntime) (pass : Pass π) (record : SpoolRecord)
    (outcome : HostAdmissionOutcome) : HostAdmissionRuntime × Option (Pass π) :=
  if outcome.reasonCode = some "stale_branch_authorization" ∧ outcome.retryable = false then
    let ended := HostAdmissionRuntime.quarantine sha256 record.seq .staleBranchAuthorization rt
    (left ended, some (pass.quarantined record outcome (answer ended)))
  else if outcome.status.commitsReplayRecord then
    let ended := HostAdmissionRuntime.commit record.seq rt
    (left ended, some (pass.committed record outcome (answer ended)))
  else (rt, some (pass.block record outcome).nextTurn)

/-- The next call of the pass runs, and the pass takes up its answer. -/
def advancePass {π : Type} (decode : Bytes → Except DurableHookEventDecodeError π)
    (rt : HostAdmissionRuntime) (pass : Pass π) (outcome : HostAdmissionOutcome) :
    HostAdmissionRuntime × Option (Pass π) :=
  match pass.stage with
  | .recovering =>
    match HostAdmissionRuntime.recoverLeases rt with
    | .ok _ rt => (rt, some { pass with stage := .leasing })
    | .error _ rt => (rt, none)
  | .leasing =>
    match HostAdmissionRuntime.tryLeaseNext rt with
    | .ok (some record) rt =>
      (rt, some ({ pass with remaining := pass.remaining - 1 }.lease decode record))
    | .ok none rt => (rt, some pass.finish)
    | .error failure rt => (rt, some (pass.stop failure))
  | .quarantining record =>
    let ended := HostAdmissionRuntime.quarantine sha256 record.seq .malformedPayload rt
    (left ended, some (pass.quarantined record .durablePayloadMalformed (answer ended)))
  | .processing record _ => resolve sha256 rt pass record outcome
  | .deferring [] => (rt, none)
  | .deferring (seq :: leases) =>
    match HostAdmissionRuntime.defer seq rt with
    | .ok () rt => (rt, some { pass with stage := .deferring leases })
    | .error _ rt => (rt, none)

namespace Replayer

variable {π : Type} (decode : Bytes → Except DurableHookEventDecodeError π)

def step (s : Replayer π) : ReplayEvent → Replayer π
  | .admission items => { s with runtime := (s.runtime.admitBatch sha256 items).2 }
  | .beginReplay targetSeq => { s with pass := s.pass.or (some (Pass.start targetSeq)) }
  | .advance outcome =>
    match s.pass with
    | none => s
    | some pass =>
      let next := advancePass sha256 decode s.runtime pass outcome
      { s with runtime := next.1, pass := next.2 }
  | .cancel => { s with pass := none }
  | .abandon outcome =>
    { s with
      pass := none
      outstanding := s.outstanding ++ (s.pass.bind (·.call outcome)).toList }
  | .runOutstanding index =>
    match s.outstanding[index]? with
    | none => s
    | some call =>
      { s with
        runtime := call.apply sha256 s.runtime
        outstanding := s.outstanding.eraseIdx index }

def opened (rt : HostAdmissionRuntime) : Replayer π := ⟨rt, none, []⟩

def run (s : Replayer π) (events : List ReplayEvent) : Replayer π :=
  events.foldl (step sha256 decode) s

/-- In the run no pass begins while a call of a dropped pass is outstanding. -/
def settled (s : Replayer π) : List ReplayEvent → Bool
  | [] => true
  | event :: events =>
    (match event with
      | .beginReplay _ => s.outstanding.isEmpty
      | _ => true) && settled (s.step sha256 decode event) events

end Replayer

end TraceDecay.Admission
