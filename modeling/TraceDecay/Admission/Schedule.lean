import TraceDecay.Admission.Types

/-!
# Admission.Schedule

The scheduler of the admission runtime: one queue of references per source, served in rotation.
-/

namespace TraceDecay.Admission

structure FairScheduleBounds where
  (totalRecords recordsPerSource bytesPerSource recordBytes sourceBytes totalBytes : Nat)

inductive FairEnqueueOutcome
  | accepted (totalPending sourcePending : Nat)
  | backpressured
  | recordTooLarge
  | sourceTooLarge
deriving DecidableEq

structure FairPop where
  seq : Nat
  source : String
  totalPending : Nat

structure ScheduledRecord where
  (seq retainedBytes : Nat)

structure SourceQueue where
  source : String
  records : List ScheduledRecord
  retainedBytes : Nat

/-- The front queue is served next, then goes to the back. -/
structure FairSourceScheduler where
  bounds : FairScheduleBounds
  queues : List SourceQueue
  (totalPending totalBytes : Nat)

namespace FairSourceScheduler

def new (bounds : FairScheduleBounds) : FairSourceScheduler := ⟨bounds, [], 0, 0⟩

/-- The queue of `source` with one more record, or a queue made for it at the back. -/
def place (source : String) (record : ScheduledRecord) (front : Bool) :
    List SourceQueue → List SourceQueue
  | [] => [⟨source, [record], record.retainedBytes + (sourceBytes source).length⟩]
  | queue :: queues =>
    if queue.source = source then
      { queue with
        records := if front then record :: queue.records else queue.records ++ [record]
        retainedBytes := queue.retainedBytes + record.retainedBytes } :: queues
    else queue :: place source record front queues

def usage (s : FairSourceScheduler) (source : String) : Option (Nat × Nat) :=
  (s.queues.find? fun queue => queue.source = source).map fun queue =>
    (queue.records.length, queue.retainedBytes)

def tryEnqueueRecord (s : FairSourceScheduler) (source : String) (seq retainedBytes : Nat)
    (front : Bool) : FairEnqueueOutcome × FairSourceScheduler :=
  let existing := s.usage source
  let sourcePending := (existing.getD (0, 0)).1
  let admittedBytes := retainedBytes + if existing.isNone then (sourceBytes source).length else 0
  if s.bounds.sourceBytes < (sourceBytes source).length then (.sourceTooLarge, s)
  else if s.bounds.recordBytes < retainedBytes then (.recordTooLarge, s)
  else if s.bounds.totalRecords ≤ s.totalPending then (.backpressured, s)
  else if s.bounds.recordsPerSource ≤ sourcePending then (.backpressured, s)
  else if s.bounds.bytesPerSource < (existing.getD (0, 0)).2 + admittedBytes then
    (.backpressured, s)
  else if s.bounds.totalBytes < s.totalBytes + admittedBytes then (.backpressured, s)
  else
    (.accepted (s.totalPending + 1) (sourcePending + 1),
      { s with
        queues := place source ⟨seq, retainedBytes⟩ front s.queues
        totalPending := s.totalPending + 1
        totalBytes := s.totalBytes + admittedBytes })

def tryEnqueueReference (s : FairSourceScheduler) (source : String) (seq retainedBytes : Nat) :
    FairEnqueueOutcome × FairSourceScheduler :=
  s.tryEnqueueRecord source seq retainedBytes false

/-- Restores a lease at its source head without undoing the rotation. -/
def requeueFrontReference (s : FairSourceScheduler) (source : String) (seq retainedBytes : Nat) :
    FairEnqueueOutcome × FairSourceScheduler :=
  s.tryEnqueueRecord source seq retainedBytes true

/-- The scheduler after `record` left the front queue, with `records` behind it and `queues` the
others. A queue that is used up leaves the rotation. -/
def afterPop (s : FairSourceScheduler) (source : String) (record : ScheduledRecord)
    (records : List ScheduledRecord) (retainedBytes : Nat) (queues : List SourceQueue) :
    FairSourceScheduler :=
  if records = [] then
    { s with
      queues
      totalPending := s.totalPending - 1
      totalBytes := s.totalBytes - record.retainedBytes - (sourceBytes source).length }
  else
    { s with
      queues := queues ++ [⟨source, records, retainedBytes - record.retainedBytes⟩]
      totalPending := s.totalPending - 1
      totalBytes := s.totalBytes - record.retainedBytes }

def popNext (s : FairSourceScheduler) : Option FairPop × FairSourceScheduler :=
  if s.totalPending = 0 then (none, s)
  else
    match s.queues with
    | [] => (none, s)
    | ⟨_, [], _⟩ :: queues => (none, { s with queues := queues })
    | ⟨source, record :: records, retainedBytes⟩ :: queues =>
      (some ⟨record.seq, source, s.totalPending - 1⟩,
        s.afterPop source record records retainedBytes queues)

end FairSourceScheduler

end TraceDecay.Admission
