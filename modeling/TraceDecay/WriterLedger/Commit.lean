import Mathlib.Data.Prod.Lex
import Mathlib.Data.String.Basic
import TraceDecay.Lib.OrdMap

/-!
# WriterLedger.Commit

One writer submission against the ledger. The idempotency row answers a resubmission, the
checkpoint of the shard incarnation hands out the next commit sequence, and a bounded number of rows
that the new checkpoint supersedes is deleted. A shard is its canonical JSON text; times are
microseconds.

The outbox and inbox tables are kept beside these by operations that the ledger calls
(`EffectTables`); nothing here depends on what they hold.
-/

namespace TraceDecay.WriterLedger

abbrev PositiveU64 := { n : Nat // 0 < n ∧ n ≤ 0xFFFFFFFFFFFFFFFF }

/-- The largest integer SQLite stores. -/
def sqliteMax : Nat := 0x7FFFFFFFFFFFFFFF

inductive DurabilityClass where
  | full
  | rebuildableProjection
deriving DecidableEq

inductive OperationPriority where
  | health
  | foreground
  | background
deriving DecidableEq

structure IdempotencyIdentity where
  (key commandDigest : String)
deriving DecidableEq

structure StoreOperationMetadata where
  (operationId shardId : String)
  (incarnation authorityEpoch : PositiveU64)
  idempotency : IdempotencyIdentity
  durability : DurabilityClass
  priority : OperationPriority
  admissionBytes : Nat
  admittedAt : Int

structure StoreRuntimeBinding where
  shardId : String
  (incarnation authorityEpoch : PositiveU64)
deriving DecidableEq

structure RuntimeBatchCompatibility where
  binding : StoreRuntimeBinding
  durability : DurabilityClass
  priority : OperationPriority
deriving DecidableEq

structure RuntimeTransactionScope where
  transactionId : String
  compatibility : RuntimeBatchCompatibility
  openedAt : Int

structure ShardWatermark where
  shardId : String
  (incarnation authorityEpoch : PositiveU64)
  commitSequence : Nat

structure StoreCommitReceipt where
  operationId : String
  idempotency : IdempotencyIdentity
  shardId : String
  (incarnation authorityEpoch : PositiveU64)
  commitSequence : Nat
  committedAt : Int
deriving DecidableEq

/-! ## Refusals -/

inductive ContractError where
  | zero (field : String)
  | immutableShard (operation : String)
  | batchIncompatible (field : String)
  | receiptBindingMismatch (field : String)
  | incarnationMismatch (field : String) (expected actual : PositiveU64)
deriving DecidableEq

inductive LedgerError where
  | invalidRequest (error : ContractError)
  | corrupt (table field : String)
  | unsupportedInteger (field : String)
  | staleAuthority (persisted requested : PositiveU64)
  | sequenceExhausted
  | concurrentCheckpointUpdate
  | concurrentIdempotencyWrite
  | outboxEffectConflict
  | replayBindingMismatch (field : String)
  | outboxRequiresFullDurability
  | outboxSourceWatermarkMismatch
deriving DecidableEq

inductive LedgerDisposition where
  | new
  | committed (receipt : StoreCommitReceipt)
  | replay (receipt : StoreCommitReceipt)
  | conflict (receipt : StoreCommitReceipt)
deriving DecidableEq

/-! ## Tables -/

structure CheckpointRow where
  (authorityEpoch commitSequence : Nat)
  watermark : ShardWatermark
  transactionScope : RuntimeTransactionScope
  originalReceipt : StoreCommitReceipt
  operationId : String
  durability : DurabilityClass
  committedAt : Int

structure IdempotencyRow where
  (requestDigest operationId transactionId : String)
  commitSequence : Nat
  durability : DurabilityClass
  priority : OperationPriority
  (openedAt committedAt : Int)

/-- The shard text and the incarnation. -/
abbrev HistoryKey := String ×ₗ Nat

/-- The authority epoch and the request's key. -/
abbrev RequestKey := Nat ×ₗ String

def historyKey (shardId : String) (incarnation : PositiveU64) : HistoryKey :=
  toLex (shardId, incarnation.1)

def requestKey (authorityEpoch : PositiveU64) (key : String) : RequestKey :=
  toLex (authorityEpoch.1, key)

/-- What one `record` reads and writes beside the two tables. -/
structure EffectTables where
  (State Entry InboxReceipt : Type)
  enqueue : State → StoreOperationMetadata → RuntimeTransactionScope → StoreCommitReceipt → Entry →
    Except LedgerError State
  applyInbox : State → StoreOperationMetadata → StoreCommitReceipt → Entry → Except LedgerError State
  acknowledge : State → StoreOperationMetadata → StoreCommitReceipt → InboxReceipt →
    Except LedgerError State

structure Ledger (effects : EffectTables) where
  checkpoints : OrdMap HistoryKey CheckpointRow
  idempotency : OrdMap (HistoryKey ×ₗ RequestKey) IdempotencyRow
  effects : effects.State

/-! ## Validation -/

def StoreOperationMetadata.validate (m : StoreOperationMetadata) : Except ContractError Unit :=
  if m.admissionBytes = 0 then .error (.zero "operation admission bytes") else .ok ()

def StoreOperationMetadata.binding (m : StoreOperationMetadata) : StoreRuntimeBinding :=
  ⟨m.shardId, m.incarnation, m.authorityEpoch⟩

section
variable (isMutable : String → Bool)

variable (c : RuntimeBatchCompatibility) (m : StoreOperationMetadata)

def RuntimeBatchCompatibility.validate : Except ContractError Unit :=
  if isMutable c.binding.shardId then .ok () else .error (.immutableShard "runtime batch")

def RuntimeBatchCompatibility.admits : Except ContractError Unit :=
  if c.binding.shardId ≠ m.shardId then .error (.batchIncompatible "shard id")
  else if c.binding.incarnation ≠ m.incarnation then .error (.batchIncompatible "store incarnation")
  else if c.binding.authorityEpoch ≠ m.authorityEpoch then
    .error (.batchIncompatible "authority epoch")
  else if c.durability ≠ m.durability then .error (.batchIncompatible "durability")
  else if c.priority ≠ m.priority then .error (.batchIncompatible "priority")
  else .ok ()

def RuntimeBatchCompatibility.validateOperation : Except ContractError Unit := do
  c.validate isMutable
  m.validate
  c.admits m

end

variable (r : StoreCommitReceipt)

def StoreCommitReceipt.validate : Except ContractError Unit :=
  if r.commitSequence = 0 then .error (.zero "receipt commit sequence") else .ok ()

def StoreCommitReceipt.bindsReplay (m : StoreOperationMetadata) : Except ContractError Unit :=
  if r.idempotency ≠ m.idempotency then
    .error (.receiptBindingMismatch "replay receipt idempotency identity")
  else if r.shardId ≠ m.shardId then .error (.receiptBindingMismatch "replay receipt shard id")
  else if r.incarnation ≠ m.incarnation then
    .error (.incarnationMismatch "replay receipt incarnation" m.incarnation r.incarnation)
  else if r.authorityEpoch ≠ m.authorityEpoch then
    .error (.receiptBindingMismatch "replay receipt authority epoch")
  else .ok ()

def StoreCommitReceipt.validateReplayFor (m : StoreOperationMetadata) :
    Except ContractError Unit := do
  r.validate
  r.bindsReplay m

/-- A value as SQLite stores it. -/
def sqliteU64 (value : Nat) (field : String) : Except LedgerError Nat :=
  if sqliteMax < value then .error (.unsupportedInteger field) else .ok value

def checkSubmission (isMutable : String → Bool) (m : StoreOperationMetadata)
    (scope : RuntimeTransactionScope) : Except LedgerError Unit := do
  m.validate.mapError .invalidRequest
  (scope.compatibility.validateOperation isMutable m).mapError .invalidRequest
  let _ ← sqliteU64 m.incarnation.1 "store incarnation"
  let _ ← sqliteU64 m.authorityEpoch.1 "authority epoch"
  .ok ()

/-! ## Idempotency rows -/

def idempotencyTable : String := "td_runtime_writer_idempotency_v2"

structure IdempotencyRecord where
  requestDigest : String
  receipt : StoreCommitReceipt
  transactionScope : RuntimeTransactionScope
  durability : DurabilityClass

/-- The receipt and the scope are rebuilt from the row and its key. -/
def rebuildRecord (binding : StoreRuntimeBinding) (key : String) (row : IdempotencyRow) :
    IdempotencyRecord where
  requestDigest := row.requestDigest
  receipt := { row, binding with idempotency := ⟨key, row.requestDigest⟩ }
  transactionScope := ⟨row.transactionId, ⟨binding, row.durability, row.priority⟩, row.openedAt⟩
  durability := row.durability

def idempotencyKey (binding : StoreRuntimeBinding) (key : String) : HistoryKey ×ₗ RequestKey :=
  toLex (historyKey binding.shardId binding.incarnation, requestKey binding.authorityEpoch key)

section
variable {effects : EffectTables} (isMutable : String → Bool) (l : Ledger effects)
  (m : StoreOperationMetadata) (scope : RuntimeTransactionScope) (receipt : StoreCommitReceipt)

def loadIdempotency (binding : StoreRuntimeBinding) (key : String) :
    Except LedgerError (Option IdempotencyRecord) :=
  match l.idempotency.find? (idempotencyKey binding key) with
  | none => .ok none
  | some row =>
    if row.commitSequence = 0 ∨ isMutable binding.shardId = false then
      .error (.corrupt idempotencyTable "original receipt binding")
    else .ok (some (rebuildRecord binding key row))

/-- What a record says of a submission under its key. -/
def IdempotencyRecord.answer (record : IdempotencyRecord) (m : StoreOperationMetadata)
    (scope : RuntimeTransactionScope) : Except LedgerError LedgerDisposition :=
  if record.requestDigest ≠ m.idempotency.commandDigest then .ok (.conflict record.receipt)
  else if record.durability ≠ m.durability then .error (.replayBindingMismatch "durability")
  else if record.transactionScope.compatibility ≠ scope.compatibility then
    .error (.replayBindingMismatch "transaction compatibility")
  else
    match record.receipt.validateReplayFor m with
    | .error _ => .error (.corrupt idempotencyTable "original receipt replay binding")
    | .ok _ => .ok (.replay record.receipt)

def disposition : Except LedgerError LedgerDisposition := do
  let found ← loadIdempotency isMutable l m.binding m.idempotency.key
  match found with
  | none => .ok .new
  | some record => record.answer m scope

def idempotencyRow : IdempotencyRow where
  requestDigest := m.idempotency.commandDigest
  operationId := m.operationId
  transactionId := scope.transactionId
  commitSequence := receipt.commitSequence
  durability := m.durability
  priority := scope.compatibility.priority
  openedAt := scope.openedAt
  committedAt := receipt.committedAt

/-- `INSERT OR IGNORE`, which changes no row when the key is taken. -/
def insertIdempotency : Except LedgerError (Ledger effects) := do
  let _ ← sqliteU64 receipt.commitSequence "commit sequence"
  if l.idempotency.contains (idempotencyKey m.binding m.idempotency.key) then
    .error .concurrentIdempotencyWrite
  else .ok { l with
    idempotency := l.idempotency.insert (idempotencyKey m.binding m.idempotency.key)
      (idempotencyRow m scope receipt) }

end

/-! ## Checkpoints -/

def checkpointTable : String := "td_runtime_writer_checkpoint_v1"

def u64Max : Nat := 0xFFFFFFFFFFFFFFFF

section
variable {effects : EffectTables}

/-- The columns of a row agree with each other and with the key they were read under. -/
def CheckpointRow.coherent (row : CheckpointRow) (shardId : String) (incarnation : PositiveU64) :
    Bool :=
  decide (row.watermark.shardId = shardId) &&
  decide (row.watermark.incarnation = incarnation) &&
  decide (row.watermark.authorityEpoch.1 = row.authorityEpoch) &&
  decide (row.watermark.commitSequence = row.commitSequence) &&
  decide (row.originalReceipt.commitSequence ≠ 0) &&
  decide (row.originalReceipt.shardId = row.watermark.shardId) &&
  decide (row.originalReceipt.incarnation = row.watermark.incarnation) &&
  decide (row.originalReceipt.authorityEpoch = row.watermark.authorityEpoch) &&
  decide (row.originalReceipt.commitSequence = row.watermark.commitSequence) &&
  decide (row.originalReceipt.operationId = row.operationId) &&
  decide (row.originalReceipt.committedAt = row.committedAt) &&
  decide (row.transactionScope.compatibility.binding =
    ⟨row.watermark.shardId, row.watermark.incarnation, row.watermark.authorityEpoch⟩) &&
  decide (row.transactionScope.compatibility.durability = row.durability)

/-- The scope and the receipt are validated where their columns are decoded. -/
def loadCheckpoint (isMutable : String → Bool) (l : Ledger effects) (shardId : String)
    (incarnation : PositiveU64) : Except LedgerError (Option ShardWatermark) :=
  match l.checkpoints.find? (historyKey shardId incarnation) with
  | none => .ok none
  | some row =>
    if row.authorityEpoch = 0 then .error (.corrupt checkpointTable "authority_epoch")
    else if row.commitSequence = 0 then .error (.corrupt checkpointTable "commit_sequence")
    else if isMutable row.transactionScope.compatibility.binding.shardId = false then
      .error (.corrupt checkpointTable "transaction_scope_json")
    else if row.originalReceipt.commitSequence = 0 then
      .error (.corrupt checkpointTable "original_receipt_json")
    else if row.coherent shardId incarnation then .ok (some row.watermark)
    else .error (.corrupt checkpointTable "checkpoint binding")

structure NextCheckpoint where
  previous : Option ShardWatermark
  watermark : ShardWatermark

/-- The sequence after the persisted one, unless the submission's authority is older. -/
def nextSequence (previous : Option ShardWatermark) (m : StoreOperationMetadata) :
    Except LedgerError Nat :=
  match previous with
  | none => .ok 1
  | some watermark =>
    if m.authorityEpoch < watermark.authorityEpoch then
      .error (.staleAuthority watermark.authorityEpoch m.authorityEpoch)
    else if u64Max < watermark.commitSequence + 1 then .error .sequenceExhausted
    else .ok (watermark.commitSequence + 1)

variable (isMutable : String → Bool) (l : Ledger effects) (m : StoreOperationMetadata)
  (scope : RuntimeTransactionScope)

def nextCheckpoint : Except LedgerError NextCheckpoint := do
  let previous ← loadCheckpoint isMutable l m.shardId m.incarnation
  let sequence ← nextSequence previous m
  .ok ⟨previous, ⟨m.shardId, m.incarnation, m.authorityEpoch, sequence⟩⟩

/-- The row still stands as it was read. -/
def unchangedSince (found : Option CheckpointRow) (previous : Option ShardWatermark) : Bool :=
  match previous, found with
  | none, none => true
  | some watermark, some row =>
    decide (row.authorityEpoch = watermark.authorityEpoch.1) &&
      decide (row.commitSequence = watermark.commitSequence)
  | none, some _ => false
  | some _, none => false

def checkpointRow (watermark : ShardWatermark) (receipt : StoreCommitReceipt) : CheckpointRow where
  authorityEpoch := m.authorityEpoch.1
  commitSequence := watermark.commitSequence
  watermark
  transactionScope := scope
  originalReceipt := receipt
  operationId := m.operationId
  durability := m.durability
  committedAt := receipt.committedAt

def persistCheckpoint (next : NextCheckpoint) (receipt : StoreCommitReceipt) :
    Except LedgerError (Ledger effects) := do
  let _ ← sqliteU64 next.watermark.commitSequence "commit sequence"
  if unchangedSince (l.checkpoints.find? (historyKey m.shardId m.incarnation)) next.previous then
    .ok { l with
      checkpoints := l.checkpoints.insert (historyKey m.shardId m.incarnation)
        (checkpointRow m scope next.watermark receipt) }
  else .error .concurrentCheckpointUpdate

/-! ## Pruning -/

def maxPrunedRowsPerCommit : Nat := 256

/-- The rows of the history below the epoch, in key order. -/
def superseded (history : HistoryKey) (epoch : Nat) : List (HistoryKey ×ₗ RequestKey) :=
  l.idempotency.keys.filter fun key =>
    decide ((ofLex key).1 = history) && decide ((ofLex (ofLex key).2).1 < epoch)

def pruneSuperseded (next : NextCheckpoint) : Ledger effects :=
  { l with
    idempotency :=
      ((superseded l (historyKey m.shardId m.incarnation) next.watermark.authorityEpoch.1).take
        maxPrunedRowsPerCommit).foldl OrdMap.erase l.idempotency }

end

/-! ## Recording a commit -/

inductive RepositoryWritePayload (effects : EffectTables) where
  | configuration
  | fact
  | observation
  | observationBatch
  | observationCursorAdvance
  | remoteObservationReplay
  | remoteWriterFenceInstall
  | diagnostics
  | externalSource
  | externalSourceBatch
  | externalSourceProjection
  | externalSourceAcquisition
  | retrievalAnchorDisposition
  | retrievalAnchorDerivative
  | gitIndexTransaction
  | enqueueOutbox (entry : effects.Entry)
  | applyInbox (entry : effects.Entry)
  | acknowledgeOutbox (inbox : effects.InboxReceipt)

/-- Where a resubmission of a committed operation is answered. -/
inductive ReplayAuthority where
  | ledger
  | repository
deriving DecidableEq

def ReplayAuthority.forPayload {effects : EffectTables} :
    RepositoryWritePayload effects → ReplayAuthority
  | .externalSource => .repository
  | .externalSourceBatch => .repository
  | .externalSourceProjection => .repository
  | .observation => .repository
  | .observationBatch => .repository
  | _ => .ledger

variable {effects : EffectTables} (isMutable : String → Bool) (l : Ledger effects)
  (m : StoreOperationMetadata) (scope : RuntimeTransactionScope)

/-- The rows of outbox and inbox that the payload asks for. -/
def recordEffects (receipt : StoreCommitReceipt) :
    RepositoryWritePayload effects → Except LedgerError effects.State
  | .enqueueOutbox entry => effects.enqueue l.effects m scope receipt entry
  | .applyInbox entry => effects.applyInbox l.effects m receipt entry
  | .acknowledgeOutbox inbox => effects.acknowledge l.effects m receipt inbox
  | _ => .ok l.effects

def commitReceipt (sequence : Nat) : StoreCommitReceipt :=
  { m with
    commitSequence := sequence
    committedAt := m.admittedAt }

def NextCheckpoint.receipt (next : NextCheckpoint) (m : StoreOperationMetadata) :
    StoreCommitReceipt :=
  commitReceipt m next.watermark.commitSequence

/-- The row of a request that the ledger answers for. -/
def recordRequest (receipt : StoreCommitReceipt) (replay : ReplayAuthority) :
    Except LedgerError (Ledger effects) :=
  match replay with
  | .ledger => insertIdempotency l m scope receipt
  | .repository => .ok l

/-- The commit of a request that no row answers. -/
def commitNew (payload : RepositoryWritePayload effects) :
    Except LedgerError (LedgerDisposition × Ledger effects) := do
  let next ← nextCheckpoint isMutable l m
  let persisted ← persistCheckpoint l m scope next (next.receipt m)
  let recorded ← recordRequest (pruneSuperseded persisted m next) m scope (next.receipt m)
    (ReplayAuthority.forPayload payload)
  let state ← recordEffects recorded m scope (next.receipt m) payload
  .ok (.committed (next.receipt m), { recorded with effects := state })

/-- The row that answers a submission, for payloads that the ledger answers. -/
def answerFromLedger (payload : RepositoryWritePayload effects) :
    Except LedgerError LedgerDisposition :=
  match ReplayAuthority.forPayload payload with
  | .ledger => disposition isMutable l m scope
  | .repository => .ok .new

def recordRuntimeCommit (payload : RepositoryWritePayload effects) :
    Except LedgerError (LedgerDisposition × Ledger effects) := do
  checkSubmission isMutable m scope
  let answer ← answerFromLedger isMutable l m scope payload
  match answer with
  | .new => commitNew isMutable l m scope payload
  | existing => .ok (existing, l)

end TraceDecay.WriterLedger
