import Mathlib.Logic.Function.Basic
import TraceDecay.Lib.Resumption

/-!
# SourceEdit.Types

The worktree, the journal and the records of a source edit, and the durable steps on them: reading
a candidate file, publishing one, and loading, writing or removing one record. `δ` is the type of
digests.
-/

namespace TraceDecay.SourceEdit

open Resumption

abbrev Content := List UInt8

structure PlannedSourceEditFile where
  relativePath : String
  (expected intended : Option Content)
deriving DecidableEq

inductive SourceEditKind where
  | strReplace
  | multiStrReplace
  | insertAt
  | astGrepRewrite
  | replaceSymbol
  | insertAtSymbol
  | moveSymbol
  | renameSymbol
deriving DecidableEq

/-- The catalog operations of the source-edit service. -/
inductive UseCase where
  | edit (kind : SourceEditKind)
  | rollback
  | reconciliation
deriving DecidableEq

inductive EffectTermination where
  | completed
  | noChange
  | cancelled
  | timedOut
  | failed
  | partialEffect
  | effectUnknown
deriving DecidableEq

inductive ReconciliationState where
  | pending
  | reconciled
  | failed
deriving DecidableEq

inductive CancellationStage where
  | beforeAdmission
  | beforeEffect
  | effectInFlight
  | afterCommit
deriving DecidableEq

inductive VerificationState where
  | clean
  | unavailable
  | errors
  | cancelled
  | failed
deriving DecidableEq

inductive EditError where
  | config (message : String)
  | projectRoute (reasonCode : String) (retryable : Bool) (detail : String)
  | notFound (message : String)
  | other (message : String)
deriving DecidableEq

def EditError.display : EditError → String
  | .config message => "config error: " ++ message
  | .projectRoute reasonCode _ detail => "project route error (" ++ reasonCode ++ "): " ++ detail
  | .notFound message => message
  | .other message => message

def configError (message : String) : EditError := .config message

def expectedStateMismatch (detail : String) : EditError :=
  .projectRoute "source_edit.expected_state_mismatch" true detail

def idempotencyConflict (detail : String) : EditError :=
  .projectRoute "source_edit.idempotency_conflict" false detail

def applicationProblem : EditError := .notFound "source edit was not found or not authorized"

/-! ## Authority -/

structure AuthorityReceipt where
  grantId : String
  grantRevision : Nat
  (grantDigest authorizedScopeDigest disclosure policy : String)
  revalidatedAt : Nat
deriving DecidableEq

structure SourceEditEffectProof where
  (policyDigest configurationRevisionId configurationDigest : String)
  catalogRevision : Nat
  (catalogDigest privacyDomainId : String)
  privacyKeyEpoch : Nat
  privacyDigest : String
  externalProof : Option String
deriving DecidableEq

structure SourceEditAuthorizationAdmission where
  receipt : AuthorityReceipt
  proof : SourceEditEffectProof

/-- The time of the last revalidation is no part of an authority. -/
def sameSourceEditAuthority (left right : AuthorityReceipt) : Bool :=
  left.grantId = right.grantId && left.grantRevision = right.grantRevision &&
    left.grantDigest = right.grantDigest &&
    left.authorizedScopeDigest = right.authorizedScopeDigest &&
    left.disclosure = right.disclosure && left.policy = right.policy

/-! ## Outcomes -/

/-- The outcome a receipt retains; counts and positions of the edit are left out. -/
structure DurableOutcome where
  operation : UseCase
  success : Bool
  files : List String
  (failed cancelled timedOut effectUnknown reconciled : Bool)
deriving DecidableEq

/-- `edit` stands for the results of all edit primitives. -/
inductive SourceEditOutcome where
  | edit (success : Bool) (files : List String)
  | failed (message : String)
  | cancelled (message : String)
  | timedOut (message : String)
  | effectUnknown (message : String)
  | reconciled (success : Bool) (message : String)
  | durableMetadata (outcome : DurableOutcome)
deriving DecidableEq

namespace SourceEditOutcome

def success : SourceEditOutcome → Bool
  | .edit success _ => success
  | .failed _ | .cancelled _ | .timedOut _ | .effectUnknown _ => false
  | .reconciled success _ => success
  | .durableMetadata outcome => outcome.success

def candidateFiles : SourceEditOutcome → List String
  | .edit _ files => files
  | .failed _ | .cancelled _ | .timedOut _ | .effectUnknown _ | .reconciled _ _ => []
  | .durableMetadata outcome => outcome.files

end SourceEditOutcome

def DurableOutcome.fromLive (operation : UseCase) (outcome : SourceEditOutcome) :
    DurableOutcome where
  operation
  success := outcome.success
  files := outcome.candidateFiles
  failed := match outcome with | .failed _ => true | _ => false
  cancelled := match outcome with | .cancelled _ => true | _ => false
  timedOut := match outcome with | .timedOut _ => true | _ => false
  effectUnknown := match outcome with | .effectUnknown _ => true | _ => false
  reconciled := match outcome with | .reconciled _ _ => true | _ => false

/-! ## The journal and the records -/

section

variable (δ : Type)

structure DurableRequest where
  operation : UseCase
  (actor scope : String)
  authority : AuthorityReceipt
  authorityProof : SourceEditEffectProof
  idempotencyKey : String
  (dryRun verificationRequested : Bool)
deriving DecidableEq

inductive JournalState where
  | prepared
  | applied (outcome : DurableOutcome) (committedState : δ)
      (controlObservation : Option CancellationStage)
      (verificationState : Option VerificationState)
deriving DecidableEq

structure Journal where
  (effectId inputDigest expectedState : δ)
  predictedState : Option δ
  candidateFiles : List String
  recoveryFiles : List PlannedSourceEditFile
  request : DurableRequest
  state : JournalState δ
deriving DecidableEq

structure RollbackRecord where
  (effectId inputDigest : δ)
  idempotencyKey : String
  operation : UseCase
  (actor scope : String)
  (expectedState committedState : δ)
  recoveryFiles : List PlannedSourceEditFile
deriving DecidableEq

structure EffectReceipt where
  operation : UseCase
  (actor scope idempotencyKey : String)
  (inputDigest expectedState : δ)
  outcome : EffectTermination
  committedState : Option δ

structure EffectResult where
  effectId : δ
  idempotencyKey : String
  authority : AuthorityReceipt
  expectedState : δ
  cancellation : Option CancellationStage
  reconciliation : ReconciliationState
  receipt : EffectReceipt δ

structure DurableResult where
  inputDigest : δ
  authorityProof : SourceEditEffectProof
  dryRun : Bool
  predictedState : Option δ
  outcome : DurableOutcome
  effect : EffectResult δ

structure ApplicationResult where
  outcome : SourceEditOutcome
  record : DurableResult δ
  verification : Option VerificationState
  replayed : Bool

/-- The private store beside the worktree. -/
structure Records where
  journal : Option (Journal δ)
  (receipts attempts : String → Option (DurableResult δ))
  rollbackRecords : δ → Option (RollbackRecord δ)

structure Store where
  files : String → Option Content
  records : Records δ

end

variable {δ : Type}

def Records.empty : Records δ := ⟨none, fun _ => none, fun _ => none, fun _ => none⟩

variable (r : DurableResult δ)

def DurableResult.key : String := r.effect.idempotencyKey

def DurableResult.termination : EffectTermination := r.effect.receipt.outcome

def DurableResult.intoApplicationResult (replayed : Bool) : ApplicationResult δ :=
  ⟨.durableMetadata r.outcome, r, none, replayed⟩

def DurableResult.intoLiveApplicationResult (outcome : SourceEditOutcome)
    (verification : Option VerificationState) : ApplicationResult δ :=
  ⟨outcome, r, verification, false⟩

def Journal.key (j : Journal δ) : String := j.request.idempotencyKey

/-! ## Durable steps -/

/-- `publish` compares the file with `expected` and renames or removes it in the same step. -/
inductive Call (δ : Type) where
  | read (path : String)
  | publish (path : String) (expected intended : Option Content)
  | loadJournal
  | persistJournal (journal : Journal δ)
  | clearJournal
  | loadReceipt (key : String)
  | persistReceipt (record : DurableResult δ)
  | loadAttempt (key : String)
  | persistAttempt (record : DurableResult δ)
  | loadRollbackRecord (effectId : δ)
  | persistRollbackRecord (record : RollbackRecord δ)

def Reply : Call δ → Type
  | .read _ => Option Content
  | .loadJournal => Option (Journal δ)
  | .loadReceipt _ | .loadAttempt _ => Option (DurableResult δ)
  | .loadRollbackRecord _ => Option (RollbackRecord δ)
  | .publish _ _ _ | .persistJournal _ | .clearJournal | .persistReceipt _ | .persistAttempt _
  | .persistRollbackRecord _ => Unit

def interface (δ : Type) : Interface := ⟨Call δ, Reply⟩

/-- The comparison of `publish` and of `remove`. -/
def publishCheck (path : String) (current expected intended : Option Content) :
    Except EditError Unit :=
  match intended, expected, current with
  | some _, _, _ =>
    if current = expected then .ok ()
    else .error (configError
      ("source edit candidate " ++ path ++ " changed before atomic publication"))
  | none, none, _ =>
    .error (configError ("source edit candidate " ++ path ++ " cannot remove an absent file"))
  | none, some _, none =>
    .error (configError ("source edit candidate " ++ path ++ " disappeared before atomic removal"))
  | none, some _, some _ =>
    if current = expected then .ok ()
    else .error (configError ("source edit candidate " ++ path ++ " changed before atomic removal"))

variable [DecidableEq δ]

def perform : (c : Call δ) → Store δ → Except EditError (Reply c) × Store δ
  | .read path, s => (.ok (s.files path), s)
  | .publish path expected intended, s =>
    match publishCheck path (s.files path) expected intended with
    | .ok () => (.ok (), { s with files := Function.update s.files path intended })
    | .error e => (.error e, s)
  | .loadJournal, s => (.ok s.records.journal, s)
  | .persistJournal j, s => (.ok (), { s with records := { s.records with journal := some j } })
  | .clearJournal, s => (.ok (), { s with records := { s.records with journal := none } })
  | .loadReceipt key, s => (.ok (s.records.receipts key), s)
  | .persistReceipt r, s =>
    (.ok (), { s with records :=
      { s.records with receipts := Function.update s.records.receipts r.key (some r) } })
  | .loadAttempt key, s => (.ok (s.records.attempts key), s)
  | .persistAttempt r, s =>
    (.ok (), { s with records :=
      { s.records with attempts := Function.update s.records.attempts r.key (some r) } })
  | .loadRollbackRecord id, s => (.ok (s.records.rollbackRecords id), s)
  | .persistRollbackRecord r, s =>
    (.ok (), { s with records :=
      { s.records with
        rollbackRecords := Function.update s.records.rollbackRecords r.effectId (some r) } })

def device (δ : Type) [DecidableEq δ] : Device (interface δ) EditError (Store δ) := ⟨perform⟩

abbrev EditM (δ : Type) := Prog (interface δ) EditError

section Steps

variable {δ : Type}

def step (c : Call δ) : EditM δ (Reply c) := Prog.ask (F := interface δ) c

def readSourceEditCandidate (path : String) : EditM δ (Option Content) := step (.read path)

def publishSourceEditState (path : String) (expected intended : Option Content) : EditM δ Unit :=
  step (.publish path expected intended)

def loadJournal : EditM δ (Option (Journal δ)) := step .loadJournal

def persistJournal (journal : Journal δ) : EditM δ Unit := step (.persistJournal journal)

def clearJournal : EditM δ Unit := step .clearJournal

def loadReceipt (key : String) : EditM δ (Option (DurableResult δ)) := step (.loadReceipt key)

def persistReceipt (record : DurableResult δ) : EditM δ Unit := step (.persistReceipt record)

def loadReconciliationReceipt (key : String) : EditM δ (Option (DurableResult δ)) :=
  step (.loadAttempt key)

def persistReconciliationReceipt (record : DurableResult δ) : EditM δ Unit :=
  step (.persistAttempt record)

def loadRollbackRecord (effectId : δ) : EditM δ (Option (RollbackRecord δ)) :=
  step (.loadRollbackRecord effectId)

def writeRollbackRecord (record : RollbackRecord δ) : EditM δ Unit :=
  step (.persistRollbackRecord record)

end Steps

structure ForeignWrite where
  path : String
  content : Option Content

def ForeignWrite.apply (w : ForeignWrite) (s : Store δ) : Store δ :=
  { s with files := Function.update s.files w.path w.content }

/-! ## Digests -/

/-- What an attempt's input digest is taken of. -/
inductive Disposition (δ : Type) where
  | confirmCommitted (committedState : δ)
  | confirmRolledBack
deriving DecidableEq

structure AttemptInput (δ : Type) where
  (actor scope : String)
  kind : SourceEditKind
  effectId : δ
  (idempotencyKey attemptIdempotencyKey : String)
  inputDigest : δ
  disposition : Disposition δ
  externalProof : Option String

/-- The functions of the host: normal spelling of a candidate path beneath the worktree, and the
digests of contents, of candidate states, of effects and of reconciliation attempts. -/
structure Host (δ : Type) where
  normalize : String → Option String
  content : Content → δ
  state : List (String × Option δ) → δ
  effect : String → δ → δ
  attempt : AttemptInput δ → δ

/-- Digests do not collide. -/
structure Host.CollisionFree (host : Host δ) : Prop where
  content : Function.Injective host.content
  state : Function.Injective host.state
  effect : ∀ {k k' d d'}, host.effect k d = host.effect k' d' → k = k' ∧ d = d'
  attempt : Function.Injective host.attempt

end TraceDecay.SourceEdit
