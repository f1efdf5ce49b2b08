import TraceDecay.SourceEdit.Plan

/-!
# SourceEdit.Requests

The requests of the source-edit service, each from the point where it holds the store lock: the
recovery of a transaction that was cut off, execute, rollback and reconcile.

What the world outside the store answers in the course of a request (cancellation, authorisation,
the preview's plan, the edit primitive, the verification) is a parameter of the request.
-/

namespace TraceDecay.SourceEdit

open Resumption

variable {δ : Type} [DecidableEq δ]

/-! ## Records -/

variable (journal : Journal δ)

def durableRecord (outcome : DurableOutcome) (committedState : Option δ)
    (termination : EffectTermination) (reconciliation : ReconciliationState)
    (controlObservation : Option CancellationStage) : DurableResult δ where
  inputDigest := journal.inputDigest
  authorityProof := journal.request.authorityProof
  dryRun := journal.request.dryRun
  predictedState := journal.predictedState
  outcome
  effect :=
    { effectId := journal.effectId
      idempotencyKey := journal.request.idempotencyKey
      authority := journal.request.authority
      expectedState := journal.expectedState
      cancellation := controlObservation
      reconciliation
      receipt :=
        { operation := journal.request.operation
          actor := journal.request.actor
          scope := journal.request.scope
          idempotencyKey := journal.request.idempotencyKey
          inputDigest := journal.inputDigest
          expectedState := journal.expectedState
          outcome := termination
          committedState } }

def appliedEffectTermination (verificationRequested : Bool)
    (verificationState : Option VerificationState) (sourceEditSucceeded : Bool) :
    EffectTermination :=
  if !sourceEditSucceeded then .failed
  else if !verificationRequested || verificationState = some .clean ||
      verificationState = some .errors then .completed
  else .partialEffect

def appliedDurableRecord (outcome : DurableOutcome) (committedState : δ)
    (controlObservation : Option CancellationStage)
    (verificationState : Option VerificationState) : DurableResult δ :=
  durableRecord journal outcome (some committedState)
    (appliedEffectTermination journal.request.verificationRequested verificationState
      outcome.success)
    .reconciled controlObservation

def JournalState.verification : JournalState δ → Option VerificationState
  | .prepared => none
  | .applied _ _ _ verificationState => verificationState

def appliedRecord (outcome : SourceEditOutcome) (committedState : δ)
    (controlObservation : Option CancellationStage) : DurableResult δ :=
  appliedDurableRecord journal (.fromLive journal.request.operation outcome) committedState
    controlObservation journal.state.verification

def unknownMessage : String := "source edit effect is unknown and requires reconciliation"

def unknownRecord : DurableResult δ :=
  durableRecord journal
    (.fromLive journal.request.operation (.effectUnknown unknownMessage)) none .effectUnknown
    .pending none

/-- How the caller stopped a request. -/
inductive Stop where
  | cancelled
  | timedOut
deriving DecidableEq

def Stop.termination : Stop → EffectTermination
  | .cancelled => .cancelled
  | .timedOut => .timedOut

def Stop.outcome (cancelledMessage timedOutMessage : String) : Stop → SourceEditOutcome
  | .cancelled => .cancelled cancelledMessage
  | .timedOut => .timedOut timedOutMessage

def interruptedRecord (outcome : SourceEditOutcome) (stop : Stop)
    (stage : CancellationStage) : DurableResult δ :=
  durableRecord journal (.fromLive journal.request.operation outcome) none stop.termination
    .reconciled (some stage)

/-! ## The rollback record -/

def Journal.rollbackRecord (committedState : δ) : RollbackRecord δ :=
  { journal with
    idempotencyKey := journal.request.idempotencyKey
    operation := journal.request.operation
    actor := journal.request.actor
    scope := journal.request.scope
    committedState }

/-- Only a completed move keeps what a later rollback needs. -/
def persistRollbackRecord (committedState : δ) (succeeded : Bool) : EditM δ Unit :=
  if journal.request.operation ≠ .edit .moveSymbol ∨ journal.recoveryFiles = [] then pure ()
  else if succeeded = false ∨ journal.predictedState ≠ some committedState then pure ()
  else do
    let record := journal.rollbackRecord committedState
    match ← loadRollbackRecord journal.effectId with
    | some stored =>
      if stored ≠ record then
        throw (configError "source edit rollback record conflicts with retained effect material")
      else pure ()
    | none => writeRollbackRecord record

/-! ## Crash recovery -/

/-- The worktree holds the previewed result: only the bookkeeping was lost. -/
def rollForward (observedState : δ) : EditM δ Unit := do
  commitSourceEditPostimages journal.recoveryFiles
  persistRollbackRecord journal observedState true
  persistReceipt (appliedRecord journal
    (.reconciled true "source edit crash recovery confirmed the edit already committed to disk")
    observedState none)
  clearJournal

def restoredRecord : DurableResult δ :=
  durableRecord journal
    { DurableOutcome.fromLive journal.request.operation
        (.failed "source edit crash recovery restored every journaled preimage") with
      files := journal.candidateFiles }
    none .failed .reconciled none

def rollBack (host : Host δ) (journal : Journal δ) : EditM δ Unit := do
  rollbackPlannedSourceEditFiles journal.recoveryFiles
  let restoredState ← sourceEditStateDigest host journal.candidateFiles
  if restoredState ≠ journal.expectedState then
    throw (configError "source edit crash recovery did not restore the journaled preimage state")
  else do
    persistReceipt (restoredRecord journal)
    clearJournal

def recoverJournal (host : Host δ) (journal : Journal δ) : EditM δ Unit :=
  match journal.state with
  | .applied outcome committedState controlObservation verificationState => do
    persistRollbackRecord journal committedState outcome.success
    persistReceipt (appliedDurableRecord journal outcome committedState
      controlObservation verificationState)
    clearJournal
  | .prepared =>
    if journal.recoveryFiles = [] then pure ()
    else do
      let observedState ← sourceEditStateDigest host journal.candidateFiles
      if journal.predictedState = some observedState then rollForward journal observedState
      else rollBack host journal

def recoverSourceEditTransaction (host : Host δ) (scope : String) : EditM δ Unit := do
  match ← loadJournal with
  | none => pure ()
  | some journal =>
    if journal.request.scope ≠ scope then
      throw (configError "source edit crash recovery must run in the transaction's owning worktree")
    else recoverJournal host journal

/-! ## Execute -/

structure SourceEditEffectRequest (δ : Type) where
  (actor scope : String)
  authority : AuthorityReceipt
  proof : SourceEditEffectProof
  kind : SourceEditKind
  (dryRun verify : Bool)
  idempotencyKey : String
  (expectedState inputDigest : δ)

/-- The answers from outside the store in the course of an execute. `recheck` is asked after
admission, `recheckBeforeEffect` after the preview. -/
structure ExecuteAnswers where
  control : CancellationStage → Option Stop
  (admission recheck recheckBeforeEffect : Option SourceEditAuthorizationAdmission)
  preview : Except EditError (SourceEditOutcome × List PlannedSourceEditFile)
  primitive : Primitive
  verification : VerificationState

section Execute

variable (host : Host δ) (request : SourceEditEffectRequest δ) (answers : ExecuteAnswers)

def SourceEditEffectRequest.requestedAuthority : SourceEditAuthorizationAdmission :=
  ⟨request.authority, request.proof⟩

variable (authority : SourceEditAuthorizationAdmission)

def SourceEditEffectRequest.durable : DurableRequest :=
  { request with
    operation := .edit request.kind
    authority := authority.receipt
    authorityProof := authority.proof
    verificationRequested := request.verify }

/-- What a receipt from before the effect records about the attempted edit. -/
structure PreEffectState (δ : Type) where
  expected : δ
  predicted : Option δ
  candidateFiles : List String

def PreEffectState.unpreviewed (expected : δ) : PreEffectState δ := ⟨expected, none, []⟩

variable (outcome : SourceEditOutcome)

variable (state : PreEffectState δ) (termination : EffectTermination)
  (controlObservation : Option CancellationStage)

def preEffectRecord : DurableResult δ :=
  durableRecord
    { effectId := host.effect request.idempotencyKey request.inputDigest
      inputDigest := request.inputDigest
      expectedState := state.expected
      predictedState := state.predicted
      candidateFiles := state.candidateFiles
      recoveryFiles := []
      request := request.durable authority
      state := .prepared }
    (.fromLive (.edit request.kind) outcome)
    (if termination = .completed then some state.expected else none) termination .reconciled
    controlObservation

def persistPreEffectResult : EditM δ (ApplicationResult δ) := do
  match ← loadReceipt request.idempotencyKey with
  | some stored =>
    if stored.inputDigest ≠ request.inputDigest then
      throw (idempotencyConflict "source edit idempotency key conflicts with a prior input")
    else if stored.authorityProof ≠ authority.proof then
      throw (configError "source edit receipt authority changed")
    else pure (stored.intoApplicationResult true)
  | none => do
    let record :=
      preEffectRecord host request authority outcome state termination controlObservation
    persistReceipt record
    pure (record.intoLiveApplicationResult outcome none)

def failPreEffect : EditM δ (ApplicationResult δ) :=
  persistPreEffectResult host request authority (.failed "source edit failed before the effect")
    state .failed none

def authorityStillMatches : Bool :=
  sameSourceEditAuthority authority.receipt request.authority && authority.proof = request.proof

variable (journal : Journal δ)

def reconcileJournal : EditM δ (ApplicationResult δ) :=
  if journal.key ≠ request.idempotencyKey ∨ journal.inputDigest ≠ request.inputDigest ∨
      sameSourceEditAuthority journal.request.authority request.authority = false ∨
      journal.request.authorityProof ≠ request.proof then
    throw (configError "a source edit transaction requires reconciliation before another mutation")
  else
    match journal.state with
    | .prepared => do
      persistReceipt (unknownRecord journal)
      pure ((unknownRecord journal).intoApplicationResult true)
    | .applied outcome committedState controlObservation verificationState => do
      let record := appliedDurableRecord journal outcome committedState controlObservation
        verificationState
      persistReceipt record
      clearJournal
      pure (record.intoApplicationResult true)

def JournalState.isApplied : JournalState δ → Bool
  | .prepared => false
  | .applied _ _ _ _ => true

/-- An applied journal has served its purpose once its receipt is stored. -/
def clearAppliedJournal : EditM δ Unit := do
  match ← loadJournal with
  | some journal =>
    if journal.key = request.idempotencyKey ∧ journal.inputDigest = request.inputDigest ∧
        journal.state.isApplied then
      clearJournal
    else pure ()
  | none => pure ()

/-- A stored receipt is replayed to the request that carries its input and authority. -/
def recoverOrReplay : EditM δ (Option (ApplicationResult δ)) := do
  match ← loadReceipt request.idempotencyKey with
  | some stored =>
    if stored.inputDigest ≠ request.inputDigest then
      throw (idempotencyConflict "source edit idempotency key conflicts with a prior input")
    else if stored.authorityProof ≠ request.proof ∨
        sameSourceEditAuthority stored.effect.authority request.authority = false then
      throw (configError "source edit replay authority changed")
    else do
      clearAppliedJournal request
      pure (some (stored.intoApplicationResult true))
  | none => do
    match ← loadJournal with
    | some journal => do
      let result ← reconcileJournal request journal
      pure (some result)
    | none => pure none

structure ResolvedSourceEditPreview (δ : Type) where
  outcome : SourceEditOutcome
  candidateFiles : List String
  (expectedState predictedState : Option δ)
  plannedFiles : List PlannedSourceEditFile

/-- A preview is good for one exact plan, of files that still are as the plan expects them. -/
def resolveSourceEditPreview : EditM δ (ResolvedSourceEditPreview δ) := do
  let (outcome, plannedFiles) ← Prog.lift answers.preview
  if outcome.success = false then
    pure ⟨outcome, [], none, none, []⟩
  else do
    let candidateFiles ← Prog.lift (normalizeCandidateFiles host outcome.candidateFiles)
    let plannedCandidateFiles ← Prog.lift
      (normalizeCandidateFiles host (plannedFiles.map (·.relativePath)))
    if plannedFiles.length ≠ candidateFiles.length ∨ plannedCandidateFiles ≠ candidateFiles then
      throw (configError
        "source edit preview did not produce one exact plan for every candidate file")
    else do
      let expectedState ← Prog.lift
        (plannedSourceEditStateDigest host candidateFiles plannedFiles false)
      let observedState ← sourceEditStateDigest host candidateFiles
      if observedState ≠ expectedState then
        throw (expectedStateMismatch
          "source edit candidate state changed while its exact preview was captured")
      else do
        let predictedState ← Prog.lift
          (plannedSourceEditStateDigest host candidateFiles plannedFiles true)
        pure ⟨outcome, candidateFiles, some expectedState, some predictedState, plannedFiles⟩

def persistUnknown (liveOutcome : SourceEditOutcome) : EditM δ (ApplicationResult δ) := do
  persistReceipt (unknownRecord journal)
  pure ((unknownRecord journal).intoLiveApplicationResult liveOutcome none)

/-- The journal is written again where there is something new to say. -/
def persistJournalWhen (news : Bool) (journal : Journal δ) : EditM δ Unit :=
  if news then persistJournal journal else pure ()

/-- The journal becomes `applied` before the receipt is written, and goes away after it. -/
def finishExecute (outcome : SourceEditOutcome) (committedState : δ)
    (observed : Option CancellationStage) : EditM δ (ApplicationResult δ) := do
  let verification : Option VerificationState :=
    if request.verify && outcome.success && !outcome.candidateFiles.isEmpty then
      some answers.verification
    else none
  let durableOutcome := DurableOutcome.fromLive journal.request.operation outcome
  persistJournal
    { journal with state := .applied durableOutcome committedState observed none }
  let verified : Journal δ :=
    { journal with state := .applied durableOutcome committedState observed verification }
  persistJournalWhen request.verify verified
  let observation : Option CancellationStage :=
    if observed.isNone then (answers.control .afterCommit).map fun _ => .afterCommit else observed
  let final : Journal δ :=
    { journal with state := .applied durableOutcome committedState observation verification }
  persistJournalWhen (observed.isNone && observation.isSome) final
  persistRollbackRecord final committedState outcome.success
  let record := appliedRecord final outcome committedState observation
  persistReceipt record
  clearJournal
  pure (record.intoLiveApplicationResult outcome verification)

/-- The effect itself, under a journal that is `prepared`. -/
def executeEffect (predictedState : δ) : EditM δ (ApplicationResult δ) := do
  match ← applySourceEditPlan journal.recoveryFiles answers.primitive with
  | .error e =>
    persistUnknown journal (.effectUnknown
      ("source edit effect is unknown and requires reconciliation: " ++
        String.ofList (e.display.toList.take 1024)))
  | .ok (outcome, planComplete) => do
    let observed := (answers.control .effectInFlight).map fun _ => CancellationStage.effectInFlight
    let committedState ← sourceEditStateDigest host journal.candidateFiles
    if outcome.success = true ∧ (planComplete = false ∨ committedState ≠ predictedState) then
      persistUnknown journal (.effectUnknown "source edit effect is unknown and requires reconciliation: the observed committed state did not match the exact preview")
    else if outcome.success = false ∧ committedState ≠ journal.expectedState then
      persistUnknown journal (.effectUnknown "source edit effect is unknown and requires reconciliation: the edit reported failure after candidate state changed")
    else finishExecute request answers journal outcome committedState observed

def preparedJournal (candidateFiles : List String) (plannedFiles : List PlannedSourceEditFile)
    (predictedState : δ) : Journal δ where
  effectId := host.effect request.idempotencyKey request.inputDigest
  inputDigest := request.inputDigest
  expectedState := request.expectedState
  predictedState := some predictedState
  candidateFiles
  recoveryFiles := plannedFiles
  request := request.durable authority
  state := .prepared

/-- The journal is written, and the request may still be stopped. -/
def executeJournaled (predictedState : δ) : EditM δ (ApplicationResult δ) := do
  persistJournal journal
  match answers.control .beforeEffect with
  | some stop => do
    let liveOutcome := stop.outcome "source edit was cancelled before the effect"
      "source edit timed out before the effect"
    let record := interruptedRecord journal liveOutcome stop .beforeEffect
    persistReceipt record
    clearJournal
    pure (record.intoLiveApplicationResult liveOutcome none)
  | none => executeEffect host request answers journal predictedState

/-- From a plan for the files as they are; the authority is the one of the first recheck. -/
def executePlanned (candidateFiles : List String) (plannedFiles : List PlannedSourceEditFile)
    (currentState predictedState : δ) : EditM δ (ApplicationResult δ) :=
  let refuse authority expected :=
    failPreEffect host request authority ⟨expected, some predictedState, candidateFiles⟩
  if request.dryRun = false ∧ currentState ≠ request.expectedState then
    refuse authority request.expectedState
  else if request.dryRun then
    match answers.control .effectInFlight with
    | some stop =>
      persistPreEffectResult host request authority
        (stop.outcome "source edit preview was cancelled" "source edit preview timed out")
        ⟨currentState, some predictedState, candidateFiles⟩ stop.termination (some .effectInFlight)
    | none =>
      match answers.recheckBeforeEffect with
      | some current =>
        if authorityStillMatches request current then
          persistPreEffectResult host request current outcome
            ⟨currentState, some predictedState, candidateFiles⟩ .completed none
        else refuse authority currentState
      | none => refuse authority currentState
  else
    match answers.recheckBeforeEffect with
    | some current =>
      if authorityStillMatches request current then do
        match ← Prog.attempt (sourceEditStateDigest host candidateFiles) with
        | .error _ => refuse current request.expectedState
        | .ok recapturedState =>
          if recapturedState ≠ request.expectedState then refuse current request.expectedState
          else
            executeJournaled host request answers
              (preparedJournal host request current candidateFiles plannedFiles predictedState)
              predictedState
      else refuse authority request.expectedState
    | none => refuse authority request.expectedState

/-- The request is admitted: what an earlier transaction left is settled first. -/
def executeAdmitted : EditM δ (ApplicationResult δ) := do
  recoverSourceEditTransaction host request.scope
  match ← recoverOrReplay request with
  | some result => pure result
  | none => do
    match ← Prog.attempt (resolveSourceEditPreview host answers) with
    | .error e =>
      persistPreEffectResult host request authority
        (.failed ("source edit failed before the effect: " ++ e.display))
        (.unpreviewed request.expectedState) .failed none
    | .ok preview =>
      if preview.outcome.success = false then
        persistPreEffectResult host request authority preview.outcome
          ⟨preview.expectedState.getD request.expectedState, preview.predictedState,
            preview.candidateFiles⟩ .failed none
      else
        match preview.predictedState, preview.expectedState with
        | none, _ =>
          throw (configError "successful source edit preview omitted predicted state")
        | _, none => throw (configError "successful source edit preview omitted expected state")
        | some predictedState, some currentState =>
          executePlanned host request answers authority preview.outcome preview.candidateFiles
            preview.plannedFiles currentState predictedState

def executeSourceEdit : EditM δ (ApplicationResult δ) :=
  let refuse authority := failPreEffect host request authority (.unpreviewed request.expectedState)
  match answers.control .beforeAdmission with
  | some stop =>
    persistPreEffectResult host request request.requestedAuthority
      (stop.outcome "source edit was cancelled before admission"
        "source edit timed out before admission")
      (.unpreviewed request.expectedState) stop.termination (some .beforeAdmission)
  | none =>
    match answers.admission with
    | none => refuse request.requestedAuthority
    | some admission =>
      if admission.receipt ≠ request.authority ∨ admission.proof ≠ request.proof then
        refuse request.requestedAuthority
      else
        match answers.recheck with
        | some authority =>
          if authorityStillMatches request authority then
            executeAdmitted host request answers authority
          else refuse request.requestedAuthority
        | none => do
          let receipt ← loadReceipt request.idempotencyKey
          if receipt.isSome then throw applicationProblem
          else do
            let journal ← loadJournal
            if journal.isSome then throw applicationProblem
            else refuse admission

end Execute

/-! ## Rollback -/

structure SourceEditRollbackRequest (δ : Type) where
  (actor scope : String)
  authority : AuthorityReceipt
  proof : SourceEditEffectProof
  effectId : δ
  (originalIdempotencyKey idempotencyKey : String)
  (originalInputDigest expectedState inputDigest : δ)

structure RollbackAnswers where
  control : CancellationStage → Option Stop
  (admission recheck : Option SourceEditAuthorizationAdmission)

/-- The plan that takes an edit back. -/
def PlannedSourceEditFile.swap (file : PlannedSourceEditFile) : PlannedSourceEditFile :=
  ⟨file.relativePath, file.intended, file.expected⟩

section Rollback

variable (host : Host δ) (request : SourceEditRollbackRequest δ) (answers : RollbackAnswers)
  (authority : SourceEditAuthorizationAdmission) (journal : Journal δ)

def rollbackJournal (predictedState : Option δ) (candidateFiles : List String)
    (recoveryFiles : List PlannedSourceEditFile) : Journal δ where
  effectId := host.effect request.idempotencyKey request.inputDigest
  inputDigest := request.inputDigest
  expectedState := request.expectedState
  predictedState
  candidateFiles
  recoveryFiles
  request :=
    { request with
      operation := .rollback
      authority := authority.receipt
      authorityProof := authority.proof
      dryRun := false
      verificationRequested := false }
  state := .prepared

def persistPreEffect (outcome : SourceEditOutcome) (termination : EffectTermination)
    (observation : Option CancellationStage) : EditM δ (ApplicationResult δ) := do
  match ← loadReceipt request.idempotencyKey with
  | some stored =>
    if stored.inputDigest ≠ request.inputDigest then
      throw (idempotencyConflict
        "source edit rollback idempotency key conflicts with a prior input")
    else if stored.authorityProof ≠ authority.proof then
      throw (configError "source edit rollback receipt authority changed")
    else pure (stored.intoApplicationResult true)
  | none => do
    let record := durableRecord (rollbackJournal host request authority none [] [])
      (.fromLive .rollback outcome) none termination .reconciled observation
    persistReceipt record
    pure (record.intoLiveApplicationResult outcome none)

def rollbackFailed : SourceEditOutcome := .failed "source edit rollback failed before the effect"

def finishRollback (committedState : δ) : EditM δ (ApplicationResult δ) := do
  let outcome := SourceEditOutcome.reconciled true
    "source edit rollback restored every retained preimage"
  let observed := (answers.control .effectInFlight).map fun _ => CancellationStage.effectInFlight
  let durableOutcome := DurableOutcome.fromLive .rollback outcome
  persistJournal
    { journal with state := .applied durableOutcome committedState observed none }
  let observation : Option CancellationStage :=
    if observed.isNone then (answers.control .afterCommit).map fun _ => .afterCommit else observed
  let final : Journal δ :=
    { journal with state := .applied durableOutcome committedState observation none }
  persistJournalWhen (observed.isNone && observation.isSome) final
  let record := appliedRecord final outcome committedState observation
  persistReceipt record
  clearJournal
  pure (record.intoLiveApplicationResult outcome none)

/-- The preimages are restored under a journal of the swapped plan. -/
def rollbackEffect (retained : RollbackRecord δ) : EditM δ (ApplicationResult δ) := do
  let applyResult ← Prog.attempt (rollbackPlannedSourceEditFiles retained.recoveryFiles)
  let committedState ← sourceEditStateDigest host journal.candidateFiles
  if applyResult.toOption.isNone ∨ committedState ≠ retained.expectedState then
    if committedState ≠ journal.expectedState then do
      persistReceipt (unknownRecord journal)
      pure ((unknownRecord journal).intoLiveApplicationResult (.effectUnknown
        "source edit rollback effect is unknown and requires reconciliation") none)
    else do
      let outcome := SourceEditOutcome.failed
        "source edit rollback failed before changing workspace state"
      let record := durableRecord journal (.fromLive .rollback outcome) none .failed .reconciled none
      persistReceipt record
      clearJournal
      pure (record.intoLiveApplicationResult outcome none)
  else finishRollback answers journal committedState

def rollbackJournaled (retained : RollbackRecord δ) : EditM δ (ApplicationResult δ) := do
  persistJournal journal
  match answers.control .beforeEffect with
  | some stop => do
    let outcome := stop.outcome "source edit rollback was cancelled before the effect"
      "source edit rollback timed out before the effect"
    let record := interruptedRecord journal outcome stop .beforeEffect
    persistReceipt record
    clearJournal
    pure (record.intoLiveApplicationResult outcome none)
  | none => rollbackEffect host answers journal retained

/-- The retained material belongs to the completed effect the request names. -/
def rollbackMatches (retained : RollbackRecord δ) (original : DurableResult δ) : Bool :=
  retained.effectId = request.effectId && retained.inputDigest = request.originalInputDigest &&
    retained.idempotencyKey = request.originalIdempotencyKey && retained.actor = request.actor &&
    retained.scope = request.scope && retained.committedState = request.expectedState &&
    original.effect.effectId = request.effectId &&
    original.inputDigest = request.originalInputDigest &&
    original.effect.receipt.outcome = .completed &&
    original.effect.receipt.committedState = some retained.committedState

def rollbackRetained (retained : RollbackRecord δ) : EditM δ (ApplicationResult δ) := do
  let candidateFiles ← Prog.lift
    (normalizeCandidateFiles host (retained.recoveryFiles.map (·.relativePath)))
  let observedState ← sourceEditStateDigest host candidateFiles
  if observedState ≠ retained.committedState then
    persistPreEffect host request authority
      (.failed "source edit rollback refused stale or foreign workspace bytes") .failed none
  else
    rollbackJournaled host answers
      (rollbackJournal host request authority (some retained.expectedState) candidateFiles
        (retained.recoveryFiles.map (·.swap)))
      retained

def rollbackAdmitted : EditM δ (ApplicationResult δ) := do
  recoverSourceEditTransaction host request.scope
  match ← loadReceipt request.idempotencyKey with
  | some stored =>
    if stored.inputDigest ≠ request.inputDigest then
      throw (idempotencyConflict
        "source edit rollback idempotency key conflicts with a prior input")
    else if stored.authorityProof ≠ request.proof ∨
        sameSourceEditAuthority stored.effect.authority request.authority = false then
      throw (configError "source edit rollback replay authority changed")
    else pure (stored.intoApplicationResult true)
  | none => do
    match ← loadRollbackRecord request.effectId with
    | none => throw (configError "source edit effect has no retained rollback material")
    | some retained =>
      match ← loadReceipt request.originalIdempotencyKey with
      | none => throw (configError "source edit rollback is missing its original effect receipt")
      | some original =>
        if rollbackMatches request retained original then
          rollbackRetained host request answers authority retained
        else throw (configError
          "source edit rollback identity does not match the completed original effect")

def executeSourceEditRollback : EditM δ (ApplicationResult δ) :=
  let requested : SourceEditAuthorizationAdmission := ⟨request.authority, request.proof⟩
  match answers.control .beforeAdmission with
  | some stop =>
    persistPreEffect host request requested
      (stop.outcome "source edit rollback was cancelled before admission"
        "source edit rollback timed out before admission")
      stop.termination (some .beforeAdmission)
  | none =>
    match answers.admission with
    | none => persistPreEffect host request requested rollbackFailed .failed none
    | some admission =>
      if admission.receipt ≠ request.authority ∨ admission.proof ≠ request.proof then
        persistPreEffect host request requested rollbackFailed .failed none
      else
        match answers.recheck with
        | none => throw applicationProblem
        | some authority =>
          if sameSourceEditAuthority authority.receipt request.authority = false ∨
              authority.proof ≠ request.proof then
            persistPreEffect host request admission rollbackFailed .failed none
          else rollbackAdmitted host request answers authority

end Rollback

/-! ## Reconcile -/

structure SourceEditReconciliationRequest (δ : Type) where
  (actor scope : String)
  authority : AuthorityReceipt
  proof : SourceEditEffectProof
  kind : SourceEditKind
  effectId : δ
  (idempotencyKey attemptIdempotencyKey : String)
  inputDigest : δ
  disposition : Disposition δ

def SourceEditReconciliationRequest.attemptInput (request : SourceEditReconciliationRequest δ) :
    AttemptInput δ :=
  ⟨request.actor, request.scope, request.kind, request.effectId, request.idempotencyKey,
    request.attemptIdempotencyKey, request.inputDigest, request.disposition,
    request.proof.externalProof⟩

variable (host : Host δ) (request : SourceEditReconciliationRequest δ) (answers : RollbackAnswers)
  (journal : Journal δ) (authority : SourceEditAuthorizationAdmission)

/-- The journal is the one of the effect the request names, and is still undecided. -/
def retainedMatches : Bool :=
  journal.effectId = request.effectId && journal.key = request.idempotencyKey &&
    journal.inputDigest = request.inputDigest &&
    journal.request.operation = .edit request.kind && journal.request.actor = request.actor &&
    journal.request.scope = request.scope

def reconciliationAttemptRecord (outcome : SourceEditOutcome) (committedState : Option δ)
    (termination : EffectTermination) (controlObservation : Option CancellationStage) :
    DurableResult δ where
  inputDigest := host.attempt request.attemptInput
  authorityProof := authority.proof
  dryRun := false
  predictedState := journal.predictedState
  outcome := .fromLive .reconciliation outcome
  effect :=
    { effectId := host.effect request.attemptIdempotencyKey (host.attempt request.attemptInput)
      idempotencyKey := request.attemptIdempotencyKey
      authority := authority.receipt
      expectedState := journal.expectedState
      cancellation := controlObservation
      reconciliation := .reconciled
      receipt :=
        { operation := .reconciliation
          actor := request.actor
          scope := request.scope
          idempotencyKey := request.attemptIdempotencyKey
          inputDigest := host.attempt request.attemptInput
          expectedState := journal.expectedState
          outcome := termination
          committedState :=
            if termination = .completed then
              match request.disposition with
              | .confirmCommitted committedState => some committedState
              | .confirmRolledBack => some journal.expectedState
            else committedState } }

def persistInterruptedReconciliationAttempt (stop : Stop) (stage : CancellationStage) :
    EditM δ (ApplicationResult δ) := do
  let outcome := stop.outcome "source edit reconciliation attempt was cancelled"
    "source edit reconciliation attempt timed out"
  let record := reconciliationAttemptRecord host request journal authority outcome none
    stop.termination (some stage)
  persistReconciliationReceipt record
  pure (record.intoLiveApplicationResult outcome none)

def clearReconciledJournal : EditM δ Unit := do
  match ← loadJournal with
  | some journal =>
    if journal.effectId = request.effectId ∧ journal.key = request.idempotencyKey ∧
        journal.inputDigest = request.inputDigest ∧ journal.state.isApplied = false then
      clearJournal
    else pure ()
  | none => pure ()

/-- A completed attempt is replayed, and its journal removed if the attempt was cut off before. -/
def recoverReconciliationAttempt : EditM δ (Option (ApplicationResult δ)) := do
  match ← loadReconciliationReceipt request.attemptIdempotencyKey with
  | none => pure none
  | some stored =>
    if stored.inputDigest ≠ host.attempt request.attemptInput then
      throw (idempotencyConflict
        "source edit reconciliation attempt idempotency key conflicts with a prior input")
    else if stored.authorityProof ≠ request.proof ∨
        sameSourceEditAuthority stored.effect.authority request.authority = false then
      throw (configError "source edit reconciliation replay authority changed")
    else if stored.termination = .completed then do
      match ← loadReceipt request.idempotencyKey with
      | none =>
        throw (configError
          "completed reconciliation attempt is missing its original effect receipt")
      | some original =>
        if original.inputDigest ≠ request.inputDigest ∨
            original.effect.reconciliation ≠ .reconciled ∨
            original.termination = .effectUnknown then
          throw (configError
            "completed reconciliation attempt does not match a terminal original effect")
        else do
          clearReconciledJournal request
          pure (some (stored.intoApplicationResult true))
    else pure (some (stored.intoApplicationResult true))

/-- The receipt the disposition asks for, if the worktree bears it out. -/
def reconciledRecord (observedState : δ) : EditM δ (DurableResult δ) :=
  match request.disposition with
  | .confirmCommitted committedState =>
    match journal.predictedState with
    | none =>
      throw (configError "source edit committed state cannot be proven without a prediction")
    | some predictedState =>
      if committedState ≠ predictedState ∨ observedState ≠ predictedState then
        throw (configError
          "source edit committed-state inspection does not match the exact preview")
      else do
        persistRollbackRecord journal committedState true
        pure (appliedRecord journal
          (.reconciled true "source edit effect was independently confirmed committed")
          committedState none)
  | .confirmRolledBack =>
    if observedState ≠ journal.expectedState then
      throw (configError
        "source edit rollback inspection does not match the admitted expected state")
    else
      pure (durableRecord journal (.fromLive journal.request.operation
          (.reconciled false "source edit effect was independently confirmed rolled back"))
        none .failed .reconciled none)

def reconcilePreparedSourceEdit : EditM δ (ApplicationResult δ) := do
  match ← loadJournal with
  | none => throw (configError "no source edit effect requires reconciliation")
  | some journal =>
    if retainedMatches request journal = false then
      throw (configError "source edit reconciliation identity does not match the retained effect")
    else if journal.state.isApplied then
      throw (configError "source edit effect already has a durable applied-state proof")
    else
      match answers.control .beforeEffect with
      | some stop =>
        persistInterruptedReconciliationAttempt host request journal authority stop .beforeEffect
      | none => do
        let observedState ← sourceEditStateDigest host journal.candidateFiles
        match answers.control .effectInFlight with
        | some stop =>
          persistInterruptedReconciliationAttempt host request journal authority stop
            .effectInFlight
        | none => do
          let record ← reconciledRecord request journal observedState
          persistReceipt record
          let outcome := SourceEditOutcome.reconciled true
            "source edit reconciliation attempt completed"
          let attempt := reconciliationAttemptRecord host request journal authority outcome
            record.effect.receipt.committedState .completed
            ((answers.control .afterCommit).map fun _ => .afterCommit)
          persistReconciliationReceipt attempt
          clearJournal
          pure (attempt.intoLiveApplicationResult outcome none)

def reconcileSourceEditEffectUnknown : EditM δ (ApplicationResult δ) := do
  match ← recoverReconciliationAttempt host request with
  | some stored => pure stored
  | none =>
    match answers.control .beforeAdmission with
    | some stop => do
      match ← loadJournal with
      | none => throw (configError "no source edit effect requires reconciliation")
      | some journal =>
        if retainedMatches request journal = false ∨ journal.state.isApplied then
          throw (configError
            "source edit reconciliation identity does not match the retained effect")
        else
          persistInterruptedReconciliationAttempt host request journal
            ⟨request.authority, request.proof⟩ stop .beforeAdmission
    | none =>
      match answers.admission with
      | none => throw applicationProblem
      | some admission =>
        if admission.receipt ≠ request.authority ∨ admission.proof ≠ request.proof then
          throw (configError
            "source edit reconciliation admission differs from its authority receipt")
        else
          match answers.recheck with
          | none => throw applicationProblem
          | some authority =>
            if sameSourceEditAuthority authority.receipt request.authority = false ∨
                authority.proof ≠ request.proof then
              throw (configError "source edit reconciliation current authority changed")
            else reconcilePreparedSourceEdit host request answers authority

end TraceDecay.SourceEdit
