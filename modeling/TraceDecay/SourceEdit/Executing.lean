import TraceDecay.SourceEdit.Recovering

/-!
# SourceEdit.Executing

An execute keeps the discipline, and tells its caller of an applied effect only when it saw the
postimage of every file of the plan.
-/

namespace TraceDecay.SourceEdit

open TraceDecay.SourceEdit.Runs (andThen attempt_ok lift_bind)

variable {δ : Type} {mode : Mode} {host : Host δ} {v : View δ} {j : Journal δ} {committed : δ}
  {observation : Option CancellationStage} {verification : Option VerificationState} {key : String}
  {request : SourceEditEffectRequest δ} {answers : ExecuteAnswers} {stop : Stop}
  {stage : CancellationStage} {plan : List PlannedSourceEditFile}

/-! ## What is announced and told -/

/-- The effect is over, and the files were seen as the outcome has them. -/
structure Effected (mode : Mode) (j : Journal δ) (outcome : DurableOutcome) (committed : δ)
    (v : View δ) : Prop where
  fresh : v.store.records.receipts j.key = none
  done : outcome.success = true → j.predictedState = some committed ∧
    SeenPost j.recoveryFiles v ∧ (j.Calm mode → AllPost j v.store)
  undone : outcome.success = false → j.expectedState = committed ∧ (j.Calm mode → AllPre j v.store)

/-- The journal in force is in the given state. -/
structure Announced (mode : Mode) (j : Journal δ) (outcome : DurableOutcome) (committed : δ)
    (state : JournalState δ) (v : View δ) : Prop extends Effected mode j outcome committed v where
  journal : v.store.records.journal = some { j with state := state }

/-- The caller is told of an applied effect only if `seen` holds. -/
def Tells (seen : View δ → Prop) (result : ApplicationResult δ) (v : View δ) : Prop :=
  result.replayed = false → result.record.Applied → seen v

/-- A transaction that may begin: the journal is exact and prepared, nothing else is open, and its
files are as it expects them. -/
structure Ready (mode : Mode) (host : Host δ) (j : Journal δ) (v : View δ) : Prop where
  closed : v.store.records.journal = none
  fresh : v.store.records.receipts j.key = none
  exact : j.Exact host
  prepared : j.state = .prepared
  pre : j.Calm mode → AllPre j v.store
  changes : mode.guarded → Changes j.recoveryFiles

/-- A refusal may be stored: its key is not the one of a journal in force. -/
def MayRefuse (mode : Mode) (key : String) (v : View δ) : Prop :=
  mode.guarded → v.store.records.receipts key = none →
    ∀ j, v.store.records.journal = some j → j.key ≠ key

section Facts

variable {outcome : DurableOutcome}

theorem Effected.accounts (h : Effected mode j outcome committed v) (hc : j.Calm mode) :
    Accounts { j with state := .applied outcome committed observation verification } v.store :=
  ⟨fun hs => ⟨(h.done hs).2.2 hc, (h.done hs).1⟩, fun hf => ⟨(h.undone hf).2 hc, (h.undone hf).1⟩⟩

theorem Announced.settling
    (h : Announced mode j outcome committed (.applied outcome committed observation verification) v)
    (hexact : j.Exact host) :
    Settling mode { j with state := .applied outcome committed observation verification }
      (appliedDurableRecord
        { j with state := .applied outcome committed observation verification } outcome committed
        observation verification) v where
  journal := h.journal
  key := rfl
  terminal := terminal_applied
  verdict hc := verdict_applied (hexact.advance _) rfl (h.accounts hc)
  guard _ r0 hr0 := by cases hr0.symm.trans h.fresh

theorem Announced.beside {state : JournalState δ} {v' : View δ}
    (h : Announced mode j outcome committed state v) (hb : Beside v v') :
    Announced mode j outcome committed state v' where
  fresh := hb.receipts ▸ h.fresh
  done hs := by
    obtain ⟨hpredicted, hseen, hpost⟩ := h.done hs
    refine ⟨hpredicted, fun f hf => ?_, fun hc => (hpost hc).congr fun f _ => ?_⟩
    · rw [hb.seen, hseen f hf]
    · rw [hb.files]
  undone hf := by
    obtain ⟨hexpected, hpre⟩ := h.undone hf
    refine ⟨hexpected, fun hc => (hpre hc).congr fun f _ => ?_⟩
    rw [hb.files]
  journal := hb.journal.trans h.journal

theorem applied_success {termination : EffectTermination} {requested success : Bool}
    (ht : termination = appliedEffectTermination requested verification success)
    (ha : termination = .completed ∨ termination = .partialEffect) : success = true := by
  cases success with
  | true => rfl
  | false =>
    rw [ht] at ha
    rcases ha with h | h <;> cases h

theorem observation_eq {observed later : Option CancellationStage}
    (hn : (observed.isNone && (if observed.isNone then later else observed).isSome) = false) :
    observed = if observed.isNone then later else observed := by
  cases observed with
  | some stage => rfl
  | none => exact (Option.not_isSome_iff_eq_none.mp (Bool.eq_false_iff.mp hn)).symm

theorem not_applied_interrupted {outcome : SourceEditOutcome} :
    ¬ (interruptedRecord j outcome stop stage).Applied := by
  rintro ⟨-, ha⟩
  cases stop <;> rcases ha with h | h <;> cases h

theorem MayRefuse.of_none (h : v.store.records.journal = none) : MayRefuse mode key v := by
  intro _ _ j hj
  rw [h] at hj; cases hj

theorem failed_not_applied :
    EffectTermination.failed ≠ .completed ∧ EffectTermination.failed ≠ .partialEffect :=
  ⟨EffectTermination.noConfusion, EffectTermination.noConfusion⟩

theorem Stop.termination_not_applied (stop : Stop) :
    stop.termination ≠ .completed ∧ stop.termination ≠ .partialEffect := by
  cases stop <;> exact ⟨EffectTermination.noConfusion, EffectTermination.noConfusion⟩

end Facts

variable [DecidableEq δ] {hfree : host.CollisionFree}

/-! ## The effect -/

theorem Announced.runs_update {outcome : DurableOutcome} {state : JournalState δ} {b : Bool}
    (h : Announced mode j outcome committed state v)
    (hsame : b = false → state = .applied outcome committed observation verification) :
    Runs mode hfree (fun _ v' => Announced mode j outcome committed
          (.applied outcome committed observation verification) v' ∧
        v'.store.records.rollbackRecords = v.store.records.rollbackRecords)
      (fun _ => mode.faulty)
      (persistJournalWhen b
        { j with state := .applied outcome committed observation verification }) v := by
  cases b with
  | true =>
    refine Runs.persistJournal (fun hf _ => hf)
      (.advance h.journal h.fresh rfl fun hc => h.accounts hc) ?_
    exact ⟨⟨⟨h.fresh, h.done, h.undone⟩, rfl⟩, rfl⟩
  | false => rw [← hsame rfl]; exact Runs.pure ⟨h, rfl⟩

variable {α : Type} {ok : α → View δ → Prop} {f : EditM δ α} {outcome : SourceEditOutcome}

/-- The receipt of a journal under way is stored and the journal removed, before the rest. -/
theorem Settling.runs_then {r : DurableResult δ}
    (h : Settling mode j r v) (hr : Yields mode hfree ok f (v.stored r).cleared) :
    Yields mode hfree ok (do persistReceipt r; clearJournal; f) v := by
  refine andThen h.runs_store ?_
  rintro _ _ rfl
  refine andThen h.runs_clear ?_
  rintro _ _ rfl; exact hr

theorem runs_finishExecute (hexact : j.Exact host)
    (h : Announced mode j (.fromLive j.request.operation outcome) committed .prepared v)
    (observed : Option CancellationStage) :
    Yields mode hfree (Tells (SeenPost j.recoveryFiles))
      (finishExecute request answers j outcome committed observed) v := by
  refine andThen (h.runs_update (b := true) nofun) ?_
  rintro _ v1 ⟨h1, -⟩
  refine andThen (h1.runs_update ?_) ?_
  · intro hv; rw [hv]; rfl
  rintro _ v2 ⟨h2, -⟩
  refine andThen (h2.runs_update ?_) ?_
  · intro hn
    rw [← observation_eq hn]
  rintro _ v3 ⟨h3, -⟩
  refine andThen (runs_persistRollbackRecord h3.journal) ?_
  intro _ v4 hb
  have h4 := h3.beside hb
  refine (h4.settling hexact).runs_then (Runs.pure ?_)
  rintro - ⟨-, ha⟩; exact (h4.done (applied_success rfl ha)).2.1

theorem runs_persistUnknown (h : Working j v) {live : SourceEditOutcome} {seen : View δ → Prop} :
    Yields mode hfree (Tells seen) (persistUnknown j live) v := by
  refine andThen (Q := fun _ _ => True) (Runs.persistReceipt
    (fun _ _ => trivial) (.unknown h.journal rfl h.fresh rfl) trivial) ?_
  intro _ v' _
  refine Runs.pure ?_
  rintro - ⟨-, ha⟩
  rcases ha with h | h <;> cases h

theorem runs_executeEffect (hexact : j.Exact host) (h : Working j v) {predicted : δ}
    (hp : j.predictedState = some predicted) :
    Yields mode hfree (Tells (SeenPost j.recoveryFiles))
      (executeEffect host request answers j predicted) v := by
  obtain ⟨post, hpost, hplan⟩ := hexact.plan
  cases hp.symm.trans hpost
  refine andThen (E := fun _ => True) (runs_applyPlan h) ?_
  intro r v1 hk
  have h1 := h.congr hk
  split
  · exact runs_persistUnknown h1
  next outcome planComplete =>
  refine andThen (runs_stateDigest hplan.candidates_nodup) ?_
  rintro _ v2 ⟨look, hl, rfl⟩
  have h2 := h1.congr (congrArg Store.records hl.store)
  split
  · exact runs_persistUnknown h2
  split
  · exact runs_persistUnknown h2
  next hdone hundone =>
  refine runs_finishExecute hexact ⟨⟨h2.fresh, fun hs => ?_, fun hf => ?_⟩, ?_⟩ _
  · have hd : stateOf host j.candidateFiles look = predicted := by
      by_contra hne
      exact hdone ⟨hs, .inr hne⟩
    obtain ⟨hseen, hall⟩ := hl.seenPost hfree hplan hd
    refine ⟨hd ▸ hp, hseen, fun hc => ?_⟩
    rw [hl.store]; exact hall hc
  · have hd : stateOf host j.candidateFiles look = j.expectedState := by
      by_contra hne
      exact hundone ⟨hf, hne⟩
    refine ⟨hd.symm, fun hc => ?_⟩
    rw [hl.store]; exact (hl.seenPre hfree hplan hd).2 hc
  · rw [h2.journal, ← h2.prepared]

/-- A request that is stopped under its journal says so in its receipt. -/
theorem runs_interrupt (h : Working j v) (hpre : j.Calm mode → AllPre j v.store)
    (hr : ∀ v', Yields mode hfree ok f v') :
    Yields mode hfree ok
      (do persistReceipt (interruptedRecord j outcome stop stage); clearJournal; f) v := by
  have hinterrupted : (interruptedRecord j outcome stop stage).Interrupted := by
    cases stop with
    | cancelled => exact .inl rfl
    | timedOut => exact .inr rfl
  have ht : (interruptedRecord j outcome stop stage).Terminal := by
    intro hunknown
    rcases hinterrupted with hstop | hstop
    · cases hstop.symm.trans hunknown
    · cases hstop.symm.trans hunknown
  refine andThen (Q := fun _ v' => v' = v.stored (interruptedRecord j outcome stop stage))
    (Runs.persistReceipt (fun _ _ => trivial) (.interrupt h.journal rfl h.fresh hinterrupted hpre)
      rfl) ?_
  rintro _ _ rfl
  refine andThen (runs_clear h.journal (View.stored_receipt rfl) ht
    fun hc => .inr ⟨hinterrupted, hpre hc⟩) ?_
  rintro _ _ rfl; exact hr _

theorem runs_begin (h : Ready mode host j v) :
    Yields mode hfree (fun _ v' => Working j v' ∧ (j.Calm mode → AllPre j v'.store) ∧
        v'.store.records.rollbackRecords = v.store.records.rollbackRecords) (persistJournal j) v :=
  Runs.persistJournal (fun _ _ => trivial)
    (.begin h.closed h.fresh h.exact h.prepared h.pre h.changes)
    ⟨⟨rfl, h.prepared, h.fresh⟩, h.pre, rfl⟩

theorem runs_executeJournaled (hr : Ready mode host j v) {p : δ} (hp : j.predictedState = some p) :
    Yields mode hfree (Tells (SeenPost j.recoveryFiles))
      (executeJournaled host request answers j p) v := by
  refine andThen (runs_begin hr) ?_
  rintro _ v1 ⟨h, hpre, -⟩
  split
  · refine runs_interrupt h hpre fun v' => Runs.pure ?_
    exact fun _ ha => absurd ha not_applied_interrupted
  · exact runs_executeEffect hr.exact h hp

/-! ## Before the effect -/

variable {authority : SourceEditAuthorizationAdmission} {seen : View δ → Prop}
  {state : PreEffectState δ}

theorem runs_refuse {record : DurableResult δ} (hr : ¬ record.Applied)
    (hnone : v.store.records.receipts record.key = none) (hmay : MayRefuse mode record.key v) :
    Yields mode hfree (Tells seen) (do
      persistReceipt record
      pure (record.intoLiveApplicationResult outcome none)) v := by
  refine andThen (Q := fun _ _ => True) (Runs.persistReceipt
    (fun _ _ => trivial) (.refuse hnone hr fun hg => hmay hg hnone) trivial) ?_
  exact fun _ _ _ => Runs.pure fun _ ha => absurd ha hr

theorem runs_persistPreEffectResult {termination : EffectTermination}
    (hmay : MayRefuse mode request.idempotencyKey v)
    (hnot : request.dryRun = false → termination ≠ .completed ∧ termination ≠ .partialEffect) :
    Yields mode hfree (Tells seen)
      (persistPreEffectResult host request authority outcome state termination observation) v := by
  have hr : ¬ (preEffectRecord host request authority outcome state termination
      observation).Applied := by
    rintro ⟨hl, ha⟩; exact ha.elim (hnot hl).1 (hnot hl).2
  refine Runs.loadReceipt_then fun found hf => ?_
  split
  · exact Runs.check fun _ => Runs.check fun _ => Runs.pure fun hl => by cases hl
  · exact runs_refuse hr hf.symm hmay

theorem runs_failPreEffect (hmay : MayRefuse mode request.idempotencyKey v) :
    Yields mode hfree (Tells seen) (failPreEffect host request authority state) v :=
  runs_persistPreEffectResult hmay fun _ => failed_not_applied

/-- With no journal left, a request without a receipt goes on, and any other is answered with its
receipt. -/
theorem runs_recoverOrReplay (hnone : v.store.records.journal = none) : Yields mode hfree
      (fun found v' => (∀ r, found = some r → r.replayed = true) ∧
        (found = none → v' = v ∧ v.store.records.receipts request.idempotencyKey = none))
      (recoverOrReplay request) v := by
  refine Runs.loadReceipt_then fun stored hs => ?_
  split
  · refine Runs.check fun _ => Runs.check fun _ => ?_
    refine andThen (Q := fun _ _ => True) (E := fun _ => True) ?_ ?_
    · refine Runs.loadJournal_then fun journal hj => ?_; rw [hj, hnone]; exact Runs.pure trivial
    · intro _ _ _
      refine Runs.pure ⟨fun r hr => ?_, fun h => by cases h⟩
      cases hr; rfl
  · refine Runs.loadJournal_then fun journal hj => ?_
    rw [hj, hnone]
    refine Runs.pure ⟨fun r hr => ?_, fun _ => ⟨rfl, hs.symm⟩⟩
    cases hr

/-- What a preview stands for when it is a success. -/
def Resolved (host : Host δ) (answers : ExecuteAnswers) (preview : ResolvedSourceEditPreview δ) :
    Prop :=
  ∃ pre post, answers.preview = .ok (preview.outcome, preview.plannedFiles) ∧
    preview.expectedState = some pre ∧ preview.predictedState = some post ∧
    PlanExact host preview.candidateFiles preview.plannedFiles pre post

theorem runs_resolvePreview : Runs mode hfree (fun p v' => v'.store = v.store ∧
        (p.outcome.success = true → Resolved host answers p))
      (fun v' => v'.store = v.store) (resolveSourceEditPreview host answers) v := by
  refine lift_bind ?_ fun _ _ => rfl
  rintro ⟨outcome, plan⟩ hpreview
  dsimp only
  split
  · next hf =>
    refine Runs.pure ⟨rfl, fun hs => ?_⟩
    rw [hf] at hs; cases hs
  refine lift_bind ?_ fun _ _ => rfl
  intro candidates hc
  refine lift_bind ?_ fun _ _ => rfl
  intro planned hplanned
  split
  · exact Runs.throw rfl
  next hsame =>
  rw [not_or, not_not, not_not] at hsame
  refine lift_bind ?_ fun _ _ => rfl
  intro pre hpre
  refine Runs.bind (runs_stateDigest (normalizeCandidateFiles_nodup hc).1) ?_ fun _ h => h.1
  rintro _ v' ⟨look, hl, rfl⟩
  split
  · exact Runs.throw hl.store
  refine lift_bind ?_ fun _ _ => hl.store
  intro post hpost
  exact Runs.pure ⟨hl.store, fun _ =>
    ⟨pre, post, hpreview, rfl, rfl, ⟨hsame.2 ▸ hplanned, hsame.1, hpre, hpost⟩⟩⟩

theorem runs_executePlanned {candidates : List String} {pre post : δ}
    (hp : PlanExact host candidates plan pre post) (hnone : v.store.records.journal = none)
    (hfresh : v.store.records.receipts request.idempotencyKey = none)
    (hchanges : mode.guarded → request.dryRun = false → Changes plan) :
    Yields mode hfree (Tells (SeenPost plan))
      (executePlanned host request answers authority outcome candidates plan pre post) v := by
  have hrefuse : MayRefuse mode request.idempotencyKey v := .of_none hnone
  unfold executePlanned
  split
  · exact runs_failPreEffect hrefuse
  next hexpected =>
  split
  · next hdry =>
    split
    · exact runs_persistPreEffectResult hrefuse fun _ => Stop.termination_not_applied _
    · split
      · split
        · refine runs_persistPreEffectResult hrefuse fun hlive => ?_
          rw [hdry] at hlive; cases hlive
        · exact runs_failPreEffect hrefuse
      · exact runs_failPreEffect hrefuse
  · next hlive =>
    rw [Bool.not_eq_true] at hlive
    split
    · split
      · refine Runs.bind (attempt_ok (P := fun v' => v'.store = v.store)
          (Q := fun d v' => ∃ look, Looked mode candidates v look v' ∧ d =
            stateOf host candidates look)
          ((runs_stateDigest hp.candidates_nodup).mono
            (fun _ _ h => ⟨h.elim fun _ hl => hl.1.store, h⟩) fun _ h => h.1)) ?_ fun _ h => h
        rintro recaptured v' ⟨hs, hl⟩
        have hrefuse' : MayRefuse mode request.idempotencyKey v' := .of_none (hs ▸ hnone)
        split
        · exact runs_failPreEffect hrefuse'
        split
        · exact runs_failPreEffect hrefuse'
        next hsame =>
        obtain ⟨look, hl, hd⟩ := hl _ rfl
        rw [not_not] at hsame
        have hpre : pre = request.expectedState := by
          by_contra hne
          exact hexpected ⟨hlive, hne⟩
        rw [hpre] at hp
        refine runs_executeJournaled (j := preparedJournal host request _ candidates plan post)
          ⟨hs ▸ hnone, hs ▸ hfresh, ⟨rfl, ⟨post, rfl, hp⟩, hlive⟩, rfl, ?_,
            fun hg => hchanges hg hlive⟩ rfl
        rw [hs]; exact (hl.seenPre hfree hp (hd.symm.trans hsame)).2
      · exact runs_failPreEffect hrefuse
    · exact runs_failPreEffect hrefuse

/-! ## The request -/

/-- The request passes admission: nothing is stored for it before recovery. -/
def ExecuteAnswers.Admitted (answers : ExecuteAnswers) (request : SourceEditEffectRequest δ) :
    Prop :=
  answers.control .beforeAdmission = none ∧ answers.admission = some request.requestedAuthority ∧
    ∀ authority, answers.recheck = some authority → authorityStillMatches request authority = true

/-- What a guarded run asks of a request that finds a journal: no interrupted receipt stands under
the journal's key, and a request with that key is refused only with a receipt in place. -/
structure Careful (mode : Mode) (key : String) (admitted : Prop) (v : View δ) : Prop where
  clear : Untangled mode v
  admitted : mode.guarded → v.store.records.receipts key = none →
    ∀ j, v.store.records.journal = some j → j.key = key → admitted

omit [DecidableEq δ] in
theorem Careful.mayRefuse {a : Prop} (h : Careful mode key a v) (hr : ¬ a) : MayRefuse mode key v :=
  fun hg hfresh j hj hkey => hr (h.admitted hg hfresh j hj hkey)

/-- The plan of the preview changes a file. -/
def ExecuteAnswers.Changing (answers : ExecuteAnswers) : Prop :=
  ∀ outcome plan, answers.preview = .ok (outcome, plan) → outcome.success = true → Changes plan

def Executed (answers : ExecuteAnswers) : ApplicationResult δ → View δ → Prop :=
  Tells fun v => ∃ outcome plan, answers.preview = .ok (outcome, plan) ∧ SeenPost plan v

theorem runs_executeAdmitted (hc : Untangled mode v)
    (hchanges : mode.guarded → request.dryRun = false → answers.Changing) :
    Yields mode hfree (Executed answers) (executeAdmitted host request answers authority) v := by
  refine andThen (runs_recover hc) ?_
  rintro _ v1 ⟨hnone, -⟩
  refine andThen (runs_recoverOrReplay hnone) ?_
  rintro found v2 ⟨hreplayed, hfresh⟩
  split
  · next result =>
    refine Runs.pure fun hl => ?_
    rw [hreplayed result rfl] at hl; cases hl
  obtain ⟨rfl, hfresh⟩ := hfresh rfl
  refine Runs.bind (attempt_ok runs_resolvePreview) ?_ fun _ h => h
  rintro r v3 ⟨hs, hr⟩
  have hn3 : v3.store.records.journal = none := hs ▸ hnone
  split
  · exact runs_persistPreEffectResult (.of_none hn3) fun _ => failed_not_applied
  next preview =>
  split
  · exact runs_persistPreEffectResult (.of_none hn3) fun _ => failed_not_applied
  next hsuccess =>
  rw [Bool.not_eq_false] at hsuccess
  obtain ⟨pre, post, hpreview, hexpected, hp, hplan⟩ := hr preview rfl hsuccess
  rw [hexpected, hp]
  refine (runs_executePlanned hplan hn3 (hs ▸ hfresh) fun hg hl =>
    hchanges hg hl _ _ hpreview hsuccess).mono ?_ fun _ h => h
  exact fun _ _ htold hl ha => ⟨_, _, hpreview, htold hl ha⟩

theorem runs_executeSourceEdit
    (hc : Careful mode request.idempotencyKey (answers.Admitted request) v)
    (hchanges : mode.guarded → request.dryRun = false → answers.Changing) :
    Yields mode hfree (Executed answers) (executeSourceEdit host request answers) v := by
  unfold executeSourceEdit
  split
  · next stop hstop =>
    refine runs_persistPreEffectResult (hc.mayRefuse fun h => ?_) fun _ =>
      Stop.termination_not_applied _
    rw [h.1] at hstop; cases hstop
  split
  · next ha =>
    refine runs_failPreEffect (hc.mayRefuse fun h => ?_)
    rw [h.2.1] at ha; cases ha
  next admission ha =>
  split
  · next hd =>
    refine runs_failPreEffect (hc.mayRefuse fun h => ?_)
    cases h.2.1.symm.trans ha; exact hd.elim (fun hne => hne rfl) fun hne => hne rfl
  split
  · next authority hr =>
    split
    · exact runs_executeAdmitted hc.clear hchanges
    · next hd =>
      exact runs_failPreEffect (hc.mayRefuse fun h => hd (h.2.2 authority hr))
  · refine Runs.loadReceipt_then fun _ _ => Runs.check fun _ => ?_
    refine Runs.loadJournal_then fun found hf => Runs.check fun hj => ?_
    rw [hf, Option.not_isSome_iff_eq_none] at hj
    exact runs_failPreEffect (.of_none hj)

end TraceDecay.SourceEdit
