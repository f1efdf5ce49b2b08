import TraceDecay.SourceEdit.Executing

/-!
# SourceEdit.RollingBack

A rollback keeps the discipline: it is an edit whose plan is the retained one taken back. It tells
its caller of an applied effect only when it saw the preimage of every retained file. So does a
reconciliation, except that it may remove a journal on the word of a receipt that an earlier
attempt left.
-/

namespace TraceDecay.SourceEdit

variable {δ : Type} {mode : Mode} {host : Host δ} {v : View δ} {j : Journal δ}
  {request : SourceEditRollbackRequest δ} {answers : RollbackAnswers}
  {retained : RollbackRecord δ}

theorem seenPost_swap {f : List PlannedSourceEditFile} :
    SeenPost (f.map (·.swap)) v ↔ SeenPre f v := by
  unfold SeenPost SeenPre
  rw [List.forall_mem_map]; rfl

def RolledBack (request : SourceEditRollbackRequest δ) : ApplicationResult δ → View δ → Prop :=
  Tells fun v => ∃ retained, v.store.records.rollbackRecords request.effectId = some retained ∧
    SeenPre retained.recoveryFiles v

/-- To restore a retained file is to publish the file of the plan taken back. -/
theorem Working.mayRestore_swap {fs : List PlannedSourceEditFile} (h : Working j v)
    (hfs : j.recoveryFiles = fs.map (·.swap)) :
    MayRestore mode host fs v.store.records fun _ => True where
  may s f hs _ hf _ _ := by
    refine .forward (f := f.swap) (hs ▸ h.journal) h.prepared ?_ rfl rfl rfl (hs ▸ h.fresh)
    rw [hfs]; exact List.mem_map_of_mem hf
  torn _ _ _ _ _ := trivial

/-! ## The effect -/

variable [DecidableEq δ] {hfree : host.CollisionFree}

theorem runs_finishRollback {c : δ} (hexact : j.Exact host) (ho : j.request.operation = .rollback)
    (h : Announced mode j (.fromLive .rollback (.reconciled true
      "source edit rollback restored every retained preimage")) c .prepared v) :
    Yields mode hfree (fun r v' => Tells (SeenPost j.recoveryFiles) r v' ∧
        v'.store.records.rollbackRecords = v.store.records.rollbackRecords)
      (finishRollback answers j c) v := by
  refine Runs.andThen (h.runs_update (b := true) nofun) ?_
  rintro _ v1 ⟨h1, hr1⟩
  refine Runs.andThen (h1.runs_update ?_) ?_
  · intro hn
    rw [← observation_eq hn]
  rintro _ v2 ⟨h2, hr2⟩
  have hs := h2.settling hexact
  unfold appliedRecord
  rw [ho]
  refine hs.runs_then (Runs.pure ⟨?_, hr2.trans hr1⟩)
  rintro - ⟨-, ha⟩; exact (h2.done rfl).2.1

theorem runs_rollbackEffect (hexact : j.Exact host) (ho : j.request.operation = .rollback)
    (hfiles : j.recoveryFiles = retained.recoveryFiles.map (·.swap))
    (hp : j.predictedState = some retained.expectedState) (h : Working j v) :
    Yields mode hfree (fun r v' => Tells (SeenPost j.recoveryFiles) r v' ∧
        v'.store.records.rollbackRecords = v.store.records.rollbackRecords)
      (rollbackEffect host answers j retained) v := by
  obtain ⟨post, hpost, hplan⟩ := hexact.plan
  cases hp.symm.trans hpost
  have hn : (retained.recoveryFiles.map (·.relativePath)).Nodup := by
    have := hplan.nodup
    rw [hfiles, List.map_map] at this; exact this
  refine Runs.andThen (Q := fun _ => Kept v) (E := fun _ => True) (Runs.attempt
    ((runs_rollbackPlanned (h.mayRestore_swap hfiles) trivial (fun _ hf => hf) hn).mono
      (fun _ _ h => h.1) fun _ h _ => h.1)) ?_
  intro a v1 hk
  refine Runs.andThen (runs_stateDigest hplan.candidates_nodup) ?_
  rintro _ v2 ⟨look, hl, rfl⟩
  have hrecords : v2.store.records = v.store.records := (congrArg Store.records hl.store).trans hk
  have hr := congrArg Records.rollbackRecords hrecords
  have h2 := h.congr hrecords
  split_ifs
  · refine Runs.andThen (Q := fun _ v' => v'.store.records.rollbackRecords =
        v2.store.records.rollbackRecords)
      (Runs.persistReceipt (fun _ _ => trivial) (.unknown h2.journal rfl h2.fresh rfl) rfl) ?_
    intro _ v3 hsame
    refine Runs.pure ⟨?_, hsame.trans hr⟩
    rintro - ⟨-, ha⟩
    rcases ha with h | h <;> cases h
  · next heq =>
    rw [not_not] at heq
    have hs : Settling mode j (durableRecord j (.fromLive .rollback (.failed
        "source edit rollback failed before changing workspace state")) none .failed .reconciled
        none) v2 := by
      refine ⟨h2.journal, rfl, EffectTermination.noConfusion, fun hc => ?_, ?_⟩
      · refine ⟨hexact.live, .inr ⟨?_, rfl⟩⟩; rw [hl.store]; exact (hl.seenPre hfree hplan heq).2 hc
      · exact fun _ r0 hr0 => by cases hr0.symm.trans h2.fresh
    refine hs.runs_then (Runs.pure ⟨?_, hr⟩)
    rintro - ⟨-, ha⟩
    rcases ha with h | h <;> cases h
  · next hd =>
    rw [not_or, not_not] at hd
    refine (runs_finishRollback hexact ho ⟨⟨h2.fresh, fun _ => ?_, fun hfailed => ?_⟩, ?_⟩).mono
      (fun _ _ hv => ⟨hv.1, hv.2.trans hr⟩) fun _ h => h
    · obtain ⟨hseen, hall⟩ := hl.seenPost hfree hplan hd.2
      refine ⟨hd.2 ▸ hp, hseen, fun hc => ?_⟩
      rw [hl.store]; exact hall hc
    · cases hfailed
    · rw [h2.journal, ← h2.prepared]

theorem runs_rollbackJournaled (hr : Ready mode host j v) (ho : j.request.operation = .rollback)
    (hf : j.recoveryFiles = retained.recoveryFiles.map (·.swap))
    (hp : j.predictedState = some retained.expectedState)
    (hrecord : v.store.records.rollbackRecords request.effectId = some retained) :
    Yields mode hfree (RolledBack request) (rollbackJournaled host answers j retained) v := by
  refine Runs.andThen (runs_begin hr) ?_
  rintro _ v1 ⟨h, hpre, hrecords⟩
  split
  · refine runs_interrupt h hpre fun v' => Runs.pure ?_
    exact fun _ ha => absurd ha not_applied_interrupted
  · refine (runs_rollbackEffect hr.exact ho hf hp h).mono ?_ fun _ h => h
    rintro result v' ⟨hb, hsame⟩ hl ha
    refine ⟨retained, ?_, ?_⟩
    · rw [hsame, hrecords, hrecord]
    · exact seenPost_swap.mp (hf ▸ hb hl ha)

/-! ## The request -/

variable {authority : SourceEditAuthorizationAdmission}

theorem runs_persistPreEffect {outcome : SourceEditOutcome} {t : EffectTermination}
    {o : Option CancellationStage} (hmay : MayRefuse mode request.idempotencyKey v)
    (hnot : t ≠ .completed ∧ t ≠ .partialEffect) :
    Yields mode hfree (RolledBack request) (persistPreEffect host request authority outcome t o)
      v := by
  have hr : ¬ (durableRecord (rollbackJournal host request authority none [] [])
      (.fromLive .rollback outcome) none t .reconciled o).Applied :=
    fun h => h.2.elim hnot.1 hnot.2
  refine Runs.loadReceipt_then fun f hf => ?_
  split
  · exact Runs.check fun _ => Runs.check fun _ => Runs.pure fun hl => by cases hl
  · exact runs_refuse hr hf.symm hmay

theorem runs_rollbackRetained (hnone : v.store.records.journal = none)
    (hfresh : v.store.records.receipts request.idempotencyKey = none)
    (hr : v.store.records.rollbackRecords request.effectId = some retained)
    (hstate : retained.committedState = request.expectedState) :
    Yields mode hfree (RolledBack request)
      (rollbackRetained host request answers authority retained) v := by
  refine Runs.of_inv fun hinv => ?_
  obtain ⟨-, -, candidates, hp⟩ := hinv.records.retained hr
  refine Runs.lift_bind ?_ fun _ _ => trivial
  intro c' hc
  cases hp.normalized.symm.trans hc
  refine Runs.andThen (runs_stateDigest hp.candidates_nodup) ?_
  rintro _ v1 ⟨look, hl, rfl⟩
  have hn1 : v1.store.records.journal = none := hl.store ▸ hnone
  split
  · exact runs_persistPreEffect (MayRefuse.of_none hn1) failed_not_applied
  next heq =>
  rw [not_not] at heq
  have hb : PlanExact host candidates (retained.recoveryFiles.map (·.swap))
      request.expectedState retained.expectedState := hstate ▸ hp.swap
  have hexact : (rollbackJournal host request authority (some retained.expectedState) candidates
      (retained.recoveryFiles.map (·.swap))).Exact host := ⟨rfl, ⟨_, rfl, hb⟩, rfl⟩
  refine runs_rollbackJournaled ⟨hn1, hl.store ▸ hfresh, hexact, rfl, fun hcalm => ?_,
    fun hg => ?_⟩ rfl rfl rfl (hl.store ▸ hr)
  · unfold AllPre; rw [hl.store]; exact (hl.seenPre hfree hp.swap heq).2 hcalm
  · obtain ⟨f, hf, hne⟩ := (hinv.changing hg).retained hr
    exact ⟨f.swap, List.mem_map_of_mem hf, fun h => hne h.symm⟩

def RollbackAnswers.Admitted (answers : RollbackAnswers)
    (request : SourceEditRollbackRequest δ) : Prop :=
  answers.control .beforeAdmission = none ∧
    answers.admission = some ⟨request.authority, request.proof⟩ ∧
    ∀ authority, answers.recheck = some authority →
      sameSourceEditAuthority authority.receipt request.authority = true ∧
        authority.proof = request.proof

theorem runs_rollbackAdmitted (hc : Untangled mode v) :
    Yields mode hfree (RolledBack request) (rollbackAdmitted host request answers authority) v := by
  refine Runs.andThen (runs_recover hc) ?_
  rintro _ v1 ⟨hnone, -⟩
  refine Runs.loadReceipt_then fun f hf => ?_
  split
  · exact Runs.check fun _ => Runs.check fun _ => Runs.pure fun hl => by cases hl
  refine Runs.loadRollbackRecord (fun _ => trivial) fun record hr => ?_
  split
  · exact Runs.throw trivial
  next retained =>
  refine Runs.loadReceipt_then fun o _ => ?_
  split
  · exact Runs.throw trivial
  split
  · next hm =>
    refine runs_rollbackRetained hnone hf.symm hr.symm ?_
    simp only [rollbackMatches, Bool.and_eq_true, decide_eq_true_eq] at hm; exact hm.1.1.1.1.2
  · exact Runs.throw trivial

theorem runs_executeSourceEditRollback
    (hc : Careful mode request.idempotencyKey (answers.Admitted request) v) :
    Yields mode hfree (RolledBack request) (executeSourceEditRollback host request answers) v := by
  unfold executeSourceEditRollback
  split
  · next stop hstop =>
    refine runs_persistPreEffect (hc.mayRefuse fun h => ?_) stop.termination_not_applied
    rw [h.1] at hstop; cases hstop
  split
  · next ha =>
    refine runs_persistPreEffect (hc.mayRefuse fun h => ?_) failed_not_applied
    rw [h.2.1] at ha; cases ha
  next admission ha =>
  split
  · next hd =>
    refine runs_persistPreEffect (hc.mayRefuse fun h => ?_) failed_not_applied
    cases h.2.1.symm.trans ha; exact hd.elim (fun hne => hne rfl) fun hne => hne rfl
  split
  · exact Runs.throw trivial
  next authority hr =>
  split
  · next hd =>
    refine runs_persistPreEffect (hc.mayRefuse fun h => ?_) failed_not_applied
    obtain ⟨hsame, hp⟩ := h.2.2 authority hr
    rcases hd with hne | hne
    · rw [hsame] at hne; cases hne
    · exact hne hp
  · exact runs_rollbackAdmitted hc.clear

/-! ## Reconciliation -/

variable {request : SourceEditReconciliationRequest δ}

theorem runs_recoverAttempt (hl : mode.loose) : Yields mode hfree (fun f v' => f = none → v' = v)
      (recoverReconciliationAttempt host request) v := by
  refine Runs.loadAttempt_then fun attempt _ => ?_
  split
  · exact Runs.pure fun _ => rfl
  refine Runs.check fun _ => Runs.check fun _ => ?_
  split
  swap
  · exact Runs.pure fun h => by cases h
  refine Runs.loadReceipt_then fun f hf => ?_
  split
  · exact Runs.throw trivial
  next original =>
  refine Runs.check fun ht => ?_
  rw [not_or, not_or] at ht
  refine Runs.andThen (Q := fun _ _ => True) (E := fun _ => True) ?_ ?_
  · refine Runs.loadJournal_then fun stored hj => ?_
    split
    · next j =>
      split
      · next hsame =>
        refine Runs.clearJournal (fun _ _ => trivial) ?_ trivial
        intro j' hj'
        cases hj.trans hj'; exact ⟨original, hsame.2.1 ▸ hf.symm, ht.2.2, .inl hl⟩
      · exact Runs.pure trivial
    · exact Runs.pure trivial
  · exact fun _ _ _ => Runs.pure fun h => by cases h

variable {a : SourceEditAuthorizationAdmission}

theorem runs_persistInterruptedAttempt {journal : Journal δ} {stop : Stop} {s : CancellationStage} :
    Yields mode hfree (fun _ _ => True)
      (persistInterruptedReconciliationAttempt host request journal a stop s) v :=
  Runs.andThen (Q := fun _ _ => True) (Runs.persistAttempt (fun _ _ => trivial) trivial)
    fun _ _ _ => Runs.pure trivial

theorem runs_reconciledRecord (hj : v.store.records.journal = some j) (hclean : Untangled mode v)
    (hexact : j.Exact host) {o : δ}
    (hpost : j.predictedState = some o → j.Calm mode → AllPost j v.store)
    (hpre : j.expectedState = o → j.Calm mode → AllPre j v.store) :
    Yields mode hfree (fun r v' => Settling mode j r v') (reconciledRecord request j o) v := by
  have hguard : mode.guarded → ∀ r0, v.store.records.receipts j.key = some r0 → ¬ r0.Interrupted :=
    fun hg r0 hr0 => hclean hg j r0 hj hr0
  unfold reconciledRecord
  split
  · split
    · exact Runs.throw trivial
    next predicted hp =>
    refine Runs.check fun hsame => ?_
    rw [not_or, not_not, not_not] at hsame
    refine Runs.andThen (runs_persistRollbackRecord hj) ?_
    intro _ v1 hb
    refine Runs.pure ⟨hb.journal.trans hj, rfl, terminal_applied, fun hc => ?_,
      hb.receipts ▸ hguard⟩
    refine ⟨hexact.live, .inl ⟨(hpost (hsame.2 ▸ hp) hc).congr fun f _ => ?_, rfl⟩⟩
    rw [hb.files]
  · refine Runs.check fun hsame => ?_
    rw [not_not] at hsame
    exact Runs.pure ⟨hj, rfl, EffectTermination.noConfusion,
      fun hc => ⟨hexact.live, .inr ⟨hpre hsame.symm hc, rfl⟩⟩, hguard⟩

theorem runs_reconcilePrepared (hclean : Untangled mode v) :
    Yields mode hfree (fun _ _ => True) (reconcilePreparedSourceEdit host request answers a) v := by
  refine Runs.of_inv fun hinv => ?_
  refine Runs.loadJournal_then fun stored hj => ?_
  split
  · exact Runs.throw trivial
  next j =>
  have hexact := hinv.records.journal hj.symm
  obtain ⟨post, hp, hplan⟩ := hexact.plan
  refine Runs.check fun _ => Runs.check fun _ => ?_
  split
  · exact runs_persistInterruptedAttempt
  refine Runs.andThen (runs_stateDigest hplan.candidates_nodup) ?_
  rintro _ v2 ⟨look, hl, rfl⟩
  split
  · exact runs_persistInterruptedAttempt
  have hc2 : Untangled mode v2 := by
    unfold Untangled
    rw [hl.store]; exact hclean
  refine Runs.andThen (runs_reconciledRecord (hl.store ▸ hj.symm) hc2 hexact
    (fun ho hc => ?_) fun ho hc => ?_) ?_
  · unfold AllPost
    rw [hl.store]
    cases hp.symm.trans ho; exact (hl.seenPost hfree hplan rfl).2 hc
  · unfold AllPre; rw [hl.store]; exact (hl.seenPre hfree hplan ho.symm).2 hc
  intro r v3 hs
  refine Runs.andThen hs.runs_store ?_
  rintro _ v4 rfl
  refine Runs.andThen (Q := fun _ v' => ∃ attempts, v' = (v3.stored r).keep
      { (v3.stored r).store.records with attempts := attempts })
    (Runs.persistAttempt (fun _ _ => trivial) ⟨_, rfl⟩) ?_
  rintro _ v5 ⟨attempts, rfl⟩
  refine Runs.andThen (runs_clear hs.journal (View.stored_receipt hs.key)
    hs.terminal fun hc => .inl (hs.verdict hc)) ?_
  exact fun _ _ _ => Runs.pure trivial

theorem runs_reconcile (hl : mode.loose) (hc : Untangled mode v) :
    Yields mode hfree (fun _ _ => True)
      (reconcileSourceEditEffectUnknown host request answers) v := by
  refine Runs.bind (runs_recoverAttempt hl) ?_ fun _ h => h
  intro f v1 hf
  split
  · exact Runs.pure trivial
  obtain rfl := hf rfl
  split
  · refine Runs.loadJournal_then fun stored _ => ?_
    split
    · exact Runs.throw trivial
    · exact Runs.check fun _ => runs_persistInterruptedAttempt
  split
  · exact Runs.throw trivial
  refine Runs.check fun _ => ?_
  split
  · exact Runs.throw trivial
  · exact Runs.check fun _ => runs_reconcilePrepared hc

end TraceDecay.SourceEdit
