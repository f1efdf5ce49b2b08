import TraceDecay.SourceEdit.Applying

/-!
# SourceEdit.Recovering

Crash recovery keeps the discipline. It ends well only with the journal gone and a receipt that says
what was seen in the files; and it ends well whenever no step fails and no other program writes the
files of the journal.
-/

namespace TraceDecay.SourceEdit

variable {δ : Type} {mode : Mode} {host : Host δ} {v : View δ} {j : Journal δ}
  {r : DurableResult δ} {outcome : DurableOutcome} {c : δ} {observed : Option CancellationStage}
  {verification : Option VerificationState}

/-! ## Receipts -/

theorem appliedEffectTermination_ne_unknown (verified : Bool)
    (vs : Option VerificationState) (settled : Bool) :
    appliedEffectTermination verified vs settled ≠ .effectUnknown := by
  unfold appliedEffectTermination
  split
  · exact EffectTermination.noConfusion
  · split <;> exact EffectTermination.noConfusion

theorem appliedEffectTermination_success (verified : Bool) (vs : Option VerificationState) :
    appliedEffectTermination verified vs true = .completed ∨
      appliedEffectTermination verified vs true = .partialEffect := by
  unfold appliedEffectTermination
  rw [if_neg (by decide)]
  split
  · exact .inl rfl
  · exact .inr rfl

theorem terminal_applied : (appliedDurableRecord j outcome c observed verification).Terminal :=
  appliedEffectTermination_ne_unknown _ _ _

theorem verdict_applied {s : Store δ} (hexact : j.Exact host)
    (hstate : j.state = .applied outcome c observed verification) (haccounts : Accounts j s) :
    Verdict j (appliedDurableRecord j outcome c observed verification) s := by
  have hv : j.state.verification = verification := by rw [hstate]; rfl
  simp only [Accounts, hstate] at haccounts
  refine ⟨hexact.live, ?_⟩
  cases hs : outcome.success with
  | true => refine .inl ⟨(haccounts.1 hs).1, ?_⟩; rw [hv, ← hs]; rfl
  | false =>
    refine .inr ⟨(haccounts.2 hs).1, ?_⟩
    change appliedEffectTermination _ _ outcome.success = _
    rw [hs]; rfl

theorem View.stored_receipt (hkey : r.key = j.key) :
    (v.stored r).store.records.receipts j.key = some r := by
  change Function.update v.store.records.receipts r.key (some r) j.key = some r
  rw [hkey, Function.update_self]

/-! ## Settling a journal -/

/-- The receipt may settle the journal in force. -/
structure Settling (mode : Mode) (j : Journal δ) (r : DurableResult δ) (v : View δ) : Prop where
  journal : v.store.records.journal = some j
  key : r.key = j.key
  terminal : r.Terminal
  verdict : j.Calm mode → Verdict j r v.store
  guard : mode.guarded → ∀ r0, v.store.records.receipts j.key = some r0 → ¬ r0.Interrupted

/-- No interrupted receipt stands under the key of the journal in force. -/
def Untangled (mode : Mode) (v : View δ) : Prop :=
  mode.guarded → ∀ j r, v.store.records.journal = some j → v.store.records.receipts j.key = some r →
    ¬ r.Interrupted

/-- The journal is gone; if it was still `prepared`, its receipt says what was seen. -/
structure Recovered (mode : Mode) (j : Journal δ) (v : View δ) : Prop where
  journal : v.store.records.journal = none
  verdict : j.Calm mode → ∃ r, v.store.records.receipts j.key = some r ∧ Verdict j r v.store
  seen : j.state = .prepared → ∃ r, v.store.records.receipts j.key = some r ∧
    ((SeenPost j.recoveryFiles v ∧ r.Applied) ∨
      (SeenPre j.recoveryFiles v ∧ r.termination = .failed))

/-- While some file of the plan is not at its postimage, those that are may be taken back. -/
theorem mayRestore_torn (hj : v.store.records.journal = some j) (hp : j.state = .prepared) :
    MayRestore mode host j.recoveryFiles v.store.records fun s => j.Calm mode → ¬ AllPost j s where
  may s f hs ht hf hi hh := by
    refine .back (hs ▸ hj) hp hf rfl rfl rfl (.inr fun hc => ⟨?_, ht hc⟩)
    intro hpre; exact hi ((hpre f hf).symm.trans (hh (hc f hf)))
  torn s f _ hf hi := by
    intro _ hpost
    have hnew : Function.update s.files f.relativePath f.expected f.relativePath = f.intended :=
      hpost f hf
    rw [Function.update_self] at hnew; exact hi hnew

variable [DecidableEq δ] {hfree : host.CollisionFree}

theorem Settling.runs_store (h : Settling mode j r v) :
    Runs mode hfree (fun _ v' => v' = v.stored r) (fun _ => mode.faulty) (persistReceipt r) v :=
  Runs.persistReceipt (fun hf _ => hf) (.settle h.journal h.key h.verdict h.guard) rfl

theorem runs_clear (hj : v.store.records.journal = some j)
    (hr : v.store.records.receipts j.key = some r) (ht : r.Terminal)
    (hc : j.Calm mode → Verdict j r v.store ∨ (r.Interrupted ∧ AllPre j v.store)) :
    Runs mode hfree (fun _ v' => v' = v.cleared) (fun _ => mode.faulty) clearJournal v := by
  refine Runs.clearJournal (fun hf _ => hf) ?_ rfl
  intro j' hj'
  cases hj.symm.trans hj'; exact ⟨r, hr, ht, .inr hc⟩

theorem Settling.runs_clear (h : Settling mode j r v) :
    Runs mode hfree (fun _ v' => v' = (v.stored r).cleared) (fun _ => mode.faulty) clearJournal
      (v.stored r) :=
  SourceEdit.runs_clear h.journal (View.stored_receipt h.key) h.terminal
    fun hc => .inl (h.verdict hc)

theorem Settling.runs_recovered (h : Settling mode j r v)
    (hseen : j.state = .prepared → (SeenPost j.recoveryFiles v ∧ r.Applied) ∨
      (SeenPre j.recoveryFiles v ∧ r.termination = .failed)) :
    Runs mode hfree (fun _ => Recovered mode j) (fun _ => mode.faulty)
      (do persistReceipt r; clearJournal) v := by
  refine Runs.bind h.runs_store ?_ fun _ hf => hf
  rintro _ _ rfl
  refine h.runs_clear.mono ?_ fun _ hf => hf
  rintro _ _ rfl
  exact ⟨rfl, fun hc => ⟨r, View.stored_receipt h.key, h.verdict hc⟩,
    fun hp => ⟨r, View.stored_receipt h.key, hseen hp⟩⟩

/-! ## Recovery -/

variable (hj : v.store.records.journal = some j)
include hj

theorem runs_recoverApplied (hclean : Untangled mode v)
    (hstate : j.state = .applied outcome c observed verification) :
    Runs mode hfree (fun _ => Recovered mode j) (fun _ => mode.faulty) (recoverJournal host j) v := by
  refine Runs.of_inv fun hinv => ?_
  unfold recoverJournal
  simp only [hstate]
  refine Runs.bind (runs_persistRollbackRecord hj) ?_ fun _ h => h
  intro _ v1 hb
  have hs : Settling mode j (appliedDurableRecord j outcome c observed verification) v1 := by
    refine ⟨hb.journal.trans hj, rfl, terminal_applied, ?_, ?_⟩
    · intro hc
      refine (verdict_applied (hinv.records.journal hj) hstate
        (hinv.accounts j hj hc)).congr fun f _ => ?_
      rw [hb.files]
    · rw [hb.receipts]; exact fun hg r0 => hclean hg j r0 hj
  exact hs.runs_recovered fun hp => by cases hstate.symm.trans hp

theorem runs_rollForward (hclean : Untangled mode v)
    (hexact : j.Exact host) {d : δ} (hp : j.Calm mode → AllPost j v.store) :
    Runs mode hfree (fun _ => Recovered mode j) (fun _ => mode.faulty ∨ ¬ j.Calm mode)
      (rollForward j d) v := by
  obtain ⟨_, -, hplan⟩ := hexact.plan
  refine Runs.bind (runs_commitPostimages hplan.nodup) ?_ ?_
  swap
  · rintro _ (hf | ⟨f, hmem, hne⟩)
    · exact .inl hf
    · exact .inr fun hc => hne (hc f hmem) (hp hc f hmem)
  rintro _ v1 ⟨hs, hseen, -⟩
  refine Runs.bind (runs_persistRollbackRecord (j := j) (by rw [hs]; exact hj)) ?_ fun _ h => .inl h
  intro _ v2 hb
  have hfiles : v2.store.files = v.store.files := by rw [hb.files, hs]
  have hsettling : Settling mode j (appliedRecord j (.reconciled true
      "source edit crash recovery confirmed the edit already committed to disk") d none) v2 := by
    refine ⟨?_, rfl, terminal_applied, fun hc => ?_, ?_⟩
    · rw [hb.journal, hs, hj]
    · refine ⟨hexact.live, .inl ⟨(hp hc).congr fun f _ => by rw [hfiles], rfl⟩⟩
    · rw [hb.receipts, hs]; exact fun hg r0 => hclean hg j r0 hj
  refine (hsettling.runs_recovered fun _ => .inl ⟨fun f hf => ?_, ?_⟩).mono (fun _ _ h => h)
    fun _ h => .inl h
  · rw [hb.seen, hseen f hf]
  · exact ⟨hexact.live, appliedEffectTermination_success _ _⟩

theorem runs_rollBack (hclean : Untangled mode v) (hprepared : j.state = .prepared)
    (hexact : j.Exact host)
    (hk : j.Calm mode → Accounts j v.store) (ht : j.Calm mode → ¬ AllPost j v.store) :
    Runs mode hfree (fun _ => Recovered mode j) (fun _ => mode.faulty ∨ ¬ j.Calm mode)
      (rollBack host j) v := by
  obtain ⟨_, -, hp⟩ := hexact.plan
  refine Runs.bind (runs_rollbackPlanned (mayRestore_torn hj hprepared) ht (fun _ h => h) hp.nodup)
    ?_ ?_
  swap
  · rintro _ ⟨-, hf | ⟨f, hf, htorn⟩⟩
    · exact .inl hf
    · refine .inr fun hc => ?_
      have hk := hk hc
      simp only [Accounts, hprepared] at hk
      obtain ⟨hpre, hpost⟩ := htorn (hc f hf)
      exact (hk f hf).elim hpre hpost
  rintro _ v1 ⟨hkept, hrestored⟩
  refine Runs.bind (runs_stateDigest hp.candidates_nodup) ?_ fun _ h => .inl h.2
  rintro _ v2 ⟨look, hl, rfl⟩
  split
  · next hne =>
    refine Runs.throw (.inr fun hc => hne ((hp.stateOf_eq_pre hfree).mpr fun f hf => ?_))
    rw [hl.calm _ (hp.mem_candidates hf) (hc f hf), hrestored f hf (hc f hf)]
  next heq =>
  rw [not_not] at heq
  obtain ⟨hseen, hpre⟩ := hl.seenPre hfree hp heq
  have hr : v2.store.records = v.store.records := (congrArg Store.records hl.store).trans hkept
  have hs : Settling mode j (restoredRecord j) v2 := by
    refine ⟨hr ▸ hj, rfl, EffectTermination.noConfusion, fun hc => ?_, ?_⟩
    · refine ⟨hexact.live, .inr ⟨?_, rfl⟩⟩; rw [hl.store]; exact hpre hc
    · rw [hr]; exact fun hg r0 => hclean hg j r0 hj
  exact (hs.runs_recovered fun _ => .inr ⟨hseen, rfl⟩).mono (fun _ _ h => h) fun _ h => .inl h

theorem runs_recoverJournal (hclean : Untangled mode v) :
    Runs mode hfree (fun _ => Recovered mode j) (fun _ => mode.faulty ∨ ¬ j.Calm mode)
      (recoverJournal host j) v := by
  refine Runs.of_inv fun hinv => ?_
  have hexact := hinv.records.journal hj
  obtain ⟨post, hp, hplan⟩ := hexact.plan
  cases hstate : j.state with
  | applied outcome committed observation verification =>
    exact (runs_recoverApplied hj hclean hstate).mono (fun _ _ h => h) fun _ h => .inl h
  | prepared =>
    unfold recoverJournal
    simp only [hstate]
    rw [if_neg hplan.files_ne_nil]
    refine Runs.bind (runs_stateDigest hplan.candidates_nodup) ?_ fun _ h => .inl h.2
    rintro _ v1 ⟨look, hl, rfl⟩
    have hj1 : v1.store.records.journal = some j := hl.store ▸ hj
    have hc1 : Untangled mode v1 := by
      unfold Untangled
      rw [hl.store]; exact hclean
    split
    · next ho =>
      rw [hp, Option.some_inj] at ho
      refine runs_rollForward hj1 hc1 hexact fun hc => ?_
      rw [hl.store]; exact (hl.seenPost hfree hplan ho.symm).2 hc
    · next ho =>
      rw [hp, Option.some_inj] at ho
      refine runs_rollBack hj1 hc1 hstate hexact (fun hc => ?_) fun hc hpost => ?_
      · rw [hl.store]; exact hinv.accounts j hj hc
      · refine ho ((hplan.stateOf_eq_post hfree).mpr fun f hf => ?_).symm
        rw [hl.calm _ (hplan.mem_candidates hf) (hc f hf), ← hl.store, hpost f hf]

omit hj

/-- Recovery that ends well leaves no journal. It cannot fail but by a fault, by the hand of another
program, or because the journal is of another scope. -/
theorem runs_recover {store : String} (hc : Untangled mode v) : Runs mode hfree
      (fun _ v' => v'.store.records.journal = none ∧ (v.store.records.journal = none → v' = v) ∧
        ∀ j, v.store.records.journal = some j → Recovered mode j v')
      (fun _ => mode.faulty ∨ ∃ j, v.store.records.journal = some j ∧
        (¬ j.Calm mode ∨ j.request.scope ≠ store))
      (recoverSourceEditTransaction host store) v := by
  refine Runs.loadJournal .inl fun f hf => ?_
  split
  · refine Runs.pure ⟨hf.symm, fun _ => rfl, fun j hj => ?_⟩; rw [← hf] at hj; cases hj
  next j =>
  split
  · next hs => exact Runs.throw (.inr ⟨j, hf.symm, .inr hs⟩)
  refine (runs_recoverJournal hf.symm hc).mono ?_ ?_
  · intro _ v' hr
    refine ⟨hr.journal, fun hnone => ?_, fun j' hj' => ?_⟩
    · cases hf.trans hnone
    · cases hf.trans hj'; exact hr
  · exact fun _ h => h.imp id fun hcalm => ⟨j, hf.symm, .inl hcalm⟩

end TraceDecay.SourceEdit
