import TraceDecay.SourceEdit.PlanCorrect

/-!
# SourceEdit.Discipline

The discipline the requests keep with their durable steps, said once for each kind of step, and what
it keeps of the store:

* a file is written only for the journal in force, from one image of its plan to the other;
* the journal in force becomes `applied` only when the worktree bears it out;
* a receipt for the journal in force says what the worktree bears out;
* the journal goes away only when its key has a receipt.

What is said of files is said of those no other program writes.
-/

namespace TraceDecay.SourceEdit

open Resumption
open Function (update update_apply)

variable {δ : Type}

/-! ## What is in the worktree and in the records -/

def AllPre (j : Journal δ) (s : Store δ) : Prop :=
  ∀ f ∈ j.recoveryFiles, s.files f.relativePath = f.expected

def AllPost (j : Journal δ) (s : Store δ) : Prop :=
  ∀ f ∈ j.recoveryFiles, s.files f.relativePath = f.intended

def DurableResult.Terminal (r : DurableResult δ) : Prop := r.termination ≠ .effectUnknown

def DurableResult.Interrupted (r : DurableResult δ) : Prop :=
  r.termination = .cancelled ∨ r.termination = .timedOut

/-- The receipt reports an effect on the worktree. -/
def DurableResult.Applied (r : DurableResult δ) : Prop :=
  r.dryRun = false ∧ (r.termination = .completed ∨ r.termination = .partialEffect)

/-- The receipt says of the journal's edit what the worktree bears out. -/
def Verdict (j : Journal δ) (r : DurableResult δ) (s : Store δ) : Prop :=
  r.dryRun = false ∧
  ((AllPost j s ∧ r.termination = appliedEffectTermination j.request.verificationRequested
      j.state.verification true) ∨
    (AllPre j s ∧ r.termination = .failed))

structure Journal.Exact (host : Host δ) (j : Journal δ) : Prop where
  effect : j.effectId = host.effect j.key j.inputDigest
  plan : ∃ post, j.predictedState = some post ∧
    PlanExact host j.candidateFiles j.recoveryFiles j.expectedState post
  live : j.request.dryRun = false

structure RollbackRecord.Exact (host : Host δ) (rec : RollbackRecord δ) : Prop where
  effect : rec.effectId = host.effect rec.idempotencyKey rec.inputDigest
  plan : ∃ candidates,
    PlanExact host candidates rec.recoveryFiles rec.expectedState rec.committedState

def Changes (plan : List PlannedSourceEditFile) : Prop := ∃ f ∈ plan, f.expected ≠ f.intended

/-- The journal's state goes with the files of its plan. -/
def Accounts (j : Journal δ) (s : Store δ) : Prop :=
  match j.state with
  | .prepared => ∀ f ∈ j.recoveryFiles,
      s.files f.relativePath = f.expected ∨ s.files f.relativePath = f.intended
  | .applied outcome committedState _ _ =>
    (outcome.success = true → AllPost j s ∧ j.predictedState = some committedState) ∧
      (outcome.success = false → AllPre j s ∧ j.expectedState = committedState)

structure RecordsOk (host : Host δ) (R : Records δ) : Prop where
  journal : ∀ {j}, R.journal = some j → j.Exact host
  retained : ∀ {id rec}, R.rollbackRecords id = some rec → rec.effectId = id ∧ rec.Exact host
  /-- A rollback record belongs to a key that is used, or to the journal in force. -/
  used : ∀ {id rec}, R.rollbackRecords id = some rec → R.receipts rec.idempotencyKey ≠ none ∨
      ∃ j, R.journal = some j ∧ j.key = rec.idempotencyKey
  mine : ∀ {j rec}, R.journal = some j → R.rollbackRecords j.effectId = some rec →
    ∃ committedState, j.predictedState = some committedState ∧ rec = j.rollbackRecord committedState

/-! ## The discipline -/

/-- `calm` are the files no other program writes. A `guarded` run refuses no request with the key
of the journal in force, never overrules an interrupted receipt, and has no plan that changes
nothing; a `loose` one may remove a journal on the word of a receipt alone. In a `faulty` one a step
may fail though the store is sound. -/
structure Mode where
  calm : String → Prop
  (guarded loose faulty : Prop)

variable (mode : Mode)

def Journal.Calm (j : Journal δ) : Prop := ∀ f ∈ j.recoveryFiles, mode.calm f.relativePath

/-- Nothing terminal is overruled by what an earlier, interrupted request left. -/
def Sealed (s : Store δ) : Prop :=
  ∀ j r, s.records.journal = some j → j.Calm mode → s.records.receipts j.key = some r →
    r.Terminal → Verdict j r s ∨ (r.Interrupted ∧ AllPre j s)

/-- Every plan on record changes a file. -/
structure Changing (R : Records δ) : Prop where
  journal : ∀ {j}, R.journal = some j → Changes j.recoveryFiles
  retained : ∀ {id rec}, R.rollbackRecords id = some rec → Changes rec.recoveryFiles

structure Invariant (host : Host δ) (s : Store δ) : Prop where
  records : RecordsOk host s.records
  accounts : ∀ j, s.records.journal = some j → j.Calm mode → Accounts j s
  closed : mode.guarded → Sealed mode s
  changing : mode.guarded → Changing s.records

/-- A file of the journal in force goes from one image to the other. -/
inductive MayPublish (s : Store δ) (path : String) (expected intended : Option Content) : Prop
  | forward {j : Journal δ} {f : PlannedSourceEditFile} (hj : s.records.journal = some j)
      (hstate : j.state = .prepared) (hf : f ∈ j.recoveryFiles) (hpath : path = f.relativePath)
      (hexpected : expected = f.expected) (hintended : intended = f.intended)
      (hfresh : s.records.receipts j.key = none)
  | back {j : Journal δ} {f : PlannedSourceEditFile} (hj : s.records.journal = some j)
      (hstate : j.state = .prepared) (hf : f ∈ j.recoveryFiles) (hpath : path = f.relativePath)
      (hexpected : expected = f.intended) (hintended : intended = f.expected)
      (hopen : s.records.receipts j.key = none ∨ (j.Calm mode → ¬ AllPre j s ∧ ¬ AllPost j s))

inductive MayJournal (host : Host δ) (s : Store δ) (j : Journal δ) : Prop
  | begin (hnone : s.records.journal = none) (hfresh : s.records.receipts j.key = none)
      (hexact : j.Exact host) (hstate : j.state = .prepared) (hpre : j.Calm mode → AllPre j s)
      (hchanges : mode.guarded → Changes j.recoveryFiles)
  | advance {j0 : Journal δ} (hj : s.records.journal = some j0)
      (hfresh : s.records.receipts j0.key = none) {state : JournalState δ}
      (hsame : j = { j0 with state := state }) (haccounts : j.Calm mode → Accounts j s)

inductive MayReceipt (s : Store δ) (r : DurableResult δ) : Prop
  | refuse (hfresh : s.records.receipts r.key = none) (hnot : ¬ r.Applied)
      (hguard : mode.guarded → ∀ j, s.records.journal = some j → j.key ≠ r.key)
  | interrupt {j : Journal δ} (hj : s.records.journal = some j) (hkey : r.key = j.key)
      (hfresh : s.records.receipts j.key = none) (hinterrupted : r.Interrupted)
      (hpre : j.Calm mode → AllPre j s)
  | unknown {j : Journal δ} (hj : s.records.journal = some j) (hkey : r.key = j.key)
      (hfresh : s.records.receipts j.key = none) (hunknown : r.termination = .effectUnknown)
  | settle {j : Journal δ} (hj : s.records.journal = some j) (hkey : r.key = j.key)
      (hverdict : j.Calm mode → Verdict j r s)
      (hguard : mode.guarded → ∀ r0, s.records.receipts j.key = some r0 → ¬ r0.Interrupted)

/-- What a request may do with the store as it is. -/
def Allowed (host : Host δ) (s : Store δ) : Call δ → Prop
  | .publish path expected intended => MayPublish mode s path expected intended
  | .persistJournal j => MayJournal mode host s j
  | .persistReceipt r => MayReceipt mode s r
  | .clearJournal => ∀ j, s.records.journal = some j → ∃ r, s.records.receipts j.key = some r ∧
      r.Terminal ∧ (mode.loose ∨ (j.Calm mode → Verdict j r s ∨ (r.Interrupted ∧ AllPre j s)))
  | .persistRollbackRecord rec => ∃ j committedState, s.records.journal = some j ∧
      j.predictedState = some committedState ∧ rec = j.rollbackRecord committedState
  | .read _ | .loadJournal | .loadReceipt _ | .loadAttempt _ | .persistAttempt _
  | .loadRollbackRecord _ => True

/-! ## What others leave alone -/

/-- Others may write any file that is not calm, and no record. -/
def Others (s t : Store δ) : Prop :=
  t.records = s.records ∧ ∀ p, mode.calm p → t.files p = s.files p

variable {mode}

theorem Others.refl (s : Store δ) : Others mode s s := ⟨rfl, fun _ _ => rfl⟩

theorem Others.trans {s t u : Store δ} (h : Others mode s t) (h' : Others mode t u) :
    Others mode s u :=
  ⟨h'.1.trans h.1, fun p hp => (h'.2 p hp).trans (h.2 p hp)⟩

variable {host : Host δ} {j : Journal δ}

section Stable

variable {j : Journal δ} {r : DurableResult δ} {s t : Store δ}

variable (h : ∀ f ∈ j.recoveryFiles, t.files f.relativePath = s.files f.relativePath)
include h

theorem AllPre.congr : AllPre j s → AllPre j t := fun hs f hf => (h f hf).trans (hs f hf)

theorem AllPost.congr : AllPost j s → AllPost j t := fun hs f hf => (h f hf).trans (hs f hf)

theorem Verdict.congr : Verdict j r s → Verdict j r t := by
  rintro ⟨hl, ⟨hp, ht⟩ | ⟨hpre, ht⟩⟩
  · exact ⟨hl, .inl ⟨hp.congr h, ht⟩⟩
  · exact ⟨hl, .inr ⟨hpre.congr h, ht⟩⟩

theorem Accounts.congr : Accounts j s → Accounts j t := by
  unfold Accounts
  cases j.state with
  | prepared => intro hs f hf; rw [h f hf]; exact hs f hf
  | applied outcome committedState _ _ =>
    exact fun hs => ⟨fun ho => ⟨(hs.1 ho).1.congr h, (hs.1 ho).2⟩,
      fun ho => ⟨(hs.2 ho).1.congr h, (hs.2 ho).2⟩⟩

omit h

theorem Others.files_eq (h : Others mode s t) (hc : j.Calm mode) :
    ∀ f ∈ j.recoveryFiles, t.files f.relativePath = s.files f.relativePath :=
  fun f hf => h.2 _ (hc f hf)

theorem Invariant.others (h : Invariant mode host s) (ho : Others mode s t) :
    Invariant mode host t where
  records := ho.1 ▸ h.records
  accounts j hj hc := by
    rw [ho.1] at hj; exact (h.accounts j hj hc).congr (ho.files_eq hc)
  closed hg j r hj hc hr ht := by
    rw [ho.1] at hj hr
    rcases h.closed hg j r hj hc hr ht with hv | ⟨hi, hpre⟩
    · exact .inl (hv.congr (ho.files_eq hc))
    · exact .inr ⟨hi, hpre.congr (ho.files_eq hc)⟩
  changing hg := ho.1 ▸ h.changing hg

theorem Others.symm (h : Others mode s t) : Others mode t s :=
  ⟨h.1.symm, fun p hp => (h.2 p hp).symm⟩

theorem Allowed.others {c : Call δ} (h : Allowed mode host s c)
    (ho : Others mode s t) : Allowed mode host t c := by
  have hrecs := ho.1
  have hfiles := fun {j : Journal δ} (hc : j.Calm mode) => ho.files_eq hc
  have hf' := fun {j : Journal δ} (hc : j.Calm mode) => ho.symm.files_eq hc
  cases c with
  | publish path expected intended =>
    cases h with
    | forward hj hstate hf hpath hexpected hintended hfresh =>
      exact .forward (hrecs ▸ hj) hstate hf hpath hexpected hintended (hrecs ▸ hfresh)
    | back hj hstate hf hpath hexpected hintended hopen =>
      refine .back (hrecs ▸ hj) hstate hf hpath hexpected hintended (hopen.imp
        (fun hfresh => hrecs ▸ hfresh) fun hopen hc => ?_)
      exact ⟨fun hpre => (hopen hc).1 (hpre.congr (hf' hc)),
        fun hp => (hopen hc).2 (hp.congr (hf' hc))⟩
  | persistJournal j =>
    cases h with
    | begin hnone hfresh hexact hstate hpre hchanges =>
      exact .begin (hrecs ▸ hnone) (hrecs ▸ hfresh) hexact hstate
        (fun hc => (hpre hc).congr (hfiles hc)) hchanges
    | advance hj hfresh hsame haccounts =>
      exact .advance (hrecs ▸ hj) (hrecs ▸ hfresh) hsame fun hc => (haccounts hc).congr (hfiles hc)
  | persistReceipt r =>
    cases h with
    | refuse hfresh hnot hguard => exact .refuse (hrecs ▸ hfresh) hnot (hrecs ▸ hguard)
    | interrupt hj hkey hfresh hinterrupted hpre =>
      exact .interrupt (hrecs ▸ hj) hkey (hrecs ▸ hfresh) hinterrupted
        fun hc => (hpre hc).congr (hfiles hc)
    | unknown hj hkey hfresh hunknown => exact .unknown (hrecs ▸ hj) hkey (hrecs ▸ hfresh) hunknown
    | settle hj hkey hverdict hguard =>
      exact .settle (hrecs ▸ hj) hkey (fun hc => (hverdict hc).congr (hfiles hc)) (hrecs ▸ hguard)
  | clearJournal =>
    intro j hj
    rw [hrecs] at hj
    obtain ⟨r, hr, ht, hclear⟩ := h j hj
    refine ⟨r, hrecs ▸ hr, ht, hclear.imp id fun hclear hc => ?_⟩
    exact (hclear hc).imp (fun hv => hv.congr (hfiles hc)) fun ⟨hi, hpre⟩ => ⟨hi,
      hpre.congr (hfiles hc)⟩
  | persistRollbackRecord rec =>
    obtain ⟨j, committedState, hj, hrest⟩ := h
    exact ⟨j, committedState, hrecs ▸ hj, hrest⟩
  | _ => trivial

end Stable

/-! ## The discipline keeps the invariant -/

theorem Journal.Exact.advance (h : j.Exact host)
    (state : JournalState δ) : ({ j with state := state } : Journal δ).Exact host :=
  ⟨h.effect, h.plan, h.live⟩

section Preserved

variable {host : Host δ} {s : Store δ} {path : String} {c expected intended : Option Content}

theorem publishCheck_eq_ok {u : Unit}
    (h : publishCheck path c expected intended = .ok u) : c = expected := by
  unfold publishCheck at h
  split at h
  · split at h
    · assumption
    · cases h
  · cases h
  · cases h
  · split at h
    · assumption
    · cases h

theorem publishCheck_eq_error {e : EditError} (h : publishCheck path c expected intended = .error e)
    (hc : c = expected) : expected = intended := by
  unfold publishCheck at h
  split at h
  · rw [if_pos hc] at h; cases h
  · rfl
  · cases hc
  · rw [if_pos hc] at h; cases h

variable [DecidableEq δ]

/-- A publication finds its file as expected and writes it, or it does nothing. -/
theorem perform_publish (path : String) (expected intended : Option Content) (s : Store δ) :
    (s.files path = expected ∧ perform (.publish path expected intended) s =
      (.ok (), { s with files := update s.files path intended })) ∨
    ((s.files path = expected → expected = intended) ∧
      ∃ e, perform (.publish path expected intended) s = (.error e, s)) := by
  cases hc : publishCheck path (s.files path) expected intended with
  | error e => exact .inr ⟨publishCheck_eq_error hc, e, by simp only [perform, hc]⟩
  | ok u => exact .inl ⟨publishCheck_eq_ok hc, by simp only [perform, hc]⟩

variable (h : Invariant mode host s)
include h

theorem Invariant.publish (hmay : MayPublish mode s path expected intended) :
    Invariant mode host (perform (.publish path expected intended) s).2 := by
  rcases perform_publish path expected intended s with ⟨-, heq⟩ | ⟨-, e, heq⟩
  swap
  · rw [heq]; exact h
  rw [heq]
  -- the plan names each file once, so the other files of the plan are not touched
  have hu : ∀ {j : Journal δ} {f : PlannedSourceEditFile}, s.records.journal = some j →
      f ∈ j.recoveryFiles → path = f.relativePath → ∀ g ∈ j.recoveryFiles,
      update s.files path intended g.relativePath =
        if g = f then intended else s.files g.relativePath := by
    intro j f hj hf hpath g hg
    obtain ⟨_, -, hp⟩ := (h.records.journal hj).plan
    rw [update_apply, hpath]
    by_cases hgf : g = f
    · rw [if_pos (by rw [hgf]), if_pos hgf]
    · rw [if_neg fun hsame => hgf (hp.eq_of_path hg hf hsame), if_neg hgf]
  have haccounts : ∀ {j : Journal δ} {f : PlannedSourceEditFile}, s.records.journal = some j →
      j.state = .prepared → f ∈ j.recoveryFiles → path = f.relativePath →
      (intended = f.expected ∨ intended = f.intended) →
      ∀ j', s.records.journal = some j' → j'.Calm mode →
        Accounts j' { s with files := update s.files path intended } := by
    intro j f hj hstate hf hpath hi j' hj' hc
    cases hj.symm.trans hj'
    have hold := h.accounts j hj hc
    simp only [Accounts, hstate] at hold ⊢
    intro g hg
    rw [hu hj hf hpath g hg]
    split
    · next hgf => rw [hgf]; exact hi
    · exact hold g hg
  cases hmay with
  | forward hj hstate hf hpath hexpected hintended hfresh =>
    refine ⟨h.records, haccounts hj hstate hf hpath (.inr hintended), ?_, h.changing⟩
    intro _ j' r hj' _ hr _
    cases hj.symm.trans hj'
    rw [hfresh] at hr; cases hr
  | back hj hstate hf hpath hexpected hintended hopen =>
    refine ⟨h.records, haccounts hj hstate hf hpath (.inl hintended), ?_, h.changing⟩
    intro hguard j' r hj' hc hr ht
    cases hj.symm.trans hj'
    rcases hopen with hfresh | hopen
    · rw [hfresh] at hr; cases hr
    · obtain ⟨hpre, hpost⟩ := hopen hc
      rcases h.closed hguard _ r hj hc hr ht with
        ⟨-, ⟨hall, -⟩ | ⟨hall, -⟩⟩ | ⟨-, hall⟩
      · exact absurd hall hpost
      · exact absurd hall hpre
      · exact absurd hall hpre

theorem Invariant.persistJournal (hfree : host.CollisionFree) (hmay : MayJournal mode host s j) :
    Invariant mode host (perform (.persistJournal j) s).2 := by
  cases hmay with
  | begin hnone hfresh hexact hstate hpre hchanges =>
    have hused : ∀ {id rec}, s.records.rollbackRecords id = some rec →
        s.records.receipts rec.idempotencyKey ≠ none := by
      intro id rec hrec
      refine (h.records.used hrec).resolve_right ?_
      rintro ⟨j', hj', -⟩
      rw [hnone] at hj'; cases hj'
    refine ⟨⟨?_, h.records.retained, ?_, ?_⟩, ?_, ?_, fun hg => ⟨?_, ?_⟩⟩
    · rintro j' ⟨⟩; exact hexact
    · exact fun hrec => .inl (hused hrec)
    · -- a record under the effect of a key that is not used would belong to another journal
      rintro j' rec ⟨⟩ hrec
      obtain ⟨hid, hretained⟩ := h.records.retained hrec
      have hkey := (hfree.effect ((hretained.effect.symm.trans hid).trans hexact.effect)).1
      exact absurd (hkey ▸ hfresh) (hused hrec)
    · rintro j' ⟨⟩ hc; simp only [Accounts, hstate]; exact fun f hf => .inl (hpre hc f hf)
    · rintro _ j' r ⟨⟩ _ hr _; cases hr.symm.trans hfresh
    · rintro j' ⟨⟩; exact hchanges hg
    · exact (h.changing hg).retained
  | @advance j0 hj hfresh state hsame haccounts =>
    subst hsame
    refine ⟨⟨?_, h.records.retained, ?_, ?_⟩, ?_, ?_, fun hg => ⟨?_, ?_⟩⟩
    · rintro j' ⟨⟩; exact (h.records.journal hj).advance state
    · intro id rec hrec
      rcases h.records.used hrec with hu | ⟨j', hj', hkey⟩
      · exact .inl hu
      · cases hj.symm.trans hj'; exact .inr ⟨_, rfl, hkey⟩
    · rintro j' rec ⟨⟩ hrec; exact h.records.mine (j := j0) hj hrec
    · rintro j' ⟨⟩ hc; exact haccounts hc
    · rintro _ j' r ⟨⟩ _ hr _; cases hr.symm.trans hfresh
    · rintro j' ⟨⟩; exact (h.changing hg).journal (j := j0) hj
    · exact (h.changing hg).retained

theorem Invariant.persistReceipt {r : DurableResult δ}
    (hmay : MayReceipt mode s r) : Invariant mode host (perform (.persistReceipt r) s).2 := by
  refine ⟨⟨h.records.journal, h.records.retained, ?_, h.records.mine⟩, h.accounts, ?_,
    fun hg => ⟨(h.changing hg).journal, (h.changing hg).retained⟩⟩
  · intro id rec hrec
    refine (h.records.used hrec).imp (fun hu => ?_) fun hj => hj
    change update s.records.receipts r.key (some r) rec.idempotencyKey ≠ none
    rw [update_apply]
    split
    · exact Option.some_ne_none r
    · exact hu
  · intro hg j' r' hj' hc hr' ht
    change update s.records.receipts r.key (some r) j'.key = some r' at hr'
    rw [update_apply] at hr'
    cases hmay with
    | refuse hfresh hnot hguard =>
      rw [if_neg (hguard hg j' hj')] at hr'; exact h.closed hg j' r' hj' hc hr' ht
    | interrupt hj hkey hfresh hinterrupted hpre =>
      cases hj.symm.trans hj'
      rw [if_pos hkey.symm] at hr'
      cases hr'; exact .inr ⟨hinterrupted, hpre hc⟩
    | unknown hj hkey hfresh hunknown =>
      cases hj.symm.trans hj'
      rw [if_pos hkey.symm] at hr'
      cases hr'; exact absurd hunknown ht
    | settle hj hkey hverdict hguard =>
      cases hj.symm.trans hj'
      rw [if_pos hkey.symm] at hr'
      cases hr'; exact .inl (hverdict hc)

theorem Invariant.clearJournal (hmay : Allowed mode host s .clearJournal) :
    Invariant mode host (perform .clearJournal s).2 := by
  refine ⟨⟨nofun, h.records.retained, fun hrec => .inl ?_, nofun⟩, ?_, ?_,
    fun hg => ⟨nofun, (h.changing hg).retained⟩⟩
  · rcases h.records.used hrec with hu | ⟨j, hj, hkey⟩
    · exact hu
    · obtain ⟨r, hr, -⟩ := hmay j hj
      rw [hkey] at hr; exact fun hnone => by cases hr.symm.trans hnone
  · rintro j ⟨⟩
  · rintro _ j r ⟨⟩

theorem Invariant.persistRollbackRecord {rec : RollbackRecord δ}
    (hmay : Allowed mode host s (.persistRollbackRecord rec)) :
    Invariant mode host (perform (.persistRollbackRecord rec) s).2 := by
  obtain ⟨j, committedState, hj, hp, rfl⟩ := hmay
  have hexact := h.records.journal hj
  have hu : ∀ id rec', update s.records.rollbackRecords
      (j.rollbackRecord committedState).effectId (some (j.rollbackRecord committedState)) id =
        some rec' →
      (id = j.effectId ∧ rec' = j.rollbackRecord committedState) ∨
        s.records.rollbackRecords id = some rec' := by
    intro id rec' hrec
    rw [update_apply] at hrec
    split at hrec
    · next heq =>
      cases hrec; exact .inl ⟨heq, rfl⟩
    · exact .inr hrec
  refine ⟨⟨h.records.journal, ?_, ?_, ?_⟩, h.accounts, h.closed,
    fun hg => ⟨(h.changing hg).journal, ?_⟩⟩
  · intro id rec hrec
    rcases hu id rec hrec with ⟨rfl, rfl⟩ | hold
    · obtain ⟨post, hpost, hplan⟩ := hexact.plan
      cases hp.symm.trans hpost; exact ⟨rfl, hexact.effect, j.candidateFiles, hplan⟩
    · exact h.records.retained hold
  · intro id rec hrec
    rcases hu id rec hrec with ⟨-, rfl⟩ | hold
    · exact .inr ⟨j, hj, rfl⟩
    · exact h.records.used hold
  · intro j' rec hj' hrec
    cases hj.symm.trans hj'
    rcases hu _ rec hrec with ⟨-, rfl⟩ | hold
    · exact ⟨committedState, hp, rfl⟩
    · exact h.records.mine hj hold
  · intro id rec hrec
    rcases hu id rec hrec with ⟨-, rfl⟩ | hold
    · exact (h.changing hg).journal hj
    · exact (h.changing hg).retained hold

theorem Invariant.perform (hfree : host.CollisionFree) {c : Call δ}
    (hmay : Allowed mode host s c) : Invariant mode host (perform c s).2 := by
  cases c with
  | publish path expected intended => exact h.publish hmay
  | persistJournal j => exact h.persistJournal hfree hmay
  | clearJournal => exact h.clearJournal hmay
  | persistReceipt r => exact h.persistReceipt hmay
  | persistAttempt r =>
    exact { h with records := { h.records with }, changing := fun hg => { h.changing hg with } }
  | persistRollbackRecord rec => exact h.persistRollbackRecord hmay
  | _ => exact h

end Preserved

def discipline [DecidableEq δ] (mode : Mode) {host : Host δ} (hfree : host.CollisionFree) :
    Contract (device δ) where
  rely := Others mode
  faults := mode.faulty
  may m c := Allowed mode host m.state c
  inv m := Invariant mode host m.state
  refl := Others.refl
  trans := Others.trans
  inv_others h ho := h.others ho
  inv_call h hmay := h.perform hfree hmay

end TraceDecay.SourceEdit
