import TraceDecay.SourceEdit.ForeignBytes

/-!
# SourceEdit.Atomicity

Source edits are all or nothing. However executes and rollbacks are cut off, once a recovery has run
to its end the files of the last journal are all at its preimages or all at its postimages, and the
receipt under its key reports an applied effect exactly in the second case. A recovery that nobody
disturbs does run to its end.
-/

namespace TraceDecay.SourceEdit

open Resumption

variable {δ : Type} {mode : Mode} {host : Host δ} {j : Journal δ} {s t : Store δ}

/-- The journal written last. -/
def lastJournal : List (Event δ) → Option (Journal δ)
  | [] => none
  | ⟨.persistJournal j, _⟩ :: _ => some j
  | _ :: events => lastJournal events

/-- All or nothing, as the receipt says. -/
def Settled (j : Journal δ) (s : Store δ) : Prop :=
  ∃ r, s.records.receipts j.key = some r ∧ ((AllPre j s ∧ ¬ r.Applied) ∨ (AllPost j s ∧ r.Applied))

variable {r : DurableResult δ}

theorem Verdict.settled (hr : s.records.receipts j.key = some r) (h : Verdict j r s) :
    Settled j s := by
  refine ⟨r, hr, ?_⟩
  obtain ⟨hl, ⟨hp, ht⟩ | ⟨hpre, ht⟩⟩ := h
  · refine .inr ⟨hp, hl, ?_⟩; rw [ht]; exact appliedEffectTermination_success _ _
  · refine .inl ⟨hpre, ?_⟩
    rintro ⟨-, ha⟩
    rw [ht] at ha
    rcases ha with h | h <;> cases h

theorem settled_of_interrupted (hr : s.records.receipts j.key = some r)
    (hinterrupted : r.Interrupted) (hpre : AllPre j s) : Settled j s := by
  refine ⟨r, hr, .inl ⟨hpre, ?_⟩⟩
  rintro ⟨-, ha⟩
  rcases hinterrupted with hstop | hstop <;> rw [hstop] at ha <;> rcases ha with h | h <;> cases h

theorem Settled.congr (h : Settled j s)
    (hf : ∀ f ∈ j.recoveryFiles, t.files f.relativePath = s.files f.relativePath)
    (hrt : t.records.receipts j.key = s.records.receipts j.key) : Settled j t := by
  obtain ⟨r, hr, hall⟩ := h
  exact ⟨r, hrt.trans hr, hall.imp (fun h => ⟨h.1.congr hf, h.2⟩) fun h => ⟨h.1.congr hf, h.2⟩⟩

/-- The journal written last is in force, or it is settled. -/
structure Traced (mode : Mode) (m : Here δ) : Prop where
  inForce : ∀ j, m.state.records.journal = some j → lastJournal m.history = some j
  settled : m.state.records.journal = none → ∀ j, lastJournal m.history = some j →
    j.Calm mode → Settled j m.state

variable {m m' : Here δ} {plan : List PlannedSourceEditFile}

theorem Traced.others (h : Traced mode m) (ho : Others mode m.state t) :
    Traced mode ⟨t, m.history⟩ where
  inForce j hj := h.inForce j (ho.1 ▸ hj)
  settled hnone j hj hc := (h.settled (ho.1 ▸ hnone) j hj hc).congr (ho.files_eq hc) (by rw [ho.1])

/-- Other programs stay away from the files of the plan. -/
def Turns.Quiet (turns : Turns) (plan : List PlannedSourceEditFile) : Prop :=
  ∀ w, .other w ∈ turns → ∀ f ∈ plan, w.path ≠ f.relativePath

/-- The mode in which the files of a plan are nobody else's. -/
def quietMode (plan : List PlannedSourceEditFile) (faulty : Prop) : Mode where
  calm path := ∃ f ∈ plan, f.relativePath = path
  guarded := False
  loose := False
  faulty

theorem Turns.Quiet.within {ts : Turns}
    (h : ts.Quiet plan) (faulty : Prop) (hfaulty : ∀ turn ∈ ts, turn.Faulty → faulty) :
    ts.Within (quietMode plan faulty) := by
  refine ⟨hfaulty, ?_⟩
  rintro w hw ⟨f, hf, hpath⟩; exact h w hw f hf hpath.symm

theorem calm_quietMode {faulty : Prop} : j.Calm (quietMode j.recoveryFiles faulty) :=
  fun f hf => ⟨f, hf, rfl⟩

theorem Invariant.quiet {f f' : Prop}
    (h : Invariant (quietMode plan f) host s) : Invariant (quietMode plan f') host s :=
  { h with }

theorem settled_of_recovered {v' : View δ} (ht : Traced mode m)
    (hl : lastJournal m.history = some j) (hc : j.Calm mode) (hs : Shows mode v' m')
    (hnone : m.state.records.journal = none → v' = m.view)
    (hsettle : ∀ j, m.state.records.journal = some j → Recovered mode j v') :
    Settled j m'.state := by
  have hf := hs.1.files_eq hc
  cases hj : m.state.records.journal with
  | none =>
    have hv' := hnone hj
    rw [hv'] at hs hf; exact (ht.settled hj j hl hc).congr hf (by rw [hs.1.1]; rfl)
  | some j' =>
    cases hl.symm.trans (ht.inForce j' hj)
    obtain ⟨r, hr, hverdict⟩ := (hsettle j hj).verdict hc
    exact (hverdict.settled hr).congr hf (by rw [hs.1.1])

variable [DecidableEq δ] {c : Call δ}

theorem Traced.step (h : Traced mode m)
    (hl : lastJournal ((device δ).after c m).history = lastJournal m.history)
    (hkept : ((device δ).after c m).state.records.journal = m.state.records.journal)
    (hs : m.state.records.journal = none → ∀ j, Settled j m.state →
      Settled j ((device δ).after c m).state) : Traced mode ((device δ).after c m) where
  inForce j hj := hl.trans (h.inForce j (hkept ▸ hj))
  settled hnone j hj hc := hs (hkept ▸ hnone) j (h.settled (hkept ▸ hnone) j (hl ▸ hj) hc)

theorem Traced.publish {path : String} {expected i : Option Content}
    (h : Traced mode m) (hmay : MayPublish mode m.state path expected i) :
    Traced mode ((device δ).after (.publish path expected i) m) := by
  have hopen : m.state.records.journal ≠ none := by
    cases hmay with
    | forward hj | back hj => exact fun hnone => by cases hj.symm.trans hnone
  refine h.step rfl ?_ fun hnone => absurd hnone hopen
  change (perform _ _).2.records.journal = _
  rcases perform_publish path expected i m.state with ⟨-, heq⟩ | ⟨-, e, heq⟩
  · rw [heq]
  · rw [heq]

theorem Traced.persistReceipt (h : Traced mode m) (hmay : MayReceipt mode m.state r) :
    Traced mode ((device δ).after (.persistReceipt r) m) := by
  refine h.step rfl rfl fun hnone j hs => ?_
  -- without a journal only a refusal is stored, under a key that has no receipt
  have hfresh : m.state.records.receipts r.key = none := by
    cases hmay with
    | refuse hfresh => exact hfresh
    | interrupt hj | unknown hj | settle hj => cases hj.symm.trans hnone
  refine hs.congr (fun _ _ => rfl) (Function.update_of_ne ?_ _ _)
  intro hkey
  obtain ⟨r0, hr0, -⟩ := hs
  rw [hkey, hfresh] at hr0; cases hr0

theorem Traced.clearJournal (hm : ¬ mode.loose) (h : Traced mode m)
    (hmay : Allowed mode host m.state .clearJournal) :
    Traced mode ((device δ).after .clearJournal m) where
  inForce j hj := by cases hj
  settled _ j hl hc := by
    cases hopen : m.state.records.journal with
    | none => exact (h.settled hopen j hl hc).congr (fun _ _ => rfl) rfl
    | some j' =>
      cases hl.symm.trans (h.inForce j' hopen)
      obtain ⟨r, hr, -, hclear⟩ := hmay j hopen
      have hs : Settled j m.state := (hclear.resolve_left hm hc).elim (fun hv => hv.settled hr)
          fun hi => settled_of_interrupted hr hi.1 hi.2
      exact hs.congr (fun _ _ => rfl) rfl

theorem Traced.call (hm : ¬ mode.loose) (h : Traced mode m)
    (hmay : Allowed mode host m.state c) : Traced mode ((device δ).after c m) := by
  cases c with
  | publish path expected intended => exact h.publish hmay
  | persistJournal j =>
    refine ⟨fun j' hj' => ?_, fun hnone => ?_⟩
    · cases hj'; rfl
    · cases hnone
  | clearJournal => exact h.clearJournal hm hmay
  | persistReceipt r => exact h.persistReceipt hmay
  | _ => exact h.step rfl rfl fun _ j hs => hs.congr (fun _ _ => rfl) rfl

theorem Traced.path {hfree : host.CollisionFree} (hm : ¬ mode.loose)
    (h : Traced mode m) (hinv : Invariant mode host m.state)
    (hpath : Path (discipline mode hfree) m m') : Traced mode m' :=
  (hpath.induct hinv h (fun _ _ _ h ho => h.others ho) fun _ _ _ h hmay => h.call hm hmay).2

/-! ## Recovery to the end -/

theorem session_fits_quiet {session : Session δ}
    (hnever : ∀ e ∈ session, ¬ e.1.Reconciles) (hq : ∀ e ∈ session, e.2.Quiet plan) :
    ∀ {m : Here δ}, session.Fits (quietMode plan True) host m := by
  induction session with
  | nil => exact trivial
  | cons entry session ih =>
    refine ⟨Request.fits_of_not_guarded (fun h => h) fun h => ?_, ?_, ?_⟩
    · exact absurd h (hnever entry List.mem_cons_self)
    · exact (hq entry List.mem_cons_self).within True fun _ _ _ => trivial
    · exact ih (fun e he => hnever e (List.mem_cons_of_mem _ he))
        fun e he => hq e (List.mem_cons_of_mem _ he)

/-- After any activity that leaves no journal, let executes and rollbacks be cut off and made again
in any order. While other programs stay away from the files of the journal `j` written last, a
recovery in its scope that runs to its end leaves no journal and the files all at the preimages of
`j` or all at its postimages, with a receipt that reports an applied effect exactly in the second
case. Nothing but a failing step keeps a recovery from ending so. -/
theorem edits_all_or_nothing (hfree : host.CollisionFree) (files : String → Option Content)
    (before edits : Session δ) (hedits : ∀ e ∈ edits, ¬ e.1.Reconciles) (j : Journal δ)
    (scope : String) :
    let m0 : Here δ := ⟨(runSession host before (start files)).state, []⟩
    let m := runSession host edits m0
    let recovery := recoverSourceEditTransaction host scope
    m0.state.records.journal = none → lastJournal m.history = some j → j.request.scope = scope →
    (∀ e ∈ edits, e.2.Quiet j.recoveryFiles) →
    (∀ turns : Turns, turns.Quiet j.recoveryFiles →
      let c := follow turns recovery m
      (c.prog.answer = some () → c.moment.state.records.journal = none ∧
        ∃ r, c.moment.state.records.receipts j.key = some r ∧
          ((AllPre j c.moment.state ∧ ¬ r.Applied) ∨ (AllPost j c.moment.state ∧ r.Applied)) ∧
          (Changes j.recoveryFiles → (r.Applied ↔ AllPost j c.moment.state))) ∧
      ((∀ turn ∈ turns, ¬ turn.Faulty) → ∀ result, c.prog = .done result → result = .ok ())) ∧
    ∃ n, (follow (steps n) recovery m).prog.answer = some () := by
  intro m0 m recovery hnone hl hscope hq
  have hi0 : Invariant (quietMode j.recoveryFiles True) host m0.state :=
    invariant_of_no_journal (invariant_runSession hfree before files).records hnone fun h => h
  have hpath := path_runSession hfree hi0 (session_fits_quiet hedits hq)
  have hinv := hpath.inv hi0
  have htrace : Traced (quietMode j.recoveryFiles True) m := by
    refine Traced.path (fun h => h) ⟨fun j' hj' => ?_, fun _ j' hj' => ?_⟩ hi0 hpath
    · rw [hnone] at hj'; cases hj'
    · cases hj'
  have hrec : ∀ faulty, Runs (quietMode j.recoveryFiles faulty) hfree _ _ recovery m.view :=
    fun faulty => runs_recover fun h => h.elim
  have hend : ∀ turns : Turns, turns.Quiet j.recoveryFiles → (∀ turn ∈ turns, ¬ turn.Faulty) →
      ∀ result, (follow turns recovery m).prog = .done result → result = .ok () := by
    intro turns ht hcalm result hd
    have hwithin := ht.within False hcalm
    obtain ⟨hsafe, hpath⟩ := (hrec False).follow hinv.quiet hwithin
    obtain ⟨v', -, he⟩ := hsafe.post_of_done (hpath.inv hinv.quiet) hd
    cases result with
    | ok u => rfl
    | error e =>
      -- no fault, nobody else's hand, and the journal is of this scope
      rcases he with hfaulty | ⟨j', hj', hc' | hs'⟩
      · exact hfaulty.elim
      · cases hl.symm.trans (htrace.inForce j' hj'); exact absurd calm_quietMode hc'
      · cases hl.symm.trans (htrace.inForce j' hj'); exact absurd hscope hs'
  refine ⟨fun turns ht => ⟨fun hd => ?_, hend turns ht⟩, ?_⟩
  · obtain ⟨v', hs, hc, hsame, hrecovered⟩ :=
      (hrec True).follow_answer hinv (ht.within True fun _ _ _ => trivial) hd
    refine ⟨by rw [hs.1.1]; exact hc, ?_⟩
    obtain ⟨r, hr, hall⟩ := settled_of_recovered htrace hl calm_quietMode hs hsame hrecovered
    refine ⟨r, hr, hall, ?_⟩
    rintro ⟨f, hf, hne⟩
    rcases hall with ⟨hpre, hnot⟩ | ⟨hp, ha⟩
    · exact ⟨fun h => absurd h hnot, fun hp => absurd ((hpre f hf).symm.trans (hp f hf)) hne⟩
    · exact ⟨fun _ => hp, fun _ => ha⟩
  · obtain ⟨n, result, hd⟩ := exists_run_done (device δ) ForeignWrite.apply recovery m
    have hsteps : ∀ turn ∈ steps n, turn = .step := fun turn h => List.eq_of_mem_replicate h
    refine ⟨n, Prog.answer_eq_some.mpr ?_⟩
    have hok : result = .ok () := by
      refine hend (steps n) (fun w hw => ?_) (fun turn htaken => ?_) result hd
      · cases hsteps _ hw
      · rw [hsteps turn htaken]; exact fun h => h
    rw [← hok]; exact hd

def renameJournal : Journal Digest :=
  preparedJournal termHost (renameRequest "k") renameAuthority ["a.rs", "b.rs"] renamePlan
    (termHost.state [("a.rs", some (.content [2])), ("b.rs", some (.content [2]))])

/-- The rename, cut off when one of its two files is written. -/
theorem edits_all_or_nothing_rename :
    let m := runSession termHost [(.execute (renameRequest "k") renameAnswers, steps 9)]
      (start renameFiles0)
    m.state.files "a.rs" = some [2] ∧ m.state.files "b.rs" = some [1] ∧
      ∃ n, (follow (steps n) (recoverSourceEditTransaction termHost "scope") m).prog.answer =
        some () := by
  refine ⟨by decide +kernel, by decide +kernel, ?_⟩
  refine (edits_all_or_nothing termHost_collisionFree renameFiles0 []
    [(.execute (renameRequest "k") renameAnswers, steps 9)] (fun e he h => ?_) renameJournal "scope"
    rfl (by decide +kernel) rfl fun e he w hw => ?_).2
  · rw [List.mem_singleton.mp he] at h; exact h
  · rw [List.mem_singleton.mp he] at hw; cases List.eq_of_mem_replicate hw

end TraceDecay.SourceEdit
