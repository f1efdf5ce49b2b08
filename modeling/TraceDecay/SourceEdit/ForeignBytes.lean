import TraceDecay.SourceEdit.Sessions

/-!
# SourceEdit.ForeignBytes

What other programs write is never lost, whenever they write it. A step of a request, or of a
recovery, changes a file only from one image of the plan in force to the other.

Success means that every planned file held its new image when it was last looked at. What is written
to it after that look survives, but is not noticed.
-/

namespace TraceDecay.SourceEdit

open Resumption

variable {δ : Type} {mode : Mode} {host : Host δ}

/-- The step changes files of the plan in force only, each from one of its images to the other. -/
def OwnWrites (s t : Store δ) : Prop :=
  ∀ p, t.files p ≠ s.files p → ∃ j f, s.records.journal = some j ∧ f ∈ j.recoveryFiles ∧
    f.relativePath = p ∧ ((s.files p = f.expected ∧ t.files p = f.intended) ∨
      (s.files p = f.intended ∧ t.files p = f.expected))

theorem OwnWrites.of_files_eq {s t : Store δ} (h : t.files = s.files) : OwnWrites s t :=
  fun p hp => absurd (congrFun h p) hp

/-- The images an applied effect puts in place, and where they were seen. -/
def Request.Sighted (m : Here δ) : Request δ → Prop
  | .execute _ answers => ∃ outcome plan, answers.preview = .ok (outcome, plan) ∧
      ∀ f ∈ plan, lastSeen m.history f.relativePath = some f.intended
  | .rollback request _ => ∃ retained,
      m.state.records.rollbackRecords request.effectId = some retained ∧
      ∀ f ∈ retained.recoveryFiles, lastSeen m.history f.relativePath = some f.expected
  | .reconcile _ _ => True

theorem Request.sighted_of_told {r : Request δ} {rt : ApplicationResult δ} {v : View δ}
    {m : Here δ} (hs : Shows mode v m) (h : r.Told rt v)
    (hl : rt.replayed = false) (ha : rt.record.Applied) : r.Sighted m := by
  cases r with
  | execute r answers =>
    obtain ⟨outcome, plan, hp, hseen⟩ := h hl ha
    exact ⟨outcome, plan, hp, fun f hf => by rw [hs.2, hseen f hf]⟩
  | rollback r answers =>
    obtain ⟨retained, hr, hseen⟩ := h hl ha
    refine ⟨retained, ?_, fun f hf => by rw [hs.2, hseen f hf]⟩
    rw [hs.1.1]; exact hr
  | reconcile r answers => trivial

variable [DecidableEq δ]

theorem ownWrites_publish {s : Store δ} {path : String} {expected intended : Option Content}
    (hmay : MayPublish mode s path expected intended) :
    OwnWrites s (perform (.publish path expected intended) s).2 := by
  rcases perform_publish path expected intended s with ⟨hexpected, heq⟩ | ⟨-, e, heq⟩
  swap
  · rw [heq]; exact .of_files_eq rfl
  rw [heq]
  intro p hp
  obtain rfl : p = path := by
    by_contra hne
    exact hp (Function.update_of_ne hne _ _)
  have hnow : Function.update s.files p intended p = intended := by rw [Function.update_self]
  cases hmay with
  | forward hj _ hf hpath hfrom hinto _ =>
    exact ⟨_, _, hj, hf, hpath.symm, .inl ⟨hexpected.trans hfrom, hnow.trans hinto⟩⟩
  | back hj _ hf hpath hfrom hinto _ =>
    exact ⟨_, _, hj, hf, hpath.symm, .inr ⟨hexpected.trans hfrom, hnow.trans hinto⟩⟩

theorem ownWrites_perform {s : Store δ} {c : Call δ} (hmay : Allowed mode host s c) :
    OwnWrites s (perform c s).2 := by
  cases c with
  | publish path expected intended => exact ownWrites_publish hmay
  | _ => exact .of_files_eq rfl

section Following

variable {α : Type} {hfree : host.CollisionFree} {ok : α → View δ → Prop} {e : View δ → Prop}
  {p : EditM δ α} {m : Here δ} (h : Runs mode hfree ok e p m.view)
  (hinv : Invariant mode host m.state) {t : Turns} (ht : t.Within mode)
include h hinv ht

theorem ownWrites_of_runs (turn : Turn EditError ForeignWrite) (hown : ∀ w, turn ≠ .other w) :
    OwnWrites (follow t p m).moment.state (follow (t ++ [turn]) p m).moment.state := by
  obtain ⟨hs, hpath⟩ := h.follow hinv ht
  have hn : follow (t ++ [turn]) p m =
      advance (device δ) ForeignWrite.apply (follow t p m) turn := by
    unfold follow run
    rw [List.foldl_append]; rfl
  rw [hn]
  rcases hs.own_step ForeignWrite.apply (hpath.inv hinv) turn hown with
    hsame | ⟨q, hmay, hpost⟩
  · rw [hsame]; exact .of_files_eq rfl
  · rw [hpost]; exact ownWrites_perform hmay

theorem Runs.follow_answer {a : α} (ha : (SourceEdit.follow t p m).prog.answer = some a) :
    ∃ v', Shows mode v' (SourceEdit.follow t p m).moment ∧ ok a v' := by
  obtain ⟨hs, hpath⟩ := h.follow hinv ht
  exact hs.post_of_done (hpath.inv hinv) (Prog.answer_eq_some.mp ha)

end Following

/-- At every point of every run, whatever other programs write in between: the next step of a
request, or of a recovery, writes only a file of the plan in force and only from one of its images
to the other. A request that reports an applied effect of its own has seen the new image of each
planned file when it last looked; a recovery that ends well has seen the images its receipt speaks
of. -/
theorem foreign_bytes_survive (hfree : host.CollisionFree) (files : String → Option Content)
    (session : Session δ) (request : Request δ) (scope : String) (turns : Turns) :
    let m := runSession host session (start files)
    let p := request.prog host
    let recovery := recoverSourceEditTransaction host scope
    (∀ turn, (∀ w, turn ≠ .other w) →
      OwnWrites (follow turns p m).moment.state (follow (turns ++ [turn]) p m).moment.state ∧
      OwnWrites (follow turns recovery m).moment.state
        (follow (turns ++ [turn]) recovery m).moment.state) ∧
    (∀ result, (follow turns p m).prog.answer = some result → result.replayed = false →
      result.record.Applied → request.Sighted (follow turns p m).moment) ∧
    ((follow turns recovery m).prog.answer = some () → ∀ j, m.state.records.journal = some j →
      j.state = .prepared →
      ∃ r, (follow turns recovery m).moment.state.records.receipts j.key = some r ∧
        ((r.Applied ∧ ∀ f ∈ j.recoveryFiles,
            lastSeen (follow turns recovery m).moment.history f.relativePath = some f.intended) ∨
          (r.termination = .failed ∧ ∀ f ∈ j.recoveryFiles,
            lastSeen (follow turns recovery m).moment.history f.relativePath =
              some f.expected))) := by
  intro m p recovery
  have hinv := invariant_runSession hfree session files
  have ht := turns_within_any turns
  have htells : Runs anyMode hfree request.Told (fun _ => True) p m.view :=
    Request.runs hfree (Request.fits_of_not_guarded (fun h => h) fun _ => trivial)
  have hrec : Runs anyMode hfree _ _ recovery m.view := runs_recover fun h => h.elim
  refine ⟨fun turn hown => ⟨?_, ?_⟩, ?_, ?_⟩
  · exact ownWrites_of_runs htells hinv ht turn hown
  · exact ownWrites_of_runs hrec hinv ht turn hown
  · intro result hanswer hl ha
    obtain ⟨v', hs, htold⟩ := htells.follow_answer hinv ht hanswer
    exact Request.sighted_of_told hs htold hl ha
  · intro hd j hj hp
    obtain ⟨v', hs, -, -, hrecovered⟩ := hrec.follow_answer hinv ht hd
    obtain ⟨r, hr, hseen⟩ := (hrecovered j hj).seen hp
    refine ⟨r, by rw [hs.1.1]; exact hr, ?_⟩
    rw [hs.2]; exact hseen.imp (fun h => ⟨h.2, h.1⟩) fun h => ⟨h.2, h.1⟩

/-- The rename that another program interferes with after the last look at its files. -/
def disturbedTurns : Turns := steps 12 ++ .other ⟨"a.rs", some [9]⟩ :: steps 3

theorem foreign_bytes_survive_rename : termHost.CollisionFree ∧
      (Request.execute (renameRequest "k") renameAnswers).Sighted
        (follow disturbedTurns (executeSourceEdit termHost (renameRequest "k") renameAnswers)
          (start renameFiles0)).moment := by
  have ha : ((follow disturbedTurns (executeSourceEdit termHost (renameRequest "k")
      renameAnswers) (start renameFiles0)).prog.answer.map fun r =>
        (r.replayed, r.record.dryRun, r.record.termination)) =
      some (false, false, .completed) := by
    decide +kernel
  obtain ⟨r, hr, hf⟩ := Option.map_eq_some_iff.mp ha
  rw [Prod.mk.injEq, Prod.mk.injEq] at hf
  have hall := foreign_bytes_survive termHost_collisionFree renameFiles0 []
    (.execute (renameRequest "k") renameAnswers) "scope" disturbedTurns
  exact ⟨termHost_collisionFree, hall.2.1 r hr hf.1 ⟨hf.2.1, .inl hf.2.2⟩⟩

/-- Another program writes a planned file after the last look at it: its bytes survive, and the edit
still reports that it completed. -/
theorem late_foreign_write_unnoticed :
    let c := follow disturbedTurns (executeSourceEdit termHost (renameRequest "k") renameAnswers)
      (start renameFiles0)
    c.moment.state.files "a.rs" = some [9] ∧
      (c.prog.answer.map fun result => (result.record.termination, result.outcome.success)) =
        some (.completed, true) := by
  decide +kernel

end TraceDecay.SourceEdit
