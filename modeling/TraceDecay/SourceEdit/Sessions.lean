import TraceDecay.SourceEdit.RollingBack

/-!
# SourceEdit.Sessions

Runs of the source-edit service: requests one after another, as the store lock has them, each cut
off wherever its schedule ends, with writes of other programs in between.
-/

namespace TraceDecay.SourceEdit

open Resumption

variable {δ : Type} {mode : Mode} {host : Host δ}

inductive Request (δ : Type) where
  | execute (request : SourceEditEffectRequest δ) (answers : ExecuteAnswers)
  | rollback (request : SourceEditRollbackRequest δ) (answers : RollbackAnswers)
  | reconcile (request : SourceEditReconciliationRequest δ) (answers : RollbackAnswers)

namespace Request

def key : Request δ → String
  | .execute request _ => request.idempotencyKey
  | .rollback request _ => request.idempotencyKey
  | .reconcile request _ => request.idempotencyKey

/-- Nothing is stored for the request before recovery; a reconciliation never does that. -/
def Admitted : Request δ → Prop
  | .execute request answers => answers.Admitted request
  | .rollback request answers => answers.Admitted request
  | .reconcile _ _ => True

/-- A live edit has a plan that changes a file. -/
def Changing : Request δ → Prop
  | .execute request answers => request.dryRun = false → answers.Changing
  | .rollback _ _ | .reconcile _ _ => True

def Reconciles : Request δ → Prop
  | .execute _ _ | .rollback _ _ => False
  | .reconcile _ _ => True

end Request

/-- The store, and the steps taken on it. -/
abbrev Here (δ : Type) := Moment (interface δ) EditError (Store δ)

/-- A schedule: steps that go well or fail, and writes by other programs. -/
abbrev Turns := List (Turn EditError ForeignWrite)

def start (files : String → Option Content) : Here δ := ⟨⟨files, Records.empty⟩, []⟩

/-! ## What a mode asks -/

def Here.view (m : Here δ) : View δ := ⟨m.state, lastSeen m.history⟩

theorem shows_view (m : Here δ) : Shows mode m.view m := ⟨Others.refl _, rfl⟩

/-- What the mode asks of a request that finds the store as it is. -/
structure Request.Fits (mode : Mode) (request : Request δ) (s : Store δ) : Prop where
  clear : mode.guarded → ∀ j r, s.records.journal = some j → s.records.receipts j.key = some r →
    ¬ r.Interrupted
  admitted : mode.guarded → s.records.receipts request.key = none →
    ∀ j, s.records.journal = some j → j.key = request.key → request.Admitted
  changing : mode.guarded → request.Changing
  loose : request.Reconciles → mode.loose

theorem Request.fits_of_not_guarded {r : Request δ} {s : Store δ} (hm : ¬ mode.guarded)
    (hl : r.Reconciles → mode.loose) : r.Fits mode s :=
  ⟨fun h => absurd h hm, fun h => absurd h hm, fun h => absurd h hm, hl⟩

/-- What the caller is told goes with what was seen. -/
def Request.Told : Request δ → ApplicationResult δ → View δ → Prop
  | .execute _ answers => Executed answers
  | .rollback request _ => RolledBack request
  | .reconcile _ _ => fun _ _ => True

/-- A schedule the mode has room for. -/
structure Turns.Within (turns : Turns) (mode : Mode) : Prop where
  faulty : ∀ turn ∈ turns, turn.Faulty → mode.faulty
  calm : ∀ w, .other w ∈ turns → ¬ mode.calm w.path

theorem invariant_of_no_journal {s : Store δ} (hr : RecordsOk host s.records)
    (hnone : s.records.journal = none) (hm : ¬ mode.guarded) : Invariant mode host s where
  records := hr
  accounts j hj := by
    rw [hnone] at hj; cases hj
  closed h := absurd h hm
  changing h := absurd h hm

theorem recordsOk_empty : RecordsOk host (Records.empty : Records δ) where
  journal h := by cases h
  retained h := by cases h
  used h := by cases h
  mine h := by cases h

/-- Nothing is known of the files, and every request may be made. -/
def anyMode : Mode := ⟨fun _ => False, False, True, True⟩

theorem turns_within_any (t : Turns) : t.Within anyMode := ⟨fun _ _ _ => trivial, fun _ _ h => h⟩

variable [DecidableEq δ]

def Request.prog (host : Host δ) : Request δ → EditM δ (ApplicationResult δ)
  | .execute request answers => executeSourceEdit host request answers
  | .rollback request answers => executeSourceEditRollback host request answers
  | .reconcile request answers => reconcileSourceEditEffectUnknown host request answers

/-- A program under a schedule; the run may well end before the program does. -/
def follow {α : Type} (turns : Turns) (p : EditM δ α) (m : Here δ) :
    Config (interface δ) EditError (Store δ) α :=
  run (device δ) ForeignWrite.apply turns ⟨p, m⟩

abbrev Session (δ : Type) := List (Request δ × Turns)

def runRequest (host : Host δ) (m : Here δ) (entry : Request δ × Turns) : Here δ :=
  (follow entry.2 (entry.1.prog host) m).moment

def runSession (host : Host δ) (session : Session δ) (m : Here δ) : Here δ :=
  session.foldl (runRequest host) m

/-! ## Sessions keep the discipline -/

variable (hfree : host.CollisionFree) {m : Here δ}

theorem Request.runs {r : Request δ} {v : View δ} (h : r.Fits mode v.store) :
    Yields mode hfree r.Told (r.prog host) v := by
  cases r with
  | execute r answers => exact runs_executeSourceEdit ⟨h.clear, h.admitted⟩ h.changing
  | rollback r answers => exact runs_executeSourceEditRollback ⟨h.clear, h.admitted⟩
  | reconcile r answers => exact runs_reconcile (h.loose trivial) h.clear

theorem Turns.Within.admits {turns : Turns} (h : turns.Within mode) (hfree : host.CollisionFree) :
    (discipline mode hfree).Admits ForeignWrite.apply turns := by
  intro turn ht
  refine ⟨h.faulty turn ht, ?_⟩
  rintro w rfl s
  refine ⟨rfl, fun p hp => Function.update_of_ne ?_ _ _⟩
  rintro rfl; exact h.calm w ht hp

theorem Runs.follow {α : Type} {hfree : host.CollisionFree} {ok : α → View δ → Prop}
    {e : View δ → Prop} {p : EditM δ α} (h : Runs mode hfree ok e p m.view)
    (hinv : Invariant mode host m.state) {t : Turns} (ht : t.Within mode) :
    Safe (discipline mode hfree) (fun r m => ∃ v', Shows mode v' m ∧ Ended ok e r v')
        (follow t p m).prog (follow t p m).moment ∧
      Path (discipline mode hfree) m (follow t p m).moment :=
  (h m (shows_view m)).run (ht.admits hfree) hinv

theorem path_runRequest {e : Request δ × Turns} (hinv : Invariant mode host m.state)
    (hf : e.1.Fits mode m.state) (ht : e.2.Within mode) :
    Path (discipline mode hfree) m (runRequest host m e) :=
  ((Request.runs hfree (v := m.view) hf).follow hinv ht).2

/-- Every request of the session fits the mode where it is made. -/
def Session.Fits (mode : Mode) (host : Host δ) : Session δ → Here δ → Prop
  | [], _ => True
  | entry :: session, m => entry.1.Fits mode m.state ∧ entry.2.Within mode ∧
      Fits mode host session (runRequest host m entry)

theorem path_runSession {s : Session δ} :
    ∀ {m : Here δ}, Invariant mode host m.state → s.Fits mode host m →
      Path (discipline mode hfree) m (runSession host s m) := by
  induction s with
  | nil => exact fun _ _ => .refl _
  | cons entry s ih =>
    rintro m hinv ⟨hf, ht, hr⟩
    have hpath := path_runRequest hfree hinv hf ht
    exact hpath.trans (ih (hpath.inv hinv) hr)

theorem session_fits_any {s : Session δ} : ∀ {m : Here δ}, s.Fits anyMode host m := by
  induction s with
  | nil => exact trivial
  | cons entry s ih =>
    exact ⟨Request.fits_of_not_guarded (fun h => h) fun _ => trivial, turns_within_any _, ih⟩

theorem invariant_runSession (hfree : host.CollisionFree) (s : Session δ)
    (f : String → Option Content) : Invariant anyMode host (runSession host s (start f)).state :=
  (path_runSession hfree (invariant_of_no_journal recordsOk_empty rfl fun h => h)
    session_fits_any).inv (invariant_of_no_journal recordsOk_empty rfl fun h => h)

/-! ## A host whose digests are terms -/

/-- Digests written out instead of hashed. -/
inductive Digest where
  | content (content : Content)
  | noFiles
  | absent (path : String) (rest : Digest)
  | present (path : String) (digest rest : Digest)
  | effect (key : String) (input : Digest)
  | attempt (actor scope : String) (kind : SourceEditKind) (effectId : Digest)
      (idempotencyKey attemptIdempotencyKey : String) (inputDigest : Digest)
      (externalProof : Option String) (disposition : Digest)
  | committed (state : Digest)
  | rolledBack
deriving DecidableEq

namespace Digest

def ofStates : List (String × Option Digest) → Digest
  | [] => .noFiles
  | (path, none) :: states => .absent path (ofStates states)
  | (path, some digest) :: states => .present path digest (ofStates states)

def ofDisposition : Disposition Digest → Digest
  | .confirmCommitted state => .committed state
  | .confirmRolledBack => .rolledBack

theorem ofStates_injective : Function.Injective ofStates := by
  intro s
  induction s with
  | nil =>
    rintro (_ | ⟨⟨path, _ | digest⟩, s⟩) h
    · rfl
    · cases h
    · cases h
  | cons state s ih =>
    obtain ⟨path, digest⟩ := state
    rintro (_ | ⟨⟨path', digest'⟩, states'⟩) h
    · cases digest <;> cases h
    · cases digest <;> cases digest' <;>
        simp only [ofStates, Digest.absent.injEq, Digest.present.injEq, reduceCtorEq] at h
      · rw [h.1, ih h.2]
      · rw [h.1, h.2.1, ih h.2.2]

end Digest

def termHost : Host Digest where
  normalize := some
  content := .content
  state := Digest.ofStates
  effect := .effect
  attempt input := .attempt input.actor input.scope input.kind input.effectId input.idempotencyKey
    input.attemptIdempotencyKey input.inputDigest input.externalProof
    (Digest.ofDisposition input.disposition)

theorem termHost_collisionFree : termHost.CollisionFree where
  content _ _ h := by cases h; rfl
  state := Digest.ofStates_injective
  effect h := by cases h; exact ⟨rfl, rfl⟩
  attempt := by
    rintro ⟨_, _, _, _, _, _, _, d, _⟩ ⟨_, _, _, _, _, _, _, d', _⟩ h
    cases d <;> cases d' <;> cases h <;> rfl

/-! ## A rename over two files -/

def renamePlan : List PlannedSourceEditFile :=
  [⟨"a.rs", some [1], some [2]⟩, ⟨"b.rs", some [1], some [2]⟩]

def renameFiles0 : String → Option Content :=
  fun path => if path = "a.rs" ∨ path = "b.rs" then some [1] else none

def renameAuthority : SourceEditAuthorizationAdmission :=
  ⟨⟨"grant", 1, "", "", "", "", 0⟩, ⟨"", "", "", 0, "", "", 0, "", none⟩⟩

def renameRequest (key : String) : SourceEditEffectRequest Digest where
  actor := "actor"
  scope := "scope"
  authority := renameAuthority.receipt
  proof := renameAuthority.proof
  kind := .renameSymbol
  dryRun := false
  verify := false
  idempotencyKey := key
  expectedState := termHost.state [("a.rs", some (.content [1])), ("b.rs", some (.content [1]))]
  inputDigest := .noFiles

def renameAnswers : ExecuteAnswers where
  control _ := none
  admission := some renameAuthority
  recheck := some renameAuthority
  recheckBeforeEffect := some renameAuthority
  preview := .ok (.edit true ["a.rs", "b.rs"], renamePlan)
  primitive := .rename renamePlan fun _ => none
  verification := .clean

def steps (n : Nat) : Turns := List.replicate n .step

end TraceDecay.SourceEdit
