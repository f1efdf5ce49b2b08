import TraceDecay.SourceEdit.Discipline

/-!
# SourceEdit.Steps

Rules for requests that keep the discipline. A `View` is what a request knows of its store: the
records, the files no other program writes, and the content it saw last in each file. `Runs` follows
a program from one view to the next; there is one rule for each kind of step.
-/

namespace TraceDecay.SourceEdit

open Resumption
open Function (update update_apply)

variable {δ : Type}

abbrev Event (δ : Type) := (c : Call δ) × Except EditError (Reply c)

def lastSeen : List (Event δ) → String → Option (Option Content)
  | [], _ => none
  | ⟨.read q, .ok content⟩ :: events, p => if q = p then some content else lastSeen events p
  | ⟨.publish q _ intended, .ok _⟩ :: events, p =>
    if q = p then some intended else lastSeen events p
  | _ :: events, p => lastSeen events p

structure View (δ : Type) where
  store : Store δ
  seen : String → Option (Option Content)

namespace View

/-- A file was read, or its new content written. -/
def saw (v : View δ) (p : String) (content : Option Content) : View δ :=
  { v with seen := update v.seen p (some content) }

def wrote (v : View δ) (p : String) (content : Option Content) : View δ where
  store := { v.store with files := update v.store.files p content }
  seen := update v.seen p (some content)

def keep (v : View δ) (R : Records δ) : View δ :=
  { v with store := { v.store with records := R } }

def journaled (v : View δ) (j : Journal δ) : View δ :=
  v.keep { v.store.records with journal := some j }

def cleared (v : View δ) : View δ := v.keep { v.store.records with journal := none }

def stored (v : View δ) (r : DurableResult δ) : View δ :=
  v.keep { v.store.records with
    receipts := update v.store.records.receipts r.key (some r) }

@[simp] theorem saw_seen (v : View δ) (p content) :
    (v.saw p content).seen = update v.seen p (some content) := rfl

@[simp] theorem wrote_files (v : View δ) (p content) :
    (v.wrote p content).store.files = update v.store.files p content := rfl

@[simp] theorem wrote_seen (v : View δ) (p content) :
    (v.wrote p content).seen = update v.seen p (some content) := rfl

end View

variable (mode : Mode)

def Shows (v : View δ) (m : Moment (interface δ) EditError (Store δ)) : Prop :=
  Others mode v.store m.state ∧ lastSeen m.history = v.seen

variable [DecidableEq δ] {host : Host δ} (hfree : host.CollisionFree) {α β : Type}

/-- How a program ended. -/
def Ended (ok : α → View δ → Prop) (error : View δ → Prop) : Except EditError α → View δ → Prop
  | .ok a, v => ok a v
  | .error _, v => error v

/-- From a store that looks like `v` the program keeps the discipline, and ends with a view of which
`ok` holds, or `error` if it fails. -/
def Runs (ok : α → View δ → Prop) (error : View δ → Prop) (p : EditM δ α) (v : View δ) : Prop :=
  ∀ m, Shows mode v m →
    Safe (discipline mode hfree) (fun r m => ∃ v', Shows mode v' m ∧ Ended ok error r v') p m

/-- A failure may come at any point: nothing is asked of it. -/
abbrev Yields (ok : α → View δ → Prop) (p : EditM δ α) (v : View δ) : Prop :=
  Runs mode hfree ok (fun _ => True) p v

variable {mode} {hfree} {ok : α → View δ → Prop} {error : View δ → Prop} {v : View δ}

omit [DecidableEq δ] in
theorem Shows.others {m : Moment (interface δ) EditError (Store δ)} {t : Store δ}
    (h : Shows mode v m) (ht : Others mode m.state t) : Shows mode v ⟨t, m.history⟩ :=
  ⟨h.1.trans ht, h.2⟩

namespace Runs

variable {p : EditM δ α}

theorem mono {ok' : α → View δ → Prop} {e' : View δ → Prop} (h : Runs mode hfree ok error p v)
    (hok : ∀ a v, ok a v → ok' a v) (her : ∀ v, error v → e' v) : Runs mode hfree ok' e' p v := by
  refine fun m hm => (h m hm).mono ?_
  rintro r _ - ⟨v', hv', he⟩
  refine ⟨v', hv', ?_⟩
  cases r with
  | ok a => exact hok a v' he
  | error e => exact her v' he

theorem pure {a : α} (h : ok a v) : Runs mode hfree ok error (Pure.pure a) v :=
  fun _ hm => Safe.done fun _ ht => ⟨v, hm.others ht, h⟩

theorem throw {e : EditError} (h : error v) : Runs mode hfree ok error (MonadExcept.throw e) v :=
  fun _ hm => Safe.done fun _ ht => ⟨v, hm.others ht, h⟩

variable {f : α → EditM δ β} {Q : α → View δ → Prop} {E : View δ → Prop} {key : String}
  {r : DurableResult δ}

theorem bind {ok : β → View δ → Prop} (hp : Runs mode hfree Q E p v)
    (hok : ∀ a v', Q a v' → Runs mode hfree ok error (f a) v')
    (he : ∀ v', E v' → error v') : Runs mode hfree ok error (p >>= f) v := by
  refine fun m hm => (hp m hm).bind ?_ ?_
  · rintro a m' ⟨v', hv', hQ⟩; exact hok a v' hQ m' hv'
  · rintro e m' ⟨v', hv', hE⟩; exact ⟨v', hv', he v' hE⟩

/-- An error may come at any point, so nothing is asked of the errors. -/
theorem andThen {ok : β → View δ → Prop} (hp : Runs mode hfree Q E p v)
    (hok : ∀ a v', Q a v' → Yields mode hfree ok (f a) v') :
    Yields mode hfree ok (p >>= f) v :=
  bind hp hok fun _ _ => trivial

/-- A check that is not passed ends the program. -/
theorem check {c : Prop} [Decidable c] {e : EditError} (h : ¬ c → Yields mode hfree ok p v) :
    Yields mode hfree ok (if c then MonadExcept.throw e else p) v := by
  split
  · exact throw trivial
  · next hc => exact h hc

theorem attempt {ok : Except EditError α → View δ → Prop}
    (h : Runs mode hfree (fun a => ok (.ok a)) (fun v => ∀ e, ok (.error e) v) p v) :
    Runs mode hfree ok error p.attempt v := by
  refine fun m hm => Safe.attempt ((h m hm).mono ?_)
  rintro r _ - ⟨v', hv', he⟩
  refine ⟨v', hv', ?_⟩
  cases r with
  | ok a => exact he
  | error e => exact he e

theorem attempt_ok {P : View δ → Prop}
    (h : Runs mode hfree (fun a v' => P v' ∧ Q a v') P p v) :
    Runs mode hfree (fun r v' => P v' ∧ ∀ a, r = .ok a → Q a v') error p.attempt v := by
  refine attempt (h.mono ?_ fun _ hP _ => ⟨hP, fun _ ha => by cases ha⟩)
  rintro a v' ⟨hP, hQ⟩
  refine ⟨hP, fun _ ha => ?_⟩
  cases ha; exact hQ

theorem of_inv (h : Invariant mode host v.store → Runs mode hfree ok error p v) :
    Runs mode hfree ok error p v :=
  fun _ hm => Safe.of_inv fun _ ht hinv => h (hinv.others (hm.others ht).1.symm) _ (hm.others ht)

theorem lift_bind {r : Except EditError α} {ok : β → View δ → Prop}
    (hok : ∀ a, r = .ok a → Runs mode hfree ok error (f a) v) (he : ∀ e, r = .error e → error v) :
    Runs mode hfree ok error (Prog.lift r >>= f) v := by
  cases r with
  | ok a => exact hok a rfl
  | error e => exact throw (he e rfl)

/-! ## Steps -/

/-- An allowed call, and what the request knows once it is made. -/
theorem step {c : Call δ} {ok : Reply c → View δ → Prop} (hmay : Allowed mode host v.store c)
    (hlost : mode.faulty → error v)
    (hmade : ∀ m, Shows mode v m → ∃ v', Shows mode v' ⟨(perform c m.state).2,
        ⟨c, (perform c m.state).1⟩ :: m.history⟩ ∧ Ended ok error (perform c m.state).1 v' ∧
      (mode.faulty → error v')) : Runs mode hfree ok error (SourceEdit.step c) v := by
  intro m hm
  refine Safe.ask (fun t ht _ => hmay.others (hm.others ht).1) (fun t u ht hu => ?_)
    (fun hf e t ht => ⟨v, hm.others ht, hlost hf⟩) fun hf e t u ht hu => ?_
  · obtain ⟨v', hv', hend, -⟩ := hmade _ (hm.others ht)
    exact ⟨v', hv'.others hu, hend⟩
  · obtain ⟨v', hv', -, he⟩ := hmade _ (hm.others ht)
    exact ⟨v', hv'.others hu, he hf⟩

theorem record {c : Call δ} {a : Reply c} {R : Records δ} {ok : Reply c → View δ → Prop}
    (hperform : ∀ s : Store δ, s.records = v.store.records →
      perform c s = (.ok a, { s with records := R }))
    (hseen : ∀ r es, lastSeen (⟨c, r⟩ :: es) = lastSeen (δ := δ) es)
    (hmay : Allowed mode host v.store c) (hok : ok a (v.keep R))
    (he : mode.faulty → error v ∧ error (v.keep R)) :
    Runs mode hfree ok error (SourceEdit.step c) v := by
  refine step hmay (fun hf => (he hf).1) fun m hm => ?_
  rw [hperform _ hm.1.1]
  exact ⟨v.keep R, ⟨⟨rfl, hm.1.2⟩, (hseen _ _).trans hm.2⟩, hok, fun hf => (he hf).2⟩

/-! ### Files -/

theorem read {p : String} {ok : Option Content → View δ → Prop}
    (hok : ∀ c, (mode.calm p → c = v.store.files p) → ok c (v.saw p c))
    (he : mode.faulty → ∀ v', v'.store = v.store → error v') :
    Runs mode hfree ok error (readSourceEditCandidate p) v := by
  refine step trivial (fun hf => he hf v rfl) fun m hm => ⟨v.saw p (m.state.files p),
    ⟨hm.1, funext fun q => ?_⟩, hok _ fun hp => hm.1.2 p hp, fun hf => he hf _ rfl⟩
  change (if p = q then some (m.state.files p) else lastSeen m.history q) = _
  rw [hm.2, View.saw_seen, update_apply]; exact if_congr eq_comm rfl rfl

/-- A publication of a calm file that is as expected fails only by a fault. -/
theorem publish {p : String} {expected intended : Option Content} {ok : Unit → View δ → Prop}
    (hmay : Allowed mode host v.store (.publish p expected intended))
    (hok : (mode.calm p → v.store.files p = expected) → ok () (v.wrote p intended))
    (he : ∀ v', v'.store.records = v.store.records →
      (mode.faulty ∨ (mode.calm p → v.store.files p = expected → expected = intended)) →
      error v') :
    Runs mode hfree ok error (publishSourceEditState p expected intended) v := by
  refine step hmay (fun hf => he v rfl (.inl hf)) fun m hm => ?_
  rcases perform_publish p expected intended m.state with ⟨hfound, heq⟩ | ⟨hrefused, e, heq⟩
  · rw [heq]
    refine ⟨v.wrote p intended, ⟨⟨hm.1.1, fun q hq => ?_⟩, funext fun q => ?_⟩,
      hok fun hp => (hm.1.2 p hp).symm.trans hfound, fun hf => he _ rfl (.inl hf)⟩
    · change update m.state.files p intended q = update v.store.files p intended q
      rw [update_apply, update_apply, hm.1.2 q hq]
    · change (if p = q then some intended else lastSeen m.history q) = _
      rw [hm.2, View.wrote_seen, update_apply]; exact if_congr eq_comm rfl rfl
  · rw [heq]
    exact ⟨v, hm, he v rfl (.inr fun hp hv => hrefused ((hm.1.2 p hp).trans hv)),
      fun hf => he v rfl (.inl hf)⟩

/-! ### Records -/

theorem load {c : Call δ} {a : Reply c} {f : Reply c → EditM δ α}
    (hperform : ∀ s : Store δ, s.records = v.store.records → perform c s = (.ok a, s))
    (hseen : ∀ r es, lastSeen (⟨c, r⟩ :: es) = lastSeen (δ := δ) es)
    (hmay : Allowed mode host v.store c) (he : mode.faulty → error v)
    (h : ∀ found, found = a → Runs mode hfree ok error (f found) v) :
    Runs mode hfree ok error (SourceEdit.step c >>= f) v := by
  refine bind (Q := fun found v' => v' = v ∧ found = a) (record (R := v.store.records)
    (fun s hs => hs ▸ hperform s hs) hseen hmay ⟨rfl, rfl⟩ fun hf => ⟨he hf, he hf⟩) ?_ fun _ h => h
  rintro found _ ⟨rfl, hf⟩; exact h found hf

theorem loadJournal (he : mode.faulty → error v) {f : Option (Journal δ) → EditM δ α}
    (h : ∀ found, found = v.store.records.journal → Runs mode hfree ok error (f found) v) :
    Runs mode hfree ok error (SourceEdit.loadJournal >>= f) v :=
  load (fun _ hs => by rw [← hs]; rfl) (fun _ _ => rfl) trivial he h

theorem loadJournal_then {f : Option (Journal δ) → EditM δ α}
    (h : ∀ found, found = v.store.records.journal → Yields mode hfree ok (f found) v) :
    Yields mode hfree ok (SourceEdit.loadJournal >>= f) v :=
  loadJournal (fun _ => trivial) h

theorem loadReceipt_then {f : Option (DurableResult δ) → EditM δ α}
    (h : ∀ found, found = v.store.records.receipts key → Yields mode hfree ok (f found) v) :
    Yields mode hfree ok (SourceEdit.loadReceipt key >>= f) v :=
  load (fun _ hs => by rw [← hs]; rfl) (fun _ _ => rfl) trivial (fun _ => trivial) h

theorem loadAttempt_then {f : Option (DurableResult δ) → EditM δ α}
    (h : ∀ found, found = v.store.records.attempts key → Yields mode hfree ok (f found) v) :
    Yields mode hfree ok (loadReconciliationReceipt key >>= f) v :=
  load (fun _ hs => by rw [← hs]; rfl) (fun _ _ => rfl) trivial (fun _ => trivial) h

theorem loadRollbackRecord (he : mode.faulty → error v) {id : δ}
    {f : Option (RollbackRecord δ) → EditM δ α}
    (h : ∀ found, found = v.store.records.rollbackRecords id → Runs mode hfree ok error (f found) v) :
    Runs mode hfree ok error (SourceEdit.loadRollbackRecord id >>= f) v :=
  load (fun _ hs => by rw [← hs]; rfl) (fun _ _ => rfl) trivial he h

variable {ok : Unit → View δ → Prop} (he : mode.faulty → ∀ v', error v')
include he

theorem persistJournal {j : Journal δ}
    (hmay : MayJournal mode host v.store j) (hok : ok () (v.journaled j)) :
    Runs mode hfree ok error (SourceEdit.persistJournal j) v :=
  record (c := .persistJournal j) (fun s hs => by rw [← hs]; rfl) (fun _ _ => rfl) hmay hok
    fun hf => ⟨he hf _, he hf _⟩

theorem clearJournal (hmay : Allowed mode host v.store .clearJournal)
    (hok : ok () v.cleared) :
    Runs mode hfree ok error SourceEdit.clearJournal v :=
  record (c := .clearJournal) (fun s hs => by rw [← hs]; rfl) (fun _ _ => rfl) hmay hok
    fun hf => ⟨he hf _, he hf _⟩

theorem persistReceipt (hmay : MayReceipt mode v.store r) (hok : ok () (v.stored r)) :
    Runs mode hfree ok error (SourceEdit.persistReceipt r) v :=
  record (c := .persistReceipt r) (fun s hs => by rw [← hs]; rfl) (fun _ _ => rfl) hmay hok
    fun hf => ⟨he hf _, he hf _⟩

theorem persistAttempt (hok : ok () (v.keep { v.store.records with
      attempts := update v.store.records.attempts r.key (some r) })) :
    Runs mode hfree ok error (persistReconciliationReceipt r) v :=
  record (c := .persistAttempt r) (fun s hs => by rw [← hs]; rfl) (fun _ _ => rfl) trivial hok
    fun hf => ⟨he hf _, he hf _⟩

theorem writeRollbackRecord {r : RollbackRecord δ}
    (hmay : Allowed mode host v.store (.persistRollbackRecord r))
    (hok : ok () (v.keep { v.store.records with
      rollbackRecords := update v.store.records.rollbackRecords r.effectId (some r) })) :
    Runs mode hfree ok error (SourceEdit.writeRollbackRecord r) v :=
  record (c := .persistRollbackRecord r) (fun s hs => by rw [← hs]; rfl) (fun _ _ => rfl) hmay hok
    fun hf => ⟨he hf _, he hf _⟩

end Runs

end TraceDecay.SourceEdit
