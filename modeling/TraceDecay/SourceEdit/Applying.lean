import TraceDecay.SourceEdit.Steps

/-!
# SourceEdit.Applying

What the parts of a request do under the discipline: looking at the candidate files, publishing a
plan, restoring its preimages, and keeping the rollback record.
-/

namespace TraceDecay.SourceEdit

open Fallible List
open Function (update update_of_ne update_self)

variable {δ : Type} {mode : Mode} {host : Host δ} {v v' : View δ} {j : Journal δ} {α : Type}
  {candidates : List String} {plan : List PlannedSourceEditFile} {pre post : δ}
  {look : String → Option Content}

/-! ## What is known of the files and the records -/

/-- The files were looked at, and `look` is what they held. -/
structure Looked (mode : Mode) (files : List String) (v : View δ)
    (look : String → Option Content) (v' : View δ) : Prop where
  store : v'.store = v.store
  seen : ∀ p ∈ files, v'.seen p = some (look p)
  unseen : ∀ p, p ∉ files → v'.seen p = v.seen p
  calm : ∀ p ∈ files, mode.calm p → look p = v.store.files p

/-- A step failed, and the store is as it was. -/
def Faulted (mode : Mode) (v v' : View δ) : Prop := v'.store = v.store ∧ mode.faulty

def SeenPre (files : List PlannedSourceEditFile) (v : View δ) : Prop :=
  ∀ f ∈ files, v.seen f.relativePath = some f.expected

def SeenPost (files : List PlannedSourceEditFile) (v : View δ) : Prop :=
  ∀ f ∈ files, v.seen f.relativePath = some f.intended

theorem Looked.seenPre (hfree : host.CollisionFree) (hp : PlanExact host candidates plan pre post)
    (h : Looked mode candidates v look v') (hd : stateOf host candidates look = pre) :
    SeenPre plan v' ∧ ((∀ f ∈ plan, mode.calm f.relativePath) →
      ∀ f ∈ plan, v.store.files f.relativePath = f.expected) := by
  have hl := (hp.stateOf_eq_pre hfree).mp hd
  refine ⟨fun f hf => ?_, fun hc f hf => ?_⟩
  · rw [h.seen _ (hp.mem_candidates hf), hl f hf]
  · rw [← h.calm _ (hp.mem_candidates hf) (hc f hf), hl f hf]

theorem Looked.seenPost (hfree : host.CollisionFree) (hp : PlanExact host candidates plan pre post)
    (h : Looked mode candidates v look v') (hd : stateOf host candidates look = post) :
    SeenPost plan v' ∧ ((∀ f ∈ plan, mode.calm f.relativePath) →
      ∀ f ∈ plan, v.store.files f.relativePath = f.intended) := by
  simpa only [SeenPre, SeenPost, forall_mem_map, PlannedSourceEditFile.swap] using
    h.seenPre hfree hp.swap hd

/-- The request works under a prepared journal whose key has no receipt. -/
structure Working (j : Journal δ) (v : View δ) : Prop where
  journal : v.store.records.journal = some j
  prepared : j.state = .prepared
  fresh : v.store.records.receipts j.key = none

theorem Working.congr (h : Working j v)
    (hr : v'.store.records = v.store.records) : Working j v' :=
  ⟨hr ▸ h.journal, h.prepared, hr ▸ h.fresh⟩

/-- Nothing but files may have changed. -/
def Kept (v v' : View δ) : Prop := v'.store.records = v.store.records

/-- Why the files of a plan may be restored: `torn` is what is known of the store while there is
something to restore. -/
structure MayRestore (mode : Mode) (host : Host δ) (plan : List PlannedSourceEditFile)
    (R : Records δ) (torn : Store δ → Prop) : Prop where
  may : ∀ s f, s.records = R → torn s → f ∈ plan → f.expected ≠ f.intended →
    (mode.calm f.relativePath → s.files f.relativePath = f.intended) →
    Allowed mode host s (.publish f.relativePath f.intended f.expected)
  torn : ∀ s f, torn s → f ∈ plan → f.expected ≠ f.intended →
    torn { s with files := update s.files f.relativePath f.expected }

theorem Working.mayRestore (h : Working j v) :
    MayRestore mode host j.recoveryFiles v.store.records fun _ => True where
  may _ _ hs _ hf _ _ := .back (hs ▸ h.journal) h.prepared hf rfl rfl rfl (.inl (hs ▸ h.fresh))
  torn _ _ _ _ _ := trivial

/-- The listed files are back at their preimages, and no other file has changed. -/
structure Restored (mode : Mode) (R : Records δ)
    (files : List (PlannedSourceEditFile × Option Content)) (v v' : View δ) : Prop where
  records : v'.store.records = R
  restored : ∀ e ∈ files, mode.calm e.1.relativePath →
    v'.store.files e.1.relativePath = e.1.expected
  others : ∀ p, p ∉ files.map (·.1.relativePath) → v'.store.files p = v.store.files p

theorem Restored.cons {R : Records δ} {e : PlannedSourceEditFile × Option Content}
    {files : List (PlannedSourceEditFile × Option Content)} {v1 : View δ}
    (h : Restored mode R files v1 v') (hnew : e.1.relativePath ∉ files.map (·.1.relativePath))
    (hf : mode.calm e.1.relativePath → v1.store.files e.1.relativePath = e.1.expected)
    (hsame : ∀ p, p ≠ e.1.relativePath → v1.store.files p = v.store.files p) :
    Restored mode R (e :: files) v v' where
  records := h.records
  restored := forall_mem_cons.mpr ⟨fun hc => (h.others _ hnew).trans (hf hc), h.restored⟩
  others p hp := by
    rw [map_cons, mem_cons, not_or] at hp; exact (h.others p hp.2).trans (hsame p hp.1)

/-- Only the rollback records may have changed. -/
structure Beside (v v' : View δ) : Prop where
  files : v'.store.files = v.store.files
  seen : v'.seen = v.seen
  journal : v'.store.records.journal = v.store.records.journal
  receipts : v'.store.records.receipts = v.store.records.receipts

theorem Beside.refl (v : View δ) : Beside v v := ⟨rfl, rfl, rfl, rfl⟩

/-! ## Looking at files -/

variable [DecidableEq δ] {hfree : host.CollisionFree}

theorem runs_read {p : String} : Runs mode hfree (fun c v' => (mode.calm p → c = v.store.files p) ∧
      v' = v.saw p c) (Faulted mode v) (readSourceEditCandidate p) v :=
  Runs.read (fun _ hc => ⟨hc, rfl⟩) fun hf _ hv' => ⟨hv', hf⟩

theorem runs_readStates {files : List String} (hn : files.Nodup) : ∀ {v : View δ}, Runs mode hfree
      (fun s v' => ∃ look, Looked mode files v look v' ∧
        s = files.map fun p => (p, (look p).map host.content))
      (Faulted mode v) (readStates host files) v := by
  induction files with
  | nil =>
    intro v
    exact Runs.pure ⟨fun _ => none, ⟨rfl, fun _ h => absurd h not_mem_nil, fun _ _ => rfl,
      fun _ h => absurd h not_mem_nil⟩, rfl⟩
  | cons p files ih =>
    intro v
    obtain ⟨hp, hn⟩ := nodup_cons.mp hn
    refine Runs.bind runs_read ?_ fun _ h => h
    rintro content _ ⟨hc, rfl⟩
    refine Runs.bind (ih hn) ?_ fun _ h => h
    rintro s v' ⟨look, hl, rfl⟩
    -- the files are distinct, so the later ones are not this one
    refine Runs.pure ⟨update look p content, ⟨hl.store, ?_, ?_, ?_⟩, ?_⟩
    · refine forall_mem_cons.mpr ⟨?_, fun q hq => ?_⟩
      · rw [update_self, hl.unseen p hp, View.saw_seen, update_self]
      · rw [update_of_ne (ne_of_mem_of_not_mem hq hp), hl.seen q hq]
    · intro q hq
      rw [mem_cons, not_or] at hq
      rw [hl.unseen q hq.2, View.saw_seen, update_of_ne hq.1]
    · intro q hq hcalm
      rcases mem_cons.mp hq with rfl | hq
      · rw [update_self, hc hcalm]
      · rw [update_of_ne (ne_of_mem_of_not_mem hq hp), hl.calm q hq hcalm]; rfl
    · rw [map_cons, update_self]
      congr 1
      refine map_congr_left fun q hq => ?_
      rw [update_of_ne (ne_of_mem_of_not_mem hq hp)]

theorem runs_stateDigest {files : List String} (hn : files.Nodup) : Runs mode hfree
      (fun d v' => ∃ look, Looked mode files v look v' ∧ d = stateOf host files look)
      (Faulted mode v) (sourceEditStateDigest host files) v := by
  refine Runs.bind (runs_readStates hn) ?_ fun _ h => h
  rintro states v' ⟨look, hl, rfl⟩; exact Runs.pure ⟨look, hl, rfl⟩

variable {files : List PlannedSourceEditFile} {expected : Option Content}

theorem runs_commitPostimages (hn : (files.map (·.relativePath)).Nodup) :
    ∀ {v : View δ}, Runs mode hfree (fun _ v' => v'.store = v.store ∧ SeenPost files v' ∧
        ∀ p, p ∉ files.map (·.relativePath) → v'.seen p = v.seen p)
      (fun _ => mode.faulty ∨ ∃ f ∈ files,
        mode.calm f.relativePath → v.store.files f.relativePath ≠ f.intended)
      (commitSourceEditPostimages files) v := by
  induction files with
  | nil => exact Runs.pure ⟨rfl, fun _ h => absurd h not_mem_nil, fun _ _ => rfl⟩
  | cons f files ih =>
    intro v
    rw [map_cons, nodup_cons] at hn
    refine Runs.bind runs_read ?_ fun _ h => .inl h.2
    rintro current _ ⟨hc, rfl⟩
    split
    · next hne =>
      exact Runs.throw (.inr ⟨f, mem_cons_self, fun hp => hc hp ▸ hne⟩)
    next heq =>
    rw [not_not] at heq
    refine (ih hn.2).mono ?_ fun _ h => h.imp id exists_mem_cons_of_exists
    rintro _ v' ⟨hs, hseen, hu⟩
    refine ⟨hs, forall_mem_cons.mpr ⟨?_, hseen⟩, fun p hp => ?_⟩
    · rw [hu _ hn.1, View.saw_seen, update_self, heq]
    · rw [map_cons, mem_cons, not_or] at hp
      rw [hu p hp.2, View.saw_seen, update_of_ne hp.1]

/-! ## Publishing a plan -/

variable {path : String} {c : List String} {p : EditM δ α} {torn : Store δ → Prop}

theorem validatePlanned_eq_ok {c' : List String} {i : Option Content}
    (h : validatePlannedSourceEdit plan c path expected i = .ok c') :
    ⟨path, expected, i⟩ ∈ plan := by
  unfold validatePlannedSourceEdit at h
  split at h
  · cases h
  next f hf =>
  obtain ⟨hne, -⟩ := ite_error_eq_ok.mp h
  have hpath := find?_some hf
  have hmem := mem_of_find?_eq_some hf
  rw [not_or, not_not, not_not] at hne
  rw [← of_decide_eq_true hpath, ← hne.1, ← hne.2]; exact hmem

theorem runs_publishPlanned (h : Working j v) {i : Content} :
    Runs mode hfree (fun _ => Kept v) (Kept v)
      (publishPlannedSourceEdit j.recoveryFiles c path expected i) v := by
  refine Runs.lift_bind ?_ fun _ _ => rfl
  intro c' hv
  refine Runs.bind (Q := fun _ => Kept v) (Runs.publish ?_ (fun _ => rfl) fun _ h _ => h) ?_
    fun _ h => h
  · exact .forward h.journal h.prepared (validatePlanned_eq_ok hv) rfl rfl rfl h.fresh
  · exact fun _ v' hv' => Runs.pure hv'

theorem runs_ensureTextUnchanged :
    Runs mode hfree (fun _ => Kept v) (Kept v) (ensureTextUnchanged path expected) v := by
  refine Runs.bind runs_read ?_ fun _ h => congrArg Store.records h.1
  rintro current _ ⟨-, rfl⟩
  split
  · split
    · exact Runs.pure rfl
    · exact Runs.throw rfl
  · exact Runs.throw rfl
  · exact Runs.pure rfl
  · exact Runs.throw rfl

theorem Runs.kept_bind {β : Type} {f : α → EditM δ β}
    (hp : ∀ {v : View δ}, Working j v → Runs mode hfree (fun _ => Kept v) (Kept v) p v)
    (hf : ∀ a {v' : View δ}, Working j v' → Runs mode hfree (fun _ => Kept v') (Kept v') (f a) v')
    (h : Working j v) : Runs mode hfree (fun _ => Kept v) (Kept v) (p >>= f) v :=
  Runs.bind (hp h) (fun a _ hv' => (hf a (h.congr hv')).mono (fun _ _ hv'' => hv''.trans hv')
    fun _ hv'' => hv''.trans hv') fun _ h => h

theorem Runs.kept_attempt (hp : Runs mode hfree (fun _ => Kept v) (Kept v) p v) :
    Runs mode hfree (fun _ => Kept v) (Kept v) p.attempt v :=
  Runs.attempt (hp.mono (fun _ _ h => h) fun _ h _ => h)

/-! ## Restoring preimages -/

theorem runs_observePlanned : ∀ {v : View δ}, Runs mode hfree (fun o v' => v'.store = v.store ∧
        List.Forall₂ (fun f c => (c = f.expected ∨ c = f.intended) ∧
          (mode.calm f.relativePath → c = v.store.files f.relativePath)) files o)
      (fun v' => v'.store = v.store ∧ (mode.faulty ∨ ∃ f ∈ files, mode.calm f.relativePath →
        v.store.files f.relativePath ≠ f.expected ∧ v.store.files f.relativePath ≠ f.intended))
      (observePlannedFiles files) v := by
  induction files with
  | nil => exact Runs.pure ⟨rfl, .nil⟩
  | cons f files ih =>
    intro v
    refine Runs.bind runs_read ?_ fun _ h => ⟨h.1, .inl h.2⟩
    rintro content _ ⟨hc, rfl⟩
    split
    · next hf =>
      exact Runs.throw ⟨rfl, .inr ⟨f, mem_cons_self, fun hp => hc hp ▸ hf⟩⟩
    · next hk =>
      refine Runs.bind ih ?_ fun _ h => ⟨h.1, h.2.imp id exists_mem_cons_of_exists⟩
      rintro o v' ⟨hs, ho⟩
      refine Runs.pure ⟨hs, .cons ⟨?_, hc⟩ ho⟩
      rwa [not_and_or, not_not, not_not] at hk

theorem runs_restorePlanned {R : Records δ}
    (hmay : MayRestore mode host plan R torn) {files : List (PlannedSourceEditFile × Option Content)}
    (hn : (files.map (·.1.relativePath)).Nodup) (hplan : ∀ e ∈ files, e.1 ∈ plan) :
    ∀ {v : View δ}, v.store.records = R → torn v.store →
      (∀ e ∈ files, (e.2 = e.1.expected ∨ e.2 = e.1.intended) ∧
        (mode.calm e.1.relativePath → e.2 = v.store.files e.1.relativePath)) →
      Runs mode hfree (fun _ => Restored mode R files v)
        (fun v' => v'.store.records = R ∧ (mode.faulty ∨ ∃ e ∈ files, ¬ mode.calm e.1.relativePath))
        (restorePlannedFiles files) v := by
  induction files with
  | nil => exact fun hv _ _ => Runs.pure ⟨hv, fun _ h => absurd h not_mem_nil, fun _ _ => rfl⟩
  | cons e files ih =>
    obtain ⟨f, current⟩ := e
    intro v hv ht ho
    rw [map_cons, nodup_cons] at hn
    obtain ⟨hc, hcalm⟩ := ho _ mem_cons_self
    -- the rest does not touch this file, so it stays as it is now
    have hrest : ∀ v1 : View δ, v1.store.records = R → torn v1.store →
        (mode.calm f.relativePath → v1.store.files f.relativePath = f.expected) →
        (∀ p, p ≠ f.relativePath → v1.store.files p = v.store.files p) →
        Runs mode hfree (fun _ => Restored mode R ((f, current) :: files) v)
          (fun v' => v'.store.records = R ∧
            (mode.faulty ∨ ∃ e ∈ (f, current) :: files, ¬ mode.calm e.1.relativePath))
          (restorePlannedFiles files) v1 := by
      intro v1 hv1 ht1 hf hsame
      refine (ih hn.2 (fun e he => hplan e (mem_cons_of_mem _ he)) hv1 ht1 fun e he => ?_).mono
        (fun _ _ h => h.cons hn.1 hf hsame) fun _ h => ⟨h.1, h.2.imp id exists_mem_cons_of_exists⟩
      obtain ⟨hk, hcalm⟩ := ho e (mem_cons_of_mem _ he)
      exact ⟨hk, fun hp => (hcalm hp).trans (hsame _ fun h => hn.1 (h ▸ mem_map_of_mem he)).symm⟩
    unfold restorePlannedFiles
    split
    · next heq => exact hrest v hv ht (fun hp => (hcalm hp).symm.trans heq) fun _ _ => rfl
    · next hne =>
      have hintended : current = f.intended := hc.resolve_left hne
      have hi : f.expected ≠ f.intended := fun h => hne (hintended.trans h.symm)
      have hf : f ∈ plan := hplan _ mem_cons_self
      have hh : mode.calm f.relativePath → v.store.files f.relativePath = f.intended :=
        fun hp => (hcalm hp).symm.trans hintended
      refine Runs.bind (Q := fun _ v' => v' = v.wrote f.relativePath f.expected)
        (E := fun v' => v'.store.records = R ∧ (mode.faulty ∨ (mode.calm f.relativePath →
          v.store.files f.relativePath = f.intended → f.intended = f.expected)))
        (Runs.publish (hmay.may _ f hv ht hf hi hh) (fun _ => rfl)
          fun _ hr h => ⟨hr.trans hv, h⟩) ?_ ?_
      · rintro ⟨⟩ _ rfl
        refine hrest _ hv (hmay.torn _ f ht hf hi) (fun _ => ?_) fun p hp => ?_
        · rw [View.wrote_files, update_self]
        · rw [View.wrote_files, update_of_ne hp]
      · refine fun _ h => ⟨h.1, h.2.imp id fun hrefused => ⟨_, mem_cons_self, fun hp => ?_⟩⟩
        exact hi (hrefused hp (hh hp)).symm

theorem runs_rollbackPlanned
    (hmay : MayRestore mode host plan v.store.records torn) (ht : torn v.store)
    (hplan : files ⊆ plan) (hn : (files.map (·.relativePath)).Nodup) :
    Runs mode hfree (fun _ v' => Kept v v' ∧ ∀ f ∈ files, mode.calm f.relativePath →
        v'.store.files f.relativePath = f.expected)
      (fun v' => Kept v v' ∧ (mode.faulty ∨ ∃ f ∈ files, mode.calm f.relativePath →
        v.store.files f.relativePath ≠ f.expected ∧ v.store.files f.relativePath ≠ f.intended))
      (rollbackPlannedSourceEditFiles files) v := by
  refine Runs.bind runs_observePlanned ?_ fun _ h => ⟨congrArg Store.records h.1, h.2⟩
  rintro observed v' ⟨hs, ho⟩
  have hfst : (files.zip observed).map Prod.fst = files := map_fst_zip (Nat.le_of_eq ho.length_eq)
  have hmem : ∀ f, f ∈ files ↔ ∃ e ∈ (files.zip observed).reverse, e.1 = f := by
    intro f
    rw [← mem_map, map_reverse, hfst, mem_reverse]
  have hpaths : ((files.zip observed).reverse.map (·.1.relativePath)).Nodup := by
    rw [map_reverse, nodup_reverse]
    have hmap := map_map (f := Prod.fst) (g := PlannedSourceEditFile.relativePath)
      (l := files.zip observed)
    rw [hfst] at hmap; exact hmap ▸ hn
  refine (runs_restorePlanned hmay hpaths (fun e he => hplan ((hmem _).mpr ⟨e, he, rfl⟩))
    (congrArg Store.records hs) (hs ▸ ht) fun e he => ?_).mono ?_ ?_
  · rw [hs]; exact (forall₂_iff_zip.mp ho).2 (mem_reverse.mp he)
  · rintro _ v'' ⟨hr, hrestored, -⟩
    refine ⟨hr, fun f hf hp => ?_⟩
    obtain ⟨e, he, rfl⟩ := (hmem f).mp hf
    exact hrestored e he hp
  · rintro v'' ⟨hr, h⟩
    refine ⟨hr, h.imp id fun ⟨e, he, hp⟩ => ?_⟩
    exact ⟨e.1, (hmem _).mpr ⟨e, he, rfl⟩, fun hc => absurd hc hp⟩

/-! ## The primitives -/

/-- A move keeps to the plan, also when it has to take its first file back. -/
theorem runs_moveSymbol (h : Working j v) {m : MoveEdit} :
    Runs mode hfree (fun _ => Kept v) (Kept v) (moveSymbol j.recoveryFiles m) v := by
  refine Runs.lift_bind ?_ fun _ _ => rfl
  intro c hsource
  refine Runs.lift_bind ?_ fun _ _ => rfl
  intro c' htarget
  have hs := validatePlanned_eq_ok hsource
  have hd := validatePlanned_eq_ok htarget
  refine Runs.kept_bind (fun _ => runs_ensureTextUnchanged) (fun _ v1 h1 => ?_) h
  refine Runs.kept_bind (fun _ => runs_ensureTextUnchanged) (fun _ v2 h2 => ?_) h1
  refine Runs.kept_bind (fun h => runs_publishPlanned h) (fun c3 v3 h3 => ?_) h2
  refine Runs.kept_bind (fun h => Runs.kept_attempt (Runs.kept_bind
    (fun _ => runs_ensureTextUnchanged) (fun _ _ h => Runs.kept_bind
      (fun _ => runs_ensureTextUnchanged) (fun _ _ h => runs_publishPlanned h) h) h))
    (fun rest v4 h4 => ?_) h3
  cases rest with
  | ok c => exact Runs.pure rfl
  | error e =>
    refine Runs.kept_bind (fun h => Runs.kept_attempt ?_) (fun r v5 h5 => Runs.throw rfl) h4
    refine (runs_rollbackPlanned h.mayRestore trivial ?_ ?_).mono (fun _ _ h => h.1) fun _ h => h.1
    · exact forall_mem_cons.mpr ⟨hs, forall_mem_singleton.mpr hd⟩
    · exact nodup_cons.mpr ⟨fun h => m.distinct (mem_singleton.mp h).symm, nodup_singleton _⟩

theorem runs_renameFiles {s : Nat → Option EditError} :
    ∀ {i : Nat} {c : List String} {v : View δ}, Working j v →
      Runs mode hfree (fun _ => Kept v) (Kept v) (renameFiles j.recoveryFiles s i c files) v := by
  induction files with
  | nil => exact fun _ => Runs.pure rfl
  | cons f files ih =>
    intro i c v h
    unfold renameFiles
    split
    · exact Runs.throw rfl
    · exact Runs.throw rfl
    · exact Runs.kept_bind (fun h => runs_publishPlanned h) (fun _ _ h => ih h) h

/-- Whatever an edit primitive does, it publishes files of the plan and nothing else. -/
theorem runs_runSourceEdit {p : Primitive} (h : Working j v) :
    Runs mode hfree (fun _ => Kept v) (Kept v) (runSourceEdit j.recoveryFiles p) v := by
  cases p with
  | fails e => exact Runs.throw rfl
  | refuses files => exact Runs.pure rfl
  | edit path original modified =>
    exact Runs.kept_bind (fun h => runs_publishPlanned h) (fun _ _ _ => Runs.pure rfl) h
  | move m => exact runs_moveSymbol h
  | rename files stopped =>
    exact Runs.kept_bind (fun h => runs_renameFiles h) (fun _ _ _ => Runs.pure rfl) h

theorem runs_applyPlan {p : Primitive} {e : View δ → Prop} (h : Working j v) :
    Runs mode hfree (fun _ => Kept v) e (applySourceEditPlan j.recoveryFiles p) v := by
  refine Runs.bind (Q := fun _ => Kept v) (E := fun _ => False) (Runs.attempt
    ((runs_runSourceEdit h).mono (fun _ _ h => h) fun _ h _ => h)) ?_ fun _ h => h.elim
  exact fun _ _ hv => Runs.pure hv

/-! ## The rollback record -/

theorem runs_persistRollbackRecord (hj : v.store.records.journal = some j) {d : δ} {s : Bool} :
    Runs mode hfree (fun _ => Beside v) (fun _ => mode.faulty) (persistRollbackRecord j d s) v := by
  refine Runs.of_inv fun hinv => ?_
  unfold persistRollbackRecord
  split
  · exact Runs.pure (Beside.refl v)
  split
  · exact Runs.pure (Beside.refl v)
  next hw =>
  rw [not_or, not_not] at hw
  refine Runs.loadRollbackRecord id fun stored hs => ?_
  split
  · next rec =>
    obtain ⟨committed, hc, hrec⟩ := hinv.records.mine hj hs.symm
    cases hw.2.symm.trans hc
    split
    · next hne => exact absurd hrec hne
    · exact Runs.pure (Beside.refl _)
  · refine Runs.writeRollbackRecord (fun hf _ => hf) ?_ ⟨rfl, rfl, rfl, rfl⟩
    exact ⟨j, d, hj, hw.2, rfl⟩

end TraceDecay.SourceEdit
