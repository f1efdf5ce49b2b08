import Mathlib.Data.List.TakeWhile
import TraceDecay.Admission.RuntimeCorrect

/-!
# Admission.RuntimeCalls

What the calls that reach the spool leave of the runtime: `flushCompletedPrefix_ends`,
`commit_ends`, `recoverLeases_ends`, `runtime_quarantine_ends`, `admitBatch_admitted`. A failed call
leaves the runtime as it was or a spool that takes no mutations.
-/

namespace TraceDecay.Admission

open Stateful List
open FairSourceScheduler (line)
open HostAdmissionRuntime (ackCompleted commit finishSchedule flushCompletedPrefix recoverLeases
  scheduleAppended scheduleEach scheduleRecord)
open SpoolRecord (stripped)
open Finset (disjoint_left mem_erase mem_insert)

variable {sha256 : Bytes → FixedBytes 32}

/-! ## Resolving leases -/

variable {seq : Nat} {rt' : HostAdmissionRuntime}

section Resolving

variable {rt : HostAdmissionRuntime}

theorem completedThrough_split {t : Nat} (h : rt.completedThrough = some t) :
    ∃ f r rest, rt.spool.pending = f ++ r :: rest ∧ r.seq = t ∧
      ∀ r' ∈ f ++ [r], r'.seq ∈ rt.completed := by
  obtain ⟨r, hl, rfl⟩ := Option.map_eq_some_iff.mp h
  obtain ⟨f, hf⟩ := getLast?_eq_some_iff.mp hl
  have hs := (takeWhile_append_dropWhile (p := fun x : SpoolRecord =>
    decide (x.seq ∈ rt.completed)) (l := rt.spool.pending)).symm
  rw [hf, append_assoc, singleton_append] at hs
  refine ⟨f, r, _, hs, rfl, fun r' hr' => ?_⟩
  rw [← hf] at hr'; simpa using mem_takeWhile_imp hr'

/-- What a flush leaves: the completed front is gone, and nothing else has changed. -/
structure Flushed (rt rt' : HostAdmissionRuntime) : Prop where
  accounted : Accounted rt'
  scheduler : rt'.scheduler = rt.scheduler
  queued : rt'.queued = rt.queued
  leased : rt'.leased = rt.leased
  completed : rt'.completed ⊆ rt.completed
  pending : ∃ front, rt.spool.pending = front ++ rt'.spool.pending ∧
    ∀ r ∈ front, r.seq ∈ rt.completed

theorem Flushed.refl (h : Accounted rt) : Flushed rt rt :=
  ⟨h, rfl, rfl, rfl, Finset.Subset.refl _, [], rfl, by simp⟩

theorem Owns.clear (h : Owns rt) : Owns { rt with completed := ∅ } := by
  refine ⟨h.kept, Finset.disjoint_empty_right _, ?_⟩
  rintro seq (hseq | hseq)
  · exact h.pending seq (.inl hseq)
  · cases hseq

/-- A flush that fails gives the completed records back, in a spool that takes no mutations. -/
structure Unflushed (rt rt' : HostAdmissionRuntime) : Prop where
  rebuilt : Rebuilt { rt with completed := ∅ } rt'
  blocked : ¬ Allowed rt'.spool

theorem flushCompletedPrefix_ends (h : Accounted rt) :
    Ends (flushCompletedPrefix rt) (fun _ rt' => Flushed rt rt')
      (fun _ rt' => Unflushed rt rt') := by
  cases ht : rt.completedThrough with
  | none => simp only [flushCompletedPrefix, ht]; exact ends_ok.mpr (Flushed.refl h)
  | some through =>
    obtain ⟨front, r, rest, hs, rfl, hd⟩ := completedThrough_split ht
    simp only [flushCompletedPrefix, ht, ackCompleted]
    by_cases ha : Allowed rt.spool
    · simp only [ackThrough_of_mem h.kept ha hs]
      have ho := h.kept.ordered
      rw [hs, pairwise_append, pairwise_cons] at ho
      have hlow : ∀ r' ∈ front ++ [r], r'.seq ≤ r.seq := forall_mem_append.mpr
        ⟨fun r' hr' => (ho.2.2 r' hr' r mem_cons_self).le, forall_mem_singleton.mpr le_rfl⟩
      have hall : rt.spool.pending = (front ++ [r]) ++ rest := by
        rw [hs, append_assoc, singleton_append]
      have hrest : ∀ r' ∈ rt.spool.pending, r.seq < r'.seq → r' ∈ rest := fun r' hr' hlt =>
        (mem_append.mp (hall ▸ hr')).resolve_left fun hf => absurd (hlow r' hf) (not_le.mpr hlt)
      -- what is tracked but not completed lies above `r`
      have hhigh : ∀ seq, seq ∈ rt.queued ∨ seq ∈ rt.leased → r.seq < seq := by
        intro seq hseq
        obtain ⟨r', hr', rfl⟩ := h.pending seq (hseq.imp_right .inl)
        rw [hall] at hr'
        rcases mem_append.mp hr' with hr' | hr'
        · rcases hseq with hseq | hseq
          · exact absurd (hd r' hr') (disjoint_left.mp h.queuedCompleted hseq)
          · exact absurd (hd r' hr') (disjoint_left.mp h.leasedCompleted hseq)
        · exact ho.2.1.1 r' hr'
      have hqueued : rt.queued.filter (r.seq < ·) = rt.queued :=
        Finset.filter_true_of_mem fun seq hseq => hhigh seq (.inl hseq)
      have hl : rt.leased.filter (r.seq < ·) = rt.leased :=
        Finset.filter_true_of_mem fun seq hseq => hhigh seq (.inr hseq)
      simp only [hqueued, hl]
      have hk := kept_acknowledged h.kept hs
      refine ends_ok.mpr ⟨⟨⟨hk, ?_, h.balanced, h.queuedLeased, ?_, ?_, ?_, ?_⟩, ?_⟩, rfl, rfl, rfl,
        Finset.filter_subset _ _, front ++ [r], hall, hd⟩
      · exact h.bounds.trans (congrArg _ (acknowledged_bounds _ _ _ _).symm)
      · exact h.queuedCompleted.mono_right (Finset.filter_subset _ _)
      · exact h.leasedCompleted.mono_right (Finset.filter_subset _ _)
      · intro seq hseq
        obtain ⟨r', hr', rfl⟩ := h.pending seq
          (hseq.imp_right (Or.imp_right fun h => (Finset.mem_filter.mp h).1))
        refine ⟨r', hrest r' hr' ?_, rfl⟩
        rcases hseq with hseq | hseq | hseq
        · exact hhigh _ (.inl hseq)
        · exact hhigh _ (.inr hseq)
        · exact (Finset.mem_filter.mp hseq).2
      · have hnone : (front ++ [r]).filter (fun r' => decide (r'.seq ∈ rt.queued)) = [] := by
          refine filter_eq_nil_iff.mpr fun r' hr' hin => ?_
          exact disjoint_left.mp h.queuedCompleted (of_decide_eq_true hin) (hd r' hr')
        have hq := h.queues
        rw [hall, filter_append, hnone, nil_append] at hq; exact hq
      · intro r' hr'
        have habove : r.seq < r'.seq := ho.2.1.1 r' hr'
        refine (h.tracked r' (hall ▸ mem_append_right _ hr')).imp_right (Or.imp_right ?_)
        exact fun hin => Finset.mem_filter.mpr ⟨hin, habove⟩
    · obtain ⟨e, he⟩ := ackThrough_of_not_allowed ha r.seq
      simp only [he]
      obtain ⟨rt', hrun, hrebuilt⟩ := rebuildScheduler_rebuilt h.owns.clear
      refine Ends.bind (P := fun _ rt' => Unflushed rt rt') ?_ fun _ rt' hrt' => ends_error.mpr hrt'
      rw [hrun]
      refine ends_ok.mpr ⟨hrebuilt, ?_⟩
      have hm : rt'.spool = rt.spool := congrArg Machine.spool hrebuilt.machine
      rw [hm]; exact ha

def marked (rt : HostAdmissionRuntime) (seq : Nat) : HostAdmissionRuntime :=
  { rt with leased := rt.leased.erase seq, completed := insert seq rt.completed }

theorem accounted_marked (h : Accounted rt) (hl : seq ∈ rt.leased) : Accounted (marked rt seq) := by
  have hq : seq ∉ rt.queued := Finset.disjoint_right.mp h.queuedLeased hl
  have ht := h.toTracks.unlease seq
  refine ⟨{ ht with
    queuedCompleted := Finset.disjoint_insert_right.mpr ⟨hq, h.queuedCompleted⟩
    leasedCompleted :=
      Finset.disjoint_insert_right.mpr ⟨Finset.notMem_erase _ _, ht.leasedCompleted⟩
    pending := fun seq' hseq => h.pending seq' (hseq.imp_right (mem_moved hl).mp) }, fun r hr => ?_⟩
  exact (h.tracked r hr).imp_right (mem_moved hl).mpr

theorem commit_ends (h : Accounted rt) (seq : Nat) : Ends (commit seq rt)
      (fun _ rt' => (seq ∉ rt.leased ∧ rt' = rt) ∨ (seq ∈ rt.leased ∧ Flushed (marked rt seq) rt'))
      (fun _ rt' => (seq ∉ rt.leased ∧ rt' = rt) ∨
        (seq ∈ rt.leased ∧ Unflushed (marked rt seq) rt')) := by
  unfold commit
  by_cases hd : seq ≤ rt.spool.spoolMeta.committedThrough
  · have hl : seq ∉ rt.leased := by
      intro hl
      obtain ⟨r, hr, rfl⟩ := h.pending seq (.inr (.inl hl))
      exact absurd (h.kept.above r hr) (not_lt.mpr hd)
    rw [if_pos hd]; exact ends_ok.mpr (.inl ⟨hl, rfl⟩)
  · rw [if_neg hd]
    by_cases hl : seq ∈ rt.leased
    · rw [if_neg (not_not.mpr hl)]
      exact (flushCompletedPrefix_ends (accounted_marked h hl)).mono
        (fun _ _ hrt' => .inr ⟨hl, hrt'⟩) (fun _ _ hrt' => .inr ⟨hl, hrt'⟩)
    · rw [if_pos hl]; exact ends_error.mpr (.inl ⟨hl, rfl⟩)

theorem recoverLeases_ends (h : Allowed rt.spool → Accounted rt) : Ends (recoverLeases rt)
      (fun _ rt' => Allowed rt.spool ∧ ((rt.leased = ∅ ∧ rt' = rt) ∨
        Rebuilt { rt with leased := ∅ } rt'))
      (fun _ rt' => ¬ Allowed rt.spool ∧ rt' = rt) := by
  unfold recoverLeases
  cases ha : rt.spool.ensureMutationsAllowed with
  | error e => exact ends_error.mpr ⟨fun hok => (by cases ha.symm.trans hok), rfl⟩
  | ok u =>
    by_cases he : rt.leased = ∅
    · simp only [if_pos he]; exact ends_ok.mpr ⟨ha, .inl ⟨he, rfl⟩⟩
    simp only [if_neg he]
    have ho : Owns { rt with leased := ∅ } := by
      refine ⟨(h ha).kept, Finset.disjoint_empty_left _, ?_⟩
      rintro seq (hseq | hseq)
      · cases hseq
      · exact (h ha).pending seq (.inr (.inr hseq))
    obtain ⟨rt', hrun, hr⟩ := rebuildScheduler_rebuilt ho
    rw [bind_of_ok hrun]; exact ends_ok.mpr ⟨ha, .inr hr⟩

end Resolving

/-! ## Changes of the spool -/

section Machines

variable {rt : HostAdmissionRuntime} {l l' : List SpoolRecord} {r : SpoolRecord} {m : Machine}

theorem seq_eq_of_stripped {r' : SpoolRecord} (h : r.stripped = r'.stripped) : r.seq = r'.seq := by
  have hseq : r.stripped.seq = r'.stripped.seq := congrArg SpoolRecord.seq h
  exact hseq

theorem filter_map_of_stripped {β : Type} {p : SpoolRecord → Bool} {f : SpoolRecord → β}
    (hp : ∀ r, p r.stripped = p r) (hf : ∀ r, f r.stripped = f r)
    (h : l'.map stripped = l.map stripped) :
    (l'.filter p).map f = (l.filter p).map f := by
  refine eq_of_stripped_eq h (fun l => (l.filter p).map f) fun l => ?_
  have hc : p ∘ stripped = p := funext hp
  rw [filter_map, map_map, hc]; exact map_congr_left fun r _ => hf r

theorem Tracks.onMachine (h : Tracks rt) (hk : Kept m.spool) (hb : m.spool.bounds = rt.spool.bounds)
    (hs : m.spool.pending.map stripped = l.map stripped)
    (hp : ∀ seq, TrackedSeq rt seq → ∃ r ∈ l, r.seq = seq)
    (hq : (l.filter fun r => r.seq ∈ rt.queued) =
      rt.spool.pending.filter fun r => r.seq ∈ rt.queued) : Tracks { rt with machine := m } := by
  refine ⟨hk, ?_, h.balanced, h.queuedLeased, h.queuedCompleted, h.leasedCompleted, ?_, ?_⟩
  · exact h.bounds.trans (congrArg _ hb.symm)
  · intro seq hseq
    obtain ⟨r, hr, rfl⟩ := hp seq hseq
    obtain ⟨r', hr', heq⟩ := mem_of_stripped_eq hs.symm hr
    exact ⟨r', hr', seq_eq_of_stripped heq⟩
  · refine h.queues.trans ?_
    rw [← hq]; exact List.Perm.of_eq (filter_map_of_stripped (fun _ => rfl) (fun _ => rfl) hs.symm)

structure Quarantined (rt : HostAdmissionRuntime) (seq : Nat) (rt' : HostAdmissionRuntime) :
    Prop where
  accounted : Accounted rt'
  inOrder : InOrder rt'
  leased : rt'.leased = rt.leased.erase seq
  completed : rt'.completed ⊆ rt.completed
  pending : ∀ r ∈ rt'.spool.pending, ∃ r0 ∈ rt.spool.pending, r0.stripped = r.stripped
  kept : ∀ r ∈ rt'.spool.pending, r.seq ∈ rt.completed → r.seq ∈ rt'.completed

theorem eraseP_seq_eq_filter (h : l.Pairwise fun a b => a.seq < b.seq) :
    (l.eraseP fun r => r.seq = seq) = l.filter fun r => r.seq ≠ seq := by
  induction l with
  | nil => rfl
  | cons r l ih =>
    obtain ⟨hr, hl⟩ := pairwise_cons.mp h
    by_cases heq : r.seq = seq
    · rw [eraseP_cons_of_pos (by simpa using heq), filter_cons_of_neg (by simpa using heq), eq_comm,
        filter_eq_self]
      exact fun r' hr' => decide_eq_true (heq ▸ (hr r' hr').ne')
    · rw [eraseP_cons_of_neg (by simpa using heq), filter_cons_of_pos (by simpa using heq), ih hl]

theorem mem_eraseP_seq (h : l.Pairwise fun a b => a.seq < b.seq) :
    (r ∈ l.eraseP fun r => r.seq = seq) ↔ r ∈ l ∧ r.seq ≠ seq := by
  rw [eraseP_seq_eq_filter h, mem_filter, decide_eq_true_eq]

theorem accounted_terminated (h : Accounted rt) (hl : seq ∈ rt.leased)
    (hm : Terminated rt.spool m.spool seq) :
    Accounted { rt with
      machine := m
      leased := rt.leased.erase seq
      queued := rt.queued.erase seq
      completed := rt.completed.erase seq } := by
  have hq : seq ∉ rt.queued := Finset.disjoint_right.mp h.queuedLeased hl
  have hc : seq ∉ rt.completed := disjoint_left.mp h.leasedCompleted hl
  rw [Finset.erase_eq_of_notMem hq, Finset.erase_eq_of_notMem hc]
  have ht := h.toTracks.unlease seq
  refine ⟨ht.onMachine hm.kept hm.bounds hm.pending ?_ ?_, fun r hr => ?_⟩
  · intro seq' hs'
    obtain ⟨r, hr, rfl⟩ := ht.pending seq' hs'
    refine ⟨r, (mem_eraseP_seq h.kept.ordered).mpr ⟨hr, ?_⟩, rfl⟩
    rcases hs' with hin | hin | hin
    · exact fun heq => hq (heq ▸ hin)
    · exact Finset.ne_of_mem_erase hin
    · exact fun heq => hc (heq ▸ hin)
  · rw [eraseP_seq_eq_filter h.kept.ordered, filter_filter]
    refine filter_congr fun r _ => Bool.and_eq_left_iff_imp.mpr fun hin => ?_
    exact decide_eq_true fun heq => hq (heq ▸ of_decide_eq_true hin)
  · obtain ⟨r0, hr0, heq⟩ := mem_of_stripped_eq hm.pending hr
    obtain ⟨hmem, hne⟩ := (mem_eraseP_seq h.kept.ordered).mp hr0
    have hseq : r.seq = r0.seq := (seq_eq_of_stripped heq).symm
    rw [hseq]
    refine (h.tracked r0 hmem).imp_right (Or.imp_left fun hin => ?_)
    exact mem_erase.mpr ⟨hne, hin⟩

theorem quarantine_of_not_allowed (h : ¬ Allowed m.spool) (seq : Nat)
    (r : TerminalReason) : ∃ e, quarantine sha256 seq r m = .error e m := by
  unfold quarantine
  rw [bind_of_ok get_apply]
  cases ha : m.spool.ensureMutationsAllowed with
  | ok u => exact absurd ha h
  | error e => exact ⟨e, bind_of_error lift_error⟩

theorem Flushed.completed_of_mem (h : Accounted rt) (hf : Flushed rt rt')
    (hr : r ∈ rt'.spool.pending) (hd : r.seq ∈ rt.completed) :
    r.seq ∈ rt'.completed := by
  rcases hf.accounted.tracked r hr with hin | hin | hin
  · rw [hf.queued] at hin; exact absurd hd (disjoint_left.mp h.queuedCompleted hin)
  · rw [hf.leased] at hin; exact absurd hd (disjoint_left.mp h.leasedCompleted hin)
  · exact hin

structure Unquarantined (rt rt' : HostAdmissionRuntime) : Prop where
  blocked : ¬ Allowed rt'.spool
  pending : ∀ r ∈ rt'.spool.pending, ∃ r0 ∈ rt.spool.pending, r0.stripped = r.stripped
  completed : rt'.completed = rt.completed

structure SameRuntime (rt rt' : HostAdmissionRuntime) : Prop where
  spool : rt'.spool = rt.spool
  scheduler : rt'.scheduler = rt.scheduler
  queued : rt'.queued = rt.queued
  leased : rt'.leased = rt.leased
  completed : rt'.completed = rt.completed

theorem SameRuntime.refl (rt : HostAdmissionRuntime) : SameRuntime rt rt := ⟨rfl, rfl, rfl, rfl, rfl⟩

theorem toOutcome_ne_quarantineFull {e : SpoolError} (h : e ≠ .quarantineFull) :
    e.toOutcome ≠ .quarantineFull := by
  unfold SpoolError.toOutcome
  split <;> first | exact absurd rfl h | decide

theorem runtime_quarantine_ends (h : Accounted rt) (seq : Nat) (reason : TerminalReason) :
    Ends (HostAdmissionRuntime.quarantine sha256 seq reason rt)
      (fun _ rt' => seq ∈ rt.leased ∧ Quarantined rt seq rt')
      (fun e rt' => SameRuntime rt rt' ∨ (e ≠ .quarantineFull ∧ Unquarantined rt rt')) := by
  unfold HostAdmissionRuntime.quarantine
  by_cases hl : seq ∈ rt.leased
  swap
  · rw [if_pos hl]; exact ends_error.mpr (.inl (SameRuntime.refl rt))
  rw [if_neg (not_not.mpr hl)]
  have hsub : ∀ m : Machine, Terminated rt.spool m.spool seq → ∀ r ∈ m.spool.pending,
      ∃ r0 ∈ rt.spool.pending, r0.stripped = r.stripped := by
    intro m ht r hr
    obtain ⟨r0, hr0, heq⟩ := mem_of_stripped_eq ht.pending hr
    exact ⟨r0, mem_of_mem_eraseP hr0, heq⟩
  obtain ⟨u, m, hrun, ht, hallowed⟩ | ⟨e, m, hrun, hq⟩ := (quarantine_ends h.kept seq reason).cases
  swap
  · rw [hrun]
    rcases hq with hsame | ⟨he, hb, hp⟩
    · exact ends_error.mpr (.inl ⟨hsame, rfl, rfl, rfl, rfl⟩)
    · refine ends_error.mpr (.inr ⟨toOutcome_ne_quarantineFull he, hb, fun r hr => ?_, rfl⟩)
      rcases hp with hp | ht
      · exact ⟨r, hp ▸ hr, rfl⟩
      · exact hsub m ht r hr
  · rw [hrun]
    have ha := accounted_terminated h hl ht
    refine Ends.bind ((flushCompletedPrefix_ends ha).mono (fun _ _ hf => hf) ?_) ?_
    · -- the spool has just taken a mutation
      intro _ rt' hrt'
      have hs : rt'.spool = m.spool := congrArg Machine.spool hrt'.rebuilt.machine
      have hb : ¬ Allowed rt.machine.spool := hallowed.not.mp (hs ▸ hrt'.blocked)
      obtain ⟨e, he⟩ : ∃ e, quarantine sha256 seq reason rt.machine = .error e rt.machine :=
        quarantine_of_not_allowed hb seq reason
      cases he.symm.trans hrun
    · intro _ rt2 hflushed
      obtain ⟨rt', hr', hrebuilt⟩ := rebuildScheduler_rebuilt hflushed.accounted.owns
      rw [bind_of_ok hr']
      have hs : rt'.spool = rt2.spool := congrArg Machine.spool hrebuilt.machine
      obtain ⟨front, hfront, -⟩ := hflushed.pending
      have hmem : ∀ r ∈ rt'.spool.pending, r ∈ m.spool.pending := by
        intro r hr
        have hall : m.spool.pending = front ++ rt2.spool.pending := hfront
        rw [hall]; exact mem_append_right _ (hs ▸ hr)
      refine ends_ok.mpr ⟨hl, hrebuilt.accounted, hrebuilt.inOrder, ?_, ?_, ?_, ?_⟩
      · rw [hrebuilt.leased, hflushed.leased]
      · rw [hrebuilt.completed]; exact hflushed.completed.trans (Finset.erase_subset _ _)
      · exact fun r hr => hsub m ht r (hmem r hr)
      · intro r hr hd
        rw [hrebuilt.completed]
        refine hflushed.completed_of_mem ha (hs ▸ hr) (mem_erase.mpr ⟨?_, hd⟩)
        rintro rfl; exact absurd hd (disjoint_left.mp h.leasedCompleted hl)

end Machines

/-! ## Admitting -/

variable {rt : HostAdmissionRuntime}

/-- What admission answers where the spool appended. -/
def admission : Except SpoolError SpoolRecord → Except HostAdmissionOutcome DurableHostAdmission
  | .ok record => .ok ⟨record.seq, .acceptedForReplay⟩
  | .error e => .error e.toOutcome

theorem scheduleEach_stripped {l l' : List SpoolRecord} (h : l'.map stripped = l.map stripped) :
    scheduleEach l' = scheduleEach l := by
  refine eq_of_stripped_eq h scheduleEach fun l => ?_
  induction l with
  | nil => rfl
  | cons r l ih => rw [map_cons, scheduleEach, ih]; rfl

theorem finishSchedule_eq_ok {a : FairEnqueueOutcome × FairSourceScheduler}
    (h : finishSchedule seq a rt = .ok () rt') :
    rt' = { rt with scheduler := a.2, queued := insert seq rt.queued } := by
  unfold finishSchedule at h
  split at h
  · exact (EStateM.Result.ok.inj h).2.symm
  all_goals cases h

/-- Where the appended records can be scheduled one by one, every answer is the spool's. -/
theorem scheduleAppended_eq {rs : List (Except SpoolError SpoolRecord)}
    (h : scheduleEach (accepted rs) rt = .ok () rt')
    (hnew : ∀ r ∈ accepted rs, ¬ TrackedSeq rt r.seq)
    (hn : ((accepted rs).map (·.seq)).Nodup) :
    scheduleAppended rs rt = (rs.map admission, rt') := by
  induction rs generalizing rt with
  | nil => cases h; rfl
  | cons result rs ih =>
    cases result with
    | error e => rw [scheduleAppended, ih h hnew hn]; rfl
    | ok record =>
      change ((record :: accepted rs).map (·.seq)).Nodup at hn
      rw [map_cons, nodup_cons] at hn
      obtain ⟨⟨⟩, rt1, hf, hrest⟩ := Stateful.bind_eq_ok.mp h
      have hone : scheduleRecord record rt = .ok () rt1 :=
        (if_neg (hnew record mem_cons_self)).symm.trans hf
      have hr1 := finishSchedule_eq_ok hone
      have hl := ih hrest (fun r hr ht => ?_) hn.2
      · simp only [scheduleAppended, hone, hl, map_cons, admission]
      · have hne : r.seq ≠ record.seq := by
          intro heq; exact hn.1 (heq ▸ mem_map_of_mem hr)
        refine hnew r (mem_cons_of_mem _ hr) ?_
        rw [hr1] at ht; simpa only [TrackedSeq, mem_insert, hne, false_or] using ht

/-- What an admission leaves: the accepted records are queued, behind all others of their sources. -/
structure Admitted (rt : HostAdmissionRuntime) (recs : List SpoolRecord)
    (rt' : HostAdmissionRuntime) : Prop where
  accounted : Accounted rt'
  leased : rt'.leased = rt.leased
  completed : rt'.completed = rt.completed
  queued : ∀ seq, seq ∈ rt'.queued ↔ seq ∈ rt.queued ∨ ∃ r ∈ recs, r.seq = seq
  pending : rt'.spool.pending.map stripped = (rt.spool.pending ++ recs).map stripped
  lines : ∀ source, line rt'.scheduler.queues source = line rt.scheduler.queues source ++
    (recs.filter fun r => r.source = source).map scheduled

theorem admitBatch_admitted (h : Accounted rt) (i : List (String × Bytes)) :
    (HostAdmissionRuntime.admitBatch sha256 i rt).1 =
        (appendBatch sha256 i rt.machine).1.map admission ∧
      Admitted rt (accepted (appendBatch sha256 i rt.machine).1)
        (HostAdmissionRuntime.admitBatch sha256 i rt).2 := by
  have ha : Appended rt.spool (appendBatch sha256 i rt.machine).2.spool
      (accepted (appendBatch sha256 i rt.machine).1) := appendBatch_appended h.kept i
  unfold HostAdmissionRuntime.admitBatch
  generalize appendBatch sha256 i rt.machine = answer at ha
  obtain ⟨results, m⟩ := answer
  generalize hrecs : accepted results = recs at ha
  have hs := ha.pending
  -- the records as they stand in the spool
  obtain ⟨old, new, hsplit, hold, hnew⟩ := map_eq_append_iff.mp (hs.trans map_append)
  have ho := ha.kept.ordered
  rw [hsplit, pairwise_append] at ho
  have hseqs : ∀ r ∈ recs, ∃ r' ∈ new, r'.seq = r.seq := by
    intro r hr
    obtain ⟨r', hr', heq⟩ := mem_of_stripped_eq hnew.symm hr
    exact ⟨r', hr', seq_eq_of_stripped heq⟩
  -- they are new, so nothing tracks them
  have hfresh : ∀ r ∈ recs, ¬ TrackedSeq rt r.seq := by
    intro r hr ht
    obtain ⟨r0, hr0, he0⟩ := h.pending r.seq ht
    obtain ⟨r1, hr1, he1⟩ := mem_of_stripped_eq hold.symm hr0
    obtain ⟨r', hr', heq⟩ := hseqs r hr
    have hlt := ho.2.2 r1 hr1 r' hr'
    rw [seq_eq_of_stripped he1, he0, heq] at hlt; exact lt_irrefl _ hlt
  have hn : (recs.map (·.seq)).Nodup := by
    rw [eq_of_stripped_eq hnew.symm (map (·.seq)) fun _ => map_map]; exact seqs_nodup ho.2.1
  have htracks : Tracks { rt with machine := m } := by
    refine h.onMachine ha.kept ha.bounds hs ?_ ?_
    · intro seq hseq
      obtain ⟨r, hr, rfl⟩ := h.pending seq hseq
      exact ⟨r, mem_append_left _ hr, rfl⟩
    · have hnone : (recs.filter fun r => decide (r.seq ∈ rt.queued)) = [] :=
        filter_eq_nil_iff.mpr fun r hr hin => hfresh r hr (.inl (of_decide_eq_true hin))
      rw [filter_append, hnone, append_nil]
  have hsub : new.Sublist m.spool.pending := hsplit ▸ sublist_append_right old new
  obtain ⟨rt', hrun, hc⟩ := scheduleEach_caught htracks hsub
  rw [scheduleEach_stripped hnew, ← hrecs] at hrun
  have happended := scheduleAppended_eq hrun (hrecs.symm ▸ hfresh) (hrecs.symm ▸ hn)
  rw [happended]
  have hspool : rt'.spool = m.spool := congrArg Machine.spool hc.machine
  have hf' : ∀ r ∈ new, ¬ TrackedSeq { rt with machine := m } r.seq := by
    intro r hr
    obtain ⟨r0, hr0, heq⟩ := mem_of_stripped_eq hnew hr
    exact seq_eq_of_stripped heq ▸ hfresh r0 hr0
  have hq : ∀ seq, seq ∈ rt'.queued ↔ seq ∈ rt.queued ∨ ∃ r ∈ recs, r.seq = seq := by
    intro seq
    rw [hc.queued]
    refine or_congr_right ?_
    constructor
    · rintro ⟨r, hr, -, rfl⟩
      obtain ⟨r0, hr0, heq⟩ := mem_of_stripped_eq hnew hr
      exact ⟨r0, hr0, seq_eq_of_stripped heq⟩
    · rintro ⟨r, hr, rfl⟩; obtain ⟨r', hr', heq⟩ := hseqs r hr; exact ⟨r', hr', hf' r' hr', heq⟩
  refine ⟨rfl, ⟨hc.tracks, fun r hr => ?_⟩, hc.leased, hc.completed, hq, ?_, fun source => ?_⟩
  · rw [hspool] at hr
    obtain ⟨r0, hr0, heq⟩ := mem_of_stripped_eq hs hr
    rw [← seq_eq_of_stripped heq, hc.leased, hc.completed, hq]
    rcases mem_append.mp hr0 with hr0 | hr0
    · exact (h.tracked r0 hr0).imp_left .inl
    · exact .inl (.inr ⟨r0, hr0, rfl⟩)
  · rw [hspool]; exact hs
  · rw [hc.lines]
    refine congrArg _ ?_
    have hall : (new.filter fun r => r.source = source ∧
        ¬ TrackedSeq { rt with machine := m } r.seq) = new.filter fun r => r.source = source :=
      filter_congr fun r hr => by simp [hf' r hr]
    rw [hall]; exact filter_map_of_stripped (fun _ => rfl) (fun _ => rfl) hnew

end TraceDecay.Admission
