import TraceDecay.Admission.Opening
import TraceDecay.Admission.Runtime
import TraceDecay.Admission.ScheduleCorrect

/-!
# Admission.RuntimeCorrect

The runtime accounts for every durable record: it is queued, leased or completed, and the
scheduler's queues are the queued ones (`Accounted`). Every call keeps that, as long as the spool
takes mutations.
-/

namespace TraceDecay.Admission

open Stateful List
open FairSourceScheduler (references line Balanced Allows weight)
open HostAdmissionRuntime (defer leaseNext leasePopped rebuildScheduler scheduleEach
  scheduleMissing scheduleRecord scheduleUntracked tryLeaseNext)
open Finset (disjoint_left erase_subset mem_erase mem_insert mem_insert_of_mem notMem_erase)

def scheduled (r : SpoolRecord) : ScheduledRecord := ⟨r.seq, r.payload.length⟩

def reference (r : SpoolRecord) : String × ScheduledRecord := (r.source, scheduled r)

/-- The runtime tracks no record twice and none that is not pending, and the scheduler's queues are
the queued ones. -/
structure Tracks (rt : HostAdmissionRuntime) : Prop where
  kept : Kept rt.spool
  bounds : rt.scheduler.bounds = runtimeScheduleBounds rt.spool.bounds
  balanced : Balanced rt.scheduler
  queuedLeased : Disjoint rt.queued rt.leased
  queuedCompleted : Disjoint rt.queued rt.completed
  leasedCompleted : Disjoint rt.leased rt.completed
  pending : ∀ seq, seq ∈ rt.queued ∨ seq ∈ rt.leased ∨ seq ∈ rt.completed →
    ∃ r ∈ rt.spool.pending, r.seq = seq
  queues : (references rt.scheduler.queues).Perm
    ((rt.spool.pending.filter fun r => r.seq ∈ rt.queued).map reference)

structure Accounted (rt : HostAdmissionRuntime) : Prop extends Tracks rt where
  tracked : ∀ r ∈ rt.spool.pending, r.seq ∈ rt.queued ∨ r.seq ∈ rt.leased ∨ r.seq ∈ rt.completed

/-! ## Pending records by their sequence -/

section Sequences

variable {l : List SpoolRecord} {r r' : SpoolRecord}

variable (h : l.Pairwise fun a b => a.seq < b.seq)
include h

theorem seqs_nodup : (l.map (·.seq)).Nodup := pairwise_map.mpr (h.imp fun hlt => hlt.ne)

theorem nodup_of_ordered : l.Nodup := (seqs_nodup h).of_map _

theorem eq_of_seq_eq (hr : r ∈ l) (hr' : r' ∈ l) (heq : r.seq = r'.seq) : r = r' :=
  inj_on_of_nodup_map (seqs_nodup h) hr hr' heq

theorem find_seq (hr : r ∈ l) : (l.find? fun x => x.seq = r.seq) = some r := by
  obtain ⟨found, hf⟩ : ∃ found, (l.find? fun x => x.seq = r.seq) = some found :=
    Option.isSome_iff_exists.mp (find?_isSome.mpr ⟨r, hr, decide_eq_true rfl⟩)
  have hseq : found.seq = r.seq := by simpa using find?_some hf
  rw [hf, eq_of_seq_eq h (mem_of_find?_eq_some hf) hr hseq]

theorem filter_insert_perm (hr : r ∈ l) {seqs : Finset Nat} (hnew : r.seq ∉ seqs) :
    (l.filter fun x => x.seq ∈ insert r.seq seqs).Perm
      (r :: l.filter fun x => x.seq ∈ seqs) := by
  have hn := nodup_of_ordered h
  refine (perm_ext_iff_of_nodup (hn.filter _)
    (nodup_cons.mpr ⟨fun hmem => ?_, hn.filter _⟩)).mpr fun x => ?_
  · exact hnew (by simpa using (mem_filter.mp hmem).2)
  · simp only [mem_filter, mem_cons, mem_insert, decide_eq_true_eq]
    constructor
    · rintro ⟨hmem, heq | hin⟩
      · exact .inl (eq_of_seq_eq h hmem hr heq)
      · exact .inr ⟨hmem, hin⟩
    · rintro (rfl | ⟨hmem, hin⟩)
      · exact ⟨hr, .inl rfl⟩
      · exact ⟨hmem, .inr hin⟩

end Sequences

/-! ## Scheduling -/

section Scheduling

variable {rt : HostAdmissionRuntime} {r : SpoolRecord} {b : SpoolBounds} {l : List SpoolRecord}

theorem weight_reference_le (h : Sized b r) : weight (reference r) ≤ r.framedLen := by
  rw [h.framed]
  simp only [weight, reference, scheduled, framedLenOf]; omega

/-- Records that fit the spool fit the scheduler, which does not count their framing. -/
theorem allows_of_within (h : Within b l)
    (hs : ∀ r ∈ l, Sized b r) : Allows (runtimeScheduleBounds b) (l.map reference) := by
  have hw : ∀ l' : List SpoolRecord, l'.Sublist l →
      ((l'.map reference).map weight).sum ≤ (l'.map (·.framedLen)).sum := by
    intro l' hl'
    rw [map_map]; exact sum_le_sum fun r hr => weight_reference_le (hs r (hl'.subset hr))
  have hf : ∀ s, (l.map reference).filter (fun ref => ref.1 = s) =
      (l.filter fun r => r.source = s).map reference := by
    intro s
    rw [filter_map]; rfl
  refine ⟨?_, ?_, fun s => ?_, fun s => ?_⟩
  · rw [length_map]; exact h.records
  · exact (hw l (List.Sublist.refl _)).trans h.bytes
  · rw [hf, length_map]; exact h.sourceRecords s
  · rw [hf]; exact (hw _ filter_sublist).trans (h.sourceBytes s)

def withQueued (rt : HostAdmissionRuntime) (r : SpoolRecord) (front : Bool) :
    HostAdmissionRuntime :=
  { rt with
    scheduler := rt.scheduler.enqueued r.source (scheduled r) front
    queued := insert r.seq rt.queued }

theorem Tracks.enqueue (h : Tracks rt) (hr : r ∈ rt.spool.pending) (hnew : r.seq ∉ rt.queued)
    (f : Bool) :
    ∃ t p, rt.scheduler.tryEnqueueRecord r.source r.seq r.payload.length f =
        (.accepted t p, rt.scheduler.enqueued r.source (scheduled r) f) := by
  have hs := h.kept.sized r hr
  refine FairSourceScheduler.tryEnqueueRecord_eq h.balanced f ?_ ?_ ?_
  · rw [h.bounds]; exact hs.source
  · rw [h.bounds]; exact hs.payload
  · have hp := ((filter_insert_perm h.kept.ordered hr hnew).map reference).trans
      (List.Perm.cons _ h.queues.symm)
    rw [h.bounds]
    refine Allows.perm ?_ hp
    have hsub : (rt.spool.pending.filter fun x =>
        decide (x.seq ∈ insert r.seq rt.queued)).Sublist rt.spool.pending :=
      filter_sublist
    exact allows_of_within (h.kept.within.sublist hsub) fun r' hr' => h.kept.sized r' (hsub.subset hr')

theorem Tracks.withQueued (h : Tracks rt) (hr : r ∈ rt.spool.pending) (hq : r.seq ∉ rt.queued)
    (hl : r.seq ∉ rt.leased) (hc : r.seq ∉ rt.completed) (f : Bool) : Tracks (withQueued rt r f) := by
  refine ⟨h.kept, h.bounds, h.balanced.enqueued _ _ _, ?_, ?_, h.leasedCompleted, ?_, ?_⟩
  · exact Finset.disjoint_insert_left.mpr ⟨hl, h.queuedLeased⟩
  · exact Finset.disjoint_insert_left.mpr ⟨hc, h.queuedCompleted⟩
  · rintro seq (hseq | hseq | hseq)
    · rcases mem_insert.mp hseq with rfl | hseq
      · exact ⟨r, hr, rfl⟩
      · exact h.pending seq (.inl hseq)
    · exact h.pending seq (.inr (.inl hseq))
    · exact h.pending seq (.inr (.inr hseq))
  · refine (FairSourceScheduler.references_place _).trans ?_
    exact (List.Perm.cons _ h.queues).trans
      ((filter_insert_perm h.kept.ordered hr hq).map reference).symm

theorem scheduleRecord_ok (h : Tracks rt) (hr : r ∈ rt.spool.pending) (hnew : r.seq ∉ rt.queued) :
    scheduleRecord r rt = .ok () (withQueued rt r false) := by
  obtain ⟨total, pending, ha⟩ := h.enqueue hr hnew false
  unfold scheduleRecord FairSourceScheduler.tryEnqueueReference
  rw [ha]; rfl

def TrackedSeq (rt : HostAdmissionRuntime) (seq : Nat) : Prop :=
  seq ∈ rt.queued ∨ seq ∈ rt.leased ∨ seq ∈ rt.completed

instance (rt : HostAdmissionRuntime) (seq : Nat) : Decidable (TrackedSeq rt seq) :=
  inferInstanceAs (Decidable (_ ∨ _))

/-- What scheduling the untracked records of `l` leaves: they are queued, behind what was queued of
their sources. -/
structure Caught (rt : HostAdmissionRuntime) (l : List SpoolRecord) (rt' : HostAdmissionRuntime) :
    Prop where
  tracks : Tracks rt'
  machine : rt'.machine = rt.machine
  leased : rt'.leased = rt.leased
  completed : rt'.completed = rt.completed
  queued : ∀ seq, seq ∈ rt'.queued ↔ seq ∈ rt.queued ∨ ∃ r ∈ l, ¬ TrackedSeq rt r.seq ∧ r.seq = seq
  lines : ∀ source, line rt'.scheduler.queues source = line rt.scheduler.queues source ++
    ((l.filter fun r => r.source = source ∧ ¬ TrackedSeq rt r.seq).map scheduled)

theorem caught_nil (h : Tracks rt) : Caught rt [] rt := ⟨h, rfl, rfl, rfl, by simp, by simp⟩

theorem scheduleEach_caught (h : Tracks rt) (hl : l.Sublist rt.spool.pending) :
    ∃ rt', scheduleEach l rt = .ok () rt' ∧ Caught rt l rt' := by
  induction l generalizing rt with
  | nil => exact ⟨rt, rfl, caught_nil h⟩
  | cons r l ih =>
    have hr : r ∈ rt.spool.pending := hl.subset mem_cons_self
    have hrest : l.Sublist rt.spool.pending := (sublist_cons_self r l).trans hl
    rw [scheduleEach]
    by_cases ht : TrackedSeq rt r.seq
    · have hskip : scheduleUntracked r rt = .ok () rt := if_pos ht
      rw [bind_of_ok hskip]
      obtain ⟨rt', hrun, hc⟩ := ih h hrest
      refine ⟨rt', hrun, hc.tracks, hc.machine, hc.leased, hc.completed, ?_, ?_⟩
      · intro seq; rw [hc.queued]; simp [ht]
      · intro source; rw [hc.lines]; simp [ht]
    · obtain ⟨hq, hleased, hdone⟩ : r.seq ∉ rt.queued ∧ r.seq ∉ rt.leased ∧
          r.seq ∉ rt.completed := by simpa [TrackedSeq] using ht
      have hone : scheduleUntracked r rt = .ok () (withQueued rt r false) :=
        (if_neg ht).trans (scheduleRecord_ok h hr hq)
      rw [bind_of_ok hone]
      obtain ⟨rt', hrun, hc⟩ := ih (h.withQueued hr hq hleased hdone false) hrest
      -- the rest of `l` has other sequences, so `r` is tracked only for itself
      have hne : ∀ r' ∈ l, r'.seq ≠ r.seq := by
        have ho := h.kept.ordered.sublist hl
        rw [pairwise_cons] at ho; exact fun r' hr' => (ho.1 r' hr').ne'
      have hsame : ∀ r' ∈ l, TrackedSeq (withQueued rt r false) r'.seq ↔ TrackedSeq rt r'.seq := by
        intro r' hr'; simp only [TrackedSeq, withQueued, mem_insert, hne r' hr', false_or]
      refine ⟨rt', hrun, hc.tracks, hc.machine, hc.leased, hc.completed, ?_, ?_⟩
      · intro seq
        rw [hc.queued]
        constructor
        · rintro (hseq | ⟨r', hr', hnot, rfl⟩)
          · rcases mem_insert.mp hseq with rfl | hseq
            · exact .inr ⟨r, mem_cons_self, ht, rfl⟩
            · exact .inl hseq
          · exact .inr ⟨r', mem_cons_of_mem _ hr', (hsame r' hr').not.mp hnot, rfl⟩
        · rintro (hseq | ⟨r', hr', hnot, rfl⟩)
          · exact .inl (mem_insert_of_mem hseq)
          · rcases mem_cons.mp hr' with rfl | hr'
            · exact .inl (Finset.mem_insert_self _ _)
            · exact .inr ⟨r', hr', (hsame r' hr').not.mpr hnot, rfl⟩
      · intro source
        have hf : (l.filter fun r' => r'.source = source ∧
            ¬ TrackedSeq (withQueued rt r false) r'.seq) =
            l.filter fun r' => r'.source = source ∧ ¬ TrackedSeq rt r'.seq :=
          filter_congr fun r' hr' => by simp only [hsame r' hr']
        have hline : line (withQueued rt r false).scheduler.queues source =
            if source = r.source then line rt.scheduler.queues r.source ++ [scheduled r]
            else line rt.scheduler.queues source := FairSourceScheduler.line_place _ _
        rw [hc.lines, hf, hline]
        by_cases hs : source = r.source
        · subst hs; simp [ht]
        · have hs' : ¬ r.source = source := fun heq => hs heq.symm; simp [hs, hs']

theorem scheduleMissing_caught (h : Tracks rt) : ∃ rt', scheduleMissing rt = .ok () rt' ∧
      Caught rt rt.spool.pending rt' ∧ Accounted rt' := by
  obtain ⟨rt', hrun, hc⟩ := scheduleEach_caught h (List.Sublist.refl rt.spool.pending)
  refine ⟨rt', hrun, hc, hc.tracks, fun r hr => ?_⟩
  have hr : r ∈ rt.spool.pending := by rw [HostAdmissionRuntime.spool, hc.machine] at hr; exact hr
  rw [hc.leased, hc.completed, hc.queued]
  by_cases ht : TrackedSeq rt r.seq
  · exact ht.imp_left .inl
  · exact .inl (.inr ⟨r, hr, ht, rfl⟩)

/-- A runtime whose leases and completed records are pending, whatever its scheduler holds. -/
structure Owns (rt : HostAdmissionRuntime) : Prop where
  kept : Kept rt.spool
  leasedCompleted : Disjoint rt.leased rt.completed
  pending : ∀ seq, seq ∈ rt.leased ∨ seq ∈ rt.completed → ∃ r ∈ rt.spool.pending, r.seq = seq

theorem Tracks.owns (h : Tracks rt) : Owns rt :=
  ⟨h.kept, h.leasedCompleted, fun seq hseq => h.pending seq (.inr hseq)⟩

/-- The queues hold the records of every source in the order of their sequences. -/
def InOrder (rt : HostAdmissionRuntime) : Prop :=
  ∀ source, (line rt.scheduler.queues source).Pairwise fun a b => a.seq < b.seq

/-- What a rebuild leaves: every record that is not leased or completed is queued, in order. -/
structure Rebuilt (rt rt' : HostAdmissionRuntime) : Prop where
  accounted : Accounted rt'
  machine : rt'.machine = rt.machine
  leased : rt'.leased = rt.leased
  completed : rt'.completed = rt.completed
  inOrder : InOrder rt'

theorem rebuildScheduler_rebuilt (h : Owns rt) :
    ∃ rt', rebuildScheduler rt = .ok () rt' ∧ Rebuilt rt rt' := by
  have ht : Tracks
      { rt with
        scheduler := FairSourceScheduler.new (runtimeScheduleBounds rt.spool.bounds)
        queued := ∅ } := by
    refine ⟨h.kept, rfl, FairSourceScheduler.balanced_new _, Finset.disjoint_empty_left _,
      Finset.disjoint_empty_left _, h.leasedCompleted, ?_, ?_⟩
    · rintro seq (hseq | hseq)
      · cases hseq
      · exact h.pending seq hseq
    · simp [FairSourceScheduler.new]
  obtain ⟨rt', hrun, hc, ha⟩ := scheduleMissing_caught ht
  refine ⟨rt', hrun, ha, hc.machine, hc.leased, hc.completed, fun s => ?_⟩
  rw [hc.lines]; exact pairwise_map.mpr (h.kept.ordered.sublist filter_sublist)

end Scheduling

/-! ## Leasing -/

variable {rt : HostAdmissionRuntime} {r : SpoolRecord}

theorem pendingRecord_of_mem (hs : Kept rt.spool) (hr : r ∈ rt.spool.pending) :
    rt.spool.pendingRecord r.seq = some r := find_seq hs.ordered hr

/-- A lease of `r`: it leaves the head of its source's line. -/
structure Leases (rt : HostAdmissionRuntime) (r : SpoolRecord) (rt' : HostAdmissionRuntime) :
    Prop where
  accounted : Accounted rt'
  mem : r ∈ rt.spool.pending
  machine : rt'.machine = rt.machine
  wasQueued : r.seq ∈ rt.queued
  queued : rt'.queued = rt.queued.erase r.seq
  leased : rt'.leased = insert r.seq rt.leased
  completed : rt'.completed = rt.completed
  lines : ∀ source, line rt.scheduler.queues source =
    (if source = r.source then [scheduled r] else []) ++ line rt'.scheduler.queues source

theorem scheduleMissing_of_accounted (h : Accounted rt) : scheduleMissing rt = .ok () rt := by
  have he : ∀ l : List SpoolRecord, (∀ r ∈ l, r ∈ rt.spool.pending) →
      scheduleEach l rt = .ok () rt := by
    intro l
    induction l with
    | nil => exact fun _ => rfl
    | cons r l ih =>
      intro hl
      have hs : scheduleUntracked r rt = .ok () rt := if_pos (h.tracked r (hl r mem_cons_self))
      rw [scheduleEach, bind_of_ok hs]; exact ih fun r' hr' => hl r' (mem_cons_of_mem _ hr')
  exact he _ fun _ hr => hr

/-- Moving a sequence from one set to another loses none. -/
theorem mem_moved {s t : Finset Nat} {moved seq : Nat} (h : moved ∈ s) :
    seq ∈ s.erase moved ∨ seq ∈ insert moved t ↔ seq ∈ s ∨ seq ∈ t := by
  by_cases hs : seq = moved <;> simp [hs, h]

theorem leaseNext_cases (h : Accounted rt) (fuel : Nat) : (rt.scheduler.totalPending = 0 ∧
      leaseNext (fuel + 1) rt = .ok none rt) ∨
    ∃ r rt', leaseNext (fuel + 1) rt = .ok (some r) rt' ∧ Leases rt r rt' := by
  rcases FairSourceScheduler.popNext_cases h.balanced with
    ⟨hz, hpop⟩ | ⟨source, record, s', hpop, hb, hbounds, -, hperm, hlines⟩
  · refine .inl ⟨hz, ?_⟩; simp only [leaseNext, hpop]
  right
  -- the reference is one of a queued pending record
  have hmem : (source, record) ∈ (rt.spool.pending.filter fun r => r.seq ∈ rt.queued).map
      reference := h.queues.subset (hperm.symm.subset mem_cons_self)
  obtain ⟨r, hr, href⟩ := mem_map.mp hmem
  obtain ⟨hp, hq⟩ := mem_filter.mp hr
  have hq : r.seq ∈ rt.queued := by simpa using hq
  obtain ⟨rfl, rfl⟩ : r.source = source ∧ scheduled r = record :=
    ⟨congrArg Prod.fst href, congrArg Prod.snd href⟩
  have hl : r.seq ∉ rt.leased := disjoint_left.mp h.queuedLeased hq
  have hc : r.seq ∉ rt.completed := disjoint_left.mp h.queuedCompleted hq
  have ht : ∀ seq, seq ∈ rt.queued.erase r.seq ∨ seq ∈ insert r.seq rt.leased ∨
      seq ∈ rt.completed ↔ TrackedSeq rt seq := by
    intro seq
    rw [← or_assoc, mem_moved hq, or_assoc]; rfl
  refine ⟨r, { rt with
    scheduler := s'
    queued := rt.queued.erase r.seq
    leased := insert r.seq rt.leased }, ?_, ?_⟩
  · have hf : rt.machine.spool.pendingRecord r.seq = some r := pendingRecord_of_mem h.kept hp
    simp only [leaseNext, hpop, leasePopped, scheduled,
      HostAdmissionRuntime.spool, hc, hl, or_self, if_false, hf]
  · refine ⟨⟨⟨h.kept, hbounds.trans h.bounds, hb, ?_, ?_, ?_, fun seq hseq => ?_, ?_⟩,
      fun r' hr' => (ht _).mpr (h.tracked r' hr')⟩, hp, rfl, hq, rfl, rfl, rfl, hlines⟩
    · refine Finset.disjoint_insert_right.mpr ⟨notMem_erase _ _, ?_⟩
      exact h.queuedLeased.mono_left (erase_subset _ _)
    · exact h.queuedCompleted.mono_left (erase_subset _ _)
    · exact Finset.disjoint_insert_left.mpr ⟨hc, h.leasedCompleted⟩
    · exact h.pending seq ((ht seq).mp hseq)
    · have hi : insert r.seq (rt.queued.erase r.seq) = rt.queued := Finset.insert_erase hq
      have hs := filter_insert_perm h.kept.ordered hp (notMem_erase r.seq rt.queued)
      rw [hi] at hs; exact (hperm.symm.trans (h.queues.trans (hs.map reference))).cons_inv

theorem tryLeaseNext_cases (h : Accounted rt) :
    (rt.scheduler.totalPending = 0 ∧ tryLeaseNext rt = .ok none rt) ∨
    ∃ r rt', tryLeaseNext rt = .ok (some r) rt' ∧ Leases rt r rt' := by
  have hm : (if rt.scheduler.totalPending = 0 then scheduleMissing
      else pure ()) rt = .ok () rt := by
    split
    · exact scheduleMissing_of_accounted h
    · rfl
  have hrun : tryLeaseNext rt = leaseNext (rt.scheduler.totalPending + 1) rt := by
    unfold tryLeaseNext
    rw [bind_of_ok get_apply, bind_of_ok hm, bind_of_ok get_apply]
  rw [hrun]; exact leaseNext_cases h _

/-- A deferred lease goes back to the head of its source's line. -/
structure Defers (rt : HostAdmissionRuntime) (r : SpoolRecord) (rt' : HostAdmissionRuntime) :
    Prop where
  accounted : Accounted rt'
  machine : rt'.machine = rt.machine
  queued : rt'.queued = insert r.seq rt.queued
  leased : rt'.leased = rt.leased.erase r.seq
  completed : rt'.completed = rt.completed
  lines : ∀ source, line rt'.scheduler.queues source =
    (if source = r.source then [scheduled r] else []) ++ line rt.scheduler.queues source

theorem Tracks.unlease (h : Tracks rt) (seq : Nat) :
    Tracks { rt with leased := rt.leased.erase seq } := by
  refine { h with
    queuedLeased := h.queuedLeased.mono_right (erase_subset _ _)
    leasedCompleted := h.leasedCompleted.mono_left (erase_subset _ _)
    pending := ?_ }
  rintro seq (hseq | hseq | hseq)
  · exact h.pending seq (.inl hseq)
  · exact h.pending seq (.inr (.inl (Finset.mem_of_mem_erase hseq)))
  · exact h.pending seq (.inr (.inr hseq))

theorem defer_cases (h : Accounted rt) (seq : Nat) :
    (seq ∉ rt.leased ∧ defer seq rt = .error .spoolAckConflict rt) ∨
    ∃ r ∈ rt.spool.pending, r.seq = seq ∧ ∃ rt', defer seq rt = .ok () rt' ∧ Defers rt r rt' := by
  by_cases hl : seq ∈ rt.leased
  swap
  · exact .inl ⟨hl, if_pos hl⟩
  obtain ⟨r, hr, rfl⟩ := h.pending seq (.inr (.inl hl))
  have hq : r.seq ∉ rt.queued := Finset.disjoint_right.mp h.queuedLeased hl
  have hc : r.seq ∉ rt.completed := disjoint_left.mp h.leasedCompleted hl
  have ht := h.toTracks.unlease r.seq
  obtain ⟨total, pending, ha⟩ := ht.enqueue hr hq true
  refine .inr ⟨r, hr, rfl, withQueued { rt with leased := rt.leased.erase r.seq } r true, ?_, ?_⟩
  · unfold defer FairSourceScheduler.requeueFrontReference
    rw [if_neg (not_not.mpr hl), pendingRecord_of_mem h.kept hr]
    simp only [ha]; rfl
  · refine ⟨⟨ht.withQueued hr hq (notMem_erase _ _) hc true, ?_⟩, rfl, rfl, rfl, rfl, fun s => ?_⟩
    · intro r' hr'
      exact or_assoc.mp ((or_assoc.mpr (h.tracked r' hr')).imp_left
        fun hin => ((mem_moved hl).mpr hin.symm).symm)
    · refine (FairSourceScheduler.line_place _ _).trans ?_
      by_cases hs : s = r.source
      · subst hs; simp
      · simp [hs]

end TraceDecay.Admission
