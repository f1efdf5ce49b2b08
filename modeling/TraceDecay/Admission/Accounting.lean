import TraceDecay.Admission.RuntimeCalls

/-!
# Admission.Accounting

The runtime from its opening on, through any calls: while the spool takes mutations every durable
record is queued, leased or completed, once, and the scheduler holds the queued ones.
-/

namespace TraceDecay.Admission

open Stateful Fallible List
open FairSourceScheduler (references retainedBy)
open HostAdmissionRuntime (ackCompleted admitBatch commit defer finishSchedule
  flushCompletedPrefix leaseNext leasePopped rebuildScheduler recoverLeases scheduleAppended
  scheduleEach scheduleMissing scheduleRecord tryLeaseNext)

variable {sha256 : Bytes → FixedBytes 32}

/-- The states of a runtime opened on any disk, under any write failures, after any calls. -/
inductive Reached (sha256 : Bytes → FixedBytes 32) : HostAdmissionRuntime → Prop
  | opened {bounds : SpoolBounds} {w : World} {rt : HostAdmissionRuntime} :
    HostAdmissionRuntime.open sha256 bounds w = .ok rt → Reached sha256 rt
  | call {rt : HostAdmissionRuntime} (c : RuntimeCall) :
    Reached sha256 rt → Reached sha256 (c.apply sha256 rt)

/-! ## A spool that takes no mutations -/

section Blocked

variable {rt : HostAdmissionRuntime}

def Untouched {α : Type} (rt : HostAdmissionRuntime) (x : RuntimeM α) : Prop :=
  Leaves (x rt) fun rt' => rt'.machine = rt.machine

theorem finishSchedule_untouched (seq : Nat) (a : FairEnqueueOutcome × FairSourceScheduler) :
    Untouched rt (finishSchedule seq a) := by
  unfold Untouched finishSchedule
  split <;> rfl

theorem scheduleEach_untouched (l : List SpoolRecord) : Untouched rt (scheduleEach l) := by
  induction l generalizing rt with
  | nil => exact rfl
  | cons r l ih =>
    refine Ends.bind (P := fun _ rt' => rt'.machine = rt.machine) ?_ fun _ rt' hrt' => ?_
    · unfold HostAdmissionRuntime.scheduleUntracked
      split
      · exact ends_ok.mpr rfl
      · exact finishSchedule_untouched _ _
    · exact hrt' ▸ ih

theorem rebuildScheduler_untouched : Untouched rt rebuildScheduler := scheduleEach_untouched _

theorem leaseNext_untouched (fuel : Nat) : Untouched rt (leaseNext fuel) := by
  induction fuel generalizing rt with
  | zero => exact rfl
  | succ fuel ih =>
    unfold Untouched leaseNext
    split
    · exact ends_ok.mpr rfl
    · unfold leasePopped
      split
      · exact ih
      · split
        · exact ends_error.mpr rfl
        · exact ends_ok.mpr rfl

theorem tryLeaseNext_untouched : Untouched rt tryLeaseNext := by
  unfold Untouched tryLeaseNext
  rw [bind_of_ok get_apply]
  refine Ends.bind (P := fun _ rt' => rt'.machine = rt.machine) ?_ fun _ rt' hrt' => ?_
  · split
    · exact scheduleEach_untouched _
    · exact ends_ok.mpr rfl
  · rw [bind_of_ok get_apply]; exact hrt' ▸ leaseNext_untouched _

theorem defer_untouched (rt : HostAdmissionRuntime) (seq : Nat) : Leaves (defer seq rt) fun rt' =>
    rt'.machine = rt.machine ∧ rt'.completed = rt.completed := by
  unfold defer finishSchedule
  split
  · exact ⟨rfl, rfl⟩
  · split
    · exact ⟨rfl, rfl⟩
    · split <;> exact ⟨rfl, rfl⟩

theorem scheduleAppended_untouched (r : List (Except SpoolError SpoolRecord)) :
    (scheduleAppended r rt).2.machine = rt.machine := by
  induction r generalizing rt with
  | nil => rfl
  | cons result r ih =>
    cases result with
    | error e => exact ih
    | ok record =>
      have hone : Untouched rt (scheduleRecord record) := finishSchedule_untouched _ _
      unfold scheduleAppended
      obtain ⟨_, rt', hrun, h⟩ | ⟨e, rt', hrun, h⟩ := Ends.cases hone
      · rw [hrun]; exact ih.trans h
      · rw [hrun]; exact ih.trans h

theorem flushCompletedPrefix_untouched (h : ¬ Allowed rt.spool) :
    Untouched rt flushCompletedPrefix := by
  unfold Untouched flushCompletedPrefix
  split
  · exact ends_ok.mpr rfl
  · rename_i through _
    obtain ⟨e, he⟩ := ackThrough_of_not_allowed h through
    simp only [ackCompleted, he]
    have hr : Untouched { rt with completed := ∅ } rebuildScheduler := rebuildScheduler_untouched
    exact hr.bind fun _ _ hrt' => ends_error.mpr hrt'

theorem call_of_not_allowed (h : ¬ Allowed rt.spool) (c : RuntimeCall) :
    (c.apply sha256 rt).machine = rt.machine := by
  have hr : ∀ e, rt.machine.spool.ensureMutationsAllowed ≠ .ok e := fun _ hok => h hok
  cases c with
  | admitBatch items =>
    refine (scheduleAppended_untouched _).trans ?_
    unfold appendBatch
    split
    · rfl
    · rename_i hok; exact absurd hok (hr _)
  | tryLeaseNext => exact tryLeaseNext_untouched.left (fun _ _ h => h) fun _ _ h => h
  | defer seq => exact (defer_untouched rt seq).left (fun _ _ h => h.1) fun _ _ h => h.1
  | recoverLeases =>
    change (left (recoverLeases rt)).machine = _
    unfold recoverLeases
    split
    · rfl
    · rename_i hok; exact absurd hok (hr _)
  | commit seq =>
    change (left (commit seq rt)).machine = _
    unfold commit
    split
    · rfl
    · split
      · rfl
      · have hb : ¬ Allowed { rt with
            leased := rt.leased.erase seq
            completed := insert seq rt.completed }.spool := h
        exact (flushCompletedPrefix_untouched hb).left (fun _ _ h => h) fun _ _ h => h
  | quarantine seq reason =>
    change (left (HostAdmissionRuntime.quarantine sha256 seq reason rt)).machine = _
    unfold HostAdmissionRuntime.quarantine
    split
    · rfl
    · obtain ⟨e, he⟩ : ∃ e, quarantine sha256 seq reason rt.machine = .error e rt.machine :=
        quarantine_of_not_allowed h seq reason
      rw [he]; rfl

end Blocked

/-! ## Runs -/

section Runs

variable {rt : HostAdmissionRuntime}

theorem accounted_open {b : SpoolBounds} {w : World}
    (h : HostAdmissionRuntime.open sha256 b w = .ok rt) :
    Accounted rt ∧ InOrder rt ∧ rt.completed = ∅ := by
  unfold HostAdmissionRuntime.open at h
  cases hopen : HostAdmissionSpool.open sha256 b w with
  | error e w' => rw [hopen] at h; cases h
  | ok opened w' =>
    obtain ⟨spool, report⟩ := opened
    simp only [hopen] at h
    by_cases hh : report.integrity = .healthy
    swap
    · rw [if_pos hh] at h; cases h
    rw [if_neg (not_not.mpr hh)] at h
    obtain ⟨hk, hb⟩ := open_kept hopen hh
    -- the first schedule is a rebuild of an empty runtime
    have ho : Owns ⟨⟨spool, w'⟩, FairSourceScheduler.new (runtimeScheduleBounds b), ∅, ∅, ∅⟩ :=
      ⟨hk, Finset.disjoint_empty_left _, by simp⟩
    obtain ⟨rt', hrun, hr⟩ := rebuildScheduler_rebuilt ho
    have hf : scheduleMissing
        ⟨⟨spool, w'⟩, FairSourceScheduler.new (runtimeScheduleBounds b), ∅, ∅, ∅⟩ =
        .ok () rt' := by
      rw [← hrun, ← hb]; rfl
    rw [hf] at h
    cases h
    exact ⟨hr.accounted, hr.inOrder, hr.completed⟩

theorem SameRuntime.accounted {rt' : HostAdmissionRuntime} (hs : SameRuntime rt rt')
    (h : Accounted rt) : Accounted rt' := by
  obtain ⟨m', scheduler', queued', leased', completed'⟩ := rt'
  obtain ⟨hspool, rfl, rfl, rfl, rfl⟩ := hs
  have hspool : m'.spool = rt.spool := hspool
  refine ⟨h.onMachine (hspool ▸ h.kept) (hspool ▸ rfl) (hspool ▸ rfl) h.pending rfl, ?_⟩
  change ∀ r ∈ m'.spool.pending, _
  rw [hspool]; exact h.tracked

theorem accounted_call (h : Accounted rt) (c : RuntimeCall) :
    Accounted (c.apply sha256 rt) ∨ ¬ Allowed (c.apply sha256 rt).spool := by
  cases c with
  | admitBatch items => exact .inl (admitBatch_admitted h items).2.accounted
  | tryLeaseNext =>
    left
    change Accounted (Stateful.left (tryLeaseNext rt))
    rcases tryLeaseNext_cases h with ⟨-, hrun⟩ | ⟨r, rt', hrun, hleases⟩
    · rw [hrun]; exact h
    · rw [hrun]; exact hleases.accounted
  | defer seq =>
    left
    change Accounted (Stateful.left (defer seq rt))
    rcases defer_cases h seq with ⟨-, hrun⟩ | ⟨r, -, -, rt', hrun, hd⟩
    · rw [hrun]; exact h
    · rw [hrun]; exact hd.accounted
  | recoverLeases =>
    refine (recoverLeases_ends fun _ => h).left
      (P := fun rt' => Accounted rt' ∨ ¬ Allowed rt'.spool) ?_ ?_
    · rintro _ rt' ⟨-, ⟨-, rfl⟩ | hrebuilt⟩
      · exact .inl h
      · exact .inl hrebuilt.accounted
    · rintro _ rt' ⟨-, rfl⟩; exact .inl h
  | commit seq =>
    refine (commit_ends h seq).left (P := fun rt' => Accounted rt' ∨ ¬ Allowed rt'.spool) ?_ ?_
    · rintro _ rt' (⟨-, rfl⟩ | ⟨-, hf⟩)
      · exact .inl h
      · exact .inl hf.accounted
    · rintro _ rt' (⟨-, rfl⟩ | ⟨-, hu⟩)
      · exact .inl h
      · exact .inl hu.rebuilt.accounted
  | quarantine seq reason =>
    refine (runtime_quarantine_ends h seq reason).left
      (P := fun rt' => Accounted rt' ∨ ¬ Allowed rt'.spool) ?_ ?_
    · rintro _ rt' ⟨-, hq⟩; exact .inl hq.accounted
    · rintro _ rt' (hsame | ⟨-, hfailed⟩)
      · exact .inl (hsame.accounted h)
      · exact .inr hfailed.blocked

theorem reached_accounted (h : Reached sha256 rt) : Accounted rt ∨ ¬ Allowed rt.spool := by
  induction h with
  | opened hopen => exact .inl (accounted_open hopen).1
  | @call rt c _ ih =>
    rcases ih with ha | hb
    · exact accounted_call ha c
    · right; rw [HostAdmissionRuntime.spool, call_of_not_allowed hb]; exact hb

theorem Tracks.queued_eq (h : Tracks rt) :
    ((references rt.scheduler.queues).map (·.2.seq)).toFinset = rt.queued := by
  ext seq
  rw [mem_toFinset, (h.queues.map _).mem_iff, map_map, mem_map]
  constructor
  · rintro ⟨r, hr, rfl⟩; exact of_decide_eq_true (mem_filter.mp hr).2
  · intro hseq
    obtain ⟨r, hr, rfl⟩ := h.pending seq (.inl hseq)
    exact ⟨r, mem_filter.mpr ⟨hr, decide_eq_true hseq⟩, rfl⟩

theorem Tracks.queued_nodup (h : Tracks rt) :
    ((references rt.scheduler.queues).map (·.2.seq)).Nodup := by
  rw [(h.queues.map _).nodup_iff, map_map]; exact seqs_nodup (h.kept.ordered.sublist filter_sublist)

theorem Accounted.union_eq (h : Accounted rt) :
    rt.queued ∪ rt.leased ∪ rt.completed = (rt.spool.pending.map (·.seq)).toFinset := by
  ext seq
  rw [Finset.mem_union, Finset.mem_union, or_assoc, mem_toFinset, mem_map]
  constructor
  · exact h.pending seq
  · rintro ⟨r, hr, rfl⟩; exact h.tracked r hr

/-- While the spool takes mutations, the runtime accounts for every durable record: it is queued,
leased or completed, and the scheduler holds the queued ones, each once in the queue of its source.
So an item is refused only where its append was, every lease can be taken, put back and recovered. -/
theorem runtime_accounts_for_every_record (h : Reached sha256 rt) (hallowed : Allowed rt.spool) :
    (Disjoint rt.queued rt.leased ∧ Disjoint rt.queued rt.completed ∧
      Disjoint rt.leased rt.completed) ∧
    rt.queued ∪ rt.leased ∪ rt.completed = (rt.spool.pending.map (·.seq)).toFinset ∧
    (((references rt.scheduler.queues).map (·.2.seq)).Nodup ∧
      ((references rt.scheduler.queues).map (·.2.seq)).toFinset = rt.queued ∧
      (references rt.scheduler.queues).Perm
        ((rt.spool.pending.filter fun r => r.seq ∈ rt.queued).map reference)) ∧
    ((rt.scheduler.queues.map (·.source)).Nodup ∧
      ∀ queue ∈ rt.scheduler.queues, queue.records ≠ []) ∧
    (rt.scheduler.totalPending = (rt.scheduler.queues.map (·.records.length)).sum ∧
      rt.scheduler.totalBytes =
        (rt.scheduler.queues.map fun queue => retainedBy queue.source queue.records).sum ∧
      ∀ queue ∈ rt.scheduler.queues, queue.retainedBytes = retainedBy queue.source queue.records) ∧
    (∀ items, (admitBatch sha256 items rt).1 =
      (appendBatch sha256 items rt.machine).1.map admission) ∧
    (∃ leased rt', tryLeaseNext rt = .ok leased rt') ∧
    (∀ seq ∈ rt.leased, ∃ rt', defer seq rt = .ok () rt') ∧
    ∃ recovered rt', recoverLeases rt = .ok recovered rt' := by
  have hacc : Accounted rt := (reached_accounted h).resolve_right (not_not.mpr hallowed)
  refine ⟨⟨hacc.queuedLeased, hacc.queuedCompleted, hacc.leasedCompleted⟩, hacc.union_eq,
    ⟨hacc.queued_nodup, hacc.queued_eq, hacc.queues⟩,
    ⟨hacc.balanced.sources, hacc.balanced.occupied⟩, ⟨?_, ?_, hacc.balanced.retained⟩,
    fun items => (admitBatch_admitted hacc items).1, ?_, ?_, ?_⟩
  · rw [hacc.balanced.pending, references, length_flatMap]; simp
  · rw [hacc.balanced.bytes]; exact congrArg _ (map_congr_left hacc.balanced.retained)
  · rcases tryLeaseNext_cases hacc with ⟨-, hrun⟩ | ⟨r, rt', hrun, -⟩
    · exact ⟨_, _, hrun⟩
    · exact ⟨_, _, hrun⟩
  · intro seq hseq
    obtain ⟨r, -, -, rt', hrun, -⟩ := (defer_cases hacc seq).resolve_left fun hnot => hnot.1 hseq
    exact ⟨rt', hrun⟩
  · obtain ⟨recovered, rt', hrun, -⟩ | ⟨e, rt', -, hb, -⟩ := (recoverLeases_ends fun _ => hacc).cases
    · exact ⟨recovered, rt', hrun⟩
    · exact absurd hallowed hb

end Runs

def smallBounds : SpoolBounds := ⟨8, 8, 512, 4, 512, 4, 512, 4⟩

def calm : World := ⟨.empty, fun _ => .succeeds⟩

def zeroDigest (_ : Bytes) : FixedBytes 32 := .zero 32

/-- One of two admitted records is leased. -/
def leasedOne (rt : HostAdmissionRuntime) : HostAdmissionRuntime :=
  RuntimeCall.apply zeroDigest
    (RuntimeCall.apply zeroDigest rt (.admitBatch [("s", [1]), ("s", [2])])) .tryLeaseNext

theorem leasedOne_reached :
    ∃ rt, Reached zeroDigest (leasedOne rt) ∧ Allowed (leasedOne rt).spool ∧
      (leasedOne rt).queued = {2} ∧ (leasedOne rt).leased = {1} := by
  have hrun : (HostAdmissionRuntime.open zeroDigest smallBounds calm >>= fun rt =>
      .ok ((leasedOne rt).queued, (leasedOne rt).leased,
        (leasedOne rt).spool.ensureMutationsAllowed)) = .ok ({2}, {1}, .ok ()) := by
    decide +kernel
  obtain ⟨rt, hopen, hstate⟩ := bind_eq_ok.mp hrun
  simp only [Except.ok.injEq, Prod.mk.injEq] at hstate
  obtain ⟨hq, hl, ha⟩ := hstate
  exact ⟨rt, .call _ (.call _ (.opened hopen)), ha, hq, hl⟩

theorem runtime_accounts_for_one_lease :
    ∃ rt, Reached zeroDigest rt ∧ Allowed rt.spool ∧ rt.queued = {2} ∧ rt.leased = {1} ∧
      Disjoint rt.queued rt.leased ∧
      rt.queued ∪ rt.leased ∪ rt.completed = (rt.spool.pending.map (·.seq)).toFinset := by
  obtain ⟨rt, hr, ha, hq, hl⟩ := leasedOne_reached
  have hat := runtime_accounts_for_every_record hr ha
  exact ⟨leasedOne rt, hr, ha, hq, hl, hat.1.1, hat.2.1⟩

/-- While it takes mutations, a spool fits its bounds, in all and by source, with exact totals. -/
theorem reached_kept {rt : HostAdmissionRuntime} (h : Reached sha256 rt)
    (ha : Allowed rt.spool) : Kept rt.spool :=
  ((reached_accounted h).resolve_right (not_not.mpr ha)).kept

theorem reached_kept_one_lease :
    ∃ rt, Reached zeroDigest rt ∧ Allowed rt.spool ∧ rt.queued = {2} ∧ rt.leased = {1} ∧
      Kept rt.spool := by
  obtain ⟨rt, hr, ha, hq, hl⟩ := leasedOne_reached
  exact ⟨leasedOne rt, hr, ha, hq, hl, reached_kept hr ha⟩

end TraceDecay.Admission
