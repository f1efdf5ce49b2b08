import TraceDecay.Admission.Accounting
import TraceDecay.Admission.Replay

/-!
# Admission.ReplayOrder

Host events of one source are applied in the order they were admitted, through any admissions,
passes and failures, unless a pass begins while a call of a dropped pass is still to run. While a
pass runs, what it retains stands before what is queued of the same source (`Held`), so the record it
takes up next is the first of its source that is not completed (`Turn`); deferring from the last to
the first puts the queues in order again.
-/

namespace TraceDecay.Admission

open Stateful List
open FairSourceScheduler (line line_references)
open HostAdmissionRuntime (admitBatch defer finishSchedule recoverLeases scheduleAppended)
open Finset (disjoint_left erase_insert mem_insert mem_insert_of_mem mem_union union_comm union_empty)

variable {sha256 : Bytes → FixedBytes 32} {rt rt' : HostAdmissionRuntime}

/-! ## Sources of pending records -/

/-- A pending record of `source` has the sequence `seq`. -/
def From (rt : HostAdmissionRuntime) (seq : Nat) (source : String) : Prop :=
  ∃ r ∈ rt.spool.pending, r.seq = seq ∧ r.source = source

/-- Of every source the completed records are the first of the pending ones. -/
def CompletedFirst (rt : HostAdmissionRuntime) : Prop :=
  ∀ a b source, From rt a source → From rt b source → a < b → b ∈ rt.completed → a ∈ rt.completed

def Shrinks (rt rt' : HostAdmissionRuntime) : Prop :=
  ∀ seq source, From rt' seq source → From rt seq source

variable {r : SpoolRecord} {seq : Nat} {s : String}

theorem source_eq_of_stripped {r' : SpoolRecord} (h : r.stripped = r'.stripped) :
    r.source = r'.source := by
  have hs : r.stripped.source = r'.stripped.source := congrArg SpoolRecord.source h
  exact hs

theorem From.source_eq {s' : String} (hf : From rt seq s) (hf' : From rt seq s')
    (h : Accounted rt) : s = s' := by
  obtain ⟨r, hr, heq, rfl⟩ := hf
  obtain ⟨r', hr', heq', rfl⟩ := hf'
  rw [eq_of_seq_eq h.kept.ordered hr hr' (heq.trans heq'.symm)]

theorem from_of_stripped {r' : SpoolRecord} (hr : r ∈ rt.spool.pending)
    (h : r.stripped = r'.stripped) : From rt r'.seq r'.source :=
  ⟨r, hr, seq_eq_of_stripped h, source_eq_of_stripped h⟩

theorem shrinks_of_stripped
    (h : ∀ r ∈ rt'.spool.pending, ∃ r0 ∈ rt.spool.pending, r0.stripped = r.stripped) :
    Shrinks rt rt' := by
  rintro seq source ⟨r, hr, rfl, rfl⟩
  obtain ⟨r0, hr0, heq⟩ := h r hr
  exact from_of_stripped hr0 heq

theorem shrinks_of_machine (h : rt'.machine = rt.machine) : Shrinks rt rt' := by
  intro seq s hf; rwa [From, HostAdmissionRuntime.spool, h] at hf

theorem Flushed.shrinks (h : Flushed rt rt') : Shrinks rt rt' := by
  obtain ⟨front, hf, -⟩ := h.pending
  rintro seq source ⟨r, hr, heq⟩; exact ⟨r, hf ▸ mem_append_right _ hr, heq⟩

theorem CompletedFirst.shrink (h : CompletedFirst rt) (hs : Shrinks rt rt')
    (hsub : rt'.completed ⊆ rt.completed)
    (hk : ∀ seq s, From rt' seq s → seq ∈ rt.completed → seq ∈ rt'.completed) :
    CompletedFirst rt' := fun a b s ha hb hlt hd =>
  hk a s ha (h a b s (hs _ _ ha) (hs _ _ hb) hlt (hsub hd))

theorem completedFirst_of_same (h : CompletedFirst rt) (hs : Shrinks rt rt')
    (hc : rt'.completed = rt.completed) : CompletedFirst rt' :=
  h.shrink hs hc.subset fun _ _ _ hd => hc ▸ hd

theorem completedFirst_of_empty (h : rt.completed = ∅) : CompletedFirst rt := by
  intro a b s _ _ _ hd
  rw [h] at hd; cases hd

theorem Tracks.mem_line (h : Tracks rt) {x : ScheduledRecord} : x ∈ line rt.scheduler.queues s ↔
      ∃ r ∈ rt.spool.pending, r.source = s ∧ r.seq ∈ rt.queued ∧ scheduled r = x := by
  have hp : x ∈ line rt.scheduler.queues s ↔
      (s, x) ∈ (line rt.scheduler.queues s).map fun record => (s, record) := by simp
  rw [hp, line_references h.balanced.sources, mem_filter, h.queues.mem_iff, mem_map]
  constructor
  · rintro ⟨⟨r, hr, heq⟩, -⟩
    obtain ⟨hr, hq⟩ := mem_filter.mp hr
    exact ⟨r, hr, congrArg Prod.fst heq, of_decide_eq_true hq, congrArg Prod.snd heq⟩
  · rintro ⟨r, hr, rfl, hq, rfl⟩
    exact ⟨⟨r, mem_filter.mpr ⟨hr, decide_eq_true hq⟩, rfl⟩, decide_eq_true rfl⟩

/-! ## Invariants of a pass -/

/-- What the pass holds back: its sources are blocked, and of every source it stands in order before
what is queued. -/
structure Held (rt : HostAdmissionRuntime) (blocked : Finset String) (retained : List Nat) :
    Prop where
  blocked : ∀ a source, a ∈ retained → From rt a source → source ∈ blocked
  below : ∀ a b source, a ∈ retained → From rt a source → From rt b source → b ∈ rt.queued → a < b
  ascending : retained.Pairwise fun a b => ∀ source, From rt a source → From rt b source → a < b

/-- A pass between two calls, with the leases of `current` beside the retained ones. -/
structure Working (rt : HostAdmissionRuntime) (blocked : Finset String) (retained : List Nat)
    (current : Finset Nat) : Prop where
  accounted : Accounted rt
  inOrder : InOrder rt
  completedFirst : CompletedFirst rt
  held : Held rt blocked retained
  leased : rt.leased = retained.toFinset ∪ current

/-- It is `record`'s turn: what is pending before it of its source is completed. -/
structure Turn (rt : HostAdmissionRuntime) (blocked : Finset String) (record : SpoolRecord) :
    Prop where
  pending : From rt record.seq record.source
  free : record.source ∉ blocked
  earlier : ∀ a, From rt a record.source → a < record.seq → a ∈ rt.completed

/-- A pass that defers `leases`, the last one retained first. A lease it has lost is found by the
next pass. -/
structure Deferring (rt : HostAdmissionRuntime) (leases : List Nat) : Prop where
  completedFirst : CompletedFirst rt
  accounted : Allowed rt.spool → Accounted rt
  working : Allowed rt.spool →
    (∃ blocked, Working rt blocked leases.reverse ∅) ∨ ∃ seq ∈ rt.leased, seq ∉ leases

structure Idle (rt : HostAdmissionRuntime) : Prop where
  completedFirst : CompletedFirst rt
  accounted : Allowed rt.spool → Accounted rt
  inOrder : Allowed rt.spool → rt.leased = ∅ → InOrder rt

section Transitions

variable {blocked : Finset String} {retained : List Nat} {current : Finset Nat}

theorem Held.shrink (h : Held rt blocked retained)
    (hold : ∀ a s, a ∈ retained → From rt' a s → From rt a s)
    (hbelow : ∀ a b s, a ∈ retained → From rt' a s → From rt' b s →
      b ∈ rt'.queued → a < b) : Held rt' blocked retained := by
  refine ⟨fun a s ha hs => h.blocked a s ha (hold a s ha hs), hbelow, ?_⟩
  refine h.ascending.imp_of_mem fun ha hb hlt s hs hs' => ?_
  exact hlt s (hold _ _ ha hs) (hold _ _ hb hs')

theorem Held.dequeue (h : Held rt blocked retained) (hs : Shrinks rt rt')
    (hq : rt'.queued ⊆ rt.queued) : Held rt' blocked retained :=
  h.shrink (fun _ _ _ => hs _ _) fun a b s ha hsa hsb hb =>
    h.below a b s ha (hs _ _ hsa) (hs _ _ hsb) (hq hb)

theorem Working.mem_leased (h : Working rt blocked retained current)
    (hseq : seq ∈ retained) : seq ∈ rt.leased := by
  rw [h.leased]; exact Finset.mem_union_left _ (mem_toFinset.mpr hseq)

theorem Working.current_leased (h : Working rt blocked retained {seq}) : seq ∈ rt.leased := by
  rw [h.leased]; exact Finset.mem_union_right _ (Finset.mem_singleton_self seq)

theorem Working.idle (h : Working rt blocked retained current) : Idle rt :=
  ⟨h.completedFirst, fun _ => h.accounted, fun _ _ => h.inOrder⟩

variable {leases : List Nat} {record : SpoolRecord} {recs : List SpoolRecord}

theorem Deferring.idle (h : Deferring rt leases) : Idle rt := by
  refine ⟨h.completedFirst, h.accounted, fun ha he => ?_⟩
  rcases h.working ha with ⟨_, hw⟩ | ⟨seq, hseq, -⟩
  · exact hw.inOrder
  · rw [he] at hseq; cases hseq

theorem deferring_of_blocked (h : CompletedFirst rt) (hb : ¬ Allowed rt.spool) :
    Deferring rt leases :=
  ⟨h, fun ha => absurd ha hb, fun ha => absurd ha hb⟩

theorem Working.deferring (h : Working rt blocked retained ∅) : Deferring rt retained.reverse :=
  ⟨h.completedFirst, fun _ => h.accounted, fun _ =>
    .inl ⟨blocked, (reverse_reverse retained).symm ▸ h⟩⟩

theorem Working.lost (h : Working rt blocked retained {seq}) (hseq : seq ∉ retained) :
    Deferring rt retained.reverse := by
  refine ⟨h.completedFirst, fun _ => h.accounted, fun _ => .inr ⟨seq, h.current_leased, ?_⟩⟩
  exact fun hmem => hseq (mem_reverse.mp hmem)

theorem Turn.not_retained (h : Turn rt blocked record)
    (hw : Working rt blocked retained current) : record.seq ∉ retained := fun hmem =>
  h.free (hw.held.blocked _ _ hmem h.pending)

theorem Turn.erase_leased (h : Turn rt blocked record)
    (hw : Working rt blocked retained {record.seq}) :
    rt.leased.erase record.seq = retained.toFinset := by
  have hnot : record.seq ∉ retained.toFinset := fun hmem => h.not_retained hw (mem_toFinset.mp hmem)
  rw [hw.leased, union_comm, ← Finset.insert_eq, erase_insert hnot]

variable {source : String}

theorem Working.retain (h : Working rt blocked retained {seq})
    (hf : From rt seq source) (hbelow : ∀ b, From rt b source → b ∈ rt.queued → seq < b)
    (habove : ∀ a, a ∈ retained → From rt a source → a < seq) :
    Working rt (insert source blocked) (retained ++ [seq]) ∅ := by
  have hsource : ∀ s, From rt seq s → s = source := fun s hs => hs.source_eq hf h.accounted
  refine ⟨h.accounted, h.inOrder, h.completedFirst, ⟨?_, ?_, ?_⟩, ?_⟩
  · intro a s ha hs
    rcases mem_append.mp ha with ha | ha
    · exact mem_insert_of_mem (h.held.blocked a s ha hs)
    · rw [mem_singleton] at ha; exact mem_insert.mpr (.inl (hsource s (ha ▸ hs)))
  · intro a b s ha hs hb hq
    rcases mem_append.mp ha with ha | ha
    · exact h.held.below a b s ha hs hb hq
    · rw [mem_singleton] at ha; subst ha; exact hbelow b (hsource s hs ▸ hb) hq
  · refine pairwise_append.mpr ⟨h.held.ascending, pairwise_singleton _ _, ?_⟩
    intro a ha b hb s hs hs'
    rw [mem_singleton] at hb
    subst hb; exact habove a ha (hsource s hs' ▸ hs)
  · rw [h.leased]; simp [toFinset_append]

theorem Turn.retain (ht : Turn rt blocked record) (h : Working rt blocked retained {record.seq}) :
    Working rt (insert record.source blocked) (retained ++ [record.seq]) ∅ := by
  refine h.retain ht.pending (fun b hb hq => ?_) fun a ha hs => ?_
  · rcases lt_trichotomy b record.seq with hlt | rfl | hlt
    · exact absurd (ht.earlier b hb hlt) (disjoint_left.mp h.accounted.queuedCompleted hq)
    · exact absurd h.current_leased (disjoint_left.mp h.accounted.queuedLeased hq)
    · exact hlt
  · exact absurd (h.held.blocked a _ ha hs) ht.free

/-- A lease takes the first of its source that is queued. If the source is not blocked, all records
before it are completed. -/
theorem Working.lease (h : Working rt blocked retained ∅) (hl : Leases rt r rt') :
    Working rt' blocked retained {r.seq} ∧
      (r.source ∈ blocked → Working rt' blocked (retained ++ [r.seq]) ∅) ∧
      (r.source ∉ blocked → Turn rt' blocked r) := by
  have hsame : Shrinks rt rt' := shrinks_of_machine hl.machine
  have hf : From rt' r.seq r.source := by
    rw [From, HostAdmissionRuntime.spool, hl.machine]; exact ⟨r, hl.mem, rfl, rfl⟩
  have hline := h.inOrder r.source
  rw [hl.lines, if_pos rfl, singleton_append, pairwise_cons] at hline
  have hb : ∀ b, From rt' b r.source → b ∈ rt'.queued → r.seq < b := by
    rintro _ ⟨r', hr', rfl, hs⟩ hq
    exact hline.1 (scheduled r') (hl.accounted.mem_line.mpr ⟨r', hr', hs, hq, rfl⟩)
  have hq : rt'.queued ⊆ rt.queued := hl.queued ▸ Finset.erase_subset _ _
  have hw : Working rt' blocked retained {r.seq} := by
    refine ⟨hl.accounted, fun s => ?_, completedFirst_of_same h.completedFirst hsame hl.completed,
      h.held.dequeue hsame hq, ?_⟩
    · have hall := h.inOrder s; rw [hl.lines] at hall; exact (pairwise_append.mp hall).2.1
    · rw [hl.leased, h.leased, union_empty, union_comm]; rfl
  refine ⟨hw, fun hblocked => ?_, fun hfree => ⟨hf, hfree, fun a ha hlt => ?_⟩⟩
  · rw [← Finset.insert_eq_of_mem hblocked]
    refine hw.retain hf hb fun a ha hs => ?_
    exact h.held.below a r.seq r.source ha (hsame _ _ hs) (hsame _ _ hf) hl.wasQueued
  · obtain ⟨r', hr', rfl, hs⟩ := id ha
    rcases hl.accounted.tracked r' hr' with hin | hin | hin
    · exact absurd (hb _ ha hin) (by omega)
    · rw [hw.leased] at hin
      rcases mem_union.mp hin with hin | hin
      · exact absurd (hw.held.blocked _ _ (mem_toFinset.mp hin) ha) hfree
      · exact absurd (Finset.mem_singleton.mp hin) hlt.ne
    · exact hin

theorem Working.commit (h : Working rt blocked retained {record.seq}) (ht : Turn rt blocked record)
    (hf : Flushed (marked rt record.seq) rt') : Working rt' blocked retained ∅ := by
  have hm := accounted_marked h.accounted h.current_leased
  have hsame : Shrinks rt rt' := hf.shrinks
  refine ⟨hf.accounted, fun s => ?_, ?_, h.held.dequeue hsame hf.queued.subset, ?_⟩
  · rw [hf.scheduler]; exact h.inOrder s
  · intro a b s ha hb hlt hd
    obtain ⟨r, hr, rfl, -⟩ := id ha
    refine hf.completed_of_mem hm hr ?_
    rcases mem_insert.mp (hf.completed hd) with rfl | hd
    · refine mem_insert_of_mem (ht.earlier _ ?_ hlt)
      rw [ht.pending.source_eq (hsame _ _ hb) h.accounted]; exact hsame _ _ ha
    · exact mem_insert_of_mem (h.completedFirst _ _ s (hsame _ _ ha) (hsame _ _ hb) hlt hd)
  · rw [hf.leased, union_empty]; exact ht.erase_leased h

theorem Working.quarantine (h : Working rt blocked retained {record.seq})
    (ht : Turn rt blocked record) (hq : Quarantined rt record.seq rt') :
    Working rt' blocked retained ∅ := by
  have hsame : Shrinks rt rt' := shrinks_of_stripped hq.pending
  have hl : rt'.leased = retained.toFinset := hq.leased.trans (ht.erase_leased h)
  refine ⟨hq.accounted, hq.inOrder, h.completedFirst.shrink hsame hq.completed ?_,
    h.held.shrink (fun _ _ _ => hsame _ _) ?_, ?_⟩
  · rintro _ s ⟨r, hr, rfl, -⟩ hd; exact hq.kept r hr hd
  · -- what the rebuild has queued was queued, for its source is not the record's
    intro a b s ha hs hb hqueued
    refine h.held.below a b s ha (hsame _ _ hs) (hsame _ _ hb) ?_
    obtain ⟨r, hr, rfl, -⟩ := id hb
    obtain ⟨r0, hr0, he0, hs0⟩ := hsame _ _ hb
    rw [← he0]
    rcases h.accounted.tracked r0 hr0 with hin | hin | hin
    · exact hin
    · rw [h.leased, he0] at hin
      rcases mem_union.mp hin with hin | hin
      · rw [← hl] at hin; exact absurd hin (disjoint_left.mp hq.accounted.queuedLeased hqueued)
      · have hfrom := hsame _ _ hb
        rw [Finset.mem_singleton.mp hin] at hfrom
        refine absurd (h.held.blocked a s ha (hsame _ _ hs)) ?_
        rw [hfrom.source_eq ht.pending h.accounted]; exact ht.free
    · rw [he0] at hin
      exact absurd (hq.kept r hr hin) (disjoint_left.mp hq.accounted.queuedCompleted hqueued)
  · rw [hl, union_empty]

/-- The last of the retained records goes to the front of its queue. -/
theorem Working.defer (h : Working rt blocked (retained ++ [r.seq]) ∅)
    (hr : r ∈ rt.spool.pending) (hd : Defers rt r rt') : Working rt' blocked retained ∅ := by
  have hsame : Shrinks rt rt' := shrinks_of_machine hd.machine
  have hf : From rt r.seq r.source := ⟨r, hr, rfl, rfl⟩
  obtain ⟨hasc, -, hlast⟩ := pairwise_append.mp h.held.ascending
  have hlast := fun a ha => hlast a ha r.seq (mem_singleton_self _)
  refine ⟨hd.accounted, fun s => ?_,
    completedFirst_of_same h.completedFirst hsame hd.completed, ⟨?_, ?_, ?_⟩, ?_⟩
  · rw [hd.lines]
    split_ifs with hs
    · subst hs
      rw [singleton_append, pairwise_cons]
      refine ⟨fun x hx => ?_, h.inOrder _⟩
      obtain ⟨r', hr', hs', hq, rfl⟩ := h.accounted.mem_line.mp hx
      exact h.held.below r.seq r'.seq r.source (by simp) hf ⟨r', hr', rfl, hs'⟩ hq
    · exact h.inOrder s
  · exact fun a s ha hs => h.held.blocked a s (mem_append_left _ ha) (hsame _ _ hs)
  · intro a b s ha hs hb hq
    rw [hd.queued] at hq
    rcases mem_insert.mp hq with rfl | hq
    · exact hlast a ha s (hsame _ _ hs) (hsame _ _ hb)
    · exact h.held.below a b s (mem_append_left _ ha) (hsame _ _ hs) (hsame _ _ hb) hq
  · exact hasc.imp fun hlt s ha hb => hlt s (hsame _ _ ha) (hsame _ _ hb)
  · have hnot : r.seq ∉ retained.toFinset := fun hmem =>
      lt_irrefl _ (hlast r.seq (mem_toFinset.mp hmem) r.source hf hf)
    rw [hd.leased, h.leased, union_empty, union_empty, toFinset_append, union_comm]
    exact erase_insert hnot

/-! ## Admissions -/

/-- New records are queued, and stand behind all others. -/
structure Grows (rt rt' : HostAdmissionRuntime) : Prop where
  keep : ∀ a source, From rt a source → From rt' a source
  split : ∀ a source, From rt' a source →
    From rt a source ∨ (a ∈ rt'.queued ∧ ∀ b s, From rt b s → b < a)
  queued : ∀ a source, From rt a source → a ∈ rt'.queued → a ∈ rt.queued
  inOrder : InOrder rt → InOrder rt'

theorem Admitted.grows (h : Accounted rt) (ha : Admitted rt recs rt') : Grows rt rt' := by
  obtain ⟨old, new, hsplit, hold, hnew⟩ := map_eq_append_iff.mp (ha.pending.trans map_append)
  have ho := ha.accounted.kept.ordered
  rw [hsplit, pairwise_append] at ho
  have hf : ∀ a source, From rt a source → ∃ r ∈ old, r.seq = a ∧ r.source = source := by
    rintro a source ⟨r, hr, rfl, rfl⟩
    obtain ⟨r', hr', heq⟩ := mem_of_stripped_eq hold.symm hr
    exact ⟨r', hr', seq_eq_of_stripped heq, source_eq_of_stripped heq⟩
  have hbelow : ∀ b source r, From rt b source → r ∈ recs → b < r.seq := by
    intro b source r hb hr
    obtain ⟨r1, hr1, rfl, -⟩ := hf b source hb
    obtain ⟨r2, hr2, heq⟩ := mem_of_stripped_eq hnew.symm hr
    exact seq_eq_of_stripped heq ▸ ho.2.2 r1 hr1 r2 hr2
  refine ⟨?_, ?_, ?_, fun hin source => ?_⟩
  · intro a source hs
    obtain ⟨r, hr, heq⟩ := hf a source hs
    exact ⟨r, hsplit ▸ mem_append_left _ hr, heq⟩
  · rintro _ source ⟨r, hr, rfl, rfl⟩
    rw [hsplit] at hr
    rcases mem_append.mp hr with hr | hr
    · obtain ⟨r0, hr0, heq⟩ := mem_of_stripped_eq hold hr; exact .inl (from_of_stripped hr0 heq)
    · obtain ⟨r0, hr0, heq⟩ := mem_of_stripped_eq hnew hr
      rw [← seq_eq_of_stripped heq]
      exact .inr ⟨(ha.queued _).mpr (.inr ⟨r0, hr0, rfl⟩), fun b s hb => hbelow b s r0 hb hr0⟩
  · intro a source hs hq
    rcases (ha.queued a).mp hq with hq | ⟨r, hr, rfl⟩
    · exact hq
    · exact absurd (hbelow _ source r hs hr) (lt_irrefl _)
  · rw [ha.lines, pairwise_append]
    refine ⟨hin source, ?_, ?_⟩
    · have hrecs := ordered_of_stripped_eq hnew.symm ho.2.1
      exact pairwise_map.mpr (hrecs.sublist filter_sublist)
    · intro x hx y hy
      obtain ⟨r, hr, -, -, rfl⟩ := h.mem_line.mp hx
      obtain ⟨r', hr', rfl⟩ := mem_map.mp hy
      exact hbelow r.seq r.source r' ⟨r, hr, rfl, rfl⟩ (mem_filter.mp hr').1

theorem Grows.from_of_mem {a : Nat} (hg : Grows rt rt') (h : Accounted rt')
    (ha : From rt' a source) (hmem : a ∈ rt'.leased ∨ a ∈ rt'.completed) : From rt a source := by
  refine (hg.split a source ha).resolve_right fun hnew => ?_
  rcases hmem with hmem | hmem
  · exact disjoint_left.mp h.queuedLeased hnew.1 hmem
  · exact disjoint_left.mp h.queuedCompleted hnew.1 hmem

theorem Grows.completedFirst (hg : Grows rt rt') (h : Accounted rt') (hc : CompletedFirst rt)
    (hsame : rt'.completed = rt.completed) : CompletedFirst rt' := by
  intro a b s ha hb hlt hd
  have hb' := hg.from_of_mem h hb (.inr hd)
  rw [hsame] at hd ⊢
  rcases hg.split a s ha with ha | ⟨-, hnew⟩
  · exact hc a b s ha hb' hlt hd
  · exact absurd (hnew b s hb') (by omega)

theorem Working.grow (h : Working rt blocked retained current)
    (ha : Admitted rt recs rt') : Working rt' blocked retained current := by
  have hg := ha.grows h.accounted
  have hold : ∀ a source, a ∈ retained → From rt' a source → From rt a source := fun _ _ hmem hs =>
    hg.from_of_mem ha.accounted hs (.inl (ha.leased ▸ h.mem_leased hmem))
  refine ⟨ha.accounted, hg.inOrder h.inOrder,
    hg.completedFirst ha.accounted h.completedFirst ha.completed,
    h.held.shrink hold fun a b s hmem hs hb hq => ?_, by rw [ha.leased, h.leased]⟩
  rcases hg.split b s hb with hb | ⟨-, hnew⟩
  · exact h.held.below a b s hmem (hold a s hmem hs) hb (hg.queued b s hb hq)
  · exact hnew a s (hold a s hmem hs)

theorem Turn.grow (ht : Turn rt blocked record)
    (h : Accounted rt) (ha : Admitted rt recs rt') : Turn rt' blocked record := by
  have hg := ha.grows h
  refine ⟨hg.keep _ _ ht.pending, ht.free, fun a hs hlt => ?_⟩
  rcases hg.split a _ hs with hs | ⟨-, hnew⟩
  · rw [ha.completed]; exact ht.earlier a hs hlt
  · exact absurd (hnew _ _ ht.pending) (by omega)

theorem scheduleAppended_errors (i : List (String × Bytes)) (e : SpoolError) :
    (scheduleAppended (i.map fun _ => .error e) rt).2 = rt := by
  induction i with
  | nil => rfl
  | cons item i ih => exact ih

theorem admitBatch_of_not_allowed (h : ¬ Allowed rt.spool) (i : List (String × Bytes)) :
    (admitBatch sha256 i rt).2 = rt := by
  unfold admitBatch appendBatch
  cases ha : rt.machine.spool.ensureMutationsAllowed with
  | ok u => exact absurd ha h
  | error e => exact scheduleAppended_errors i e

/-- An admission appends records, or leaves a blocked runtime alone. -/
theorem admission_cases (sha256 : Bytes → FixedBytes 32) (h : Allowed rt.spool → Accounted rt)
    (i : List (String × Bytes)) :
    (Allowed rt.spool ∧ Accounted rt ∧ ∃ recs, Admitted rt recs (admitBatch sha256 i rt).2) ∨
      (admitBatch sha256 i rt).2 = rt := by
  by_cases hallowed : Allowed rt.spool
  · exact .inl ⟨hallowed, h hallowed, _, (admitBatch_admitted (h hallowed) i).2⟩
  · exact .inr (admitBatch_of_not_allowed hallowed i)

theorem Deferring.admission (h : Deferring rt leases) (i : List (String × Bytes)) :
    Deferring (admitBatch sha256 i rt).2 leases := by
  obtain ⟨hallowed, hacc, recs, ha⟩ | hsame := admission_cases sha256 h.accounted i
  · refine ⟨(ha.grows hacc).completedFirst ha.accounted h.completedFirst ha.completed,
      fun _ => ha.accounted, fun _ => ?_⟩
    rcases h.working hallowed with ⟨blocked, hw⟩ | ⟨seq, hseq, hnot⟩
    · exact .inl ⟨blocked, hw.grow ha⟩
    · exact .inr ⟨seq, ha.leased ▸ hseq, hnot⟩
  · rw [hsame]; exact h

theorem Idle.admission (h : Idle rt) (i : List (String × Bytes)) :
    Idle (admitBatch sha256 i rt).2 := by
  obtain ⟨hallowed, hacc, recs, ha⟩ | hsame := admission_cases sha256 h.accounted i
  · have hg := ha.grows hacc
    exact ⟨hg.completedFirst ha.accounted h.completedFirst ha.completed, fun _ => ha.accounted,
      fun _ he => hg.inOrder (h.inOrder hallowed (ha.leased ▸ he))⟩
  · rw [hsame]; exact h

end Transitions

/-! ## Runs -/

section Runs

variable {π : Type} {pass : Pass π} {decode : Bytes → Except DurableHookEventDecodeError π}

def PassOk (rt : HostAdmissionRuntime) (pass : Pass π) : Prop :=
  match pass.stage with
  | .recovering => Idle rt ∧ pass.blockedSources = ∅ ∧ pass.retainedLeases = []
  | .leasing => Working rt pass.blockedSources pass.retainedLeases ∅
  | .quarantining record | .processing record _ =>
    Working rt pass.blockedSources pass.retainedLeases {record.seq} ∧
      Turn rt pass.blockedSources record
  | .deferring leases => Deferring rt leases

def RuntimeOk (rt : HostAdmissionRuntime) : Option (Pass π) → Prop
  | none => Idle rt
  | some pass => PassOk rt pass

/-- Nothing is outstanding, or only the call of a pass that was dropped. -/
def ReplayOk (s : Replayer π) : Prop :=
  s.outstanding = [] ∧ RuntimeOk s.runtime s.pass ∨
    s.pass = none ∧ ∃ (pass : Pass π) (outcome : HostAdmissionOutcome) (call : RuntimeCall),
      PassOk s.runtime pass ∧ pass.call outcome = some call ∧ s.outstanding = [call]

@[simp] theorem noteTarget_blockedSources (seq : Nat) (o : HostAdmissionOutcome) :
    (pass.noteTarget seq o).blockedSources = pass.blockedSources := by
  unfold Pass.noteTarget
  split <;> rfl

@[simp] theorem noteTarget_retainedLeases (seq : Nat) (o : HostAdmissionOutcome) :
    (pass.noteTarget seq o).retainedLeases = pass.retainedLeases := by
  unfold Pass.noteTarget
  split <;> rfl

theorem passOk_nextTurn (h : Working rt pass.blockedSources pass.retainedLeases ∅) :
    PassOk rt pass.nextTurn := by
  unfold Pass.nextTurn
  split
  · exact h.deferring
  · exact h

variable {record : SpoolRecord} {o : HostAdmissionOutcome}

theorem passOk_block (h : Working rt (insert record.source pass.blockedSources)
      (pass.retainedLeases ++ [record.seq]) ∅) : PassOk rt (pass.block record o).nextTurn := by
  refine passOk_nextTurn ?_
  unfold Pass.block
  rw [noteTarget_blockedSources, noteTarget_retainedLeases]; exact h

theorem passOk_lease (h : Working rt pass.blockedSources pass.retainedLeases ∅)
    (hl : Leases rt r rt') : PassOk rt' (pass.lease decode r) := by
  obtain ⟨hw, hh, hturn⟩ := h.lease hl
  unfold Pass.lease
  by_cases hb : r.source ∈ pass.blockedSources
  · rw [if_pos hb]; exact passOk_nextTurn (hh hb)
  rw [if_neg hb]
  have ht := hturn hb
  split
  · exact passOk_block (ht.retain hw)
  simp only
  split
  · exact ⟨hw, ht⟩
  · have hh : Working rt' (insert r.source { pass with
        attempted := insert r.seq pass.attempted }.blockedSources) _ ∅ := ht.retain hw
    exact passOk_block hh
  · exact ⟨hw, ht⟩

theorem passOk_quarantined {r : TerminalReason}
    (h : Working rt pass.blockedSources pass.retainedLeases {record.seq})
    (ht : Turn rt pass.blockedSources record) :
    PassOk (left (HostAdmissionRuntime.quarantine sha256 record.seq r rt))
      (pass.quarantined record o
        (answer (HostAdmissionRuntime.quarantine sha256 record.seq r rt))) := by
  obtain ⟨committed, rt', hrun, -, hq⟩ | ⟨failure, rt', hrun, he⟩ :=
    (runtime_quarantine_ends h.accounted record.seq r).cases
  · rw [hrun]
    refine passOk_nextTurn ?_
    rw [noteTarget_blockedSources, noteTarget_retainedLeases]; exact h.quarantine ht hq
  · rw [hrun]
    change PassOk rt' (if failure = .quarantineFull then _ else _)
    rcases he with hsame | ⟨hfull, hf⟩
    · have hm : Shrinks rt rt' := by
        intro seq s hfrom; rwa [From, hsame.spool] at hfrom
      have hw : Working rt' pass.blockedSources pass.retainedLeases {record.seq} := by
        refine ⟨hsame.accounted h.accounted, ?_,
          completedFirst_of_same h.completedFirst hm hsame.completed,
          h.held.dequeue hm hsame.queued.subset, ?_⟩
        · rw [InOrder, hsame.scheduler]; exact h.inOrder
        · rw [hsame.leased, h.leased]
      have ht' : Turn rt' pass.blockedSources record := by
        refine ⟨?_, ht.free, fun a ha hlt => ?_⟩
        · rw [From, hsame.spool]; exact ht.pending
        · rw [hsame.completed]; exact ht.earlier a (hm _ _ ha) hlt
      split
      · exact passOk_block (ht'.retain hw)
      · exact hw.lost (ht'.not_retained hw)
    · rw [if_neg hfull]
      exact deferring_of_blocked (completedFirst_of_same h.completedFirst
        (shrinks_of_stripped hf.pending) hf.completed) hf.blocked

theorem runtimeOk_resolve (o : HostAdmissionOutcome)
    (h : Working rt pass.blockedSources pass.retainedLeases {record.seq})
    (ht : Turn rt pass.blockedSources record) :
    RuntimeOk (resolve sha256 rt pass record o).1 (resolve sha256 rt pass record o).2 := by
  unfold resolve
  split_ifs
  · exact passOk_quarantined h ht
  · have hl := h.current_leased
    obtain ⟨committed, rt', hrun, he⟩ | ⟨failure, rt', hrun, he⟩ :=
      (commit_ends h.accounted record.seq).cases
    · rw [hrun]
      refine passOk_nextTurn ?_
      rw [noteTarget_blockedSources, noteTarget_retainedLeases]
      exact h.commit ht (he.resolve_left fun hnot => hnot.1 hl).2
    · rw [hrun]
      have hf := (he.resolve_left fun hnot => hnot.1 hl).2
      exact deferring_of_blocked (completedFirst_of_empty hf.rebuilt.completed) hf.blocked
  · exact passOk_block (ht.retain h)

theorem runtimeOk_defer {leases : List Nat} (hs : pass.stage = .deferring (seq :: leases))
    (h : Deferring rt (seq :: leases)) (o : HostAdmissionOutcome) :
    RuntimeOk (advancePass sha256 decode rt pass o).1 (advancePass sha256 decode rt pass o).2 := by
  have hf : ∀ rt', rt'.machine = rt.machine ∧ rt'.completed = rt.completed →
      CompletedFirst rt' := fun rt' hrt' =>
    completedFirst_of_same h.completedFirst (shrinks_of_machine hrt'.1) hrt'.2
  unfold advancePass
  rw [hs]
  by_cases ha : Allowed rt.spool
  · have hacc := h.accounted ha
    rcases defer_cases hacc seq with ⟨-, hrun⟩ | ⟨r, hr, rfl, rt', hrun, hd⟩
    · simp only [hrun]; exact h.idle
    · simp only [hrun]
      refine ⟨hf rt' ⟨hd.machine, hd.completed⟩, fun _ => hd.accounted, fun _ => ?_⟩
      rcases h.working ha with ⟨blocked, hw⟩ | ⟨lost, hlt, hnot⟩
      · rw [reverse_cons] at hw; exact .inl ⟨blocked, hw.defer hr hd⟩
      · rw [mem_cons, not_or] at hnot
        exact .inr ⟨lost, hd.leased ▸ Finset.mem_erase.mpr ⟨hnot.1, hlt⟩, hnot.2⟩
  · have hb : ∀ rt', rt'.machine = rt.machine ∧ rt'.completed = rt.completed →
        Deferring rt' leases := by
      intro rt' hrt'
      refine deferring_of_blocked (hf rt' hrt') ?_
      rw [HostAdmissionRuntime.spool, hrt'.1]; exact ha
    obtain ⟨⟨⟩, rt', hrun, hrt'⟩ | ⟨e, rt', hrun, hrt'⟩ := (defer_untouched rt seq).cases
    · simp only [hrun]; exact hb rt' hrt'
    · simp only [hrun]; exact (hb rt' hrt').idle

theorem runtimeOk_recover (hs : pass.stage = .recovering) (h : Idle rt)
    (hb : pass.blockedSources = ∅) (hl : pass.retainedLeases = []) (o : HostAdmissionOutcome) :
    RuntimeOk (advancePass sha256 decode rt pass o).1 (advancePass sha256 decode rt pass o).2 := by
  simp only [advancePass, hs]
  obtain ⟨recovered, rt', hrun, ha, he⟩ | ⟨e, rt', hrun, -, rfl⟩ :=
    (recoverLeases_ends h.accounted).cases
  · rw [hrun]
    change Working rt' pass.blockedSources pass.retainedLeases ∅
    rw [hb, hl]
    have hh : Held rt' ∅ [] := ⟨by simp, by simp, .nil⟩
    rcases he with ⟨hempty, rfl⟩ | hr
    · exact ⟨h.accounted ha, h.inOrder ha hempty, h.completedFirst, hh, hempty⟩
    · exact ⟨hr.accounted, hr.inOrder, completedFirst_of_same h.completedFirst
        (shrinks_of_machine hr.machine) hr.completed, hh, hr.leased⟩
  · rw [hrun]; exact h

theorem runtimeOk_advance (h : PassOk rt pass) (o : HostAdmissionOutcome) :
    RuntimeOk (advancePass sha256 decode rt pass o).1 (advancePass sha256 decode rt pass o).2 := by
  cases hs : pass.stage with
  | recovering => simp only [PassOk, hs] at h; exact runtimeOk_recover hs h.1 h.2.1 h.2.2 o
  | leasing =>
    simp only [PassOk, hs] at h
    simp only [advancePass, hs]
    rcases tryLeaseNext_cases h.accounted with ⟨-, hrun⟩ | ⟨r, rt', hrun, hl⟩
    · rw [hrun]; exact h.deferring
    · rw [hrun]; exact passOk_lease h hl
  | quarantining record =>
    simp only [PassOk, hs] at h
    simp only [advancePass, hs]; exact passOk_quarantined h.1 h.2
  | processing record plan =>
    simp only [PassOk, hs] at h
    simp only [advancePass, hs]; exact runtimeOk_resolve o h.1 h.2
  | deferring leases =>
    simp only [PassOk, hs] at h
    cases leases with
    | nil => simp only [advancePass, hs]; exact h.idle
    | cons seq leases => exact runtimeOk_defer hs h o

theorem passOk_admission (h : PassOk rt pass) (i : List (String × Bytes)) :
    PassOk (admitBatch sha256 i rt).2 pass := by
  have ha : Accounted rt → Admitted rt (accepted (appendBatch sha256 i rt.machine).1)
      (admitBatch sha256 i rt).2 := fun hacc =>
    (admitBatch_admitted hacc i).2
  cases hs : pass.stage with
  | recovering => simp only [PassOk, hs] at h ⊢; exact ⟨h.1.admission i, h.2⟩
  | leasing => simp only [PassOk, hs] at h ⊢; exact h.grow (ha h.accounted)
  | quarantining record | processing record plan =>
    simp only [PassOk, hs] at h ⊢
    exact ⟨h.1.grow (ha h.1.accounted), h.2.grow h.1.accounted (ha h.1.accounted)⟩
  | deferring leases => simp only [PassOk, hs] at h ⊢; exact h.admission i

theorem passOk_idle (h : PassOk rt pass) : Idle rt := by
  cases hs : pass.stage with
  | leasing | deferring leases => simp only [PassOk, hs] at h; exact h.idle
  | recovering => simp only [PassOk, hs] at h; exact h.1
  | quarantining record | processing record plan => simp only [PassOk, hs] at h; exact h.1.idle

theorem advancePass_runtime (o : HostAdmissionOutcome) : (advancePass sha256 decode rt pass o).1 =
    ((pass.call o).map (·.apply sha256 rt)).getD rt := by
  unfold advancePass Pass.call
  cases pass.stage with
  | recovering => change _ = left (recoverLeases rt); cases recoverLeases rt <;> rfl
  | leasing =>
    change _ = left (HostAdmissionRuntime.tryLeaseNext rt)
    rcases HostAdmissionRuntime.tryLeaseNext rt with ⟨_ | _, _⟩ | _ <;> rfl
  | quarantining record => rfl
  | processing record plan => simp only [resolve]; split_ifs <;> rfl
  | deferring leases =>
    cases leases with
    | nil => rfl
    | cons seq leases => dsimp only; change _ = left (defer seq rt); cases defer seq rt <;> rfl

variable {s : Replayer π}

theorem RuntimeOk.idle {current : Option (Pass π)} (h : RuntimeOk rt current) : Idle rt := by
  cases current with
  | none => exact h
  | some pass => exact passOk_idle h

theorem replayOk_step (h : ReplayOk s) (e : ReplayEvent) (hb : s.settled sha256 decode [e] = true) :
    ReplayOk (s.step sha256 decode e) := by
  obtain ⟨rt, current, outstanding⟩ := s
  obtain ⟨rfl, h⟩ | ⟨rfl, pass, o, call, h, hc, rfl⟩ := h
  · cases e with
    | admission items =>
      cases current with
      | none => exact .inl ⟨rfl, Idle.admission h items⟩
      | some pass => exact .inl ⟨rfl, passOk_admission h items⟩
    | beginReplay targetSeq =>
      cases current with
      | none => exact .inl ⟨rfl, h, rfl, rfl⟩
      | some pass => exact .inl ⟨rfl, h⟩
    | advance outcome =>
      cases current with
      | none => exact .inl ⟨rfl, h⟩
      | some pass => exact .inl ⟨rfl, runtimeOk_advance h outcome⟩
    | cancel => exact .inl ⟨rfl, h.idle⟩
    | abandon outcome =>
      cases current with
      | none => exact .inl ⟨rfl, h⟩
      | some pass =>
        cases hc : pass.call outcome with
        | none => exact .inl ⟨by simp [Replayer.step, hc], h.idle⟩
        | some call => exact .inr ⟨rfl, pass, outcome, call, h, hc, by simp [Replayer.step, hc]⟩
    | runOutstanding index => exact .inl ⟨rfl, h⟩
  · cases e with
    | admission items => exact .inr ⟨rfl, pass, o, call, passOk_admission h items, hc, rfl⟩
    | beginReplay targetSeq => cases hb
    | advance _ | cancel | abandon _ => exact .inr ⟨rfl, pass, o, call, h, hc, rfl⟩
    | runOutstanding index =>
      cases index with
      | zero =>
        have hrun : Idle (advancePass sha256 decode rt pass o).1 := (runtimeOk_advance h o).idle
        rw [advancePass_runtime, hc] at hrun
        exact .inl ⟨rfl, hrun⟩
      | succ index => exact .inr ⟨rfl, pass, o, call, h, hc, rfl⟩

theorem replayOk_run {events : List ReplayEvent} (h : ReplayOk s)
    (hs : s.settled sha256 decode events = true) : ReplayOk (s.run sha256 decode events) := by
  induction events generalizing s with
  | nil => exact h
  | cons event events ih =>
    obtain ⟨hb, hs⟩ := Bool.and_eq_true_iff.mp hs
    exact ih (replayOk_step h event (Bool.and_eq_true_iff.mpr ⟨hb, rfl⟩)) hs

/-- Where no pass begins while a call of a dropped pass is outstanding, events of one source are
applied in the order of their admission: a record is processed only when the pending records of its
source before it are committed, and of every source the committed records are the first of the
pending ones. -/
theorem events_apply_in_admission_order {bounds : SpoolBounds} {w : World}
    (hopen : HostAdmissionRuntime.open sha256 bounds w = .ok rt) (events : List ReplayEvent)
    (hsettled : (Replayer.opened rt).settled sha256 decode events = true) :
    let s := (Replayer.opened rt).run sha256 decode events
    (∀ record, s.processed = some record → ∀ r ∈ s.runtime.spool.pending,
      r.source = record.source → r.seq < record.seq → r.seq ∈ s.runtime.completed) ∧
    ∀ a ∈ s.runtime.spool.pending, ∀ b ∈ s.runtime.spool.pending, a.source = b.source →
      a.seq < b.seq → b.seq ∈ s.runtime.completed → a.seq ∈ s.runtime.completed := by
  obtain ⟨hacc, hin, hc⟩ := accounted_open hopen
  have hidle : Idle rt := ⟨completedFirst_of_empty hc, fun _ => hacc, fun _ _ => hin⟩
  have hok := replayOk_run (s := .opened rt) (.inl ⟨rfl, hidle⟩) hsettled
  generalize (Replayer.opened rt).run sha256 decode events = s at hok
  obtain ⟨rt, current, outstanding⟩ := s
  have hf : CompletedFirst rt := by
    obtain ⟨-, h⟩ | ⟨-, pass, -, -, h, -⟩ := hok
    · exact h.idle.completedFirst
    · exact (passOk_idle h).completedFirst
  refine ⟨fun record hrecord r hr hs hlt => ?_, fun a ha b hb hs =>
    hf a.seq b.seq b.source ⟨a, ha, rfl, hs⟩ ⟨b, hb, rfl, rfl⟩⟩
  obtain ⟨pass, rfl, hp⟩ := Option.bind_eq_some_iff.mp hrecord
  obtain ⟨-, h⟩ | ⟨hnone, -⟩ := hok
  · cases hstage : pass.stage with
    | processing record' plan =>
      rw [hstage] at hp
      cases hp
      simp only [RuntimeOk, PassOk, hstage] at h; exact h.2.earlier r.seq ⟨r, hr, rfl, hs⟩ hlt
    | recovering | leasing | quarantining record' | deferring leases => rw [hstage] at hp; cases hp
  · cases hnone

end Runs

/-- A pass is dropped while it leases, and the lease runs before the next pass begins. There the
first of three records is held back, the second committed, and the third one's plan runs. -/
def thirdTurn : List ReplayEvent :=
  [.admission [("a", [1]), ("b", [2]), ("b", [3])], .beginReplay none, .advance .acceptedForReplay,
    .abandon .acceptedForReplay, .runOutstanding 0, .beginReplay none, .advance .acceptedForReplay,
    .advance .acceptedForReplay, .advance .spoolAckConflict, .advance .acceptedForReplay,
    .advance ⟨.committed, false, none⟩, .advance .acceptedForReplay]

def replayed (events : List ReplayEvent) (rt : HostAdmissionRuntime) : Replayer Unit :=
  (Replayer.opened rt).run zeroDigest (fun _ => .ok ()) events

theorem events_apply_in_admission_order_third :
    ∃ rt, HostAdmissionRuntime.open zeroDigest smallBounds calm = .ok rt ∧
      (Replayer.opened rt).settled zeroDigest (fun _ => .ok ()) thirdTurn = true ∧
      (replayed thirdTurn rt).runtime.spool.pending.map (·.seq) = [1, 2, 3] ∧
      ∃ record, (replayed thirdTurn rt).processed = some record ∧ record.seq = 3 ∧
        ∀ r ∈ (replayed thirdTurn rt).runtime.spool.pending, r.source = record.source →
          r.seq < record.seq → r.seq ∈ (replayed thirdTurn rt).runtime.completed := by
  have hrun : (HostAdmissionRuntime.open zeroDigest smallBounds calm >>= fun rt =>
      .ok ((Replayer.opened rt).settled zeroDigest (fun _ => .ok ()) thirdTurn,
        (replayed thirdTurn rt).runtime.spool.pending.map (·.seq),
        (replayed thirdTurn rt).processed.map (·.seq))) = .ok (true, [1, 2, 3], some 3) := by
    decide +kernel
  obtain ⟨rt, hopen, hstate⟩ := Fallible.bind_eq_ok.mp hrun
  simp only [Except.ok.injEq, Prod.mk.injEq] at hstate
  obtain ⟨hsettled, hpending, hlast⟩ := hstate
  obtain ⟨record, hrecord, hseq⟩ := Option.map_eq_some_iff.mp hlast
  exact ⟨rt, hopen, hsettled, hpending, record, hrecord, hseq,
    (events_apply_in_admission_order hopen thirdTurn hsettled).1 record hrecord⟩

/-- A pass is dropped while it leases, the next one recovers the leases, and only then does the
lease run. The pass takes up the second record of the source. -/
def overtaking : List ReplayEvent :=
  [.admission [("a", [1]), ("a", [2])], .beginReplay none, .advance .acceptedForReplay,
    .abandon .acceptedForReplay, .beginReplay none, .advance .acceptedForReplay, .runOutstanding 0,
    .advance .acceptedForReplay]

/-- The second record is processed before the first, and then it is committed. -/
theorem outstanding_lease_overtaken :
    ∃ rt, HostAdmissionRuntime.open zeroDigest smallBounds calm = .ok rt ∧
      (let s := replayed overtaking rt
        ∃ record, s.processed = some record ∧ ∃ r ∈ s.runtime.spool.pending,
          r.source = record.source ∧ r.seq < record.seq ∧ r.seq ∉ s.runtime.completed) ∧
      let s := replayed (overtaking ++ [.advance ⟨.committed, false, none⟩]) rt
      ∃ a ∈ s.runtime.spool.pending, ∃ b ∈ s.runtime.spool.pending, a.source = b.source ∧
        a.seq < b.seq ∧ b.seq ∈ s.runtime.completed ∧ a.seq ∉ s.runtime.completed := by
  have hrun : (HostAdmissionRuntime.open zeroDigest smallBounds calm >>= fun rt =>
      let s := replayed overtaking rt
      let s' := replayed (overtaking ++ [.advance ⟨.committed, false, none⟩]) rt
      .ok (s.processed.map fun record => decide (∃ r ∈ s.runtime.spool.pending,
          r.source = record.source ∧ r.seq < record.seq ∧ r.seq ∉ s.runtime.completed),
        decide (∃ a ∈ s'.runtime.spool.pending, ∃ b ∈ s'.runtime.spool.pending,
          a.source = b.source ∧ a.seq < b.seq ∧ b.seq ∈ s'.runtime.completed ∧
            a.seq ∉ s'.runtime.completed))) = .ok (some true, true) := by
    decide +kernel
  obtain ⟨rt, hopen, hstate⟩ := Fallible.bind_eq_ok.mp hrun
  simp only [Except.ok.injEq, Prod.mk.injEq] at hstate
  obtain ⟨record, hrecord, hearlier⟩ := Option.map_eq_some_iff.mp hstate.1
  exact ⟨rt, hopen, ⟨record, hrecord, of_decide_eq_true hearlier⟩, of_decide_eq_true hstate.2⟩

end TraceDecay.Admission
