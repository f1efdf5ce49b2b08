import TraceDecay.Admission.ScheduleCorrect

/-!
# Admission.Rotation

The rotation is fair: between two pops of one source, every other source that waits all the while is
popped. A source that was popped is behind all that wait, and new sources queue up behind them.
-/

namespace TraceDecay.Admission

open List

inductive SchedulerCall
  | enqueue (source : String) (seq retainedBytes : Nat)
  | requeueFront (source : String) (seq retainedBytes : Nat)
  | pop

namespace FairSourceScheduler

/-- What a call pops, and the scheduler it leaves. -/
def call (s : FairSourceScheduler) : SchedulerCall → Option FairPop × FairSourceScheduler
  | .enqueue source seq retainedBytes => (none, (s.tryEnqueueReference source seq retainedBytes).2)
  | .requeueFront source seq retainedBytes =>
    (none, (s.requeueFrontReference source seq retainedBytes).2)
  | .pop => s.popNext

def after (s : FairSourceScheduler) (calls : List SchedulerCall) : FairSourceScheduler :=
  calls.foldl (fun s c => (s.call c).2) s

def sources (s : FairSourceScheduler) : List String := s.queues.map (·.source)

/-- A source that has records from one pop of another to the next is popped in between. -/
def Fair (s : FairSourceScheduler) : Prop :=
  ∀ first second middle other, s.popNext.1 = some first →
    (s.popNext.2.after middle).popNext.1 = some second → second.source = first.source →
    other ≠ first.source →
    (∀ before later, middle = before ++ later → line (s.popNext.2.after before).queues other ≠ []) →
    ∃ before later p, middle = before ++ .pop :: later ∧
      (s.popNext.2.after before).popNext.1 = some p ∧ p.source = other

/-- An enqueue is refused, or puts the record at one end of its source's line. -/
def Queues (s : FairSourceScheduler) (front : Bool) (source : String) (record : ScheduledRecord)
    (result : FairEnqueueOutcome × FairSourceScheduler) : Prop :=
  (∀ t p, result.1 ≠ .accepted t p) ∧ result.2 = s ∨
    (∃ t p, result.1 = .accepted t p) ∧ ∀ other, line result.2.queues other =
      if other = source then
        if front then record :: line s.queues source else line s.queues source ++ [record]
      else line s.queues other

variable {s : FairSourceScheduler} {source other x : String} {seq retainedBytes : Nat} {front : Bool}

theorem tryEnqueueRecord_cases (hs : Balanced s) :
    ((∀ t p, (s.tryEnqueueRecord source seq retainedBytes front).1 ≠ .accepted t p) ∧
      (s.tryEnqueueRecord source seq retainedBytes front).2 = s) ∨
    ∃ t p, s.tryEnqueueRecord source seq retainedBytes front =
      (.accepted t p, s.enqueued source ⟨seq, retainedBytes⟩ front) := by
  rw [tryEnqueueRecord_spec hs]
  split_ifs
  iterate 3 exact .inl ⟨nofun, rfl⟩
  exact .inr ⟨_, _, rfl⟩

theorem tryEnqueueRecord_sources (hs : Balanced s) :
    Balanced (s.tryEnqueueRecord source seq retainedBytes front).2 ∧
      ∃ more, (s.tryEnqueueRecord source seq retainedBytes front).2.sources = s.sources ++ more := by
  obtain ⟨-, h⟩ | ⟨t, p, h⟩ := tryEnqueueRecord_cases hs
  · rw [h]; exact ⟨hs, [], (append_nil _).symm⟩
  · rw [h]
    refine ⟨hs.enqueued .., ?_⟩
    by_cases hm : source ∈ s.queues.map (·.source)
    · exact ⟨[], (sources_place_of_mem hm).trans (append_nil _).symm⟩
    · exact ⟨[source], by rw [sources, enqueued, place_of_not_mem hm, map_append]; rfl⟩

/-- A call pops nothing and adds to the back of the rotation, or pops its front, which may go to the
back. -/
theorem call_cases (hs : Balanced s) (c : SchedulerCall) : Balanced (s.call c).2 ∧
    ((s.call c).1 = none ∧ (∃ more, (s.call c).2.sources = s.sources ++ more) ∨
      c = .pop ∧ ∃ p rest more, s.popNext.1 = some p ∧ s.sources = p.source :: rest ∧
        s.popNext.2.sources = rest ++ more ∧ more ⊆ [p.source]) := by
  cases c with
  | enqueue source seq retainedBytes =>
    exact (tryEnqueueRecord_sources hs).imp_right fun h => .inl ⟨rfl, h⟩
  | requeueFront source seq retainedBytes =>
    exact (tryEnqueueRecord_sources hs).imp_right fun h => .inl ⟨rfl, h⟩
  | pop =>
    rw [call]
    obtain ⟨-, h⟩ | ⟨source, record, s', h, hs', -, ⟨rest, more, hrest⟩, -⟩ := popNext_cases hs
    · rw [h]; exact ⟨hs, .inl ⟨rfl, [], (append_nil _).symm⟩⟩
    · rw [h]; exact ⟨hs', .inr ⟨rfl, _, rest, more, rfl, hrest⟩⟩

theorem Balanced.after (hs : Balanced s) (calls : List SchedulerCall) : Balanced (s.after calls) := by
  induction calls generalizing s with
  | nil => exact hs
  | cons c calls ih => exact ih (call_cases hs c).1

theorem balanced_after_new (bounds : FairScheduleBounds) (calls : List SchedulerCall) :
    Balanced ((new bounds).after calls) := (balanced_new bounds).after calls

/-- `other` is in the rotation, and `x` is not before it. -/
def Ahead (other x : String) (l : List String) : Prop := ∃ a b, l = a ++ other :: b ∧ x ∉ a

theorem Ahead.append {l : List String} (h : Ahead other x l) (more : List String) :
    Ahead other x (l ++ more) := by
  obtain ⟨a, b, rfl, hx⟩ := h
  exact ⟨a, b ++ more, append_assoc .., hx⟩

theorem Ahead.after (hs : Balanced s) (h : Ahead other x s.sources) (calls : List SchedulerCall) :
    (∃ before later p, calls = before ++ .pop :: later ∧ (s.after before).popNext.1 = some p ∧
      p.source = other) ∨ Ahead other x (s.after calls).sources := by
  induction calls generalizing s with
  | nil => exact .inr h
  | cons c calls ih =>
    obtain ⟨hb, hc⟩ := call_cases hs c
    have ha : (c = .pop ∧ ∃ p, s.popNext.1 = some p ∧ p.source = other) ∨
        Ahead other x (s.call c).2.sources := by
      obtain ⟨-, more, hm⟩ | ⟨rfl, p, rest, more, hp, hr, hm, -⟩ := hc
      · exact .inr (hm ▸ h.append more)
      · obtain ⟨a, b, hab, hx⟩ := h
        cases a with
        | nil => exact .inl ⟨rfl, p, hp, (cons.inj (hr.symm.trans hab)).1⟩
        | cons first a =>
          obtain ⟨-, rfl⟩ := cons.inj (hr.symm.trans hab)
          exact .inr (hm ▸ Ahead.append ⟨a, b, rfl, fun hm => hx (mem_cons_of_mem _ hm)⟩ more)
    rcases ha with ⟨rfl, p, hp⟩ | ha
    · exact .inl ⟨[], calls, p, rfl, hp⟩
    · rcases ih hb ha with ⟨before, later, p, rfl, hp⟩ | ha
      · exact .inl ⟨c :: before, later, p, rfl, hp⟩
      · exact .inr ha

theorem Balanced.fair (hs : Balanced s) : Fair s := by
  intro first second middle other hf hl hsame hne hp
  obtain ⟨hb, ⟨hn, -⟩ | ⟨-, p, rest, more, hp', hr, hm, hsub⟩⟩ := call_cases hs .pop
  · cases hn.symm.trans hf
  obtain rfl := Option.some.inj (hp'.symm.trans hf)
  have hmem : other ∈ s.popNext.2.sources :=
    Decidable.byContradiction fun h => hp [] middle rfl (line_of_not_mem h)
  rw [hm, mem_append] at hmem
  obtain ⟨a, b, rfl⟩ := append_of_mem
    (hmem.resolve_right fun h => hne (mem_singleton.mp (hsub h)))
  have hx : p.source ∉ a := fun h =>
    (nodup_cons.mp (hr ▸ hs.sources : (p.source :: (a ++ other :: b)).Nodup)).1 (mem_append_left _ h)
  have ha : Ahead other p.source s.popNext.2.sources := hm ▸ Ahead.append ⟨a, b, rfl, hx⟩ more
  rcases ha.after hb middle with h | ⟨a, b, hab, hx⟩
  · exact h
  -- the front of the rotation is `other` or before it, so it is not the source popped first
  obtain ⟨-, ⟨hn, -⟩ | ⟨-, q, rest, -, hq, hr, -⟩⟩ := call_cases (hb.after middle) .pop
  · cases hn.symm.trans hl
  obtain rfl := Option.some.inj (hq.symm.trans hl)
  cases a with
  | nil => exact absurd ((cons.inj (hab.symm.trans hr)).1.trans hsame) hne
  | cons front a =>
    obtain ⟨hfront, -⟩ := cons.inj (hab.symm.trans hr)
    exact absurd mem_cons_self ((hfront.trans hsame) ▸ hx)

theorem Balanced.queues (hs : Balanced s) : Queues s front source ⟨seq, retainedBytes⟩
    (s.tryEnqueueRecord source seq retainedBytes front) := by
  obtain h | ⟨t, p, h⟩ := tryEnqueueRecord_cases hs
  · exact .inl h
  · rw [h]; exact .inr ⟨⟨t, p, rfl⟩, line_place s.queues⟩

theorem Balanced.popNext_ne_none (hs : Balanced s) (h : line s.queues source ≠ []) :
    s.popNext.1 ≠ none := by
  obtain ⟨hzero, -⟩ | ⟨source, record, s', hpop, -⟩ := popNext_cases hs
  · have hline := line_references hs.sources source
    rw [length_eq_zero_iff.mp (hs.pending.symm.trans hzero), filter_nil] at hline
    exact absurd (map_eq_nil_iff.mp hline) h
  · rw [hpop]; exact Option.some_ne_none _

/-- From every state that calls lead to, the rotation is fair, a pop answers while a record waits,
and each source's records are served first to last: a new one goes to the back of its line, a
requeued one to the front. -/
theorem rotation_fair (bounds : FairScheduleBounds) (calls : List SchedulerCall) :
    Fair ((new bounds).after calls) ∧
    (∀ source seq retainedBytes, Queues ((new bounds).after calls) false source ⟨seq, retainedBytes⟩
      (((new bounds).after calls).tryEnqueueReference source seq retainedBytes)) ∧
    (∀ source seq retainedBytes, Queues ((new bounds).after calls) true source ⟨seq, retainedBytes⟩
      (((new bounds).after calls).requeueFrontReference source seq retainedBytes)) ∧
    (∀ source, line ((new bounds).after calls).queues source ≠ [] →
      ((new bounds).after calls).popNext.1 ≠ none) ∧
    ∀ p, ((new bounds).after calls).popNext.1 = some p → ∃ record : ScheduledRecord,
      record.seq = p.seq ∧ ∀ other, line ((new bounds).after calls).queues other =
        (if other = p.source then [record] else []) ++
          line ((new bounds).after calls).popNext.2.queues other := by
  have hs := (balanced_new bounds).after calls
  refine ⟨hs.fair, fun _ _ _ => hs.queues, fun _ _ _ => hs.queues,
    fun _ hline => hs.popNext_ne_none hline, fun p hp => ?_⟩
  obtain ⟨-, h⟩ | ⟨source, record, s', h, -, -, -, -, hl⟩ := popNext_cases hs
  · rw [h] at hp; cases hp
  · rw [h] at hp ⊢; cases hp; exact ⟨record, rfl, hl⟩

end FairSourceScheduler

end TraceDecay.Admission
