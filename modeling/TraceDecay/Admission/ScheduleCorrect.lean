import Mathlib.Algebra.Order.BigOperators.Group.List
import TraceDecay.Admission.Schedule

/-!
# Admission.ScheduleCorrect

The scheduler's counters are what its queues hold (`Balanced`), and a source's references leave in
the order of its `line`: a new one goes to the back, a deferred one to the front.
-/

namespace TraceDecay.Admission

open List

namespace FairSourceScheduler

def references (queues : List SourceQueue) : List (String × ScheduledRecord) :=
  queues.flatMap fun queue => queue.records.map fun record => (queue.source, record)

/-- The references of one source, first to leave first. -/
def line (queues : List SourceQueue) (source : String) : List ScheduledRecord :=
  ((queues.find? fun queue => queue.source = source).map (·.records)).getD []

def retainedBy (source : String) (records : List ScheduledRecord) : Nat :=
  (sourceBytes source).length + (records.map (·.retainedBytes)).sum

variable {queues : List SourceQueue} {source : String} {record : ScheduledRecord}
  {queue : SourceQueue} {front : Bool}

theorem find?_of_not_mem
    (h : source ∉ queues.map (·.source)) : (queues.find? fun q => q.source = source) = none :=
  find?_eq_none.mpr fun _ hq heq => h (of_decide_eq_true heq ▸ mem_map_of_mem hq)

theorem line_of_not_mem (h : source ∉ queues.map (·.source)) : line queues source = [] := by
  rw [line, find?_of_not_mem h, Option.map_none, Option.getD_none]

theorem line_cons (q : SourceQueue) (queues : List SourceQueue) (source : String) :
    line (q :: queues) source = if q.source = source then q.records else line queues source := by
  by_cases h : q.source = source <;> simp [line, h]

structure Balanced (s : FairSourceScheduler) : Prop where
  sources : (s.queues.map (·.source)).Nodup
  occupied : ∀ queue ∈ s.queues, queue.records ≠ []
  retained : ∀ queue ∈ s.queues, queue.retainedBytes = retainedBy queue.source queue.records
  pending : s.totalPending = (references s.queues).length
  bytes : s.totalBytes = (s.queues.map (·.retainedBytes)).sum

theorem balanced_new (b : FairScheduleBounds) : Balanced (new b) :=
  ⟨.nil, by simp [new], by simp [new], rfl, rfl⟩

@[simp] theorem references_nil : references [] = [] := rfl

@[simp] theorem references_cons (q : SourceQueue) (queues : List SourceQueue) :
    references (q :: queues) =
      q.records.map (fun record => (q.source, record)) ++ references queues :=
  flatMap_cons

theorem references_append (a b : List SourceQueue) :
    references (a ++ b) = references a ++ references b := flatMap_append

section Place

variable {source : String} {record : ScheduledRecord} {front : Bool}

theorem references_place (queues : List SourceQueue) :
    (references (place source record front queues)).Perm ((source, record) :: references queues) := by
  induction queues with
  | nil => simp [place, references]
  | cons queue queues ih =>
    rw [place]
    split
    case isTrue h =>
      subst h
      cases front with
      | true => simp
      | false =>
        simp only [references_cons, map_append, map_cons, map_nil, append_assoc,
          Bool.false_eq_true, if_false]
        exact perm_middle
    case isFalse h => exact (ih.append_left _).trans perm_middle

theorem sources_place_of_mem (h : source ∈ queues.map (·.source)) :
    (place source record front queues).map (·.source) = queues.map (·.source) := by
  induction queues with
  | nil => cases h
  | cons queue queues ih =>
    rw [place]
    split
    case isTrue heq => rfl
    case isFalse hne =>
      rw [map_cons, mem_cons] at h
      rw [map_cons, ih (h.resolve_left fun h => hne h.symm), map_cons]

theorem place_of_not_mem (h : source ∉ queues.map (·.source)) : place source record front queues =
      queues ++ [⟨source, [record], record.retainedBytes + (sourceBytes source).length⟩] := by
  induction queues with
  | nil => rfl
  | cons queue queues ih =>
    rw [map_cons, mem_cons, not_or] at h
    rw [place, if_neg fun heq => h.1 heq.symm, ih h.2, cons_append]

theorem line_place (queues : List SourceQueue) (other : String) :
    line (place source record front queues) other =
      if other = source then
        if front then record :: line queues source else line queues source ++ [record]
      else line queues other := by
  induction queues with
  | nil => by_cases h : source = other <;> cases front <;> simp [place, line, h, eq_comm]
  | cons q queues ih =>
    rw [place]
    by_cases hq : q.source = source
    · subst hq
      by_cases h : q.source = other
      · subst h; cases front <;> simp [line_cons]
      · simp [line_cons, h, Ne.symm h]
    · rw [if_neg hq, line_cons, line_cons, line_cons, if_neg hq, ih]
      by_cases ho : q.source = other
      · subst ho; simp [hq]
      · simp [ho]

theorem usage_eq {s : FairSourceScheduler} (hs : Balanced s) (source : String) : s.usage source =
      if source ∈ s.queues.map (·.source) then
        some ((line s.queues source).length, retainedBy source (line s.queues source))
      else none := by
  unfold usage line
  cases hf : s.queues.find? (fun q => q.source = source) with
  | none =>
    have hnone : source ∉ s.queues.map (·.source) := by
      intro hmem
      obtain ⟨q, hq, rfl⟩ := mem_map.mp hmem
      have hne := find?_eq_none.mp hf q hq
      exact hne (decide_eq_true rfl)
    rw [if_neg hnone, Option.map_none]
  | some q =>
    have hmem : q ∈ s.queues := mem_of_find?_eq_some hf
    have hsource : q.source = source := by have := find?_some hf; simpa using this
    subst hsource
    rw [if_pos (mem_map_of_mem hmem)]
    simp only [Option.map_some, Option.getD_some, hs.retained q hmem]

end Place

def enqueued (s : FairSourceScheduler) (source : String) (record : ScheduledRecord)
    (front : Bool) : FairSourceScheduler :=
  { s with
    queues := place source record front s.queues
    totalPending := s.totalPending + 1
    totalBytes := s.totalBytes + (record.retainedBytes +
      if source ∈ s.queues.map (·.source) then 0 else (sourceBytes source).length) }

theorem retainedBy_cons (source : String) (record : ScheduledRecord)
    (records : List ScheduledRecord) :
    retainedBy source (record :: records) = retainedBy source records + record.retainedBytes := by
  simp only [retainedBy, map_cons, sum_cons]; omega

theorem retainedBy_concat (source : String) (record : ScheduledRecord)
    (records : List ScheduledRecord) :
    retainedBy source (records ++ [record]) = retainedBy source records + record.retainedBytes := by
  simp only [retainedBy, map_append, map_cons, map_nil, sum_append, sum_cons, sum_nil]; omega

theorem queue_place (hr : ∀ queue ∈ queues,
      queue.retainedBytes = retainedBy queue.source queue.records ∧ queue.records ≠ [])
    (h : queue ∈ place source record front queues) :
    queue.retainedBytes = retainedBy queue.source queue.records ∧ queue.records ≠ [] := by
  induction queues with
  | nil =>
    rw [place, mem_singleton] at h
    subst h
    exact ⟨by simp only [retainedBy, map_cons, map_nil, sum_cons, sum_nil]; omega, cons_ne_nil _ _⟩
  | cons first queues ih =>
    obtain ⟨hf, hr⟩ := forall_mem_cons.mp hr
    rw [place] at h
    split at h
    case isTrue heq =>
      rcases mem_cons.mp h with rfl | hrest
      · cases front with
        | true => exact ⟨by simp only [if_true, retainedBy_cons, hf.1], by simp⟩
        | false =>
          exact ⟨by simp only [Bool.false_eq_true, if_false, retainedBy_concat, hf.1], by simp⟩
      · exact hr queue hrest
    case isFalse hne =>
      rcases mem_cons.mp h with rfl | hrest
      · exact hf
      · exact ih hr hrest

theorem bytes_place (queues : List SourceQueue) :
    ((place source record front queues).map (·.retainedBytes)).sum =
      (queues.map (·.retainedBytes)).sum + (record.retainedBytes +
        if source ∈ queues.map (·.source) then 0 else (sourceBytes source).length) := by
  induction queues with
  | nil => simp [place]
  | cons q queues ih =>
    rw [place]
    by_cases hq : q.source = source
    · have hmem : source ∈ (q :: queues).map (·.source) := by simp [hq]
      rw [if_pos hq, if_pos hmem]
      simp only [map_cons, sum_cons]; omega
    · have hmem : source ∈ (q :: queues).map (·.source) ↔ source ∈ queues.map (·.source) := by
        rw [map_cons, mem_cons, or_iff_right fun h => hq h.symm]
      rw [if_neg hq, map_cons, sum_cons, ih, map_cons, sum_cons, if_congr hmem rfl rfl]; omega

variable {s : FairSourceScheduler}

theorem Balanced.enqueued (hs : Balanced s) (source : String)
    (record : ScheduledRecord) (front : Bool) : Balanced (s.enqueued source record front) := by
  have hqueue : ∀ q ∈ place source record front s.queues,
      q.retainedBytes = retainedBy q.source q.records ∧ q.records ≠ [] :=
    fun q h => queue_place (fun q hq => ⟨hs.retained q hq, hs.occupied q hq⟩) h
  refine ⟨?_, fun q h => (hqueue q h).2, fun q h => (hqueue q h).1, ?_, ?_⟩
  · change ((place source record front s.queues).map (·.source)).Nodup
    by_cases h : source ∈ s.queues.map (·.source)
    · rw [sources_place_of_mem h]; exact hs.sources
    · rw [place_of_not_mem h, map_append]
      exact nodup_append'.mpr ⟨hs.sources, nodup_singleton _, disjoint_singleton.mpr h⟩
  · change s.totalPending + 1 = (references (place source record front s.queues)).length
    rw [(references_place s.queues).length_eq, length_cons, hs.pending]
  · change s.totalBytes + _ = ((place source record front s.queues).map (·.retainedBytes)).sum
    rw [bytes_place, hs.bytes]

/-! ## What a reference may cost -/

/-- A reference weighs its bytes and its source's name, which a queue counts only once. -/
def weight (reference : String × ScheduledRecord) : Nat :=
  (sourceBytes reference.1).length + reference.2.retainedBytes

theorem retainedBy_le_weight {records : List ScheduledRecord} (h : records ≠ []) :
    retainedBy source records ≤ ((records.map fun record => (source, record)).map weight).sum := by
  cases records with
  | nil => exact absurd rfl h
  | cons record records =>
    have hr : (records.map (·.retainedBytes)).sum ≤
        (records.map fun record => weight (source, record)).sum :=
      sum_le_sum fun _ _ => Nat.le_add_left _ _
    simp only [retainedBy, map_map, map_cons, sum_cons, weight, Function.comp_def] at hr ⊢; omega

theorem Balanced.totalBytes_le (hs : Balanced s) :
    s.totalBytes ≤ ((references s.queues).map weight).sum := by
  rw [hs.bytes, references, flatMap_def, map_flatten, sum_flatten, map_map, map_map]
  refine sum_le_sum fun queue hq => ?_
  rw [hs.retained queue hq]; exact retainedBy_le_weight (hs.occupied queue hq)

theorem line_references (hdistinct : (queues.map (·.source)).Nodup) (source : String) :
    (line queues source).map (fun record => (source, record)) =
      (references queues).filter (fun r => r.1 = source) := by
  induction queues with
  | nil => rfl
  | cons queue queues ih =>
    rw [map_cons, nodup_cons] at hdistinct
    rw [references_cons, filter_append, filter_map, ← ih hdistinct.2]
    by_cases h : queue.source = source
    · subst h; rw [line_of_not_mem hdistinct.1]; simp [line_cons, Function.comp_def]
    · simp [line_cons, h, Function.comp_def]

/-- The bounds leave room for `references`, each counted with its source's name. -/
structure Allows (bounds : FairScheduleBounds)
    (references : List (String × ScheduledRecord)) : Prop where
  records : references.length ≤ bounds.totalRecords
  bytes : (references.map weight).sum ≤ bounds.totalBytes
  sourceRecords : ∀ source,
    (references.filter (fun reference => reference.1 = source)).length ≤ bounds.recordsPerSource
  sourceBytes : ∀ source,
    ((references.filter (fun reference => reference.1 = source)).map weight).sum ≤
      bounds.bytesPerSource

theorem Allows.perm {bs : FairScheduleBounds} {a b : List (String × ScheduledRecord)}
    (h : Allows bs a) (hp : a.Perm b) : Allows bs b := by
  refine ⟨hp.length_eq ▸ h.records, ?_, fun source => ?_, fun source => ?_⟩
  · rw [← (hp.map weight).sum_eq]; exact h.bytes
  · rw [← (hp.filter _).length_eq]; exact h.sourceRecords source
  · rw [← ((hp.filter _).map weight).sum_eq]; exact h.sourceBytes source

theorem tryEnqueueRecord_spec (hs : Balanced s) {seq retainedBytes : Nat} :
    s.tryEnqueueRecord source seq retainedBytes front =
      if s.bounds.sourceBytes < (Admission.sourceBytes source).length then (.sourceTooLarge, s)
      else if s.bounds.recordBytes < retainedBytes then (.recordTooLarge, s)
      else if s.bounds.totalRecords ≤ s.totalPending ∨
          s.bounds.recordsPerSource ≤ (line s.queues source).length ∨
          s.bounds.bytesPerSource < retainedBy source (line s.queues source) + retainedBytes ∨
          s.bounds.totalBytes < (s.enqueued source ⟨seq, retainedBytes⟩ front).totalBytes then
        (.backpressured, s)
      else (.accepted (s.totalPending + 1) ((line s.queues source).length + 1),
        s.enqueued source ⟨seq, retainedBytes⟩ front) := by
  have hu := usage_eq hs source
  by_cases hm : source ∈ s.queues.map (·.source)
  · rw [if_pos hm] at hu
    simp only [tryEnqueueRecord, hu, enqueued, if_pos hm, ite_or, Option.getD_some,
      Option.isNone_some, Bool.false_eq_true, if_false, Nat.add_zero]
  · rw [if_neg hm] at hu
    simp only [tryEnqueueRecord, hu, enqueued, if_neg hm, ite_or, Option.getD_none,
      Option.isNone_none, if_true, line_of_not_mem hm, retainedBy, map_nil, sum_nil, length_nil,
      Nat.zero_add, Nat.add_zero, Nat.add_comm retainedBytes]

theorem tryEnqueueRecord_eq (hs : Balanced s) {seq retainedBytes : Nat}
    (front : Bool) (hsource : (Admission.sourceBytes source).length ≤ s.bounds.sourceBytes)
    (hrecord : retainedBytes ≤ s.bounds.recordBytes)
    (hr : Allows s.bounds ((source, ⟨seq, retainedBytes⟩) :: references s.queues)) :
    ∃ t p, s.tryEnqueueRecord source seq retainedBytes front =
      (.accepted t p, s.enqueued source ⟨seq, retainedBytes⟩ front) := by
  have ha : Balanced (s.enqueued source ⟨seq, retainedBytes⟩ front) := hs.enqueued _ _ _
  have hp : ((source, ⟨seq, retainedBytes⟩) :: references s.queues).Perm
      (references (s.enqueued source ⟨seq, retainedBytes⟩ front).queues) :=
    (references_place s.queues).symm
  have hr' := hr.perm hp
  have ht : s.totalPending < s.bounds.totalRecords := by
    have := hr.records
    rw [length_cons, ← hs.pending] at this; omega
  have hb : (s.enqueued source ⟨seq, retainedBytes⟩ front).totalBytes ≤ s.bounds.totalBytes :=
    ha.totalBytes_le.trans hr'.bytes
  -- the line of the source after the enqueue, counted by its references
  have hline : line (s.enqueued source ⟨seq, retainedBytes⟩ front).queues source =
      if front then ⟨seq, retainedBytes⟩ :: line s.queues source
      else line s.queues source ++ [⟨seq, retainedBytes⟩] := by
    exact (line_place s.queues source).trans (if_pos rfl)
  have hrefs := line_references ha.sources source
  have hl : (line s.queues source).length < s.bounds.recordsPerSource := by
    have hc := hr'.sourceRecords source
    rw [← hrefs, length_map, hline] at hc
    cases front <;> simp at hc <;> omega
  have hroom : retainedBy source (line s.queues source) + retainedBytes ≤
      s.bounds.bytesPerSource := by
    have hne : line (s.enqueued source ⟨seq, retainedBytes⟩ front).queues source ≠ [] := by
      rw [hline]
      cases front <;> simp
    have hle : retainedBy source _ ≤ _ := (retainedBy_le_weight hne).trans
      (hrefs ▸ hr'.sourceBytes source)
    rw [hline] at hle
    cases front
    · simpa [retainedBy_concat] using hle
    · simpa [retainedBy_cons] using hle
  rw [tryEnqueueRecord_spec hs, if_neg (Nat.not_lt.mpr hsource), if_neg (Nat.not_lt.mpr hrecord),
    if_neg (by omega)]
  exact ⟨_, _, rfl⟩

/-! ## Popping -/

theorem line_append_of_not_mem (h : queue.source ∉ queues.map (·.source)) (source : String) :
    line (queues ++ [queue]) source =
      if source = queue.source then queue.records else line queues source := by
  by_cases hs : source = queue.source
  · subst hs; rw [if_pos rfl, line, find?_append, find?_of_not_mem h]; simp
  · have hs' : ¬ queue.source = source := fun heq => hs heq.symm
    rw [if_neg hs, line, find?_append, line]
    cases queues.find? fun q => q.source = source with
    | some q => rfl
    | none => simp [hs']

section Pop

variable {s : FairSourceScheduler} {source : String} {record : ScheduledRecord}
  {records : List ScheduledRecord} {retainedBytes : Nat} {queues : List SourceQueue}

theorem afterPop_queues : (s.afterPop source record records retainedBytes queues).queues =
      if records = [] then queues
      else queues ++ [⟨source, records, retainedBytes - record.retainedBytes⟩] := by
  unfold afterPop
  split <;> rfl

theorem afterPop_totalPending :
    (s.afterPop source record records retainedBytes queues).totalPending = s.totalPending - 1 := by
  unfold afterPop
  split <;> rfl

theorem afterPop_bounds :
    (s.afterPop source record records retainedBytes queues).bounds = s.bounds := by
  unfold afterPop
  split <;> rfl

variable (hs : Balanced s) (hq : s.queues = ⟨source, record :: records, retainedBytes⟩ :: queues)

include hs hq

theorem front_not_mem : source ∉ queues.map (·.source) := by
  have h := hs.sources
  rw [hq, map_cons, nodup_cons] at h; exact h.1

theorem front_retained : retainedBytes = retainedBy source records + record.retainedBytes := by
  have h := hs.retained ⟨source, record :: records, retainedBytes⟩ (hq ▸ mem_cons_self)
  rwa [retainedBy_cons] at h

omit hs in
theorem references_afterPop : (references s.queues).Perm ((source, record) ::
      references (s.afterPop source record records retainedBytes queues).queues) := by
  rw [afterPop_queues, hq, references_cons, map_cons, cons_append]
  refine List.Perm.cons _ ?_
  split
  case isTrue h => simp [h]
  case isFalse h =>
    rw [references_append, references_cons, references_nil, append_nil]; exact perm_append_comm

theorem Balanced.afterPop : Balanced (s.afterPop source record records retainedBytes queues) := by
  have hss := hs.sources
  have hbytes := hs.bytes
  have hfront := front_retained hs hq
  rw [hq, map_cons, nodup_cons] at hss
  rw [hq, map_cons, sum_cons] at hbytes
  have hqueue : ∀ q ∈ (s.afterPop source record records retainedBytes queues).queues,
      q.records ≠ [] ∧ q.retainedBytes = retainedBy q.source q.records := by
    have hr : ∀ q ∈ queues, q.records ≠ [] ∧ q.retainedBytes = retainedBy q.source q.records :=
      fun q h => have hmem := hq ▸ mem_cons_of_mem _ h; ⟨hs.occupied q hmem, hs.retained q hmem⟩
    rw [afterPop_queues]
    split_ifs with hne
    · exact hr
    · refine forall_mem_append.mpr ⟨hr, forall_mem_singleton.mpr ⟨hne, ?_⟩⟩
      simp only
      omega
  refine ⟨?_, fun q h => (hqueue q h).1, fun q h => (hqueue q h).2, ?_, ?_⟩
  · rw [afterPop_queues]
    split
    · exact hss.2
    · rw [map_append]
      exact nodup_append'.mpr ⟨hss.2, nodup_singleton _, disjoint_singleton.mpr hss.1⟩
  · have hp := (references_afterPop hq).length_eq
    rw [length_cons, ← hs.pending] at hp
    rw [afterPop_totalPending]; omega
  · rw [afterPop_queues]
    unfold FairSourceScheduler.afterPop
    simp only at hbytes
    split_ifs with h
    · simp only [h, retainedBy, map_nil, sum_nil] at hfront ⊢; omega
    · rw [map_append, sum_append]; simp only [map_cons, map_nil, sum_cons, sum_nil]; omega

theorem line_afterPop (other : String) : line s.queues other =
      (if other = source then [record] else []) ++
        line (s.afterPop source record records retainedBytes queues).queues other := by
  have hmem := front_not_mem hs hq
  have hf : line s.queues other =
      if other = source then record :: records else line queues other := by
    rw [hq, line_cons]; exact if_congr eq_comm rfl rfl
  rw [hf, afterPop_queues]
  by_cases h : other = source
  · subst h
    rw [if_pos rfl, if_pos rfl]
    split
    case isTrue hl => rw [line_of_not_mem hmem, hl, append_nil]
    case isFalse hl =>
      rw [line_append_of_not_mem hmem, if_pos rfl, singleton_append]
  · rw [if_neg h, if_neg h, nil_append]
    split
    · rfl
    · rw [line_append_of_not_mem hmem, if_neg h]

end Pop

theorem popNext_cases (hs : Balanced s) : (s.totalPending = 0 ∧ s.popNext = (none, s)) ∨
    ∃ source record s', s.popNext = (some ⟨record.seq, source, s.totalPending - 1⟩, s') ∧
      Balanced s' ∧ s'.bounds = s.bounds ∧
      (∃ rest more, s.queues.map (·.source) = source :: rest ∧
        s'.queues.map (·.source) = rest ++ more ∧ more ⊆ [source]) ∧
      (references s.queues).Perm ((source, record) :: references s'.queues) ∧
      ∀ other, line s.queues other =
        (if other = source then [record] else []) ++ line s'.queues other := by
  by_cases hz : s.totalPending = 0
  · exact .inl ⟨hz, by rw [popNext, if_pos hz]⟩
  refine .inr ?_
  cases hq : s.queues with
  | nil => have hp := hs.pending; rw [hq] at hp; exact absurd hp hz
  | cons queue queues =>
    obtain ⟨source, records, retainedBytes⟩ := queue
    cases records with
    | nil =>
      have hmem : (⟨source, [], retainedBytes⟩ : SourceQueue) ∈ s.queues := hq ▸ mem_cons_self
      exact absurd rfl (hs.occupied _ hmem)
    | cons record records =>
      rw [← hq]
      refine ⟨source, record, s.afterPop source record records retainedBytes queues, ?_,
        hs.afterPop hq, afterPop_bounds, ⟨queues.map (·.source), ?_⟩, references_afterPop hq,
        line_afterPop hs hq⟩
      · rw [popNext, if_neg hz, hq]
      · rw [hq, afterPop_queues]
        split
        · exact ⟨[], rfl, (append_nil _).symm, nil_subset _⟩
        · exact ⟨[source], rfl, map_append, Subset.refl _⟩

end FairSourceScheduler

end TraceDecay.Admission
