import TraceDecay.Admission.Accounts

/-!
# Admission.Memory

What the operations of the spool make of its accounts, whichever writes fail.

* `compactPending_moves`: a compaction moves frames and nothing else.
* `appendBatch_appended`: a batch adds the records of the items it accepted, behind all others.
* `kept_acknowledged`, `quarantine_ends`: what is resolved leaves the accounts.
-/

namespace TraceDecay.Admission

open Stateful Fallible List
open HostAdmissionSpool (ackThrough ensureMutationsAllowed release)
open SpoolRecord (frame stripped)

/-! ## Moving frames -/

/-- `s'` is `s` with its frames moved in the file. -/
structure Moves (s s' : HostAdmissionSpool) : Prop where
  bounds : s'.bounds = s.bounds
  spoolMeta : s'.spoolMeta = s.spoolMeta
  pending : s'.pending.map stripped = s.pending.map stripped
  pendingBytes : s'.pendingBytes = s.pendingBytes
  pendingBySource : s'.pendingBySource = s.pendingBySource
  append : s'.appendRecoveryRequired = s.appendRecoveryRequired
  terminal : s'.quarantineRecoveryRequired = s.quarantineRecoveryRequired

section Moves

variable {s s' s'' : HostAdmissionSpool} {r : SpoolRecord}

theorem Moves.refl (s : HostAdmissionSpool) : Moves s s := ⟨rfl, rfl, rfl, rfl, rfl, rfl, rfl⟩

theorem Moves.trans (h : Moves s s') (h' : Moves s' s'') : Moves s s'' :=
  ⟨h'.bounds.trans h.bounds, h'.spoolMeta.trans h.spoolMeta, h'.pending.trans h.pending,
    h'.pendingBytes.trans h.pendingBytes, h'.pendingBySource.trans h.pendingBySource,
    h'.append.trans h.append, h'.terminal.trans h.terminal⟩

variable {l l' : List SpoolRecord}

theorem Moves.length (h : Moves s s') : s'.pending.length = s.pending.length := by
  have hlen := congrArg List.length h.pending
  simpa only [length_map] using hlen

theorem Moves.allowed (h : Moves s s') : s'.ensureMutationsAllowed = s.ensureMutationsAllowed := by
  unfold ensureMutationsAllowed
  rw [h.spoolMeta, h.terminal, h.append]

variable (h : l'.map stripped = l.map stripped)
include h

theorem mem_of_stripped_eq (hr : r ∈ l') : ∃ r0 ∈ l, r0.stripped = r.stripped := by
  have hmem : r.stripped ∈ l.map stripped := h ▸ mem_map_of_mem hr
  exact mem_map.mp hmem

/-- What does not look at a frame's place sees no difference when frames move. -/
theorem eq_of_stripped_eq {β : Sort _} (F : List SpoolRecord → β)
    (hF : ∀ l, F (l.map stripped) = F l) : F l' = F l := by
  rw [← hF l', h, hF]

theorem forall_of_stripped_eq {P : SpoolRecord → Prop} (hP : ∀ r, P r.stripped ↔ P r)
    (hl : ∀ r ∈ l, P r) : ∀ r ∈ l', P r := by
  rw [eq_of_stripped_eq h (∀ r ∈ ·, P r) fun l => propext ?_]
  · exact hl
  · exact forall_mem_map.trans (forall₂_congr fun r _ => hP r)

theorem ordered_of_stripped_eq
    (hl : l.Pairwise fun a b => a.seq < b.seq) : l'.Pairwise fun a b => a.seq < b.seq := by
  rw [eq_of_stripped_eq h (List.Pairwise _) fun l => propext pairwise_map]; exact hl

theorem framedLen_sum_of_stripped_eq : (l'.map (·.framedLen)).sum = (l.map (·.framedLen)).sum :=
  eq_of_stripped_eq h (fun l => (l.map (·.framedLen)).sum) fun _ => congrArg List.sum map_map

omit h

theorem Kept.moves (h : Kept s) (hm : Moves s s') : Kept s' := by
  obtain ⟨hb, hmeta, hp, hbytes, hu, -, -⟩ := hm
  refine ⟨hb ▸ h.valid, ordered_of_stripped_eq hp h.ordered, ?_, hmeta ▸ h.watermark,
    ?_, ?_, ?_, ?_, ?_⟩
  · exact forall_of_stripped_eq hp (fun _ => sized_stripped) (hb ▸ h.sized)
  · exact forall_of_stripped_eq hp (fun _ => Iff.rfl) (hmeta ▸ h.above)
  · exact forall_of_stripped_eq hp (fun _ => Iff.rfl) (hmeta ▸ h.below)
  · exact hbytes.trans (h.bytes.trans (framedLen_sum_of_stripped_eq hp).symm)
  · intro source
    rw [hu, h.usage source, ← usageOf_stripped, ← hp, usageOf_stripped]
  · rw [hb, ← within_stripped, hp, within_stripped]; exact h.within

end Moves

/-! ## Compaction -/

variable {m : Machine} {bad : SpoolError → Machine → Prop} {α : Type} {s s' : HostAdmissionSpool}
  {b : SpoolBounds} {payload f : Bytes} {seq : Nat} {source : String} {p : Planning}
  {r : SpoolRecord} {l : List SpoolRecord}

theorem onDisk_then {β : Type} {x : EStateM SpoolError World α} {f : α → EStateM SpoolError Machine β}
    {good : β → Machine → Prop}
    (hbad : ∀ e m', m'.spool = m.spool → bad e m')
    (hf : ∀ a m', m'.spool = m.spool → Ends (f a m') good bad) :
    Ends ((onDisk x >>= f) m) good bad := by
  have hx : Ends (onDisk x m) (fun _ m' => m'.spool = m.spool) bad := by
    unfold onDisk
    cases x m.world with
    | ok a w => rfl
    | error e w => exact hbad e _ rfl
  exact Ends.bind hx hf

theorem publishMeta_moves (m : Machine) : Leaves (publishMeta m) fun m' => Moves m.spool m'.spool := by
  unfold publishMeta
  rw [bind_of_ok get_apply]
  split
  · refine onDisk_then (fun _ _ h => h ▸ Moves.refl _) fun _ m' hm' => ends_ok.mpr ?_
    rw [← hm']; exact { Moves.refl m'.spool with }
  · exact ends_ok.mpr (Moves.refl _)

variable {sha256 : Bytes → FixedBytes 32}

theorem rewritePending_moves (hs : Kept s)
    (hm : Moves s m.spool) : Leaves (rewritePending sha256 s m) fun m' => Moves s m'.spool := by
  unfold rewritePending
  split
  case isTrue hnil =>
    refine onDisk_then (fun _ _ h => h ▸ hm) fun _ m' hm' => ends_ok.mpr ?_
    rw [← hm'] at hm
    have hz : s.pendingBytes = 0 := by rw [hs.bytes, hnil]; rfl
    exact { hm with pendingBytes := hz.symm }
  case isFalse hne =>
    rw [mapM_encodeFrame sha256 hs.valid hs.sized, Except.mapError, bind_of_ok lift_ok]
    refine onDisk_then (fun _ _ h => h ▸ hm) fun _ m' hm' => ends_ok.mpr ?_
    rw [← hm'] at hm
    have hmoved := rebuilt_stripped sha256 (fun r hr => (hs.sized r hr).framed) 0
    have hsum := framedLen_sum_of_stripped_eq hmoved
    exact { hm with pending := hmoved, pendingBytes := hsum.trans hs.bytes.symm }

theorem compactPending_moves (hs : Kept m.spool) :
    Leaves (compactPending sha256 m) fun m' => Moves m.spool m'.spool := by
  unfold compactPending
  rw [bind_of_ok get_apply]
  cases ha : m.spool.ensureMutationsAllowed with
  | error e => exact ends_error.mpr (Moves.refl _)
  | ok u =>
    rw [bind_of_ok lift_ok]
    exact Ends.bind (publishMeta_moves m) fun _ m' hm' => rewritePending_moves hs hm'

/-! ## Planning a batch -/

/-- A batch under way: `rs` are the records it will have, without their places. -/
structure Planned (sha256 : Bytes → FixedBytes 32) (s : HostAdmissionSpool)
    (rs : List SpoolRecord) (p : Planning) : Prop where
  moves : Moves s p.machine.spool
  nextSeq : p.batch.nextSeq = s.spoolMeta.nextSeq + rs.length
  records : p.batch.records = rs.length
  seqs : rs.map (·.seq) = List.range' s.spoolMeta.nextSeq rs.length
  sized : ∀ r ∈ rs, Sized s.bounds r
  bytes : p.batch.bytes = (rs.map (frame sha256)).flatten
  usage : p.batch.bySource.Counts rs
  within : Within s.bounds (s.pending ++ rs)

theorem planned_new (hs : Kept m.spool) :
    Planned sha256 m.spool [] ⟨m, PlannedBatch.new m.spool.spoolMeta.nextSeq⟩ :=
  ⟨Moves.refl _, rfl, rfl, rfl, by simp, rfl, SourceUsage.counts_empty, by simpa using hs.within⟩

theorem validateRecordBounds_eq_ok {source : Bytes}
    (h : validateRecordBounds source payload b = .ok ()) :
    source.length ≤ b.maxSourceBytes ∧ payload.length ≤ b.maxRecordBytes := by
  simp only [validateRecordBounds, ite_error_eq_ok] at h; omega

theorem encodeFrame_eq_ok {source : Bytes} (h : encodeFrame sha256 seq source payload = .ok f) :
    seq ≠ 0 ∧ seq ≠ u64Max ∧ f =
      frameBody seq source payload ++ (sha256 (frameBody seq source payload)).bytes := by
  simp only [encodeFrame, ite_error_eq_ok, not_or] at h
  obtain ⟨hseq, -, -, ⟨⟩⟩ := h
  exact ⟨hseq.1, hseq.2, rfl⟩

theorem planFrame_eq_ok {b : PlannedBatch} (h : planFrame sha256 s b source payload = .ok f) :
    (sourceBytes source).length ≤ s.bounds.maxSourceBytes ∧
    payload.length ≤ s.bounds.maxRecordBytes ∧
    s.pending.length + b.records < s.bounds.maxRecords ∧
    (s.pendingBySource.of source).1 + (b.bySource.of source).1 < s.bounds.maxRecordsPerSource ∧
    (s.pendingBySource.of source).2 + (b.bySource.of source).2 + f.length ≤
      s.bounds.maxSpoolBytesPerSource ∧
    s.pendingBytes + (b.bytes.length + f.length) ≤ s.bounds.maxSpoolBytes ∧
    b.nextSeq ≠ 0 ∧ b.nextSeq ≠ u64Max ∧
    f = frameBody b.nextSeq (sourceBytes source) payload ++
      (sha256 (frameBody b.nextSeq (sourceBytes source) payload)).bytes := by
  simp only [planFrame, Fallible.bind_eq_ok, throw_eq, ite_error_eq_ok] at h
  obtain ⟨⟨⟩, hb, hr, hcount, -, frame', hf, hroom, hbytes, ⟨⟩⟩ := h
  obtain ⟨hs, hp⟩ := validateRecordBounds_eq_ok hb
  obtain ⟨hz, hmax, hf⟩ := encodeFrame_eq_ok hf
  exact ⟨hs, hp, by omega, by omega, by omega, by omega, hz, hmax, hf⟩

theorem ensurePhysicalRoom_moves (hs : Kept m.spool) (u : Nat) :
    Leaves (ensurePhysicalRoom sha256 u m) fun m' => Moves m.spool m'.spool := by
  unfold ensurePhysicalRoom
  rw [bind_of_ok get_apply]
  split
  · refine Ends.bind (compactPending_moves hs) fun _ m' hm' => ?_
    rw [bind_of_ok get_apply]
    split
    · exact ends_error.mpr hm'
    · exact ends_ok.mpr hm'
  · exact ends_ok.mpr (Moves.refl _)

theorem onMachine_ends {x : EStateM SpoolError Machine α} {good : α → Machine → Prop}
    (h : Ends (x p.machine) good bad) :
    Ends (onMachine x p) (fun a p' => good a p'.machine ∧ p'.batch = p.batch)
      (fun e p' => bad e p'.machine ∧ p'.batch = p.batch) := by
  unfold onMachine
  obtain ⟨a, m, hx, h⟩ | ⟨e, m, hx, h⟩ := h.cases
  · rw [hx]; exact ⟨h, rfl⟩
  · rw [hx]; exact ⟨h, rfl⟩

theorem Planned.machine {rs : List SpoolRecord} {p' : Planning}
    (h : Planned sha256 s rs p) (hm : Moves p.machine.spool p'.machine.spool)
    (hb : p'.batch = p.batch) : Planned sha256 s rs p' :=
  ⟨h.moves.trans hm, hb ▸ h.nextSeq, hb ▸ h.records, h.seqs, h.sized, hb ▸ h.bytes,
    hb ▸ h.usage, h.within⟩

theorem within_concat (h : Within b l)
    (hr : l.length < b.maxRecords) (hb : (l.map (·.framedLen)).sum + r.framedLen ≤ b.maxSpoolBytes)
    (hcount : (usageOf r.source l).1 < b.maxRecordsPerSource)
    (hroom : (usageOf r.source l).2 + r.framedLen ≤ b.maxSpoolBytesPerSource) :
    Within b (l ++ [r]) := by
  refine ⟨by simpa using Nat.succ_le_of_lt hr, by simpa using hb, fun source => ?_, fun source => ?_⟩
  · rw [usageOf_append, usageOf_cons, usageOf_nil]
    by_cases hs : r.source = source
    · subst hs; simpa using Nat.succ_le_of_lt hcount
    · rw [if_neg hs]; simpa using h.sourceRecords source
  · rw [usageOf_append, usageOf_cons, usageOf_nil]
    by_cases hs : r.source = source
    · subst hs; simpa using hroom
    · rw [if_neg hs]; simpa using h.sourceBytes source

def plannedEntries : List (Except SpoolError (Nat × Nat)) → List (String × Bytes) → List SpoolRecord
  | .ok (seq, framedLen) :: planned, (source, payload) :: items =>
    ⟨seq, source, payload, 0, framedLen⟩ :: plannedEntries planned items
  | .error _ :: planned, _ :: items => plannedEntries planned items
  | _, _ => []

section Planning

variable {s : HostAdmissionSpool} {rs : List SpoolRecord} {p : Planning}

theorem Planned.length_bytes (h : Planned sha256 s rs p) :
    p.batch.bytes.length = (rs.map (·.framedLen)).sum := by
  have hf : ∀ r ∈ rs, (r.frame sha256).length = r.framedLen :=
    fun r hr => (length_frame sha256 r).trans (h.sized r hr).framed.symm
  rw [h.bytes, length_flatten, map_map]; exact congrArg List.sum (map_congr_left hf)

variable (hs : Kept s) (h : Planned sha256 s rs p)
include hs h

theorem Planned.concat (hframe : planFrame sha256 p.machine.spool p.batch source payload = .ok f) :
    Planned sha256 s (rs ++ [⟨p.batch.nextSeq, source, payload, 0, f.length⟩])
      { p with batch := p.batch.add source f } := by
  obtain ⟨hsource, hp, hrecords, hcount, hroom, hb, hz, hmax, rfl⟩ := planFrame_eq_ok hframe
  have hm := h.moves
  rw [hm.bounds] at hsource hp hrecords hcount hroom hb
  rw [hm.pendingBySource, hs.usage, h.usage] at hcount hroom
  rw [hm.pendingBytes, hs.bytes] at hb
  rw [hm.length, h.records] at hrecords
  have hl := length_frame sha256 ⟨p.batch.nextSeq, source, payload, 0, 0⟩
  refine ⟨hm, ?_, ?_, ?_, ?_, ?_, ?_, ?_⟩
  · simp only [PlannedBatch.add, h.nextSeq, length_append, length_singleton]; omega
  · simp only [PlannedBatch.add, h.records, length_append, length_singleton]
  · rw [map_append, h.seqs]
    simp only [length_append, length_cons, length_nil, Nat.zero_add]
    rw [range'_concat]; simp [h.nextSeq]
  · exact forall_mem_append.mpr ⟨h.sized, forall_mem_singleton.mpr ⟨hz, hmax, hsource, hp, hl⟩⟩
  · simp only [PlannedBatch.add, h.bytes, map_append, flatten_append, map_cons,
      map_nil, flatten_cons, flatten_nil, append_nil]
    rfl
  · exact h.usage.add ⟨p.batch.nextSeq, source, payload, 0, _⟩
  · rw [← append_assoc]
    refine within_concat h.within ?_ ?_ ?_ ?_
    · rw [length_append]; omega
    · rw [map_append, sum_append, ← h.length_bytes]; simp only; omega
    · rw [usageOf_append]; exact hcount
    · rw [usageOf_append]; exact hroom

theorem planAppend_planned (source : String) (payload : Bytes) : Ends
    (planAppend sha256 source payload p)
      (fun entry p' => Planned sha256 s (rs ++ [⟨entry.1, source, payload, 0, entry.2⟩]) p')
      (fun _ p' => Planned sha256 s rs p') := by
  unfold planAppend
  rw [bind_of_ok get_apply]
  cases hf : planFrame sha256 p.machine.spool p.batch source payload with
  | error e => exact ends_error.mpr h
  | ok frame =>
    rw [bind_of_ok lift_ok]
    refine Ends.bind ((onMachine_ends (ensurePhysicalRoom_moves (hs.moves h.moves) _)).mono
      (fun _ _ h => h) fun _ p' hp' => h.machine hp'.1 hp'.2) ?_
    intro _ p' hp'
    exact ends_ok.mpr ((h.concat hs hf).machine hp'.1 (congrArg (·.add source frame) hp'.2))

omit h

theorem planItems_planned (i : List (String × Bytes)) :
    ∀ {rs : List SpoolRecord} {p : Planning}, Planned sha256 s rs p →
      Planned sha256 s (rs ++ plannedEntries (planItems sha256 i p).1 i)
        (planItems sha256 i p).2 := by
  induction i with
  | nil => exact fun h => by simpa [planItems, plannedEntries] using h
  | cons item i ih =>
    intro rs p h
    obtain ⟨source, payload⟩ := item
    rw [planItems]
    obtain ⟨⟨seq, framedLen⟩, p', hp, hi⟩ | ⟨e, p', hp, hi⟩ :=
      (planAppend_planned hs h source payload).cases
    · have hr := ih hi
      rw [append_assoc, singleton_append] at hr
      rw [hp]; exact hr
    · rw [hp]; exact ih hi

end Planning

/-! ## Appending -/

theorem accepted_plannedRecords (planned : List (Except SpoolError (Nat × Nat)))
    (items : List (String × Bytes)) (o : Nat) :
    (accepted (plannedRecords o planned items)).map stripped = plannedEntries planned items := by
  induction planned generalizing items o with
  | nil => cases items <;> rfl
  | cons answer planned ih =>
    cases items with
    | nil => cases answer <;> rfl
    | cons item items =>
      cases answer with
      | error e => exact ih items o
      | ok answer =>
        obtain ⟨seq, framedLen⟩ := answer
        exact congrArg (List.cons _) (ih items (o + framedLen))

theorem accepted_errors (l : List α) (f : α → SpoolError) :
    accepted (l.map fun a => .error (f a)) = [] := by
  rw [accepted, filterMap_map]; exact filterMap_eq_nil_iff.mpr fun _ _ => rfl

theorem accepted_refused (planned : List (Except SpoolError (Nat × Nat))) (e : SpoolError) :
    accepted (planned.map (refusePlanned e)) = [] := by
  rw [accepted, filterMap_map]
  exact filterMap_eq_nil_iff.mpr fun answer _ => by cases answer <;> rfl

def Allowed (s : HostAdmissionSpool) : Prop := s.ensureMutationsAllowed = .ok ()

/-- `s'` is `s` with `recs` appended, and possibly in need of recovery. -/
structure Appended (s s' : HostAdmissionSpool) (recs : List SpoolRecord) : Prop where
  kept : Kept s'
  bounds : s'.bounds = s.bounds
  pending : s'.pending.map stripped = (s.pending ++ recs).map stripped

theorem SourceUsage.Counts.foldl_add {u : SourceUsage} (h : u.Counts l) (recs : List SpoolRecord) :
    (recs.foldl (fun u r => u.add r.source r.framedLen) u).Counts (l ++ recs) := by
  induction recs generalizing u l with
  | nil => simpa using h
  | cons r recs ih => have hr := ih (h.add r); rwa [append_assoc, singleton_append] at hr

section Appending

variable {s s1 : HostAdmissionSpool} {rs recs : List SpoolRecord} {p : Planning}

theorem moves_kept (hs : Kept s) (hm : Moves s s') : Appended s s' [] :=
  ⟨hs.moves hm, hm.bounds, by simpa using hm.pending⟩

variable (hs : Kept s) (h : Planned sha256 s rs p)

include hs h in
theorem kept_admitBatch (hm : Moves s s1) (hrecs : recs.map stripped = rs) :
    Kept (s1.admitBatch p.batch recs) := by
  have hs1 := hs.moves hm
  have hmem : ∀ r ∈ recs, r.stripped ∈ rs := fun r hr => hrecs ▸ mem_map_of_mem hr
  have hseqs : recs.map (·.seq) = List.range' s1.spoolMeta.nextSeq rs.length := by
    rw [hm.spoolMeta, ← h.seqs, ← hrecs, map_map]; rfl
  have hrange : ∀ r ∈ recs, s1.spoolMeta.nextSeq ≤ r.seq ∧ r.seq < p.batch.nextSeq := by
    intro r hr
    have hseq : r.seq ∈ recs.map (·.seq) := mem_map_of_mem hr
    rw [hseqs, mem_range'_1] at hseq
    rw [h.nextSeq, ← hm.spoolMeta]; exact hseq
  have hf : (recs.map (·.framedLen)).sum = p.batch.bytes.length := by
    rw [h.length_bytes, ← hrecs, map_map]; rfl
  have hn : s1.spoolMeta.nextSeq ≤ p.batch.nextSeq := by
    rw [h.nextSeq, hm.spoolMeta]; exact Nat.le_add_right _ _
  refine ⟨hs1.valid, ?_, ?_, hs1.watermark.trans_le hn, ?_, ?_, ?_, hs1.usage.foldl_add recs, ?_⟩
  · refine pairwise_append.mpr ⟨hs1.ordered, ?_, fun a ha b hb => ?_⟩
    · have hlt : (recs.map (·.seq)).Pairwise (· < ·) := hseqs ▸ pairwise_lt_range'
      exact pairwise_map.mp hlt
    · exact (hs1.below a ha).trans_le (hrange b hb).1
  · refine forall_mem_append.mpr ⟨hs1.sized, fun r hr => ?_⟩
    have hsized := h.sized r.stripped (hmem r hr)
    rw [sized_stripped, ← hm.bounds] at hsized; exact hsized
  · exact forall_mem_append.mpr ⟨hs1.above, fun r hr => hs1.watermark.trans_le (hrange r hr).1⟩
  · exact forall_mem_append.mpr
      ⟨fun r hr => (hs1.below r hr).trans_le hn, fun r hr => (hrange r hr).2⟩
  · change s1.pendingBytes + p.batch.bytes.length = ((s1.pending ++ recs).map (·.framedLen)).sum
    rw [map_append, sum_append, hs1.bytes, hf]
  · change Within s1.bounds (s1.pending ++ recs)
    have hw := within_stripped.mpr h.within
    rw [map_append, ← hrecs, map_map] at hw
    rw [← within_stripped, map_append, hm.pending, hm.bounds]; exact hw

theorem publishBatch_moves (b : PlannedBatch) (m : Machine) :
    Leaves (publishBatch sha256 b m) fun m' => Moves m.spool m'.spool := by
  unfold publishBatch
  rw [bind_of_ok get_apply]
  refine onDisk_then (fun _ _ h => h ▸ Moves.refl _) fun _ m1 hm1 => ?_
  have hm : Moves m.spool { m1.spool with metaUnpublished := true } :=
    hm1 ▸ { Moves.refl m1.spool with }
  refine Ends.bind (P := fun _ m' => Moves m.spool m'.spool) (ends_ok.mpr hm) ?_
  intro _ m2 hm2
  refine onDisk_then (fun _ _ h => h ▸ hm2) fun o m3 hm3 => ?_
  rw [← hm3] at hm2
  split
  · exact ends_error.mpr hm2
  · exact ends_ok.mpr hm2

variable {planned : List (Except SpoolError (Nat × Nat))} {i : List (String × Bytes)}
  (hrecs : plannedEntries planned i = rs)
include hs h hrecs

theorem finishBatch_appended (hm : Moves s m.spool) : Appended s
    (finishBatch planned p.batch i m).2.spool
      (accepted (finishBatch planned p.batch i m).1) := by
  have hr : (accepted (plannedRecords m.spool.physicalLen planned i)).map
      stripped = rs := (accepted_plannedRecords _ _ _).trans hrecs
  refine ⟨kept_admitBatch hs h hm hr, hm.bounds, ?_⟩
  change (m.spool.pending ++ _).map stripped = _; rw [map_append, hm.pending, map_append]; rfl

theorem commitPlanned_appended : Appended s (commitPlanned sha256 planned i p).2.spool
    (accepted (commitPlanned sha256 planned i p).1) := by
  unfold commitPlanned
  split
  · exact finishBatch_appended hs h hrecs h.moves
  obtain ⟨u, m, hp, hmoves⟩ | ⟨e, m, hp, hmoves⟩ := (publishBatch_moves p.batch p.machine).cases
  · rw [hp]; exact finishBatch_appended hs h hrecs (h.moves.trans hmoves)
  have hm : Moves s m.spool := h.moves.trans hmoves
  have hk := hs.moves hm
  simp only [hp, refuseBatch, accepted_refused]
  exact ⟨{ hk with }, hm.bounds, by simpa using hm.pending⟩

omit hs h hrecs

theorem appendPlanned_appended (hs : Kept m.spool) (i : List (String × Bytes)) :
    Appended m.spool (appendPlanned sha256 i m).2.spool (accepted (appendPlanned sha256 i m).1) :=
  commitPlanned_appended hs (planItems_planned hs i (planned_new hs)) (nil_append _).symm

theorem Appended.after_moves (hm : Moves s s1) (h : Appended s1 s' recs) : Appended s s' recs := by
  refine ⟨h.kept, h.bounds.trans hm.bounds, ?_⟩
  rw [h.pending, map_append, hm.pending, map_append]

theorem appendBatch_appended (hs : Kept m.spool) (i : List (String × Bytes)) :
    Appended m.spool (appendBatch sha256 i m).2.spool (accepted (appendBatch sha256 i m).1) := by
  unfold appendBatch
  split
  · rw [accepted_errors]; exact moves_kept hs (Moves.refl _)
  split
  · rw [accepted_errors]; exact moves_kept hs (Moves.refl _)
  split
  · obtain ⟨u, m', hc, hm⟩ | ⟨e, m', hc, hm⟩ := (compactPending_moves hs).cases
    · rw [hc]; exact (appendPlanned_appended (hs.moves hm) i).after_moves hm
    · simp only [hc, accepted_errors]; exact moves_kept hs hm
  · exact appendPlanned_appended hs i

end Appending

/-! ## Resolving records -/

variable {s : HostAdmissionSpool}

theorem foldl_release (l : List SpoolRecord) (s : HostAdmissionSpool) : l.foldl release s =
      { s with
        pendingBytes := s.pendingBytes - (l.map (·.framedLen)).sum
        pendingBySource := (l.foldl release s).pendingBySource } := by
  induction l generalizing s with
  | nil => rfl
  | cons r l ih => rw [foldl_cons, ih]; simp only [release, map_cons, sum_cons, Nat.sub_sub]

variable {rest : List SpoolRecord}

theorem counts_foldl_release (h : s.pendingBySource.Counts (l ++ rest)) :
    (l.foldl release s).pendingBySource.Counts rest := by
  induction l generalizing s with
  | nil => exact h
  | cons r l ih => exact ih h.release

/-- The spool after the records up to `through` were acknowledged, `rest` being left. -/
def acknowledged (s : HostAdmissionSpool) (front rest : List SpoolRecord) (through : Nat) :
    HostAdmissionSpool :=
  { front.foldl release s with
    spoolMeta := { s.spoolMeta with committedThrough := through }
    metaUnpublished := true
    pending := rest
    cleanupPending := true }

theorem acknowledged_bounds (s : HostAdmissionSpool) (f rest : List SpoolRecord)
    (t : Nat) : (acknowledged s f rest t).bounds = s.bounds := by
  unfold acknowledged
  rw [foldl_release]

theorem kept_acknowledged (hs : Kept s) {f : List SpoolRecord}
    (hsplit : s.pending = f ++ r :: rest) : Kept (acknowledged s (f ++ [r]) rest r.seq) := by
  have hall : s.pending = (f ++ [r]) ++ rest := by
    rw [hsplit, append_assoc, singleton_append]
  have hr : ∀ r' ∈ rest, r' ∈ s.pending := fun r' hr' => hall ▸ mem_append_right _ hr'
  have ho := hs.ordered
  rw [hsplit, pairwise_append, pairwise_cons] at ho
  unfold acknowledged
  rw [foldl_release]
  refine ⟨hs.valid, ho.2.1.2, fun r' hr' => hs.sized r' (hr r' hr'),
    hs.below r (hsplit ▸ mem_append_right _ mem_cons_self), ho.2.1.1,
    fun r' hr' => hs.below r' (hr r' hr'), ?_, ?_, ?_⟩
  · change s.pendingBytes - _ = (rest.map (·.framedLen)).sum
    rw [hs.bytes, hall, map_append, sum_append, Nat.add_sub_cancel_left]
  · exact counts_foldl_release (hall ▸ hs.usage)
  · exact hs.within.sublist (hall ▸ sublist_append_right _ _)

theorem ackThrough_of_mem (hs : Kept s) (ha : Allowed s) {f : List SpoolRecord}
    (hsplit : s.pending = f ++ r :: rest) :
    s.ackThrough r.seq = .ok (f.length + 1, acknowledged s (f ++ [r]) rest r.seq) := by
  have hmem : r ∈ s.pending := hsplit ▸ mem_append_right _ mem_cons_self
  have habove := hs.above r hmem
  have ho := hs.ordered
  rw [hsplit, pairwise_append, pairwise_cons] at ho
  have ht : s.pending.getLast? = some (rest.getLast?.getD r) := by
    rw [hsplit, getLast?_append, getLast?_cons]; rfl
  have hle : ¬ (rest.getLast?.getD r).seq < r.seq := by
    cases hlt : rest.getLast? with
    | none => exact lt_irrefl _
    | some last => exact not_lt.mpr (ho.2.1.1 last (mem_of_getLast? hlt)).le
  have hi : s.pending.findIdx? (fun x => decide (x.seq = r.seq)) = some f.length := by
    rw [hsplit, findIdx?_append]
    have hnone : f.findIdx? (fun x => decide (x.seq = r.seq)) = none := by
      rw [findIdx?_eq_none_iff]
      intro x hr; exact decide_eq_false (ho.2.2 x hr r mem_cons_self).ne
    rw [hnone, findIdx?_cons, decide_eq_true rfl]; simp
  have hall : s.pending = (f ++ [r]) ++ rest := by
    rw [hsplit, append_assoc, singleton_append]
  have hl : (f ++ [r]).length = f.length + 1 := length_append
  have hf : s.pending.take (f.length + 1) = f ++ [r] := by rw [hall, take_left' hl]
  have hrest : s.pending.drop (f.length + 1) = rest := by rw [hall, drop_left' hl]
  unfold ackThrough
  rw [ha, ok_bind, if_neg (by omega), ht]
  simp only [if_neg hle, hi, hf, hrest]; rfl

theorem ackThrough_of_not_allowed (h : ¬ Allowed s) (t : Nat) : ∃ e, s.ackThrough t = .error e := by
  unfold ackThrough
  cases ha : s.ensureMutationsAllowed with
  | ok u => exact absurd ha h
  | error e => exact ⟨e, rfl⟩

/-- What a terminal move leaves: the accounts of `s` with or without the record, and without it only
where the move succeeded or a reopen has to settle it. -/
structure Terminated (s s' : HostAdmissionSpool) (seq : Nat) : Prop where
  kept : Kept s'
  bounds : s'.bounds = s.bounds
  pending : s'.pending.map stripped = (s.pending.eraseP fun r => r.seq = seq).map stripped

theorem perm_eraseP_of_find {p : SpoolRecord → Bool}
    (h : l.find? p = some r) : l.Perm (r :: l.eraseP p) := by
  obtain ⟨a, front, rest, hf, ha, rfl, he⟩ :=
    exists_of_eraseP (mem_of_find?_eq_some h) (find?_some h)
  have hnone : front.find? p = none := find?_eq_none.mpr fun b hb => by simpa using hf b hb
  rw [find?_append, hnone, find?_cons, ha] at h
  cases h
  rw [he]; exact perm_middle

def terminated (s : HostAdmissionSpool) (r : SpoolRecord) (seq : Nat) : HostAdmissionSpool :=
  { s.release r with
    pending := s.pending.eraseP fun r => r.seq = seq
    cleanupPending := true }

theorem terminated_kept (hs : Kept s) (hr : s.pendingRecord seq = some r) :
    Terminated s (terminated s r seq) seq := by
  have hp : s.pending.Perm (r :: s.pending.eraseP fun r => r.seq = seq) := perm_eraseP_of_find hr
  have hsub : (s.pending.eraseP fun r => r.seq = seq).Sublist s.pending := eraseP_sublist
  refine ⟨⟨hs.valid, hs.ordered.sublist hsub, fun r' hr' => hs.sized r' (hsub.subset hr'),
    hs.watermark,
    fun r' hr' => hs.above r' (hsub.subset hr'), fun r' hr' => hs.below r' (hsub.subset hr'), ?_, ?_,
    hs.within.sublist hsub⟩, rfl, rfl⟩
  · change s.pendingBytes - r.framedLen = _
    rw [hs.bytes, (hp.map _).sum_eq, map_cons, sum_cons, Nat.add_sub_cancel_left]; rfl
  · exact (hs.usage.perm hp).release

theorem not_allowed_of_terminal (h : s.quarantineRecoveryRequired = true) : ¬ Allowed s := by
  unfold Allowed ensureMutationsAllowed
  split
  · simp
  · simp [h]

theorem preserve_ends (seq : Nat) (reason : TerminalReason) (a : Bytes) (m : Machine) :
    Ends (preserve sha256 seq reason a m) (fun _ m' => ∃ q, m'.spool =
      { m.spool with quarantine := q })
      (fun _ m' => m'.spool = m.spool) := by
  unfold preserve
  rw [bind_of_ok get_apply]
  cases m.spool.quarantine.preserveFrame sha256 m.spool.bounds seq reason a with
  | error e => exact ends_error.mpr rfl
  | ok frame =>
    rw [bind_of_ok lift_ok]
    cases frame with
    | none => exact ends_ok.mpr ⟨_, rfl⟩
    | some frame =>
      refine onDisk_then (fun _ _ h => h) fun _ m' hm' => ends_ok.mpr ?_
      rw [← hm']; exact ⟨_, rfl⟩

theorem preserveTerminal_ends (seq : Nat) (reason : TerminalReason) (a : Bytes) (m : Machine) :
    Ends (preserveTerminal sha256 seq reason a m)
      (fun _ m' => ∃ q, m'.spool = { m.spool with quarantine := q })
      (fun e m' => m'.spool = m.spool ∨ (e ≠ .quarantineFull ∧
        m'.spool = { m.spool with quarantineRecoveryRequired := true })) := by
  unfold preserveTerminal
  obtain ⟨u, m', hp, h⟩ | ⟨e, m', hp, hm'⟩ := (preserve_ends seq reason a m).cases
  · rw [hp]; exact h
  · rw [hp]
    cases e <;> first
      | exact ends_error.mpr (.inl hm')
      | exact ends_error.mpr (.inr ⟨by simp, by rw [← hm']⟩)

theorem compactAfterTerminal_moves (hs : Kept m.spool) :
    Ends (compactAfterTerminal sha256 m) (fun _ m' => Moves m.spool m'.spool)
      (fun e m' => e ≠ .quarantineFull ∧ ∃ s1, Moves m.spool s1 ∧
        m'.spool = { s1 with cleanupPending := true, quarantineRecoveryRequired := true }) := by
  unfold compactAfterTerminal
  split
  · obtain ⟨u, m', hc, hm⟩ | ⟨e, m', hc, hm⟩ := (compactPending_moves hs).cases
    · rw [hc]; exact hm
    · rw [hc]; exact ends_error.mpr ⟨by simp, m'.spool, hm, rfl⟩
  · exact ends_ok.mpr (Moves.refl _)

theorem Terminated.moves {s'' : HostAdmissionSpool} (h : Terminated s s' seq)
    (hm : Moves s' s'') : Terminated s s'' seq :=
  ⟨h.kept.moves hm, hm.bounds.trans h.bounds, hm.pending.trans h.pending⟩

/-- What a quarantine leaves of a spool: on success the record is gone; a failure leaves the accounts
as they were, or has to be settled by a reopen. -/
theorem quarantine_ends (hs : Kept m.spool) (seq : Nat) (reason : TerminalReason) :
    Ends (quarantine sha256 seq reason m)
      (fun _ m' => Terminated m.spool m'.spool seq ∧ (Allowed m'.spool ↔ Allowed m.spool))
      (fun e m' => m'.spool = m.spool ∨ (e ≠ .quarantineFull ∧ ¬ Allowed m'.spool ∧
        (m'.spool.pending = m.spool.pending ∨ Terminated m.spool m'.spool seq))) := by
  unfold quarantine
  rw [bind_of_ok get_apply]
  cases ha : m.spool.ensureMutationsAllowed with
  | error e => exact ends_error.mpr (.inl rfl)
  | ok u =>
    rw [bind_of_ok lift_ok]
    cases hr : m.spool.pendingRecord seq with
    | none =>
      have hnone : m.spool.pending.eraseP (fun r => decide (r.seq = seq)) = m.spool.pending :=
        eraseP_of_forall_not fun r h => by simpa using find?_eq_none.mp hr r h
      cases m.spool.quarantine.entry seq with
      | none => exact ends_error.mpr (.inl rfl)
      | some entry =>
        unfold quarantineResolved
        by_cases hreason : entry.reason = reason
        · simp only [if_pos hreason]; exact ends_ok.mpr ⟨⟨hs, rfl, by rw [hnone]⟩, Iff.rfl⟩
        · simp only [if_neg hreason]
          exact ends_error.mpr (.inr ⟨by simp, not_allowed_of_terminal rfl, .inl rfl⟩)
    | some r =>
      simp only
      have hmem : r ∈ m.spool.pending := mem_of_find?_eq_some hr
      rw [encodeFrame_of_sized sha256 hs.valid (hs.sized r hmem), bind_of_ok lift_ok]
      refine Ends.bind ((preserveTerminal_ends seq reason _ m).mono (fun _ _ h => h) ?_) ?_
      · rintro e m' (hm' | ⟨he, hm'⟩)
        · exact .inl hm'
        · rw [hm']; exact .inr ⟨he, not_allowed_of_terminal rfl, .inl rfl⟩
      · rintro ⟨⟩ m1 ⟨q, hm1⟩
        have hk1 : Kept m1.spool := hm1 ▸ { hs with }
        have hr1 : m1.spool.pendingRecord seq = some r := hm1 ▸ hr
        have hm := terminated_kept hk1 hr1
        have ht : Terminated m.spool (terminated m1.spool r seq) seq :=
          ⟨hm.kept, hm1 ▸ hm.bounds, by rw [hm.pending, hm1]⟩
        have hopen : Allowed (terminated m1.spool r seq) ↔ Allowed m.spool := by rw [hm1]; rfl
        change Ends (compactAfterTerminal sha256
          { m1 with spool := terminated m1.spool r seq }) _ _
        refine (compactAfterTerminal_moves hm.kept).mono ?_ ?_
        · intro _ m2 hm2
          refine ⟨ht.moves hm2, ?_⟩
          rw [← hopen]
          unfold Allowed
          rw [hm2.allowed]
        · rintro e m2 ⟨he, s1, hs1, hm2⟩
          have ht1 := ht.moves hs1
          rw [hm2]
          exact .inr ⟨he, not_allowed_of_terminal rfl,
            .inr ⟨{ ht1.kept with }, ht1.bounds, ht1.pending⟩⟩

end TraceDecay.Admission
