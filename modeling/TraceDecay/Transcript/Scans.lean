import Mathlib.Logic.Equiv.List
import Mathlib.Data.Prod.Lex
import TraceDecay.Transcript.Lines

/-!
# Transcript.Scans

One batch and runs of batches. Before every frame the frames and skipped ranges so far cover the
file up to the offset (`Covers`); a batch leaves them so, and a resumed batch starts at the cursor.
-/

namespace TraceDecay.Transcript

open Sorting Nat
open List hiding dedup
open BatchScanner (handle handleOversized pushSkipped readBudget scan)

/-- The lines that scans return. -/
def kept (m : Nat) (line : Nat × Bytes) : Bool := line.2.length ≤ m && !line.2.all isAsciiWhitespace

/-- The frames are the kept lines before the cursor, frames and skipped ranges tile what is before
it, and it is between two lines or inside one that is too long. -/
structure Covers (m : Nat) (bytes : Bytes) (cursor : Nat) (frames : List RawJsonlRecord)
    (skipped : List RawJsonlSkippedRange) : Prop where
  le : cursor ≤ bytes.length
  lines : (frames.map fun record => (record.offset, record.endOffset, record.bytes)) =
    ((splitLines (bytes.take cursor)).lines.filter (kept m)).map fun line =>
      (line.1, line.1 + line.2.length, line.2)
  tiled : Tiled cursor frames skipped
  between : (splitLines (bytes.take cursor)).tail = [] ∨
    m < (splitLines (bytes.take cursor)).tail.length

section

variable {m : Nat} {bytes : Bytes} {cursor : Nat} {frames frames' : List RawJsonlRecord}
  {skipped skipped' : List RawJsonlSkippedRange} {whole rest : Bytes}

theorem take_add_of_drop (h : bytes.drop cursor = whole ++ rest) :
    bytes.take (cursor + whole.length) = bytes.take cursor ++ whole := by
  rw [take_add, h, take_append_of_le_length (le_refl _), take_length]

theorem add_le_of_drop (h : bytes.drop cursor = whole ++ rest) (hw : whole ≠ []) :
    cursor + whole.length ≤ bytes.length := by
  have hl := congrArg List.length h
  rw [length_drop, length_append] at hl
  have := length_pos_iff.mpr hw
  omega

theorem Covers.open_ (h : Covers m bytes cursor frames skipped)
    (hd : bytes.drop cursor = whole ++ rest) (hne : whole ≠ []) (hopen : newline ∉ whole)
    (hl : m < (splitLines (bytes.take cursor)).tail.length + whole.length)
    (htiled : Tiled (cursor + whole.length) frames skipped') :
    Covers m bytes (cursor + whole.length) frames skipped' := by
  have ht := take_add_of_drop hd
  refine ⟨add_le_of_drop hd hne, ?_, htiled, .inr ?_⟩
  · rw [ht, splitLines_append_open hopen]; exact h.lines
  · rw [ht, splitLines_append_open hopen, length_append]; exact hl

theorem Covers.line (h : Covers m bytes cursor frames skipped)
    (hd : bytes.drop cursor = whole ++ rest) (hl : IsLine whole)
    (hf : (frames'.map fun r => (r.offset, r.endOffset, r.bytes)) =
      (frames.map fun r => (r.offset, r.endOffset, r.bytes)) ++
        (([((splitLines (bytes.take cursor)).start,
          (splitLines (bytes.take cursor)).tail ++ whole)].filter (kept m)).map fun line =>
            (line.1, line.1 + line.2.length, line.2)))
    (htiled : Tiled (cursor + whole.length) frames' skipped') :
    Covers m bytes (cursor + whole.length) frames' skipped' := by
  have hne : whole ≠ [] := by obtain ⟨body, rfl, -⟩ := hl; simp
  have ht := take_add_of_drop hd
  refine ⟨add_le_of_drop hd hne, ?_, htiled, .inl ?_⟩
  · rw [ht, splitLines_append_line hl, hf, h.lines, filter_append, map_append]
  · rw [ht, splitLines_append_line hl]

end

/-! ## A batch -/

/-- The ends of the ranges with the fingerprints recorded there. -/
def marks (frames : List RawJsonlRecord) (skipped : List RawJsonlSkippedRange) : List (Nat × Nat) :=
  (frames.map fun record => (record.endOffset, record.resumeFingerprint)) ++
    skipped.map fun range => (range.endOffset, range.resumeFingerprint)

section

variable (fingerprint : Bytes → Nat → Nat) (m : Nat) (bytes : Bytes) (frames : List RawJsonlRecord)
  (skipped : List RawJsonlSkippedRange)

/-- A batch over `bytes` after the given frames and skipped ranges. -/
structure Batch (s : BatchScanner) : Prop where
  size : s.fileSize = bytes.length
  limit : s.maxRecordBytes = m
  seek : s.seekTo ≤ s.offset
  covers : Covers m bytes s.offset (frames ++ s.frames) (skipped ++ s.skipped)
  stamped : ∀ mark ∈ marks s.frames s.skipped, mark.2 = fingerprint (bytes.take mark.1) mark.1
  reached : s.seekTo < s.offset → ∃ mark ∈ marks s.frames s.skipped, mark.1 = s.offset

/-- Ready to read the next frame. -/
structure Ready (s : BatchScanner) : Prop where
  buffers : s.reader.buffers.flatten = bytes.drop s.offset
  nonempty : [] ∉ s.reader.buffers
  digest : s.reader.resumeDigest = bytes.take s.offset
  inside : s.continuingOversized = true ↔ (splitLines (bytes.take s.offset)).tail ≠ []
  limit : s.reader.maxRecordBytes = if s.continuingOversized then 0 else m

/-- Only an unterminated line that may still fit is after the cursor. -/
def Pending (cursor : Nat) : Prop := newline ∉ bytes.drop cursor ∧ (bytes.drop cursor).length ≤ m

end

section

variable {fingerprint : Bytes → Nat → Nat} {m : Nat} {bytes : Bytes} {frames : List RawJsonlRecord}
  {skipped : List RawJsonlSkippedRange}

theorem pushSkipped_eq (s : BatchScanner) (next : Nat) (reason : RawJsonlSkippedReason)
    (print : Nat) : ∃ e r, s.pushSkipped next reason print = e ++ [r] ∧ e ⊆ s.skipped ∧
      r.endOffset = next ∧ r.resumeFingerprint = print := by
  unfold pushSkipped
  split
  · split
    · exact ⟨_, _, rfl, dropLast_subset _, rfl, rfl⟩
    · exact ⟨_, _, rfl, List.Subset.refl _, rfl, rfl⟩
  · exact ⟨_, _, rfl, List.Subset.refl _, rfl, rfl⟩

theorem marks_pushSkipped (s : BatchScanner) (next : Nat) (r : RawJsonlSkippedReason)
    (p : Nat) (fs : List RawJsonlRecord) :
    (next, p) ∈ marks fs (s.pushSkipped next r p) ∧ ∀ mark ∈ marks fs (s.pushSkipped next r p),
        mark ∈ marks fs s.skipped ∨ mark = (next, p) := by
  obtain ⟨earlier, range, hp, hsub, rfl, rfl⟩ := pushSkipped_eq s next r p
  simp only [hp, marks, map_append, map_singleton, mem_append, mem_singleton]
  refine ⟨by simp, ?_⟩
  rintro mark (h | h | h)
  · exact .inl (.inl h)
  · exact .inl (.inr (map_subset _ hsub h))
  · exact .inr h

variable {s : BatchScanner}

theorem marks_frame (fs : List RawJsonlRecord) (record : RawJsonlRecord)
    (ranges : List RawJsonlSkippedRange) :
    (record.endOffset, record.resumeFingerprint) ∈ marks (fs ++ [record]) ranges ∧
      ∀ mark ∈ marks (fs ++ [record]) ranges,
        mark ∈ marks fs ranges ∨ mark = (record.endOffset, record.resumeFingerprint) := by
  simp only [marks, map_append, map_singleton, mem_append, mem_singleton]
  refine ⟨.inl (.inr trivial), ?_⟩
  rintro mark ((h | h) | h)
  · exact .inl (.inl h)
  · exact .inr h
  · exact .inl (.inr h)

variable (h : Batch fingerprint m bytes frames skipped s)
include h

theorem Batch.advance {s' : BatchScanner}
    {next p : Nat} (hp : p = fingerprint (bytes.take next) next) (hlt : s.offset < next)
    (hm : (next, p) ∈ marks s'.frames s'.skipped ∧ ∀ mark ∈ marks s'.frames s'.skipped,
      mark ∈ marks s.frames s.skipped ∨ mark = (next, p))
    (ho : s'.offset = next) (hsize : s'.fileSize = s.fileSize)
    (hl : s'.maxRecordBytes = s.maxRecordBytes) (hseek : s'.seekTo = s.seekTo)
    (hc : Covers m bytes next (frames ++ s'.frames) (skipped ++ s'.skipped)) :
    Batch fingerprint m bytes frames skipped s' := by
  refine ⟨hsize.trans h.size, hl.trans h.limit, ?_, ho ▸ hc, fun mark hmem => ?_,
    fun _ => ⟨_, hm.1, ho.symm⟩⟩
  · rw [hseek, ho]; exact h.seek.trans hlt.le
  · rcases hm.2 mark hmem with hold | rfl
    · exact h.stamped mark hold
    · exact hp

omit h in
/-- What one frame leaves: a batch that may read on, or one that stops past its start or before a
line that is not finished. -/
structure Stepped (fingerprint : Bytes → Nat → Nat) (m : Nat) (bytes : Bytes)
    (frames : List RawJsonlRecord) (skipped : List RawJsonlSkippedRange) (seekTo offset : Nat)
    (result : BatchScanner × JsonlScanStep) : Prop where
  batch : Batch fingerprint m bytes frames skipped result.1
  seek : result.1.seekTo = seekTo
  continued : result.2 = .continued → offset < result.1.offset ∧
    (result.1.offset < bytes.length → Ready m bytes result.1)
  stopped : ∀ deferred, result.2 = .stop deferred →
    seekTo < result.1.offset ∨ Pending m bytes result.1.offset

theorem Batch.stopped {d : Option JsonlFrameDeferral} {offset : Nat}
    (hs : s.seekTo < s.offset ∨ Pending m bytes s.offset) :
    Stepped fingerprint m bytes frames skipped s.seekTo offset (s, .stop d) where
  batch := h
  seek := rfl
  continued hstep := by cases hstep
  stopped _ _ := hs

section Handle

variable {whole rest : Bytes} {p : Nat} (hd : bytes.drop s.offset = whole ++ rest)
  (hlt : s.offset < s.offset + whole.length)
  (hp : p = fingerprint (bytes.take (s.offset + whole.length)) (s.offset + whole.length))
include hd hlt hp

theorem handleOversized_stepped {terminated : Bool}
    (hl : m < (splitLines (bytes.take s.offset)).tail.length + whole.length)
    (hline : if terminated then IsLine whole else newline ∉ whole) :
    Stepped fingerprint m bytes frames skipped s.seekTo s.offset
      (s.handleOversized whole.length terminated p) := by
  refine ⟨?_, rfl, fun hstep => ⟨hlt, fun hin => ?_⟩, fun _ _ => .inl (h.seek.trans_lt hlt)⟩
  · refine h.advance hp hlt (marks_pushSkipped s _ _ _ _) rfl rfl rfl rfl ?_
    have htiled := h.covers.tiled.pushSkipped hlt .oversized p
    cases terminated with
    | true =>
      refine h.covers.line hd hline ?_ htiled
      simp [kept, hl, handleOversized]
    | false => exact h.covers.open_ hd (by rintro rfl; simp at hlt) (by simpa using hline) hl htiled
  · -- past an oversized line a batch only continues to its end
    rw [← h.size] at hin
    simp only [handleOversized] at hin hstep
    rw [if_pos hin] at hstep; cases hstep

theorem handleBudgetExhausted_stepped
    (hl : m < (splitLines (bytes.take s.offset)).tail.length + whole.length)
    (hopen : newline ∉ whole) : Stepped fingerprint m bytes frames skipped s.seekTo s.offset
      (s.handleBudgetExhausted whole.length true p) := by
  have hpos : 0 < whole.length := Nat.lt_add_right_iff_pos.mp hlt
  simp only [BatchScanner.handleBudgetExhausted, true_and, if_pos hpos]
  refine Batch.stopped (s := { s with
    skipped := _
    offset := s.offset + whole.length }) ?_ (.inl (h.seek.trans_lt hlt))
  exact h.advance hp hlt (marks_pushSkipped s _ _ _ _) rfl rfl rfl rfl
    (h.covers.open_ hd (length_pos_iff.mp hpos) hopen hl (h.covers.tiled.pushSkipped hlt _ _))

theorem handleComplete_stepped (hw : s.reader.record = whole) (hle : whole.length ≤ m)
    (hline : IsLine whole) (hstart : (splitLines (bytes.take s.offset)).start = s.offset)
    (htail : (splitLines (bytes.take s.offset)).tail = [])
    (hnext : ∀ t : BatchScanner, t.reader = s.reader → t.offset = s.offset + whole.length →
      t.continuingOversized = s.continuingOversized → Ready m bytes t) :
    Stepped fingerprint m bytes frames skipped s.seekTo s.offset
      (s.handleComplete whole.length p) := by
  simp only [BatchScanner.handleComplete, hw]
  split_ifs with hdefer hblank
  · exact h.stopped (.inl hdefer.1)
  · refine ⟨?_, rfl, fun _ => ⟨hlt, fun _ => hnext _ rfl rfl rfl⟩, fun _ hstep => by cases hstep⟩
    refine h.advance hp hlt (marks_pushSkipped s _ _ _ _) rfl rfl rfl rfl ?_
    refine h.covers.line hd hline ?_ (h.covers.tiled.pushSkipped hlt _ _)
    simp [kept, htail, hblank]
  · refine ⟨?_, rfl, fun _ => ⟨hlt, fun _ => hnext _ rfl rfl rfl⟩, fun _ hstep => by cases hstep⟩
    refine h.advance hp hlt (marks_frame s.frames _ s.skipped) rfl rfl rfl rfl ?_
    rw [← append_assoc]
    refine h.covers.line hd hline ?_
      (h.covers.tiled.frame ⟨s.offset, s.offset + whole.length, p, whole⟩ rfl hlt)
    simp [kept, htail, hstart, hle, hblank]

end Handle

omit h in
/-- The nominal budget is not empty, and only a line that is too long exhausts it. -/
theorem exhausted_long {n : Nat} (hl : s.maxRecordBytes = m) (hr : ∀ f ∈ s.scanEnd, s.offset < f)
    (hb : s.readBudget ≤ n) : (if s.continuingOversized then 0 else m) < n := by
  have hn : 0 < (s.scanEnd.map (· - s.offset)).getD 0xFFFFFFFFFFFFFFFF := by
    cases hend : s.scanEnd with
    | none => exact zero_lt_of_lt (by decide : 1 < 0xFFFFFFFFFFFFFFFF)
    | some f => exact Nat.sub_pos_of_lt (hr f hend)
  unfold readBudget BatchScanner.oneRecordBudget at hb
  cases hi : s.continuingOversized with
  | true => simp only [hi, if_true] at hb ⊢; omega
  | false => simp only [hi, Bool.false_eq_true, if_false] at hb ⊢; omega

theorem read_stepped (hready : Ready m bytes s)
    (hlt : s.offset < bytes.length) (hroom : ∀ f ∈ s.scanEnd, s.offset < f) :
    Stepped fingerprint m bytes frames skipped s.seekTo s.offset (s.read fingerprint) := by
  obtain ⟨more, htook⟩ := nextFrame_took hready.nonempty s.readBudget
  unfold BatchScanner.read
  generalize s.reader.nextFrameWithBudget s.readBudget = result at htook ⊢
  obtain ⟨frame, reader⟩ := result
  obtain ⟨hall, hnonempty, hdigest, hrecord, hlimit, he⟩ := htook
  rw [hready.buffers] at hall
  rw [nil_append] at hrecord he
  rw [hready.limit] at hrecord hlimit he
  have hd : reader.resumeDigest = bytes.take (s.offset + more.length) := by
    rw [hdigest, hready.digest, take_add_of_drop hall]
  have hp := congrArg (fingerprint · (s.offset + more.length)) hd
  have hb : Batch fingerprint m bytes frames skipped { s with
    reader
    readThrough := max s.readThrough (s.offset + frame.byteLen) } := { h with }
  -- the limit of the reader is passed exactly when the line is too long
  have hlong : (if s.continuingOversized then 0 else m) < more.length →
      s.offset < s.offset + more.length ∧
        m < (splitLines (bytes.take s.offset)).tail.length + more.length := by
    intro hl
    refine ⟨by omega, ?_⟩
    by_cases hi : s.continuingOversized = true
    · have := h.covers.between.resolve_left (hready.inside.mp hi); omega
    · rw [if_neg hi] at hl; omega
  have hfits : more.length ≤ (if s.continuingOversized then 0 else m) → 0 < more.length →
      s.continuingOversized = false ∧ more.length ≤ m := by
    intro hle hpos
    cases hi : s.continuingOversized with
    | true => rw [hi, if_pos rfl] at hle; omega
    | false => rw [hi] at hle; exact ⟨rfl, hle⟩
  cases frame with
  | eof =>
    rw [he.1, he.2, nil_append] at hall; exact absurd (drop_eq_nil_iff.mp hall) (not_le.mpr hlt)
  | partialLine n =>
    obtain ⟨rfl, hpos, hle, hopen, hrest⟩ := he
    rw [hrest, append_nil] at hall
    refine hb.stopped (.inr ?_)
    rw [Pending, hall]; exact ⟨hopen, (hfits hle hpos).2⟩
  | oversized n terminated =>
    obtain ⟨rfl, hl, hline⟩ : n = more.length ∧ (if s.continuingOversized then 0 else m) < n ∧
        if terminated then IsLine more else newline ∉ more := by
      cases terminated with
      | true => exact he
      | false => exact ⟨he.1, he.2.1, by simpa using he.2.2.1⟩
    exact handleOversized_stepped hb hall (hlong hl).1 hp (hlong hl).2 hline
  | budgetExhausted n oversized =>
    obtain ⟨rfl, hbudget, hopen, rfl⟩ := he
    have hl := exhausted_long h.limit hroom hbudget
    rw [decide_eq_true hl]
    exact handleBudgetExhausted_stepped hb hall (hlong hl).1 hp (hlong hl).2 hopen
  | complete n =>
    obtain ⟨rfl, hle, hline⟩ := he
    have hpos : 0 < more.length := by obtain ⟨body, rfl, -⟩ := hline; simp
    obtain ⟨hfresh, hle⟩ := hfits hle hpos
    have htail : (splitLines (bytes.take s.offset)).tail = [] := by
      by_contra hin
      rw [hready.inside.mpr hin] at hfresh; cases hfresh
    have hstart : (splitLines (bytes.take s.offset)).start = s.offset := by
      have := (splitAt_splitLines (bytes.take s.offset)).length
      rw [htail, length_take, length_nil, min_eq_left hlt.le] at this; exact this
    rw [hfresh] at hrecord hlimit
    have hw : reader.record = more := hrecord.trans (take_of_length_le hle)
    refine handleComplete_stepped hb hall (by omega) hp hw hle hline hstart htail ?_
    -- the reader stands at the start of the next line
    intro t hr ho hc
    rw [hfresh] at hc
    refine ⟨?_, hr ▸ hnonempty, by rw [hr, ho, hd], ?_, by rw [hr, hlimit, hc]⟩
    · rw [hr, ho, ← drop_drop, hall, drop_append_of_le_length (le_refl _), drop_length, nil_append]
    · rw [hc, ho, take_add_of_drop hall, splitLines_append_line hline]; simp

theorem Batch.deferred (deferred : Option JsonlFrameDeferral) :
    Batch fingerprint m bytes frames skipped { s with deferred } :=
  { h with }

omit h

theorem boundaryStep_cases (s : BatchScanner) (left : Nat) :
    (∃ d, s.boundaryStep left = some (.stop d) ∧
      (s.fileSize ≤ s.offset ∨ left = 0 ∨ ∃ finish ∈ s.scanEnd, finish ≤ s.offset)) ∨
    s.boundaryStep left = none ∧ s.offset < s.fileSize ∧ left ≠ 0 ∧
      ∀ finish ∈ s.scanEnd, s.offset < finish := by
  unfold BatchScanner.boundaryStep
  split
  · rename_i hend; exact .inl ⟨_, rfl, .inl hend⟩
  rename_i hend
  have hlt : s.offset < s.fileSize := Nat.lt_of_not_le hend
  split
  · rename_i hstop
    refine .inl ⟨_, rfl, .inr ?_⟩
    rcases Bool.or_eq_true_iff.mp hstop with hcap | hl
    · cases hf : s.scanEnd with
      | none => simp [hf] at hcap
      | some finish =>
        simp only [hf, Option.any_some, Bool.and_eq_true, decide_eq_true_eq] at hcap
        exact .inr ⟨finish, rfl, hcap.1⟩
    · exact .inl (beq_iff_eq.mp hl)
  · rename_i hgoes
    simp only [Bool.or_eq_true, beq_iff_eq, not_or] at hgoes
    refine .inr ⟨rfl, hlt, hgoes.2, fun finish hf => ?_⟩
    by_contra hle
    exact hgoes.1 (by simp [Option.mem_def.mp hf, Nat.le_of_not_lt hle, hlt])

theorem scan_batch (left : Nat) (h : Batch fingerprint m bytes frames skipped s)
    (hr : s.offset < bytes.length → Ready m bytes s)
    (hf : s.offset = s.seekTo → 0 < left ∧ ∀ cap ∈ s.maxNewBytes, 0 < cap) :
    Batch fingerprint m bytes frames skipped (s.scan fingerprint left) ∧
      (s.scan fingerprint left).seekTo = s.seekTo ∧
      (s.seekTo < (s.scan fingerprint left).offset ∨
        Pending m bytes (s.scan fingerprint left).offset) := by
  induction left generalizing s with
  | zero =>
    obtain ⟨deferred, hs, -⟩ | ⟨-, -, hl, -⟩ := boundaryStep_cases s 0
    · rw [scan, hs]
      refine ⟨h.deferred _, rfl, .inl (lt_of_le_of_ne h.seek fun heq => ?_)⟩
      exact absurd (hf heq.symm).1 (lt_irrefl 0)
    · exact absurd rfl hl
  | succ left ih =>
    obtain ⟨deferred, hs, hwhy⟩ | ⟨hs, hlt, -, hroom⟩ := boundaryStep_cases s (left + 1)
    · rw [scan, hs]
      refine ⟨h.deferred _, rfl, ?_⟩
      by_cases hend : s.fileSize ≤ s.offset
      · right; rw [Pending, drop_eq_nil_of_le (h.size ▸ hend)]; simp
      · refine .inl (lt_of_le_of_ne h.seek fun heq => ?_)
        obtain ⟨finish, hfinish, hle⟩ := (hwhy.resolve_left hend).resolve_left (succ_ne_zero _)
        obtain ⟨cap, hcap, rfl⟩ := Option.map_eq_some_iff.mp hfinish
        have := (hf heq.symm).2 cap hcap
        rcases min_le_iff.mp hle with hle | hle
        · exact absurd hle (by rw [heq]; exact Nat.not_le.mpr (Nat.lt_add_of_pos_right this))
        · exact hend hle
    · have hread := read_stepped h (hr (h.size ▸ hlt)) (h.size ▸ hlt) hroom
      rw [scan, hs]
      generalize s.read fingerprint = result at hread
      obtain ⟨t, step⟩ := result
      obtain ⟨hb, hseek, hc, hstopped⟩ := hread
      cases step with
      | stop deferred => exact ⟨hb.deferred _, hseek, hstopped deferred rfl⟩
      | continued =>
        obtain ⟨hm, hn⟩ := hc rfl
        have hp : t.seekTo < t.offset := hseek ▸ h.seek.trans_lt hm
        obtain ⟨hdone, hd, hw⟩ := ih hb hn fun heq => absurd heq hp.ne'
        exact ⟨hdone, hd.trans hseek, hseek ▸ hw⟩

/-! ## Resuming -/

variable {hashes : Hashes} {file : Bytes} {recorded : Option JsonlPrefixCheckpoint}
  {checkpoints cs : List JsonlPrefixCheckpoint}

/-- The file still has the prefix. -/
def intact (hashes : Hashes) (file : Bytes) (c : JsonlPrefixCheckpoint) : Bool :=
  hashes.fingerprint (file.take c.position) c.position == c.fingerprint

/-- The recorded one of the intact checkpoints, or the last. -/
def chosen (recorded : Option JsonlPrefixCheckpoint) (cs : List JsonlPrefixCheckpoint) :
    Option JsonlPrefixCheckpoint :=
  (cs.find? (some · = recorded)).or cs.getLast?

theorem chosen_cons (c : JsonlPrefixCheckpoint) : chosen recorded (c :: cs) =
    if some c = recorded then some c else (chosen recorded cs).or (some c) := by
  by_cases h : some c = recorded
  · subst h; simp [chosen]
  · simp only [chosen, find?_cons, h, decide_false, if_false, getLast?_cons]
    cases cs.find? (some · = recorded) <;> cases cs.getLast? <;> rfl

theorem chosen_recorded {r : JsonlPrefixCheckpoint} (h : r ∈ cs) : chosen (some r) cs = some r := by
  rw [chosen]
  cases hf : cs.find? (some · = some r) with
  | none => simpa using find?_eq_none.mp hf r h
  | some c => simpa using find?_some hf

theorem chosen_eq_none : chosen recorded cs = none ↔ cs = [] := by
  simp +contextual [chosen, Option.or_eq_none_iff]

variable {c : JsonlPrefixCheckpoint}

theorem chosen_eq_some
    (hsorted : cs.Pairwise fun a b => a.position ≤ b.position) (h : chosen recorded cs = some c) :
    c ∈ cs ∧ (some c = recorded ∨ ∀ b ∈ cs, b.position ≤ c.position) := by
  rcases Option.or_eq_some_iff.mp h with h | ⟨-, h⟩
  · exact ⟨mem_of_find?_eq_some h, .inl (by simpa using find?_some h)⟩
  · obtain ⟨before, rfl⟩ := getLast?_eq_some_iff.mp h
    exact ⟨by simp, .inr (forall_mem_append.mpr
      ⟨fun b hb => (pairwise_append.mp hsorted).2.2 b hb c (by simp),
        forall_mem_singleton.mpr le_rfl⟩)⟩

theorem walkCheckpoints_eq {diverged : List Nat} {hashed : Nat}
    {r : Option (JsonlPrefixCheckpoint × Bytes)}
    (hsorted : cs.Pairwise fun a b => a.position ≤ b.position ∧
      (a.generation = b.generation → intact hashes file b → intact hashes file a))
    (hlow : ∀ c ∈ cs, hashed ≤ c.position)
    (hdiv : ∀ c ∈ cs, c.generation ∈ diverged → ¬intact hashes file c) :
    walkCheckpoints hashes file recorded cs diverged hashed r =
      ((chosen recorded (cs.filter (intact hashes file))).map
        fun c => (c, file.take c.position)).or r := by
  induction cs generalizing diverged hashed r with
  | nil => rfl
  | cons c rest ih =>
    obtain ⟨hc, hr⟩ := pairwise_cons.mp hsorted
    have hl := fun b hb => (hc b hb).1
    obtain ⟨hd, hrest⟩ := forall_mem_cons.mp hdiv
    rw [walkCheckpoints, max_eq_right (hlow c mem_cons_self)]
    by_cases hi : intact hashes file c
    · rw [if_neg fun h => hd h hi, filter_cons_of_pos hi, chosen_cons]
      simp only [beq_iff_eq.mp hi, if_true]
      split
      · rfl
      · rw [ih hr hl hrest]
        cases chosen recorded (rest.filter (intact hashes file)) <;> rfl
    · rw [filter_cons_of_neg hi]
      simp only [mt beq_iff_eq.mpr hi, if_false]
      split
      · exact ih hr (fun b hb => (hlow c mem_cons_self).trans (hl b hb)) hrest
      · refine ih hr hl fun b hb hm => (mem_cons.mp hm).elim (fun heq h => ?_) (hrest b hb)
        exact hi ((hc b hb).2 heq.symm h)

theorem sorted_checkpoints (l : List JsonlPrefixCheckpoint) :
    (dedup (sortBy compareCheckpoints l)).Pairwise fun a b => a.position ≤ b.position := by
  have hkey : OrdersBy compareCheckpoints fun c =>
      toLex (c.position, toLex (c.generation, c.fingerprint)) := by
    intro a b
    rw [compareCheckpoints, compare_then_ne_gt, compare_then_ne_gt, compare_ne_gt, Prod.Lex.le_iff,
      Prod.Lex.le_iff]
    rfl
  have hi : Function.Injective fun c : JsonlPrefixCheckpoint =>
      toLex (c.position, toLex (c.generation, c.fingerprint)) := by
    rintro ⟨_, _, _⟩ ⟨_, _, _⟩ heq
    cases heq; rfl
  refine (dedup_sorted hi (sortBy_sorted hkey l)).imp fun hlt => ?_
  rcases Prod.Lex.lt_iff.mp hlt with hlt | ⟨heq, -⟩
  · exact hlt.le
  · exact heq.le

/-- The checkpoints that the walk is over. -/
def candidates (file : Bytes) (l : List JsonlPrefixCheckpoint) : List JsonlPrefixCheckpoint :=
  dedup (sortBy compareCheckpoints (l.filter fun c => 0 < c.position && c.position ≤ file.length))

theorem mem_candidates {l : List JsonlPrefixCheckpoint} :
    c ∈ candidates file l ↔ c ∈ l ∧ 0 < c.position ∧ c.position ≤ file.length := by
  rw [candidates, Sorting.mem_dedup, (sortBy_perm _ _).mem_iff, mem_filter, Bool.and_eq_true,
    decide_eq_true_iff, decide_eq_true_iff]

/-- The checkpoint is of a prefix that the file still has. -/
def Retained (hashes : Hashes) (file : Bytes) (c : JsonlPrefixCheckpoint) : Prop :=
  (0 < c.position ∧ c.position ≤ file.length) ∧ intact hashes file c

theorem longestRetainedJsonlPrefix_eq (hdown : ∀ a ∈ checkpoints ++ recorded.toList,
      ∀ b ∈ checkpoints ++ recorded.toList, a.position ≤ b.position → a.generation = b.generation →
        intact hashes file b → intact hashes file a) :
    longestRetainedJsonlPrefix hashes file checkpoints recorded =
    (chosen recorded ((candidates file (checkpoints ++ recorded.toList)).filter
      (intact hashes file))).map fun c => (c, file.take c.position) := by
  refine (walkCheckpoints_eq ((sorted_checkpoints _).imp_of_mem fun ha hb hle => ?_)
    (fun _ _ => zero_le _) fun _ _ h => absurd h not_mem_nil).trans Option.or_none
  exact ⟨hle, hdown _ (mem_candidates.mp ha).1 _ (mem_candidates.mp hb).1 hle⟩

theorem matchRecordedPrefix_resumes {recorded : JsonlPrefixCheckpoint} {r : JsonlPrefixRecovery}
    (hpos : 0 < recorded.position) (hle : recorded.position ≤ bytes.length)
    (hr : recorded.fingerprint =
      hashes.fingerprint (bytes.take recorded.position) recorded.position)
    (hm : ∀ l, r = .checkpoints l → ∀ c ∈ l, c.fingerprint =
      hashes.fingerprint (bytes.take c.position) c.position) :
    matchRecordedPrefix hashes bytes (some recorded) r =
      .resumes (bytes.take recorded.position) := by
  cases r with
  | report => simp only [matchRecordedPrefix, hr, if_true]
  | checkpoints l =>
    have hall : ∀ a ∈ l ++ [recorded], intact hashes bytes a := fun a ha =>
      beq_iff_eq.mpr (forall_mem_append.mpr ⟨hm l rfl, forall_mem_singleton.mpr hr⟩ a ha).symm
    rw [matchRecordedPrefix, longestRetainedJsonlPrefix_eq fun a ha _ _ _ _ _ => hall a ha,
      chosen_recorded (mem_filter.mpr ⟨mem_candidates.mpr ⟨by simp, hpos, hle⟩, hall _ (by simp)⟩)]
    exact if_pos rfl

theorem matchRecordedPrefix_intact (hl : ∀ c digest,
      longestRetainedJsonlPrefix hashes file checkpoints recorded = some (c, digest) →
        c ∈ checkpoints ++ recorded.toList ∧ intact hashes file c) {recovery : JsonlPrefixRecovery}
    (hrecovery : recovery = .report ∨ recovery = .checkpoints checkpoints) :
    match matchRecordedPrefix hashes file recorded recovery with
    | .resumes _ => ∃ c, recorded = some c ∧ intact hashes file c
    | .diverged none => True
    | .diverged (some (c, _)) => c ∈ checkpoints ++ recorded.toList ∧ intact hashes file c := by
  rcases hrecovery with rfl | rfl
  · cases recorded with
    | none => trivial
    | some c =>
      simp only [matchRecordedPrefix]
      split_ifs with hi
      · exact ⟨c, rfl, beq_iff_eq.mpr hi⟩
      · trivial
  · simp only [matchRecordedPrefix]
    cases hfound : longestRetainedJsonlPrefix hashes file checkpoints recorded with
    | none => trivial
    | some found =>
      obtain ⟨c, digest⟩ := found
      simp only
      split_ifs with hc
      · exact ⟨c, hc.symm, (hl c digest hfound).2⟩
      · exact hl c digest hfound

/-- The recorded checkpoint is returned if it is retained, else a retained one of greatest position,
and a scan starts inside what the file and a recorded stream share. An empty prefix is never
retained. -/
theorem longestRetainedJsonlPrefix_longest (stream : Nat → Bytes)
    (hfree : ∀ a b n, hashes.fingerprint a n = hashes.fingerprint b n → a = b)
    (hs : ∀ c ∈ checkpoints ++ recorded.toList, intact hashes (stream c.generation) c) :
    (∀ r, recorded = some r → Retained hashes file r →
      longestRetainedJsonlPrefix hashes file checkpoints recorded =
        some (r, file.take r.position)) ∧
    (longestRetainedJsonlPrefix hashes file checkpoints recorded = none ↔
      ∀ c ∈ checkpoints ++ recorded.toList, ¬Retained hashes file c) ∧
    (∀ c digest, longestRetainedJsonlPrefix hashes file checkpoints recorded = some (c, digest) →
      (c ∈ checkpoints ++ recorded.toList ∧ Retained hashes file c) ∧ digest = file.take c.position ∧
      (some c = recorded ∨ ∀ b ∈ checkpoints ++ recorded.toList, Retained hashes file b →
        b.position ≤ c.position)) ∧
    ∀ identity mtime previous resume recovery p,
      (recorded = if 0 < previous.position ∧ previous.fileId = resume.generation ∧
          previous.position ≤ file.length then
        some ⟨resume.generation, previous.position, resume.fingerprint⟩ else none) →
      recovery = .report ∨ recovery = .checkpoints checkpoints →
      capture hashes ⟨file, identity, mtime⟩ previous (some resume) recovery = .scan p →
        ∃ generation, file.take p.seekTo <+: stream generation := by
  have hsame : ∀ c ∈ checkpoints ++ recorded.toList, intact hashes file c →
      file.take c.position = (stream c.generation).take c.position := fun c hc hi =>
    hfree _ _ _ ((beq_iff_eq.mp hi).trans (beq_iff_eq.mp (hs c hc)).symm)
  have heq := longestRetainedJsonlPrefix_eq fun a ha b hb hle hg hi => by
    have h := congrArg (take a.position) (hsame b hb hi)
    rw [take_take, take_take, min_eq_left hle, ← hg] at h
    rw [intact, h]; exact hs a ha
  have hmem : ∀ c,
    c ∈ (candidates file (checkpoints ++ recorded.toList)).filter (intact hashes file) ↔
      c ∈ checkpoints ++ recorded.toList ∧ Retained hashes file c := fun c => by
    rw [mem_filter, mem_candidates, and_assoc, Retained]
  refine ⟨fun r hr h => ?_, ?_, fun c digest h => ?_,
    fun identity mtime previous resume recovery p hr hrecovery hp => ?_⟩
  · subst hr; rw [heq, chosen_recorded ((hmem r).mpr ⟨by simp, h⟩)]; rfl
  · rw [heq, Option.map_eq_none_iff, chosen_eq_none, eq_nil_iff_forall_not_mem]
    exact forall_congr' fun c => (not_congr (hmem c)).trans not_and
  · obtain ⟨_, hc, ⟨⟩⟩ := Option.map_eq_some_iff.mp (heq ▸ h)
    obtain ⟨hm, hc⟩ := chosen_eq_some (.filter _ (sorted_checkpoints _)) hc
    exact ⟨(hmem c).mp hm, rfl, hc.imp_right fun h b hb hr => h b ((hmem b).mpr ⟨hb, hr⟩)⟩
  · -- the scan starts at a checkpoint that is intact, or at the beginning
    suffices hat : (∃ c ∈ checkpoints ++ recorded.toList, intact hashes file c ∧
        p.seekTo = c.position) ∨ p.seekTo = 0 by
      obtain ⟨c, hc, hi, hat⟩ | hat := hat
      · exact ⟨c.generation, by rw [hat, hsame c hc hi]; exact take_prefix ..⟩
      · exact ⟨0, by rw [hat]; exact nil_prefix⟩
    have hm := matchRecordedPrefix_intact (fun c digest hl => by
      obtain ⟨_, hc, ⟨⟩⟩ := Option.map_eq_some_iff.mp (heq ▸ hl)
      have hc := (hmem c).mp (chosen_eq_some (.filter _ (sorted_checkpoints _)) hc).1
      exact ⟨hc.1, hc.2.2⟩) hrecovery
    simp only [capture, ← hr] at hp
    generalize matchRecordedPrefix hashes file recorded recovery = matched at hm hp
    obtain digest | _ | ⟨c, digest⟩ := matched
    · obtain ⟨c, rfl, hi⟩ := hm
      cases hp
      refine .inl ⟨c, by simp, hi, ?_⟩
      split at hr
      · cases hr; rfl
      · cases hr
    · simp only at hp
      split at hp
      · cases hp
      · cases hp; exact .inr rfl
    · simp only at hp
      split at hp
      · cases hp
      · cases hp; exact .inl ⟨c, hm.1, hm.2, rfl⟩

/-- Hashes without collisions. -/
def encodedHashes : Hashes where
  fingerprint bytes _ := Encodable.encode (bytes.map UInt8.toNat)
  snapshotFingerprint _ := 0
  replacementJsonlGeneration _ _ := 1
  rewrittenJsonlGeneration _ _ _ _ _ := 1

/-- What is recorded of a generation that begins with `bytes`. -/
def checkpointOf (generation : Nat) (bytes : Bytes) : JsonlPrefixCheckpoint :=
  ⟨generation, bytes.length, encodedHashes.fingerprint bytes bytes.length⟩

/-- The first generation went on with another line than the second, of which the file has more. -/
theorem longestRetainedJsonlPrefix_longest_two :
    let checkpoints := [checkpointOf 1 [65, 10], checkpointOf 2 [65, 10, 67],
      checkpointOf 2 [65, 10, 67, 10]]
    let recorded := some (checkpointOf 1 [65, 10, 66, 10])
    longestRetainedJsonlPrefix encodedHashes [65, 10, 67, 68] checkpoints recorded =
        some (checkpointOf 2 [65, 10, 67], [65, 10, 67]) ∧
      ∀ b ∈ checkpoints ++ recorded.toList, Retained encodedHashes [65, 10, 67, 68] b →
        b.position ≤ 3 := by
  intro checkpoints recorded
  have hfound : longestRetainedJsonlPrefix encodedHashes [65, 10, 67, 68] checkpoints recorded =
      some (checkpointOf 2 [65, 10, 67], [65, 10, 67]) := by decide +kernel
  have hs : ∀ c ∈ checkpoints ++ recorded.toList, intact encodedHashes
      (if c.generation = 1 then [65, 10, 66, 10] else [65, 10, 67, 10]) c := by decide +kernel
  have hlongest := (longestRetainedJsonlPrefix_longest
    (fun generation => if generation = 1 then [65, 10, 66, 10] else [65, 10, 67, 10])
    (fun _ _ _ h => map_injective_iff.mpr (fun _ _ => UInt8.toNat_inj.mp)
      (Encodable.encode_injective h)) hs).2.2.1 _ _ hfound
  exact ⟨hfound, hlongest.2.2.resolve_left (by decide +kernel)⟩

/-- A recorded empty prefix is not returned. -/
theorem longestRetainedJsonlPrefix_empty : intact encodedHashes [] ⟨1, 0, 0⟩ ∧
    longestRetainedJsonlPrefix encodedHashes [] [] (some ⟨1, 0, 0⟩) = none :=
  ⟨rfl, rfl⟩

end

/-! ## Runs -/

/-- A file that only grows, the cursor and resume state of the last scan, every checkpoint recorded,
and all that scans returned. -/
structure Reading where
  bytes : Bytes
  cursor : StoredCursor
  resume : Option JsonlResumeState
  checkpoints : List JsonlPrefixCheckpoint
  frames : List RawJsonlRecord
  skipped : List RawJsonlSkippedRange

/-- What one scan is given besides the record of the last one. -/
structure ScanCall where
  chunking : Chunking
  (identity mtime : Nat)
  maxNewBytes : Option Nat
  maxFrames : Nat
  prefixRecovery : JsonlPrefixRecovery

namespace Reading

def empty : Reading := ⟨[], ⟨0, 0, 0⟩, none, [], [], []⟩

def append (r : Reading) (more : Bytes) : Reading := { r with bytes := r.bytes ++ more }

variable (hashes : Hashes) (m : Nat)

def stream (r : Reading) (call : ScanCall) : RawNewJsonl :=
  streamNewJsonl hashes call.chunking ⟨r.bytes, call.identity, call.mtime⟩
    ⟨r.cursor, call.maxNewBytes, call.maxFrames, m, r.resume, call.prefixRecovery⟩

/-- The new cursor is recorded with the fingerprint of the range that ends there. -/
def recordedResume (r : Reading) (raw : RawNewJsonl) : Option JsonlResumeState :=
  ((((marks raw.frames raw.skipped).find? fun mark => mark.1 == raw.newCursor.position).map (·.2)).or
    (r.resume.map (·.fingerprint))).map fun fingerprint =>
      ⟨raw.newCursor.fileId, raw.fileIdentity, fingerprint⟩

def scan (r : Reading) (call : ScanCall) : Reading :=
  let raw := r.stream hashes m call
  let resume := r.recordedResume raw
  { bytes := r.bytes
    cursor := raw.newCursor
    resume
    checkpoints := r.checkpoints ++ (resume.map fun state =>
      ⟨state.generation, raw.newCursor.position, state.fingerprint⟩).toList
    frames := r.frames ++ raw.frames
    skipped := r.skipped ++ raw.skipped }

/-- Budgets and limits of at least one, and checkpoints that earlier scans recorded. -/
structure Admissible (r : Reading) (call : ScanCall) : Prop where
  maxNewBytes : ∀ cap ∈ call.maxNewBytes, 0 < cap
  maxFrames : 0 < call.maxFrames
  checkpoints : ∀ l, call.prefixRecovery = .checkpoints l → l ⊆ r.checkpoints

end Reading

/-- The states that scans and appends lead to. -/
inductive Reached (hashes : Hashes) (m : Nat) : Reading → Prop
  | empty : Reached hashes m .empty
  | append {r : Reading} (more : Bytes) : Reached hashes m r → Reached hashes m (r.append more)
  | scan {r : Reading} (call : ScanCall) : Reached hashes m r → r.Admissible call →
    Reached hashes m (r.scan hashes m call)

section

variable {hashes : Hashes} {m : Nat}

/-- The frames cover the file up to the cursor, and what was recorded are prefixes of the file. -/
structure Consistent (hashes : Hashes) (m : Nat) (r : Reading) : Prop where
  covers : Covers m r.bytes r.cursor.position r.frames r.skipped
  resume : ∀ state, r.resume = some state → state.generation = r.cursor.fileId ∧
    state.fingerprint = hashes.fingerprint (r.bytes.take r.cursor.position) r.cursor.position
  resumes : 0 < r.cursor.position → r.resume.isSome
  checkpoints : ∀ checkpoint ∈ r.checkpoints, checkpoint.position ≤ r.cursor.position ∧
    checkpoint.fingerprint =
      hashes.fingerprint (r.bytes.take checkpoint.position) checkpoint.position

variable {r : Reading}

variable (h : Consistent hashes m r)
include h

theorem Consistent.append (more : Bytes) : Consistent hashes m (r.append more) := by
  have ht : ∀ k ≤ r.cursor.position, (r.bytes ++ more).take k = r.bytes.take k := fun k hk =>
    take_append_of_le_length (hk.trans h.covers.le)
  obtain ⟨⟨hle, hl, htiled, hb⟩, hr, hresumes, hc⟩ := h
  simp only [← ht _ (le_refl _)] at hl hb hr
  refine ⟨⟨?_, hl, htiled, hb⟩, hr, hresumes, fun c hmem => ?_⟩
  · rw [Reading.append, length_append]; exact le_add_right_of_le hle
  · obtain ⟨hpos, hp⟩ := hc c hmem; exact ⟨hpos, hp.trans (by rw [Reading.append, ht _ hpos])⟩

variable {call : ScanCall}

theorem Consistent.capture (hcall : r.Admissible call) :
    ∃ p, capture hashes ⟨r.bytes, call.identity, call.mtime⟩ r.cursor r.resume call.prefixRecovery =
        .scan p ∧
      p.seekTo = r.cursor.position ∧ p.retainedPrefix = none ∧
      ∀ e d, p.validatedPrefix = some (e, d) → d = r.bytes.take r.cursor.position := by
  by_cases hpos : 0 < r.cursor.position
  · obtain ⟨state, hstate⟩ := Option.isSome_iff_exists.mp (h.resumes hpos)
    obtain ⟨hg, hp⟩ := h.resume state hstate
    have hm : matchRecordedPrefix hashes r.bytes
        (some ⟨state.generation, r.cursor.position, state.fingerprint⟩) call.prefixRecovery = _ :=
      matchRecordedPrefix_resumes hpos h.covers.le hp fun l hl c hmem =>
        (h.checkpoints c (hcall.checkpoints l hl hmem)).2
    have hcapture : Transcript.capture hashes ⟨r.bytes, call.identity, call.mtime⟩ r.cursor r.resume
        call.prefixRecovery = prepared r.cursor state.fileIdentity r.cursor.position state.generation
          (some (r.cursor.position, r.bytes.take r.cursor.position)) none := by
      rw [hstate, Transcript.capture, if_pos ⟨hpos, hg.symm, h.covers.le⟩, hm]
    refine ⟨_, hcapture, rfl, rfl, fun e d hd => ?_⟩
    cases hd; rfl
  · have hz : r.cursor.position = 0 := Nat.eq_zero_of_not_pos hpos
    cases hresume : r.resume with
    | none =>
      simp only [Transcript.capture, shouldResumeJsonl, hz, true_or, if_true, Bool.false_eq_true,
        if_false, lt_irrefl]
      split
      · exact ⟨_, rfl, rfl, rfl, by simp⟩
      · exact ⟨_, rfl, rfl, rfl, by simp⟩
    | some state =>
      have hm : matchRecordedPrefix hashes r.bytes none call.prefixRecovery = .diverged none := by
        cases hr : call.prefixRecovery with
        | report => rfl
        | checkpoints l =>
          have hnone : ((l ++ (none : Option JsonlPrefixCheckpoint).toList).filter fun c =>
              0 < c.position && c.position ≤ r.bytes.length) = [] := by
            refine filter_eq_nil_iff.mpr fun c hc => ?_
            rw [Option.toList_none, append_nil] at hc
            have := (h.checkpoints c (hcall.checkpoints l hr hc)).1
            simp only [Bool.and_eq_true, decide_eq_true_eq, not_and]; omega
          rw [matchRecordedPrefix, longestRetainedJsonlPrefix, hnone]; rfl
      simp only [Transcript.capture, hz, lt_irrefl, false_and, if_false, hm]
      exact ⟨_, rfl, rfl, rfl, by simp⟩

theorem Consistent.stream (hc : r.Admissible call) :
    ∃ s : BatchScanner, Batch hashes.fingerprint m r.bytes r.frames r.skipped s ∧
      s.seekTo = r.cursor.position ∧
      (r.cursor.position < s.offset ∨ Pending m r.bytes s.offset) ∧
      (r.stream hashes m call).frames = s.frames ∧ (r.stream hashes m call).skipped = s.skipped ∧
      (r.stream hashes m call).newCursor.position = s.offset := by
  obtain ⟨p, hcapture, hseek, hr, hdigest⟩ := h.capture hc
  have hle : p.seekTo ≤ r.bytes.length := hseek ▸ h.covers.le
  generalize hs : BatchScanner.start call.chunking ⟨r.bytes, call.identity, call.mtime⟩ p
    ⟨r.cursor, call.maxNewBytes, call.maxFrames, m, r.resume, call.prefixRecovery⟩ = s
  have hb : Batch hashes.fingerprint m r.bytes r.frames r.skipped s := by
    rw [← hs]
    refine ⟨rfl, rfl, le_refl _, ?_, by simp [BatchScanner.start, marks, hr], fun hlt =>
      absurd hlt (lt_irrefl _)⟩
    simp only [BatchScanner.start, hr, Option.toList_none, append_nil, hseek]; exact h.covers
  have hready : Ready m r.bytes s := by
    rw [← hs]
    refine ⟨call.chunking.flatten_cut _, call.chunking.nonempty _, ?_, startsInsideRecord_iff hle,
      rfl⟩
    simp only [BatchScanner.start]
    cases hv : p.validatedPrefix with
    | none => rfl
    | some pair =>
      rw [Option.filter_some]
      split
      · exact (hdigest pair.1 pair.2 hv).trans (by rw [hseek])
      · rfl
  have hoffset : s.offset = s.seekTo := by rw [← hs]; rfl
  have hstart : s.seekTo = r.cursor.position := by rw [← hs]; exact hseek
  have hnew : s.maxNewBytes = call.maxNewBytes := by rw [← hs]; rfl
  simp only [Reading.stream, streamNewJsonl, hcapture, hs]
  split
  · rename_i hend
    refine ⟨s, hb, hstart, .inr ?_, rfl, rfl, rfl⟩
    rw [Pending, drop_eq_nil_of_le (by rw [hoffset, hstart, ← hseek]; exact hend)]; simp
  · obtain ⟨hdone, hd, hw⟩ := scan_batch call.maxFrames hb (fun _ => hready)
      fun _ => ⟨hc.maxFrames, hnew ▸ hc.maxNewBytes⟩
    exact ⟨_, hdone, hd.trans hstart, hstart ▸ hw, rfl, rfl, rfl⟩

theorem Consistent.scan (hc : r.Admissible call) : Consistent hashes m (r.scan hashes m call) := by
  obtain ⟨s, hb, hseek, -, hframes, hs, hp⟩ := h.stream hc
  -- if no range ends at the cursor, it did not move
  have hsame : ((marks s.frames s.skipped).find? fun mark => mark.1 == s.offset) = none →
      s.offset = r.cursor.position := by
    intro hf
    rw [← hseek]
    refine le_antisymm (not_lt.mp fun hlt => ?_) hb.seek
    obtain ⟨mark, hm, hend⟩ := hb.reached hlt
    simpa [hend] using find?_eq_none.mp hf mark hm
  have hr : ∀ state, r.recordedResume (r.stream hashes m call) = some state →
      state.generation = (r.stream hashes m call).newCursor.fileId ∧
      state.fingerprint = hashes.fingerprint (r.bytes.take s.offset) s.offset := by
    intro state hstate
    obtain ⟨print, hprint, rfl⟩ := Option.map_eq_some_iff.mp hstate
    refine ⟨rfl, ?_⟩
    rw [hframes, hs, hp] at hprint
    cases hf : (marks s.frames s.skipped).find? fun mark => mark.1 == s.offset with
    | some mark =>
      rw [hf] at hprint
      cases hprint
      change mark.2 = _
      have hend : mark.1 = s.offset := by simpa using find?_some hf
      rw [hb.stamped mark (mem_of_find?_eq_some hf), hend]
    | none =>
      rw [hf] at hprint
      obtain ⟨old, hold, rfl⟩ := Option.map_eq_some_iff.mp hprint
      rw [hsame hf]; exact (h.resume old hold).2
  refine ⟨?_, ?_, ?_, ?_⟩
  · simp only [Reading.scan, hframes, hs, hp]; exact hb.covers
  · intro state hstate; simp only [Reading.scan, hp]; exact hr state hstate
  · intro hpos
    simp only [Reading.scan, hp] at hpos ⊢
    rw [Reading.recordedResume, hframes, hs, hp, Option.isSome_map]
    cases hf : (marks s.frames s.skipped).find? fun mark => mark.1 == s.offset with
    | some mark => rfl
    | none =>
      obtain ⟨state, hstate⟩ := Option.isSome_iff_exists.mp (h.resumes (hsame hf ▸ hpos))
      rw [hstate]; rfl
  · intro c hmem
    simp only [Reading.scan, hp] at hmem ⊢
    rcases mem_append.mp hmem with hmem | hmem
    · obtain ⟨hle, hprint⟩ := h.checkpoints c hmem; exact ⟨hle.trans (hseek ▸ hb.seek), hprint⟩
    · obtain ⟨state, hstate, rfl⟩ := Option.map_eq_some_iff.mp (Option.mem_toList.mp hmem)
      exact ⟨le_refl _, (hr state hstate).2⟩

omit h

theorem consistent_of_reached (h : Reached hashes m r) : Consistent hashes m r := by
  induction h with
  | empty =>
    exact ⟨⟨le_refl _, rfl, ⟨[], rfl, .refl _⟩, .inl rfl⟩, by simp [Reading.empty],
      fun hpos => absurd hpos (lt_irrefl _), by simp [Reading.empty]⟩
  | append more _ ih => exact ih.append more
  | scan call _ hc ih => exact ih.scan hc

end

/-- Scans of a growing file return its lines: the frames are the lines of at most `m` bytes before
the cursor that are not blank, each a whole line of the file at its place; frames and skipped ranges
tile what is before the cursor; and a scan moves the cursor unless only an unterminated line of at
most `m` bytes is after it. -/
theorem scans_return_lines {hashes : Hashes} {m : Nat} {r : Reading} (h : Reached hashes m r) :
    (r.frames.map fun record => (record.offset, record.endOffset, record.bytes)) =
        ((splitLines (r.bytes.take r.cursor.position)).lines.filter (kept m)).map
          (fun line => (line.1, line.1 + line.2.length, line.2)) ∧
      (∀ record ∈ r.frames, LineAt r.bytes (record.offset, record.bytes)) ∧
      Tiled r.cursor.position r.frames r.skipped ∧
      ∀ call, r.Admissible call → r.cursor.position < (r.scan hashes m call).cursor.position ∨
        Pending m r.bytes r.cursor.position := by
  have hc := consistent_of_reached h
  obtain ⟨hle, hl, ht, -⟩ := hc.covers
  refine ⟨hl, fun record hr => ?_, ht, fun call hcall => ?_⟩
  · have hmem := mem_map_of_mem (f := fun record : RawJsonlRecord =>
      (record.offset, record.endOffset, record.bytes)) hr
    rw [hl] at hmem
    obtain ⟨line, hline, heq⟩ := mem_map.mp hmem
    have hat := ((splitAt_splitLines _).lines line (mem_of_mem_filter hline)).append
      (r.bytes.drop r.cursor.position)
    rw [take_append_drop] at hat
    simp only [Prod.mk.injEq] at heq
    rw [← heq.1, ← heq.2.2]
    exact hat
  · obtain ⟨s, hb, hs, hw, -, -, hp⟩ := hc.stream hcall
    have hcursor : (r.scan hashes m call).cursor.position = s.offset := hp
    rw [hcursor]
    by_cases hlt : r.cursor.position < s.offset
    · exact .inl hlt
    · have hsame : s.offset = r.cursor.position := le_antisymm (not_lt.mp hlt) (hs ▸ hb.seek)
      exact .inr (hsame ▸ hw.resolve_left hlt)

/-- The whole rest of the file in one buffer. -/
def Chunking.whole : Chunking where
  cut bytes := if bytes = [] then [] else [bytes]
  flatten_cut bytes := by split <;> simp_all
  nonempty bytes := by split <;> simp_all

def reportCall : ScanCall := ⟨.whole, 1, 0, none, 8, .report⟩

/-- A scan of a line and the beginning of another. Then the file grows by the end of that line, an
empty line and one of five bytes, and is scanned again. -/
def resumedReading : Reading :=
  (((Reading.empty.append [65, 10, 66]).scan encodedHashes 4 reportCall).append
    [67, 10, 10, 68, 69, 70, 71, 10]).scan encodedHashes 4 reportCall

theorem scans_return_lines_resumed :
    resumedReading.frames.map (fun record => (record.offset, record.bytes)) =
        [(0, [65, 10]), (2, [66, 67, 10])] ∧
      resumedReading.skipped.map (·.range) = [(5, 6), (6, 11)] ∧
      (∀ record ∈ resumedReading.frames, LineAt resumedReading.bytes (record.offset, record.bytes)) ∧
      Tiled 11 resumedReading.frames resumedReading.skipped := by
  have hreached : Reached encodedHashes 4 resumedReading := by
    refine .scan reportCall (.append _ (.scan reportCall (.append _ .empty) ?_)) ?_ <;>
      exact ⟨by simp [reportCall], by decide, by simp [reportCall]⟩
  obtain ⟨-, hlines, htiled, -⟩ := scans_return_lines hreached
  exact ⟨by decide +kernel, by decide +kernel, hlines, htiled⟩

end TraceDecay.Transcript
