import Mathlib.Data.List.Induction
import TraceDecay.Transcript.Scanner

/-!
# Transcript.Lines

Scans that resume from one another return the lines of the file. The lines of a byte string are a
fold over it; a scan moves the cursor to where the fold is between two lines, or inside a line that
is too long already.
-/

namespace TraceDecay.Transcript

open List

/-! ## The lines of a file -/

/-- The finished lines of what was read, each with its start, and the line that is still open. -/
structure LineSplit where
  lines : List (Nat × Bytes)
  start : Nat
  tail : Bytes

def LineSplit.step (s : LineSplit) (byte : UInt8) : LineSplit :=
  if byte = newline then
    ⟨s.lines ++ [(s.start, s.tail ++ [byte])], s.start + s.tail.length + 1, []⟩
  else { s with tail := s.tail ++ [byte] }

def splitLines (bytes : Bytes) : LineSplit := bytes.foldl LineSplit.step ⟨[], 0, []⟩

/-- A newline at the end and nowhere else. -/
def IsLine (bytes : Bytes) : Prop := ∃ body, bytes = body ++ [newline] ∧ newline ∉ body

variable {a p : Bytes} {o : Bool} {b max c low high next : Nat}

theorem foldl_step_open (h : newline ∉ a) (s : LineSplit) :
    a.foldl LineSplit.step s = { s with tail := s.tail ++ a } := by
  induction a generalizing s with
  | nil => simp
  | cons byte a ih =>
    simp only [mem_cons, not_or] at h
    rw [foldl_cons, LineSplit.step, if_neg (Ne.symm h.1), ih h.2]; simp

theorem splitLines_append_open (h : newline ∉ a) :
    splitLines (p ++ a) = { splitLines p with tail := (splitLines p).tail ++ a } := by
  rw [splitLines, foldl_append]; exact foldl_step_open h _

theorem splitLines_append_line (h : IsLine a) : splitLines (p ++ a) =
      ⟨(splitLines p).lines ++ [((splitLines p).start, (splitLines p).tail ++ a)],
        (splitLines p).start + (splitLines p).tail.length + a.length, []⟩ := by
  obtain ⟨body, rfl, hb⟩ := h
  rw [← append_assoc, splitLines, foldl_append]
  change LineSplit.step (splitLines (p ++ body)) newline = _
  rw [splitLines_append_open hb, LineSplit.step, if_pos rfl]; simp [Nat.add_assoc]

/-- A line of the file: where it is, what it is, and that a line begins there. -/
structure LineAt (p : Bytes) (line : Nat × Bytes) : Prop where
  isLine : IsLine line.2
  bytes : (p.drop line.1).take line.2.length = line.2
  begins : line.1 = 0 ∨ p[line.1 - 1]? = some newline

structure SplitAt (p : Bytes) (s : LineSplit) : Prop where
  length : s.start + s.tail.length = p.length
  tail : p.drop s.start = s.tail
  open_ : newline ∉ s.tail
  begins : s.start = 0 ∨ p[s.start - 1]? = some newline
  lines : ∀ line ∈ s.lines, LineAt p line

theorem LineAt.append {line : Nat × Bytes} (h : LineAt p line) (a : Bytes) :
    LineAt (p ++ a) line := by
  obtain ⟨⟨body, hl, hbody⟩, hb, hbegins⟩ := h
  have hlen := congrArg List.length hb
  rw [length_take, length_drop, hl, length_append, length_singleton] at hlen
  refine ⟨⟨body, hl, hbody⟩, ?_, hbegins.imp_right fun hline => ?_⟩
  · rw [drop_append_of_le_length (by omega), take_append_of_le_length, hb]
    rw [hl, length_append, length_singleton, length_drop]; omega
  · rw [getElem?_append_left (List.getElem?_eq_some_iff.mp hline).1, hline]

theorem splitAt_splitLines (p : Bytes) : SplitAt p (splitLines p) := by
  induction p using List.reverseRecOn with
  | nil => exact ⟨rfl, rfl, by simp [splitLines], .inl rfl, by simp [splitLines]⟩
  | append_singleton p byte ih =>
    obtain ⟨hl, ht, hopen, hbegins, hlines⟩ := ih
    have hold : ∀ line ∈ (splitLines p).lines, LineAt (p ++ [byte]) line :=
      fun line hle => (hlines line hle).append _
    have hd : (p ++ [byte]).drop (splitLines p).start = (splitLines p).tail ++ [byte] := by
      rw [drop_append_of_le_length (by omega), ht]
    have hs : (splitLines p).start = 0 ∨ (p ++ [byte])[(splitLines p).start - 1]? = some newline :=
      hbegins.imp_right fun hline => by
        rw [getElem?_append_left (List.getElem?_eq_some_iff.mp hline).1, hline]
    by_cases hb : byte = newline
    · have hle : IsLine ((splitLines p).tail ++ [byte]) := ⟨_, by rw [hb], hopen⟩
      rw [splitLines_append_line ⟨[], by rw [hb]; rfl, by simp⟩]
      refine ⟨by simp; omega, ?_, by simp, .inr ?_, fun line hmem => ?_⟩
      · rw [length_singleton, hl, drop_eq_nil_of_le (by simp)]
      · simp [hl, hb]
      · rcases mem_append.mp hmem with hmem | hmem
        · exact hold line hmem
        · rw [mem_singleton.mp hmem]; exact ⟨hle, by rw [hd, take_length], hs⟩
    · rw [splitLines_append_open (by simpa using Ne.symm hb)]
      exact ⟨by simp; omega, hd, by simp [hopen, Ne.symm hb], hs, hold⟩

theorem startsInsideRecord_iff {b : Bytes} {o : Nat} (h : o ≤ b.length) :
    startsInsideRecord b o = true ↔ (splitLines (b.take o)).tail ≠ [] := by
  obtain ⟨hl, ht, hopen, hb, -⟩ := splitAt_splitLines (b.take o)
  rw [length_take, Nat.min_eq_left h] at hl
  rw [startsInsideRecord, Bool.and_eq_true, bne_iff_ne]
  by_cases hnil : (splitLines (b.take o)).tail = []
  · rw [hnil, length_nil, Nat.add_zero] at hl
    rw [hl] at hb
    simp only [hnil, ne_eq, not_true_eq_false, iff_false, not_and]
    intro hpos
    have hline := hb.resolve_left hpos
    rw [getElem?_take_of_lt (by omega)] at hline; simp [hline]
  · have hpos := length_pos_iff.mpr hnil
    have hlt : o - 1 < b.length := by omega
    have hmem : b[o - 1] ∈ (splitLines (b.take o)).tail := by
      rw [← ht]
      refine mem_iff_getElem?.mpr ⟨o - 1 - (splitLines (b.take o)).start, ?_⟩
      rw [getElem?_drop, getElem?_take_of_lt (by omega),
        show (splitLines (b.take o)).start +
          (o - 1 - (splitLines (b.take o)).start) = o - 1 by omega,
        getElem?_eq_getElem hlt]
    simp only [getElem?_eq_getElem hlt, Option.any_some, bne_iff_ne, ne_eq, hnil,
      not_false_eq_true, iff_true]
    exact ⟨by omega, fun heq => hopen (heq ▸ hmem)⟩

/-! ## Frames -/

/-- How a frame that took `whole` and left `rest` can end. -/
def Ended (max budget : Nat) (whole rest : Bytes) : RawJsonlFrame → Prop
  | .eof => whole = [] ∧ rest = []
  | .complete n => n = whole.length ∧ n ≤ max ∧ IsLine whole
  | .partialLine n => n = whole.length ∧ 0 < n ∧ n ≤ max ∧ newline ∉ whole ∧ rest = []
  | .oversized n true => n = whole.length ∧ max < n ∧ IsLine whole
  | .oversized n false => n = whole.length ∧ max < n ∧ newline ∉ whole ∧ rest = []
  | .budgetExhausted n oversized =>
    n = whole.length ∧ budget ≤ n ∧ newline ∉ whole ∧ oversized = decide (max < n)

/-- The bytes `seen` of the frame so far, as the reader keeps them. -/
structure Seen (max : Nat) (seen record : Bytes) (byteLen : Nat) (oversized : Bool) : Prop where
  record : record = seen.take max
  byteLen : byteLen = seen.length
  oversized : oversized = decide (max < seen.length)
  open_ : newline ∉ seen

theorem retain {seen r : Bytes} (h : Seen max seen r b o) (part : Bytes) :
    (if o then r else r ++ part.take (min part.length (max - r.length))) = (seen ++ part).take max ∧
      (o || decide (min part.length (max - r.length) < part.length)) =
        decide (max < (seen ++ part).length) := by
  rw [h.record, h.oversized, length_append, length_take]
  by_cases hl : max < seen.length
  · have ht : max < seen.length + part.length := by omega
    simp [hl, ht, take_append_of_le_length hl.le]
  · have hs : min max seen.length = seen.length := by omega
    simp only [hl, decide_false, Bool.false_eq_true, if_false, hs, Bool.false_or]
    refine ⟨?_, decide_eq_decide.mpr (by omega)⟩
    rw [take_append, take_of_length_le (Nat.le_of_not_lt hl), ← take_take]
    congr 1
    exact take_of_length_le (by rw [length_take]; exact Nat.min_le_right _ _)

theorem flatten_consume (c : Nat) (a : Bytes) (rest : List Bytes) :
    (consume c a rest).flatten = a.drop c ++ rest.flatten := by
  unfold consume
  split
  · rename_i hle
    rw [drop_eq_nil_of_le hle, nil_append]
  · rfl

theorem nil_not_mem_consume {rest : List Bytes} (h : [] ∉ rest) : [] ∉ consume c a rest := by
  unfold consume
  split
  · exact h
  · rename_i hlt
    simp only [mem_cons, not_or]
    exact ⟨fun hnil => by have := congrArg List.length hnil; simp at this; omega, h⟩

/-- What a frame took, and what the reader holds then. -/
structure Took (max budget : Nat) (digest seen all : Bytes) (frame : RawJsonlFrame)
    (reader : FrameReader) (more : Bytes) : Prop where
  all : all = more ++ reader.buffers.flatten
  nonempty : [] ∉ reader.buffers
  digest : reader.resumeDigest = digest ++ more
  record : reader.record = (seen ++ more).take max
  limit : reader.maxRecordBytes = max
  ended : Ended max budget (seen ++ more) reader.buffers.flatten frame

theorem readFrame_took {budget : Nat} {bs : List Bytes} (hb : [] ∉ bs) {seen r d : Bytes}
    (hs : Seen max seen r b o) :
    ∃ more, Took max budget d seen bs.flatten (readFrame budget max r d b o bs).1
      (readFrame budget max r d b o bs).2 more := by
  induction bs generalizing seen r d b o with
  | nil =>
    refine ⟨[], rfl, by simp [readFrame], by simp [readFrame], by simp [readFrame, hs.record], rfl,
      ?_⟩
    simp only [readFrame, append_nil, flatten_nil]
    split_ifs with _ hz ho
    · exact ⟨hs.byteLen, by assumption, hs.open_, by rw [hs.oversized, hs.byteLen]⟩
    · exact ⟨length_eq_zero_iff.mp (hs.byteLen ▸ hz), rfl⟩
    · rw [hs.oversized, decide_eq_true_eq] at ho; exact ⟨hs.byteLen, hs.byteLen ▸ ho, hs.open_, rfl⟩
    · rw [hs.oversized, decide_eq_true_eq, not_lt] at ho
      exact ⟨hs.byteLen, by omega, hs.byteLen ▸ ho, hs.open_, rfl⟩
  | cons available rest ih =>
    simp only [mem_cons, not_or] at hb
    rw [readFrame]
    split
    · exact ⟨[], rfl, by simp [hb], by simp, by simp [hs.record], rfl, by simpa using
        hs.byteLen, by assumption, by simpa using hs.open_,
        by simp [hs.oversized, hs.byteLen]⟩
    rename_i hbudget
    simp only
    -- the newline is at `n`, or `n` is the end of the buffer
    obtain ⟨n, hn⟩ : ∃ n, available.findIdx (· == newline) = n := ⟨_, rfl⟩
    have hfind := @findIdx?_eq_guard_findIdx_lt _ available (· == newline)
    rw [hn] at hfind
    have hr : ((available.findIdx? (· == newline)).map (· + 1)).getD available.length =
        min (n + 1) available.length := by
      rw [hfind, Option.guard]
      by_cases hlt : n < available.length <;> simp [hlt] <;> omega
    rw [hr]
    generalize hmin : min (min (n + 1) available.length) (budget - b) = consumed
    have hany : (available.findIdx? (· == newline)).any (· < consumed) = decide (n < consumed) := by
      rw [hfind, Option.guard]
      by_cases hlt : n < available.length <;> simp [hlt]; omega
    rw [hany]
    have hopen : ∀ k ≤ n, newline ∉ seen ++ available.take k := by
      intro k hk hmem
      rcases mem_append.mp hmem with hmem | hmem
      · exact hs.open_ hmem
      obtain ⟨j, hj, hv⟩ := mem_take_iff_getElem.mp hmem
      have hnot := not_of_lt_findIdx (show j < available.findIdx (· == newline) by omega)
      simp [hv] at hnot
    have htaken : (available.take consumed).length = consumed := by rw [length_take]; omega
    obtain ⟨hkept, ho⟩ := retain hs (available.take consumed)
    rw [htaken, take_take, Nat.min_eq_left (Nat.min_le_left _ _)] at hkept
    rw [htaken] at ho
    rw [hkept, ho]
    have hl : b + consumed = (seen ++ available.take consumed).length := by
      rw [length_append, htaken, hs.byteLen]
    have ht : available ++ rest.flatten =
        available.take consumed ++ (consume consumed available rest).flatten := by
      rw [flatten_consume, ← append_assoc, take_append_drop]
    have hnonempty : [] ∉ consume consumed available rest := nil_not_mem_consume hb.2
    by_cases hf : n < consumed
    · -- the newline is among the bytes consumed
      rw [if_pos (decide_eq_true hf)]
      have hlt : n < available.length := by omega
      have hline : IsLine (seen ++ available.take consumed) := by
        refine ⟨seen ++ available.take n, ?_, hopen n le_rfl⟩
        have hv : available[n] = newline := by
          have hat := @findIdx_getElem _ (· == newline) available (hn ▸ hlt)
          simpa [hn] using hat
        rw [show consumed = n + 1 by omega, take_succ_eq_append_getElem hlt, hv, append_assoc]
      refine ⟨available.take consumed, ht, hnonempty, rfl, rfl, rfl, ?_⟩
      by_cases hlong : max < (seen ++ available.take consumed).length
      · simp only [hlong, decide_true, if_true]; exact ⟨hl, hl ▸ hlong, hline⟩
      · simp only [hlong, decide_false, Bool.false_eq_true, if_false]
        exact ⟨hl, hl ▸ Nat.le_of_not_lt hlong, hline⟩
    · rw [if_neg (by simpa using hf)]
      have hp := hopen consumed (by omega)
      by_cases hshort : consumed < min (n + 1) available.length
      · -- the budget ends inside the line
        rw [if_pos hshort]
        exact ⟨available.take consumed, ht, hnonempty, rfl, rfl, rfl, hl, by omega, hp, by rw [hl]⟩
      -- the whole buffer belongs to the line
      rw [if_neg hshort]
      rw [show consumed = available.length by omega, take_length] at hl hp ⊢
      obtain ⟨more, ht⟩ : ∃ more, Took max budget (d ++ available) _ _ _ _ more :=
        ih hb.2 ⟨rfl, hl, rfl, hp⟩
      refine ⟨available ++ more, ?_, ht.nonempty, ?_, ?_, ht.limit, ?_⟩
      · rw [flatten_cons, ht.all, append_assoc]
      · rw [ht.digest, append_assoc]
      · rw [ht.record, append_assoc]
      · rw [← append_assoc]; exact ht.ended

theorem nextFrame_took {r : FrameReader} (h : [] ∉ r.buffers) (b : Nat) :
    ∃ more, Took r.maxRecordBytes b r.resumeDigest [] r.buffers.flatten
      (r.nextFrameWithBudget b).1 (r.nextFrameWithBudget b).2 more :=
  readFrame_took h (show Seen r.maxRecordBytes [] [] 0 false from
    ⟨take_nil.symm, rfl, by simp, by simp⟩)

/-! ## Ranges -/

/-- Ranges that follow one another from `low` to `high`. -/
def Tiles (low high : Nat) : List (Nat × Nat) → Prop
  | [] => low = high
  | range :: ranges => range.1 = low ∧ low < range.2 ∧ Tiles range.2 high ranges

variable {ranges : List (Nat × Nat)} {frames : List RawJsonlRecord}
  {skipped : List RawJsonlSkippedRange}

theorem Tiles.le (h : Tiles low high ranges) : low ≤ high := by
  induction ranges generalizing low with
  | nil => exact Nat.le_of_eq h
  | cons range ranges ih => exact h.2.1.le.trans (ih h.2.2)

theorem Tiles.concat {hi' : Nat} (h : Tiles low high ranges)
    (hlt : high < hi') : Tiles low hi' (ranges ++ [(high, hi')]) := by
  induction ranges generalizing low with
  | nil => cases h; exact ⟨rfl, hlt, rfl⟩
  | cons range ranges ih => exact ⟨h.1, h.2.1, ih h.2.2⟩

theorem Tiles.last {s : Nat} (h : Tiles low high ranges) (hmem : (s, high) ∈ ranges) :
    ∃ before, ranges = before ++ [(s, high)] ∧ s < high ∧ Tiles low s before := by
  induction ranges generalizing low with
  | nil => cases hmem
  | cons range ranges ih =>
    obtain ⟨hs, hlt, hr⟩ := h
    cases ranges with
    | nil => obtain rfl := mem_singleton.mp hmem; cases hs; exact ⟨[], rfl, hlt, rfl⟩
    | cons next ranges =>
      rcases mem_cons.mp hmem with rfl | hmem
      · have hn := hr.2.2.le; have := hr.2.1; omega
      · obtain ⟨before, hstart, hpos, ht⟩ := ih hr hmem
        exact ⟨range :: before, by rw [hstart]; rfl, hpos, hs, hlt, ht⟩

def RawJsonlRecord.range (record : RawJsonlRecord) : Nat × Nat := (record.offset, record.endOffset)

def RawJsonlSkippedRange.range (skipped : RawJsonlSkippedRange) : Nat × Nat :=
  (skipped.offset, skipped.endOffset)

/-- Frames and skipped ranges tile what is before the cursor. -/
def Tiled (cursor : Nat) (frames : List RawJsonlRecord) (skipped : List RawJsonlSkippedRange) :
    Prop :=
  ∃ ranges, Tiles 0 cursor ranges ∧
    ranges.Perm (frames.map RawJsonlRecord.range ++ skipped.map RawJsonlSkippedRange.range)

theorem Tiled.frame (h : Tiled c frames skipped) (r : RawJsonlRecord) (hs : r.offset = c)
    (hlt : c < r.endOffset) : Tiled r.endOffset (frames ++ [r]) skipped := by
  obtain ⟨ranges, ht, hp⟩ := h
  refine ⟨_, ht.concat hlt, ?_⟩
  rw [map_append, map_singleton, RawJsonlRecord.range, hs]
  refine (hp.append_right _).trans ?_
  rw [append_assoc, append_assoc]; exact (perm_append_comm).append_left _

theorem Tiled.skip (h : Tiled c frames skipped) (r : RawJsonlSkippedRange)
    (hs : r.offset = c) (hlt : c < r.endOffset) : Tiled r.endOffset frames (skipped ++ [r]) := by
  obtain ⟨ranges, ht, hp⟩ := h
  refine ⟨_, ht.concat hlt, ?_⟩
  rw [map_append, map_singleton, RawJsonlSkippedRange.range, hs, ← append_assoc]
  exact hp.append_right _

theorem Tiled.extend {last l' : RawJsonlSkippedRange}
    (h : Tiled c frames (skipped ++ [last])) (hend : last.endOffset = c)
    (ho : l'.offset = last.offset) (hn : l'.endOffset = next) (hlt : c < next) :
    Tiled next frames (skipped ++ [l']) := by
  obtain ⟨ranges, ht, hp⟩ := h
  rw [map_append, map_singleton, ← append_assoc] at hp
  have hmem : (last.offset, c) ∈ ranges := by
    refine hp.mem_iff.mpr (mem_append_right _ ?_)
    simp [RawJsonlSkippedRange.range, hend]
  obtain ⟨before, rfl, hpos, hb⟩ := ht.last hmem
  refine ⟨_, hb.concat (hpos.trans hlt), ?_⟩
  rw [RawJsonlSkippedRange.range, hend] at hp
  rw [map_append, map_singleton, RawJsonlSkippedRange.range, ho, hn, ← append_assoc]
  exact ((perm_append_right_iff _).mp hp).append_right _

theorem Tiled.pushSkipped {s : BatchScanner} (h : Tiled s.offset frames (skipped ++ s.skipped))
    (hlt : s.offset < next) (r : RawJsonlSkippedReason) (f : Nat) :
    Tiled next frames (skipped ++ s.pushSkipped next r f) := by
  unfold BatchScanner.pushSkipped
  have ha : Tiled next frames (skipped ++ (s.skipped ++ [⟨s.offset, next, f, r⟩])) := by
    rw [← append_assoc]; exact h.skip ⟨s.offset, next, f, r⟩ rfl hlt
  split
  · rename_i last hl
    split_ifs with hm
    · obtain ⟨earlier, he⟩ := getLast?_eq_some_iff.mp hl
      rw [he, ← append_assoc] at h
      rw [he, dropLast_concat, ← append_assoc]; exact h.extend hm.2 rfl rfl hlt
    · exact ha
  · exact ha

end TraceDecay.Transcript
