import TraceDecay.Edit.Primitives

/-!
# Edit.PrimitivesCorrect

What an edit does to the lines it was not asked to touch. Every edit puts the lines of the source
together again with line feeds, so a line outside the addressed range keeps its bytes exactly when
it did not end in a carriage return and a line feed: `edits_touch_only_their_lines` states it for
the three edits, and that the new text then stands in the place of the addressed lines.
-/

namespace TraceDecay.Edit

open Utf8 TextLines Fallible
open List hiding beq_eq_decide

/-! ## What a splice writes -/

/-- The bytes of the lines before `start` and of those from `stop` on stand at the two ends of the
new content. -/
def KeepsOutside (source : List Char) (start stop : Nat) (modified : List Char) : Prop :=
  ∃ middle : List UInt8, encode modified = encode ((pieces source).take start).flatten ++
      (middle ++ encode ((pieces source).drop stop).flatten)

/-- No line before `start` and none from `stop` on ends in a carriage return and a line feed. -/
def LfOutside (source : List Char) (start stop : Nat) : Prop :=
  ∀ p ∈ (pieces source).take start ++ (pieces source).drop stop, ¬ EndsCrlf p

instance (source : List Char) (start stop : Nat) : Decidable (LfOutside source start stop) :=
  inferInstanceAs (Decidable (∀ p ∈ _, _))

/-- The line feed that closes the last line of `before`, if it is open. -/
def closeLine (before : List Char) : List Char :=
  if before.getLast?.all (· == '\n') then [] else ['\n']

/-- `text` between `before` and the lines `after`, set off by a line feed where one is missing. One
stands at the end if the source had it there (`newline`) and there is anything to end. -/
def setBetween (before text : List Char) (after : List (List Char)) (newline : Bool) : List Char :=
  let upTo := before ++ closeLine before ++ text
  let closing := if !after.isEmpty || (newline && !upTo.isEmpty) then ['\n'] else []
  upTo ++ (closing ++ after.flatten)

/-- The new content is the old one with `text` in the place of the lines from `start` to `stop`. -/
def Spliced (source : List Char) (start stop : Nat) (text modified : List Char) : Prop :=
  modified = setBetween ((pieces source).take start).flatten text ((pieces source).drop stop)
    (endsWithNewline source)

/-- What the three edits hand to the gate: `text` in the place of the lines from `start` to
`stop`. -/
def splice (source : List Char) (start stop : Nat) (text : List Char) : List Char :=
  spliceLines ((lines source).take start ++ text :: (lines source).drop stop)
    (endsWithNewline source)

theorem setBetween_eq (before text : List Char) (after : List (List Char)) (newline : Bool) :
    ∃ o c, (after ≠ [] → c = ['\n']) ∧
      setBetween before text after newline = before ++ (o ++ text ++ c ++ after.flatten) := by
  simp only [setBetween]
  split_ifs with h
  · exact ⟨closeLine before, ['\n'], fun _ => rfl, by simp only [append_assoc]⟩
  · exact ⟨closeLine before, [], fun hne => absurd (by simp [hne]) h, by simp only [append_assoc]⟩

theorem flatten_before {b a : List (List Char)} (h : Cut (b ++ a)) :
    (b.map fun p => lineOf p ++ ['\n']).flatten =
      (b.map unify).flatten ++ closeLine (b.map unify).flatten := by
  rcases eq_nil_or_concat' b with rfl | ⟨init, p, rfl⟩
  · rfl
  have hi : ∀ q ∈ init, Closed q := by rw [append_assoc] at h; exact h.append.2.2 (by simp)
  have hl : Cut [p] := h.append.1.append.2.1
  cases hl with
  | tail hne hb =>
    -- an open last line is closed before the new text
    obtain ⟨body, c, rfl⟩ := (eq_nil_or_concat' p).resolve_left hne
    have hc : c ≠ '\n' := fun hc => hb (by simp [hc])
    simp [closeLine, flatten_lineOf_closed hi, lineOf_open hb, unify_of_not_closed hb, hc]
  | line hb _ => simp [closeLine, flatten_lineOf_closed hi]

theorem cut_drop (source : List Char) (n : Nat) : Cut ((pieces source).drop n) := by
  have hcut := pieces_cut source
  rw [← take_append_drop n (pieces source)] at hcut; exact hcut.append.2.1

/-- A splice writes the lines outside with line feeds for their endings. -/
theorem splice_eq (source : List Char) (s stop : Nat) (text : List Char) : splice source s stop text =
    setBetween (((pieces source).take s).map unify).flatten text
      (((pieces source).drop stop).map unify) (endsWithNewline source) := by
  have hcut := pieces_cut source
  rw [← take_append_drop s (pieces source)] at hcut
  have hj : join ((lines source).take s ++ text :: (lines source).drop stop) =
      (((pieces source).take s).map unify).flatten ++
          closeLine (((pieces source).take s).map unify).flatten ++ text ++
        (((pieces source).drop stop).map fun p => '\n' :: lineOf p).flatten := by
    rw [← flatten_before hcut, join_append_cons, lines, ← map_take, ← map_drop, map_map, map_map,
      append_assoc]; rfl
  simp only [splice, spliceLines, hj, setBetween, isEmpty_map]
  generalize (((pieces source).take s).map unify).flatten ++ _ ++ text = upTo
  by_cases hnone : (pieces source).drop stop = []
  · simp only [hnone, map_nil, flatten_nil, append_nil, isEmpty_nil, Bool.not_true, Bool.false_or]
    split_ifs
    · rfl
    · exact (append_nil _).symm
  · obtain ⟨p, rest, hp⟩ := exists_cons_of_ne_nil hnone
    have hb := flatten_lineOf_cut (cut_drop source stop) hnone
    -- the line feed at the end of the source is that of the last line kept
    have hl : ((pieces source).drop stop).flatten.getLast? = source.getLast? := by
      have hne := (cut_drop source stop).ne_nil p (by simp [hp])
      rw [← getLast?_append_of_ne_nil ((pieces source).take stop).flatten (by simp [hp, hne]),
        ← flatten_append, take_append_drop, flatten_pieces]
    have hs : (upTo ++ (((pieces source).drop stop).map fun p => '\n' :: lineOf p).flatten).isEmpty =
        false := by simp [hp]
    rw [hl] at hb
    simp only [hs, isEmpty_eq_false_iff.mpr hnone, endsWithNewline, Bool.not_false, Bool.and_true,
      Bool.true_or, beq_iff_eq, if_true]
    split_ifs at hb ⊢
    · rw [append_assoc, hb]; rfl
    · rw [append_nil] at hb; rw [hb]; rfl

variable {source modified : List Char} {s stop : Nat} {text a c : List Char} {d : Bool}
  {t : EditSymbol}

theorem spliced_of_lfOutside (text : List Char) (h : LfOutside source s stop) :
    Spliced source s stop text (splice source s stop text) := by
  rw [splice_eq, map_unify fun p hp => h p (mem_append_left _ hp),
    map_unify fun p hp => h p (mem_append_right _ hp)]; rfl

theorem Spliced.keepsOutside
    (h : Spliced source s stop text modified) : KeepsOutside source s stop modified := by
  obtain ⟨o, c, -, hm⟩ := setBetween_eq _ _ _ _
  exact ⟨encode (o ++ text ++ c), by rw [h, hm]; simp only [encode_append]⟩

theorem lfOutside_of_keepsOutside
    (h : KeepsOutside source s stop (splice source s stop text)) : LfOutside source s stop := by
  obtain ⟨o, c, hc, hs⟩ := setBetween_eq _ _ _ _
  obtain ⟨middle, hm⟩ := h
  rw [splice_eq, hs] at hm
  intro p hp
  rcases mem_append.mp hp with hp | hp
  · have hf : ((pieces source).take s).flatten <+: _ :=
      prefix_of_encode_prefix (hm ▸ prefix_append ..)
    exact not_endsCrlf_of_prefix hf p hp
  have hb : ((pieces source).drop stop).flatten <:+ _ :=
    suffix_of_encode_suffix (hm ▸ (suffix_append middle _).trans (suffix_append _ _))
  rw [hc (by simpa using ne_nil_of_mem hp), ← append_assoc, ← append_assoc,
    ← append_assoc, append_assoc _ ['\n']] at hb
  exact not_endsCrlf_of_suffix (cut_drop source stop) hb p hp

theorem splice_touches (source text : List Char) (s stop : Nat) :
    (KeepsOutside source s stop (splice source s stop text) ↔ LfOutside source s stop) ∧
    (LfOutside source s stop → Spliced source s stop text (splice source s stop text)) :=
  ⟨⟨lfOutside_of_keepsOutside, fun h => (spliced_of_lfOutside text h).keepsOutside⟩,
    spliced_of_lfOutside text⟩

/-! ## The three edits -/

/-- The line an anchor names: by its number, or as the only one with the anchor's first hundred
bytes in it. -/
def NamesLine (source anchor : List Char) (line : Nat) : Prop :=
  line < (pieces source).length ∧
    ((anchor ≠ [] ∧ (∀ c ∈ anchor, c.isDigit = true) ∧ Nat.ofDigitChars 10 anchor 0 = line + 1) ∨
      ((∃ c ∈ anchor, c.isDigit = false) ∧
        ∀ i l, (lines source)[i]? = some l → (wholeChars 100 anchor <:+: l ↔ i = line)))

theorem anchorLine_names {index : Nat}
    (h : anchorLine (lines source) a = .ok (.line index)) : NamesLine source a index := by
  unfold anchorLine at h
  split at h
  · next hdigits =>
    simp only at h
    split at h
    · cases h
    next hp =>
    split at h
    · cases h
    next hr =>
    cases h
    simp only [Bool.or_eq_true, decide_eq_true_eq, not_or, beq_iff_eq, length_lines] at hr hp
    refine ⟨by omega, .inl ⟨?_, all_eq_true.mp hdigits, by omega⟩⟩
    rintro rfl; simp at hp
  · next hdigits =>
    obtain ⟨c, hc, hd⟩ : ∃ c ∈ a, c.isDigit = false := by simpa using hdigits
    split at h
    · cases h
    · next hf =>
      cases h
      have hmem : ∀ i, i ∈ matchingLines (lines source) (wholeChars 100 a) ↔ i = index := by
        simp [hf]
      simp only [matchingLines, mem_filter, mem_range, decide_eq_true_eq, length_lines] at hmem
      refine ⟨((hmem index).mpr rfl).1, .inr ⟨⟨c, hc, hd⟩, fun i l hl => ?_⟩⟩
      rw [← hmem i, hl]
      have hlt : i < (pieces source).length := by
        obtain ⟨hlt, -⟩ := List.getElem?_eq_some_iff.mp hl
        rwa [length_lines] at hlt
      simp [hlt]
    · cases h

theorem insertAt_splices {r : String} {b : Bool} {rt : InsertResult}
    (h : insertAt r source a c b d = .ok (rt, some modified)) :
    ∃ line, NamesLine source a line ∧ modified =
      splice source (if b then line else line + 1) (if b then line else line + 1)
        (stripSuffix '\n' c) := by
  obtain ⟨anchored, ha, h⟩ := bind_eq_ok.mp h
  cases anchored with
  | refused => cases h
  | line index => cases h; exact ⟨index, anchorLine_names ha, rfl⟩

theorem insertAtSymbol_splices {p : String}
    {r : InsertResult} (h : insertAtSymbol t source c p d = .ok (r, some modified)) :
    ∃ s stop, lineBounds t source = .ok (s, stop) ∧ modified =
      splice source (if p = "before" then s else stop + 1)
        (if p = "before" then s else stop + 1) (trimEndNewlines c) := by
  obtain ⟨before, hb, h⟩ := bind_eq_ok.mp h
  obtain ⟨⟨s, stop⟩, hspan, h⟩ := bind_eq_ok.mp h
  have hplace : (if before = true then s else stop + 1) =
      if p = "before" then s else stop + 1 := by
    unfold isBefore at hb
    split at hb
    · next hp => cases hb; simp [hp]
    · next hp =>
      split at hb
      · cases hb; simp [hp]
      · cases hb
  refine ⟨s, stop, hspan, ?_⟩
  simp only [hplace] at h
  generalize (if p = "before" then s else stop + 1) = anchor at h ⊢
  split at h
  · cases h
  · cases h; rfl

theorem replaceSymbol_splices {symbol : String} {n : List Char}
    {r : EditResult} (h : replaceSymbol t symbol source n d = .ok (r, some modified)) :
    ∃ s stop, lineBounds t source = .ok (s, stop) ∧ modified =
      splice source s (stop + 1) (trimEndNewlines n) := by
  obtain ⟨⟨s, stop⟩, hb, h⟩ := bind_eq_ok.mp h
  simp only at h
  split at h
  · cases h
  split at h
  · cases h
  · cases h; exact ⟨s, stop, hb, rfl⟩

/-- Every successful edit leaves the bytes before and after the lines it addresses alone exactly
when none of those lines ends in a carriage return and a line feed, and then its text is all that
is new. -/
theorem edits_touch_only_their_lines (source content : List Char) (dryRun : Bool) :
    (∀ relPath anchor before result modified,
      insertAt relPath source anchor content before dryRun = .ok (result, some modified) →
      ∃ line, NamesLine source anchor line ∧
        ∀ boundary, boundary = (if before then line else line + 1) →
          (KeepsOutside source boundary boundary modified ↔ LfOutside source boundary boundary) ∧
          (LfOutside source boundary boundary →
            Spliced source boundary boundary (stripSuffix '\n' content) modified)) ∧
    (∀ target position result modified,
      insertAtSymbol target source content position dryRun = .ok (result, some modified) →
      ∃ start stop, lineBounds target source = .ok (start, stop) ∧
        ∀ boundary, boundary = (if position = "before" then start else stop + 1) →
          (KeepsOutside source boundary boundary modified ↔ LfOutside source boundary boundary) ∧
          (LfOutside source boundary boundary →
            Spliced source boundary boundary (trimEndNewlines content) modified)) ∧
    (∀ target symbol result modified,
      replaceSymbol target symbol source content dryRun = .ok (result, some modified) →
      ∃ start stop, lineBounds target source = .ok (start, stop) ∧
        (KeepsOutside source start (stop + 1) modified ↔ LfOutside source start (stop + 1)) ∧
        (LfOutside source start (stop + 1) →
          Spliced source start (stop + 1) (trimEndNewlines content) modified)) := by
  refine ⟨?_, ?_, ?_⟩
  · intro relPath anchor before result modified h
    obtain ⟨line, hl, rfl⟩ := insertAt_splices h
    refine ⟨line, hl, ?_⟩
    rintro boundary rfl; exact splice_touches ..
  · intro target position result modified h
    obtain ⟨start, stop, hb, rfl⟩ := insertAtSymbol_splices h
    refine ⟨start, stop, hb, ?_⟩
    rintro boundary rfl; exact splice_touches ..
  · intro target symbol result modified h
    obtain ⟨start, stop, hb, rfl⟩ := replaceSymbol_splices h
    exact ⟨start, stop, hb, splice_touches ..⟩

/-- A file with one line that ends in a carriage return and a line feed and one that does not. -/
def mixedEndings : List Char := "a\r\nb\n".toList

/-- A line inserted before the second one takes the carriage return off the first. -/
theorem insertion_rewrites_line_before : ∃ result modified,
      insertAt "f" mixedEndings "2".toList "x".toList true false = .ok (result, some modified) ∧
        modified = "a\nx\nb\n".toList ∧ ¬ KeepsOutside mixedEndings 1 1 modified := by
  have hc : ¬ LfOutside mixedEndings 1 1 := fun h => h "a\r\n".toList (by decide) (by decide)
  have hs : splice mixedEndings 1 1 "x".toList = "a\nx\nb\n".toList := by decide
  refine ⟨_, _, rfl, hs, fun h => hc (lfOutside_of_keepsOutside h)⟩

/-- The same line inserted behind the second one, in a file with line feeds only. -/
theorem insertion_keeps_lines_before : KeepsOutside "a\nb".toList 2 2 "a\nb\nx".toList := by
  obtain ⟨line, hl, ht⟩ := (edits_touch_only_their_lines "a\nb".toList "x".toList false).1
    "f" "2".toList false _ "a\nb\nx".toList rfl
  have hn : line = 1 := by
    obtain ⟨-, ⟨-, -, hn⟩ | ⟨⟨c, hc, hd⟩, -⟩⟩ := hl
    · have : Nat.ofDigitChars 10 "2".toList 0 = 2 := by decide
      omega
    · have hall : "2".toList.all Char.isDigit = true := by decide
      rw [all_eq_true.mp hall c hc] at hd; cases hd
  subst hn; exact ((ht 2 rfl).1).mpr (by decide)

end TraceDecay.Edit
