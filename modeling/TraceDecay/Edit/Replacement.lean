import TraceDecay.Lib.Sorting
import TraceDecay.Edit.Primitives

/-!
# Edit.Replacement

The string replacements (`str_replace` and `multi_str_replace` in `edits/primitives.rs`). Old
strings are searched from the left without overlaps, so a second occurrence that begins inside the
first one is not seen, and the edit is made although the old string has two places.
-/

namespace TraceDecay.Edit

open Utf8 Sorting List Nat

/-- `str::match_indices`. -/
def matchIndices (old : List Char) : (skip position : Nat) → List Char → List Nat
  | 0, position, [] => if old = [] then [position] else []
  | _ + 1, _, [] => []
  | skip + 1, position, _ :: s => matchIndices old skip (position + 1) s
  | 0, position, c :: s =>
    if old <+: c :: s then position :: matchIndices old (old.length - 1) (position + 1) s
    else matchIndices old 0 (position + 1) s

def strReplace (relPath path : String) (source old new : List Char) (dryRun : Bool) :
    EditResult × Option (List Char) :=
  let result (success : Bool) (span : Option (List Char)) (message : String) : EditResult :=
    ⟨success, relPath, .ofList old, new, span, dryRun, message⟩
  match matchIndices old 0 0 source with
  | [] => (result false none s!"old_str not found in {path}", none)
  | [start] =>
    (result true (some old) (editSuccessMessage dryRun "replacement successful"),
      some (source.take start ++ new ++ source.drop (start + old.length)))
  | hits =>
    (result false none s!"old_str matches {hits.length} times, must match exactly once", none)

structure MultiEditResult where
  success : Bool
  filePath : String
  appliedCount : Nat
  dryRun : Bool
  message : String

structure Span where
  (start stop : Nat)
  (old new : List Char)

def byStart (a b : Span) : Ordering := compare a.start b.start

def refusedMultiEdit (relPath : String) (dryRun : Bool) (message : String) :
    MultiEditResult × Option (List Char) := (⟨false, relPath, 0, dryRun, message⟩, none)

def resolveSpans (source : List Char) : List (List Char × List Char) → Except String (List Span)
  | [] => .ok []
  | (old, new) :: rest =>
    match matchIndices old 0 0 source with
    | [start] => (⟨start, start + old.length, old, new⟩ :: ·) <$> resolveSpans source rest
    | hits => .error (s!"replacement '{String.ofList (wholeChars 20 old)}' matches " ++
        s!"{hits.length} times, must match exactly once")

def overlapping : List Span → Option (Span × Span)
  | a :: b :: rest => if b.start < a.stop then some (a, b) else overlapping (b :: rest)
  | _ => none

def spliceSpans (source : List Char) : Nat → List Span → List Char
  | cursor, [] => source.drop cursor
  | cursor, span :: spans =>
    (source.take span.start).drop cursor ++ (span.new ++ spliceSpans source span.stop spans)

def multiStrReplace (relPath : String) (source : List Char)
    (replacements : List (List Char × List Char)) (dryRun : Bool) :
    MultiEditResult × Option (List Char) :=
  match resolveSpans source replacements with
  | .error message => refusedMultiEdit relPath dryRun message
  | .ok spans =>
    let spans := sortBy byStart spans
    match overlapping spans with
    | some (prev, next) => refusedMultiEdit relPath dryRun
        (s!"replacements '{String.ofList (wholeChars 20 prev.old)}' and " ++
          s!"'{String.ofList (wholeChars 20 next.old)}' target overlapping ranges; " ++
          "apply them separately")
    | none =>
      (⟨true, relPath, replacements.length, dryRun,
        editSuccessMessage dryRun s!"applied {replacements.length} replacements"⟩,
        some (spliceSpans source 0 spans))

/-! ## Simultaneous substitution -/

def OccursAt (source old : List Char) (i : Nat) : Prop := old <+: source.drop i

def Unique (source old : List Char) (i : Nat) : Prop := ∀ j, OccursAt source old j ↔ j = i

/-- The first occurrence, in which all others begin. -/
def FirstOnly (source old : List Char) (i : Nat) : Prop :=
  OccursAt source old i ∧ ∀ j, OccursAt source old j → i ≤ j ∧ j < i + old.length

def spanAt (pos : List Char → Nat) (p : List Char × List Char) : Span :=
  ⟨pos p.1, pos p.1 + p.1.length, p.1, p.2⟩

def Span.Apart (a b : Span) : Prop := a.stop ≤ b.start ∨ b.stop ≤ a.start

/-- Every old string has its place, and the ranges are disjoint. -/
def Placed (P : List Char → Nat → Prop) (pairs : List (List Char × List Char))
    (pos : List Char → Nat) : Prop :=
  (∀ p ∈ pairs, P p.1 (pos p.1)) ∧ (pairs.map (spanAt pos)).Pairwise Span.Apart

/-- A second occurrence begins inside the first, and nothing else is wrong with the request. -/
def HidesOccurrence (source : List Char) (pairs : List (List Char × List Char)) : Prop :=
  ∃ pos, Placed (FirstOnly source) pairs pos ∧ ∃ p ∈ pairs, ∃ j, OccursAt source p.1 j ∧ j ≠ pos p.1

/-- The text with new strings for old ones, from the offset on. -/
inductive Substituted : List Span → Nat → List Char → List Char → Prop where
  | done {offset : Nat} {s : List Char} : Substituted [] offset s s
  | span {spans : List Span} {span : Span} {offset : Nat} {gap s t : List Char} :
      offset + gap.length = span.start → Substituted spans span.stop s t →
      Substituted (span :: spans) offset (gap ++ (span.old ++ s)) (gap ++ (span.new ++ t))

structure Simultaneous (source : List Char) (pairs : List (List Char × List Char))
    (relPath path : String) (dryRun : Bool) : Prop where
  success_iff : (multiStrReplace relPath source pairs dryRun).1.success = true ↔
    ∃ pos, Placed (Unique source) pairs pos
  refused : (multiStrReplace relPath source pairs dryRun).1.success = false →
    (multiStrReplace relPath source pairs dryRun).2 = none
  substituted : ∀ text, (multiStrReplace relPath source pairs dryRun).2 = some text →
    ∃ pos spans, (∀ p ∈ pairs, OccursAt source p.1 (pos p.1)) ∧
      spans.Perm (pairs.map (spanAt pos)) ∧ Substituted spans 0 source text
  order : ∀ pairs', pairs'.Perm pairs → (multiStrReplace relPath source pairs' dryRun).2 =
    (multiStrReplace relPath source pairs dryRun).2
  single : ∀ p, pairs = [p] → (strReplace relPath path source p.1 p.2 dryRun).1.success =
      (multiStrReplace relPath source pairs dryRun).1.success ∧
    (strReplace relPath path source p.1 p.2 dryRun).2 =
      (multiStrReplace relPath source pairs dryRun).2

variable {source old : List Char} {pairs : List (List Char × List Char)} {pos : List Char → Nat}

theorem matchIndices_skip (skip position : Nat) (s : List Char) (h : old ≠ []) :
    matchIndices old skip position s = matchIndices old 0 (position + skip) (s.drop skip) := by
  induction skip generalizing position s with
  | zero => rfl
  | succ skip ih =>
    cases s with
    | nil => simp [matchIndices, h]
    | cons c s =>
      rw [matchIndices, ih, drop_succ_cons, add_assoc, add_comm 1]

/-- A search ends without a match, or goes on behind the first one. -/
theorem matchIndices_cases (h : old ≠ []) (position : Nat) (s : List Char) :
    (matchIndices old 0 position s = [] ∧ ∀ j, ¬ OccursAt s old j) ∨
    ∃ i, OccursAt s old i ∧ (∀ j, OccursAt s old j → i ≤ j) ∧ matchIndices old 0 position s =
      (position + i) :: matchIndices old 0 (position + i + old.length) (s.drop (i + old.length)) := by
  induction s generalizing position with
  | nil => exact .inl ⟨by simp [matchIndices, h], by simp [OccursAt, h]⟩
  | cons c s ih =>
    obtain ⟨n, hn⟩ := exists_eq_succ_of_ne_zero (length_pos_of_ne_nil h).ne'
    rw [matchIndices]
    split_ifs with hc
    · refine .inr ⟨0, hc, fun _ _ => zero_le _, ?_⟩
      rw [matchIndices_skip _ _ _ h, hn]; simp [add_assoc, add_comm 1]
    have hsucc : ∀ j, OccursAt (c :: s) old j → ∃ k, j = k + 1 ∧ OccursAt s old k := by
      intro j hj
      cases j with
      | zero => exact absurd hj hc
      | succ k => exact ⟨k, rfl, hj⟩
    rcases ih (position + 1) with ⟨hnil, hnone⟩ | ⟨i, hi, hf, heq⟩
    · refine .inl ⟨hnil, fun j hj => ?_⟩; obtain ⟨k, -, hk⟩ := hsucc j hj; exact hnone k hk
    · refine .inr ⟨i + 1, hi, fun j hj => ?_, ?_⟩
      · obtain ⟨k, rfl, hk⟩ := hsucc j hj; exact succ_le_succ (hf k hk)
      · rw [heq, add_right_comm i, drop_succ_cons, add_assoc, add_comm 1]

theorem matchIndices_eq_singleton (h : old ≠ []) {i : Nat} :
    matchIndices old 0 0 source = [i] ↔ FirstOnly source old i := by
  rcases matchIndices_cases h 0 source with ⟨hnil, hnone⟩ | ⟨k, hk, hf, heq⟩
  · rw [hnil]; exact ⟨nofun, fun hi => absurd hi.1 (hnone i)⟩
  rw [heq, zero_add, cons.injEq]
  rcases matchIndices_cases h (k + old.length) (source.drop (k + old.length)) with
    ⟨hnil, hnone⟩ | ⟨j, hj, -, hcons⟩
  · rw [hnil]
    constructor
    · rintro ⟨rfl, -⟩
      refine ⟨hk, fun j hj => ⟨hf j hj, ?_⟩⟩
      by_contra hle
      refine hnone (j - (k + old.length)) ?_
      rw [OccursAt, drop_drop, add_sub_of_le (by omega)]; exact hj
    · intro hi; exact ⟨le_antisymm (hf i hi.1) (hi.2 k hk).1, rfl⟩
  · rw [hcons]
    refine ⟨nofun, fun hi => ?_⟩
    rw [OccursAt, drop_drop] at hj
    have := (hi.2 _ hj).2
    have := (hi.2 k hk).1
    omega

theorem resolveSpans_eq_ok (hold : ∀ p ∈ pairs, p.1 ≠ []) {spans : List Span} :
    resolveSpans source pairs = .ok spans ↔
      ∃ pos, (∀ p ∈ pairs, FirstOnly source p.1 (pos p.1)) ∧ spans = pairs.map (spanAt pos) := by
  constructor
  · intro h
    refine ⟨fun old => (matchIndices old 0 0 source).headD 0, ?_⟩
    induction pairs generalizing spans with
    | nil => exact ⟨nofun, (Except.ok.inj h).symm⟩
    | cons p pairs ih =>
      rw [resolveSpans] at h
      split at h
      · rename_i i hi
        cases hr : resolveSpans source pairs with
        | error e => simp [hr] at h
        | ok rest =>
          rw [hr] at h
          obtain ⟨hall, rfl⟩ := ih (fun q hq => hold q (by simp [hq])) hr
          refine ⟨forall_mem_cons.mpr ⟨?_, hall⟩, ?_⟩
          · simpa [hi] using (matchIndices_eq_singleton (hold _ (by simp))).mp hi
          · simp [← Except.ok.inj h, spanAt, hi]
      · cases h
  · rintro ⟨pos, h, rfl⟩
    induction pairs with
    | nil => rfl
    | cons p pairs ih =>
      have hi := (matchIndices_eq_singleton (hold p (by simp))).mpr (h p (by simp))
      rw [resolveSpans, hi, ih (fun q hq => hold q (by simp [hq])) fun q hq => h q (by simp [hq])]
      rfl

variable {l : List Span}

theorem overlapping_eq_none (h : l.Pairwise fun a b => a.start ≤ b.start) :
    overlapping l = none ↔ l.Pairwise fun a b => a.stop ≤ b.start := by
  induction l with
  | nil => simp [overlapping]
  | cons a l ih =>
    cases l with
    | nil => simp [overlapping]
    | cons b l =>
      obtain ⟨-, ht⟩ := pairwise_cons.mp h
      have hb := (pairwise_cons.mp ht).1
      rw [overlapping, pairwise_cons, ← ih ht]
      split_ifs with hlt
      · exact ⟨nofun, fun hc => absurd (hc.1 b (by simp)) (by omega)⟩
      · refine ⟨fun ho => ⟨forall_mem_cons.mpr ⟨by omega, fun c hc => ?_⟩, ho⟩, And.right⟩
        have := hb c hc
        omega

theorem sortBy_byStart (l : List Span) : (sortBy byStart l).Pairwise fun a b => a.start ≤ b.start :=
  sortBy_sorted (fun _ _ => compare_ne_gt) l

theorem pairwise_apart {l' : List Span} (h : l.Perm l') :
    l.Pairwise Span.Apart ↔ l'.Pairwise Span.Apart := h.pairwise_iff fun h => Or.symm h

theorem overlapping_sortBy (hpos : ∀ s ∈ l, s.start < s.stop) :
    overlapping (sortBy byStart l) = none ↔ l.Pairwise Span.Apart := by
  have hp := sortBy_perm byStart l
  rw [overlapping_eq_none (sortBy_byStart l), ← pairwise_apart hp]
  refine ⟨fun h => h.imp Or.inl, fun h => ?_⟩
  refine ((sortBy_byStart l).and h).imp_of_mem fun {a b} _ hb ⟨hle, hapart⟩ => ?_
  have := hpos b (hp.mem_iff.mp hb)
  rcases hapart with h | h <;> omega

theorem substituted_spliceSpans {cursor : Nat} (hc : ∀ s ∈ l, cursor ≤ s.start)
    (hl : l.Pairwise fun a b => a.stop ≤ b.start) (hs : ∀ s ∈ l, s.start < s.stop ∧
      s.stop = s.start + s.old.length ∧ OccursAt source s.old s.start) :
    Substituted l cursor (source.drop cursor) (spliceSpans source cursor l) := by
  induction l generalizing cursor with
  | nil => exact .done
  | cons s l ih =>
    obtain ⟨hs1, hl⟩ := pairwise_cons.mp hl
    obtain ⟨hlt, hstop, t, ht⟩ := hs s (by simp)
    have hlen := congrArg length ht
    rw [length_append, length_drop] at hlen
    have hdrop : source.drop s.stop = t := by
      rw [hstop, ← drop_drop, ← ht, drop_left]
    have hsplit : source.drop cursor = (source.take s.start).drop cursor ++ source.drop s.start := by
      have hle : cursor ≤ (source.take s.start).length := by
        have := hc s (by simp)
        rw [length_take]; omega
      rw [← drop_append_of_le_length hle, take_append_drop]
    rw [hsplit, ← ht, ← hdrop, spliceSpans]
    refine .span ?_ (ih hs1 hl fun s' h' => hs s' (by simp [h']))
    have := hc s (by simp)
    rw [length_drop, length_take]; omega

section Whole

variable (hold : ∀ p ∈ pairs, p.1 ≠ []) (relPath path : String) (dryRun : Bool)

theorem multiStrReplace_success : (multiStrReplace relPath source pairs dryRun).1.success =
    (multiStrReplace relPath source pairs dryRun).2.isSome := by
  unfold multiStrReplace
  split
  · rfl
  · dsimp only
    split <;> rfl

include hold

theorem spanAt_pos (pos : List Char → Nat) : ∀ s ∈ pairs.map (spanAt pos), s.start < s.stop := by
  intro s hs
  obtain ⟨p, hp, rfl⟩ := mem_map.mp hs
  exact Nat.lt_add_of_pos_right (length_pos_of_ne_nil (hold p hp))

variable {text : List Char}

theorem multiStrReplace_eq_some : (multiStrReplace relPath source pairs dryRun).2 = some text ↔
      ∃ pos, Placed (FirstOnly source) pairs pos ∧
        text = spliceSpans source 0 (sortBy byStart (pairs.map (spanAt pos))) := by
  unfold multiStrReplace
  constructor
  · intro h
    split at h
    · cases h
    rename_i spans hr
    obtain ⟨pos, hf, rfl⟩ := (resolveSpans_eq_ok hold).mp hr
    dsimp only at h
    split at h
    · cases h
    · rename_i ho
      exact ⟨pos, ⟨hf, (overlapping_sortBy (spanAt_pos hold pos)).mp ho⟩, (Option.some.inj h).symm⟩
  · rintro ⟨pos, ⟨hf, ha⟩, rfl⟩
    rw [(resolveSpans_eq_ok hold).mpr ⟨pos, hf, rfl⟩]
    dsimp only
    rw [(overlapping_sortBy (spanAt_pos hold pos)).mpr ha]

theorem multiStrReplace_perm {pairs' : List (List Char × List Char)} (hp : pairs'.Perm pairs)
    (h : (multiStrReplace relPath source pairs dryRun).2 = some text) :
    (multiStrReplace relPath source pairs' dryRun).2 = some text := by
  obtain ⟨pos, ⟨hf, ha⟩, rfl⟩ := (multiStrReplace_eq_some hold relPath dryRun).mp h
  have hm := hp.map (spanAt pos)
  have ha' := (pairwise_apart hm).mpr ha
  have hold' : ∀ p ∈ pairs', p.1 ≠ [] := fun p h => hold p (hp.mem_iff.mp h)
  refine (multiStrReplace_eq_some hold' relPath dryRun).mpr
    ⟨pos, ⟨fun p h => hf p (hp.mem_iff.mp h), ha'⟩, ?_⟩
  have hperm := (sortBy_perm byStart _).trans (hm.symm.trans (sortBy_perm byStart _).symm)
  have hs := fun l hl h => (overlapping_eq_none (sortBy_byStart l)).mp ((overlapping_sortBy hl).mpr h)
  rw [hperm.eq_of_pairwise (fun a b hm hm' hab hba => ?_) (hs _ (spanAt_pos hold pos) ha)
    (hs _ (spanAt_pos hold' pos) ha')]
  have := spanAt_pos hold pos a ((sortBy_perm byStart _).mem_iff.mp hm)
  have := spanAt_pos hold' pos b ((sortBy_perm byStart _).mem_iff.mp hm')
  omega

/-- The edits are simultaneous substitutions of unique strings unless an occurrence is hidden. -/
theorem simultaneous_iff :
    Simultaneous source pairs relPath path dryRun ↔ ¬ HidesOccurrence source pairs := by
  have hsome := @multiStrReplace_eq_some source _ hold relPath dryRun
  have hsuccess : (multiStrReplace relPath source pairs dryRun).1.success = true ↔
      ∃ pos, Placed (FirstOnly source) pairs pos := by
    rw [multiStrReplace_success, Option.isSome_iff_exists]
    constructor
    · rintro ⟨text, h⟩; obtain ⟨pos, h, -⟩ := hsome.mp h; exact ⟨pos, h⟩
    · rintro ⟨pos, h⟩; exact ⟨_, hsome.mpr ⟨pos, h, rfl⟩⟩
  constructor
  · rintro h ⟨pos, hp, p, hmem, j, hj, hne⟩
    obtain ⟨pos', hu, -⟩ := h.success_iff.mp (hsuccess.mpr ⟨pos, hp⟩)
    exact hne (((hu p hmem j).mp hj).trans ((hu p hmem _).mp (hp.1 p hmem).1).symm)
  · intro h
    refine ⟨hsuccess.trans ⟨?_, ?_⟩, fun hf => ?_, fun text ht => ?_, fun pairs' hp => ?_, ?_⟩
    · rintro ⟨pos, hp⟩
      refine ⟨pos, fun p hm j => ⟨fun hj => ?_, ?_⟩, hp.2⟩
      · by_contra hne
        exact h ⟨pos, hp, p, hm, j, hj, hne⟩
      · rintro rfl; exact (hp.1 p hm).1
    · rintro ⟨pos, hu, ha⟩
      refine ⟨pos, fun p hm => ⟨(hu p hm _).mpr rfl, fun j hj => ?_⟩, ha⟩
      rw [(hu p hm j).mp hj]
      exact ⟨le_rfl, Nat.lt_add_of_pos_right (length_pos_of_ne_nil (hold p hm))⟩
    · rw [multiStrReplace_success] at hf; simpa using hf
    · obtain ⟨pos, hp, rfl⟩ := hsome.mp ht
      have hm := sortBy_perm byStart (pairs.map (spanAt pos))
      refine ⟨pos, _, fun p h => (hp.1 p h).1, hm, substituted_spliceSpans (fun _ _ => zero_le _)
        ((overlapping_eq_none (sortBy_byStart _)).mp
          ((overlapping_sortBy (spanAt_pos hold pos)).mpr hp.2)) fun s hs => ?_⟩
      obtain ⟨p, hmem, rfl⟩ := mem_map.mp (hm.mem_iff.mp hs)
      exact ⟨spanAt_pos hold pos _ (hm.mem_iff.mp hs), rfl, (hp.1 p hmem).1⟩
    · refine Option.ext fun text => ⟨fun ht => ?_, multiStrReplace_perm hold relPath dryRun hp⟩
      exact multiStrReplace_perm (fun p h => hold p (hp.mem_iff.mp h)) relPath dryRun hp.symm ht
    · rintro p rfl
      unfold strReplace multiStrReplace resolveSpans
      rcases matchIndices p.1 0 0 source with _ | ⟨i, _ | ⟨j, l⟩⟩
      · exact ⟨rfl, rfl⟩
      · refine ⟨rfl, ?_⟩; simp [resolveSpans, sortBy, overlapping, spliceSpans]
      · exact ⟨rfl, rfl⟩

end Whole

/-- In `aaa` the string `aa` has two places, and the edit takes the first. -/
theorem hidden_occurrence_replaced :
    ¬ Simultaneous "aaa".toList [("aa".toList, "b".toList)] "f" "f" false := by
  intro h
  obtain ⟨pos, hu, -⟩ := h.success_iff.mp (by decide)
  have hu := hu _ (mem_singleton_self _)
  exact absurd (((hu 0).mp ⟨['a'], rfl⟩).trans ((hu 1).mp ⟨[], rfl⟩).symm) (by decide)

/-- `y` is replaced by two letters and `x` by none. -/
def twoPairs : List (List Char × List Char) :=
  [("y".toList, "xx".toList), ("x".toList, [])]

theorem simultaneous_unhidden : Simultaneous "xaby".toList twoPairs "f" "f" false := by
  refine (simultaneous_iff (by decide) _ _ _).mpr ?_
  rintro ⟨pos, hp, p, hm, j, hj, hne⟩
  obtain ⟨k, hf, hone⟩ : ∃ k, FirstOnly "xaby".toList p.1 k ∧ p.1.length = 1 := by
    rcases mem_pair.mp hm with rfl | rfl
    · exact ⟨3, (matchIndices_eq_singleton (by decide)).mp (by decide), rfl⟩
    · exact ⟨0, (matchIndices_eq_singleton (by decide)).mp (by decide), rfl⟩
  have hj' := hf.2 j hj
  have hpos := hf.2 _ (hp.1 p hm).1
  exact hne (by omega)

end TraceDecay.Edit
