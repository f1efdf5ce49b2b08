import TraceDecay.Lib.TextLines

/-!
# Edit.Preview

The diff a dry run shows: one hunk around the lines in which two texts differ. The lines are
compared without their endings, so the hunk says nothing of a line ending that changes:
`preview_shows_edit_iff` tells exactly when the hunk still makes the one text of the other.
-/

namespace TraceDecay.Edit

open TextLines List

/-! ## The preview -/

inductive Mark where
  | context
  | removed
  | added

def Mark.sign : Mark → Char
  | .context => ' '
  | .removed => '-'
  | .added => '+'

def Mark.isOld : Mark → Bool
  | .added => false
  | _ => true

def Mark.isNew : Mark → Bool
  | .removed => false
  | _ => true

structure Hunk where
  (start oldCount newCount : Nat)
  body : List (Mark × List Char)

def Hunk.render (h : Hunk) : List (List Char) :=
  s!"@@ -{h.start},{h.oldCount} +{h.start},{h.newCount} @@".toList ::
    h.body.map fun l => l.1.sign :: l.2

variable (old new : List (List Char))

def commonPrefix : List (List Char) → List (List Char) → Nat
  | a :: old, b :: new => if a = b then commonPrefix old new + 1 else 0
  | _, _ => 0

/-- The common last lines, none of them among the common first ones. -/
def commonSuffix : Nat :=
  let shared := commonPrefix old new
  commonPrefix (old.drop shared).reverse (new.drop shared).reverse

/-- The hunk of `bounded_region_diff`; the sums do not come near the range of `usize`. -/
def regionHunk (context : Nat) : Hunk :=
  let shared := commonPrefix old new
  let oldChangeEnd := old.length - commonSuffix old new
  let newChangeEnd := new.length - commonSuffix old new
  let contextStart := shared - context
  let oldContextEnd := min (oldChangeEnd + context) old.length
  let newContextEnd := min (newChangeEnd + context) new.length
  { start := contextStart + 1
    oldCount := oldContextEnd - contextStart
    newCount := newContextEnd - contextStart
    body := ((old.take shared).drop contextStart).map (.context, ·) ++
      ((old.take oldChangeEnd).drop shared).map (.removed, ·) ++
      ((new.take newChangeEnd).drop shared).map (.added, ·) ++
      ((new.take newContextEnd).drop newChangeEnd).map (.context, ·) }

def boundedRegionDiff (original modified : List Char) (context maxLines : Nat) : List Char :=
  if original = modified then "(no changes)".toList
  else
    let out := (regionHunk (lines original) (lines modified) context).render
    join (if maxLines < out.length then out.take maxLines ++
      [s!"... diff truncated ({out.length - maxLines} more line(s))".toList] else out)

/-! ## Applying a hunk -/

/-- A line, and whether a carriage return stands before its line feed. -/
abbrev EndedLine := List Char × Bool

def endedLines (text : List Char) : List EndedLine :=
  (pieces text).map fun p => (lineOf p, decide (EndsCrlf p))

def ended (l : EndedLine) : List Char := l.1 ++ if l.2 then ['\r', '\n'] else ['\n']

/-- The text of the lines, the last of them closed or not. -/
def assemble (closed : Bool) : List EndedLine → List Char
  | [] => []
  | [l] => if closed then ended l else l.1
  | l :: k :: ls => ended l ++ assemble closed (k :: ls)

/-- Lines that stay keep their endings, a new line ends in a line feed. -/
def patch : List (Mark × List Char) → List EndedLine → Option (List EndedLine)
  | [], ls => some ls
  | (.added, l) :: body, ls => (patch body ls).map ((l, false) :: ·)
  | (.context, l) :: body, k :: ls => if k.1 = l then (patch body ls).map (k :: ·) else none
  | (.removed, l) :: body, k :: ls => if k.1 = l then patch body ls else none
  | _ :: _, [] => none

/-- No line feed is missing at the end. -/
def finished (text : List Char) : Bool := text = [] || text.getLast? = some '\n'

def Hunk.apply (h : Hunk) (text : List Char) : Option (List Char) :=
  (patch h.body ((endedLines text).drop (h.start - 1))).map fun ls =>
    assemble (finished text) ((endedLines text).take (h.start - 1) ++ ls)

/-- The preview is its whole hunk, and the hunk is the edit. -/
structure ShowsEdit (original modified : List Char) (context maxLines : Nat) (h : Hunk) : Prop where
  printed : boundedRegionDiff original modified context maxLines = join h.render
  nonempty : h.body ≠ []
  oldCount : h.oldCount = h.body.countP (·.1.isOld)
  newCount : h.newCount = h.body.countP (·.1.isNew)
  applied : h.apply original = some modified

/-- The endings the hunk stands for: those of the original for the common lines, and line feeds. -/
def shownEndings (original modified : List Char) : List Bool :=
  let old := lines original
  let new := lines modified
  let shared := commonPrefix old new
  let suffix := commonSuffix old new
  (((endedLines original).take shared).map (·.2)) ++
    (replicate (new.length - suffix - shared) false ++
      ((endedLines original).drop (old.length - suffix)).map (·.2))

/-- The modified text has the endings the hunk stands for, and ends as the original does. -/
structure SameEndings (original modified : List Char) : Prop where
  finish : modified ≠ [] → (finished original = true ↔ modified.getLast? = some '\n')
  lines : ∀ e ∈ (shownEndings original modified).zip (pieces modified),
    e.2.getLast? = some '\n' → (EndsCrlf e.2 ↔ e.1 = true)

/-! ## What the hunk is -/

theorem commonPrefix_split : ∃ pre o n, old = pre ++ o ∧ new = pre ++ n ∧
    commonPrefix old new = pre.length := by
  fun_induction commonPrefix old new with
  | case1 old b new ih =>
    obtain ⟨pre, o, n, rfl, rfl, h⟩ := ih
    exact ⟨b :: pre, o, n, rfl, rfl, by rw [h]; rfl⟩
  | case2 | case3 => exact ⟨[], _, _, rfl, rfl, rfl⟩

theorem region_split : ∃ pre o n suf, old = pre ++ (o ++ suf) ∧ new = pre ++ (n ++ suf) ∧
    commonPrefix old new = pre.length ∧ commonSuffix old new = suf.length := by
  obtain ⟨pre, o, n, rfl, rfl, h⟩ := commonPrefix_split old new
  obtain ⟨suf, o', n', ho, hn, hs⟩ := commonPrefix_split o.reverse n.reverse
  refine ⟨pre, o'.reverse, n'.reverse, suf.reverse, ?_, ?_, h, ?_⟩
  · rw [← reverse_append, ← ho, reverse_reverse]
  · rw [← reverse_append, ← hn, reverse_reverse]
  · simp [commonSuffix, h, hs]

theorem regionHunk_eq {pre o n suf : List (List Char)} {context : Nat}
    (hp : commonPrefix (pre ++ (o ++ suf)) (pre ++ (n ++ suf)) = pre.length)
    (hs : commonSuffix (pre ++ (o ++ suf)) (pre ++ (n ++ suf)) = suf.length) :
    regionHunk (pre ++ (o ++ suf)) (pre ++ (n ++ suf)) context =
      ⟨pre.length - context + 1, min context pre.length + o.length + min context suf.length,
        min context pre.length + n.length + min context suf.length,
        (pre.drop (pre.length - context)).map (.context, ·) ++ o.map (.removed, ·) ++
          n.map (.added, ·) ++ (suf.take context).map (.context, ·)⟩ := by
  have hend : ∀ l : List (List Char),
      pre.length + (l.length + suf.length) - suf.length = pre.length + l.length := by
    intro l; omega
  have hmid : ∀ l : List (List Char),
      ((pre ++ (l ++ suf)).take (pre.length + l.length)).drop pre.length = l := by
    intro l
    rw [take_length_add_append, take_left, drop_left]
  have hlast : ((pre ++ (n ++ suf)).take (min (pre.length + n.length + context)
      (pre.length + (n.length + suf.length)))).drop (pre.length + n.length) = suf.take context := by
    rw [drop_take, drop_length_add_append, drop_left, take_eq_take_iff]; omega
  simp only [regionHunk, hp, hs, length_append, hend, hmid, hlast, take_left, Hunk.mk.injEq]
  exact ⟨trivial, by omega, by omega, trivial⟩

/-! ## What the hunk makes of the original -/

section Patching

variable (ks ls : List EndedLine) (body : List (Mark × List Char))

theorem patch_context : patch (ks.map (fun k => (.context, k.1)) ++ body) (ks ++ ls) =
    (patch body ls).map (ks ++ ·) := by
  induction ks with
  | nil => simp
  | cons k ks ih => simp [patch, ih, Function.comp_def]

theorem patch_removed :
    patch (ks.map (fun k => (.removed, k.1)) ++ body) (ks ++ ls) = patch body ls := by
  induction ks with
  | nil => rfl
  | cons k ks ih => simp [patch, ih]

theorem patch_added (ns : List (List Char)) : patch (ns.map (.added, ·) ++ body) ls =
    (patch body ls).map (ns.map (·, false) ++ ·) := by
  induction ns with
  | nil => simp
  | cons k ns ih => simp [patch, ih, Function.comp_def]

end Patching

theorem ended_append_iff {p : List Char} (h : p.getLast? = some '\n') (b : Bool) (x y : List Char) :
    ended (lineOf p, b) ++ x = p ++ y ↔ (EndsCrlf p ↔ b = true) ∧ x = y := by
  have hu : unify p = lineOf p ++ ['\n'] := if_pos h
  obtain ⟨hn, hp⟩ | ⟨t, rfl, hp⟩ := unify_cases p
  · rw [hu] at hp
    nth_rewrite 2 [← hp]
    cases b <;> simp [ended, hn]
  · rw [hu] at hp
    have hc : EndsCrlf (t ++ ['\r', '\n']) := suffix_append _ _
    rw [append_cancel_right hp]
    cases b <;> simp [ended, hc]

/-- Lines with some endings are the text of the pieces they are taken from exactly when the endings
are those of the pieces. -/
theorem assemble_eq_iff {ps : List (List Char)} (hcut : Cut ps) (closed : Bool)
    {ls : List EndedLine} (h : ls.map (·.1) = ps.map lineOf) : assemble closed ls = ps.flatten ↔
      (ps ≠ [] → (closed = true ↔ ps.flatten.getLast? = some '\n')) ∧
        ∀ e ∈ (ls.map (·.2)).zip ps, e.2.getLast? = some '\n' → (EndsCrlf e.2 ↔ e.1 = true) := by
  induction hcut generalizing ls with
  | nil => obtain rfl := map_eq_nil_iff.mp h; simp [assemble]
  | @tail body _ hb =>
    obtain ⟨l, ls, rfl, hl, hls⟩ := map_eq_cons_iff.mp h
    obtain rfl := map_eq_nil_iff.mp hls
    have hlast : body.getLast? ≠ some '\n' := fun h => hb (mem_of_getLast? h)
    rw [lineOf_open hb] at hl
    cases closed with
    | false => simp [assemble, hl, hlast]
    | true =>
      have hne : ended l ≠ body := by
        rintro rfl
        cases hl' : l.2 <;> simp [ended, hl'] at hb
      simp [assemble, hne, hlast]
  | @line body ps hb hcut ih =>
    obtain ⟨⟨line, crlf⟩, ls, rfl, hl, hls⟩ := map_eq_cons_iff.mp h
    obtain rfl : line = _ := hl
    have hlast : (body ++ ['\n']).getLast? = some '\n' := by simp
    cases ps with
    | nil =>
      obtain rfl := map_eq_nil_iff.mp hls
      have hone := ended_append_iff hlast crlf [] []
      have hne : lineOf (body ++ ['\n']) ≠ body ++ ['\n'] := by
        intro heq
        have hlen := congrArg length heq
        rw [lineOf_closed, stripSuffix] at hlen
        split at hlen <;> simp at hlen
      cases closed with
      | false => simp [assemble, hne, -lineOf_closed]
      | true => simpa [assemble, -lineOf_closed] using hone
    | cons p ps =>
      obtain ⟨k, ls, rfl, -, -⟩ := map_eq_cons_iff.mp hls
      have hf : (p :: ps).flatten ≠ [] := by simp [hcut.ne_nil p mem_cons_self]
      rw [assemble, flatten_cons, ended_append_iff hlast, ih hls, getLast?_append_of_ne_nil _ hf]
      simp only [map_cons, zip_cons_cons, forall_mem_cons, hlast, ne_eq, reduceCtorEq,
        not_false_eq_true, forall_const]
      exact and_left_comm

variable (original modified : List Char)

theorem map_fst_endedLines : (endedLines original).map (·.1) = lines original := by
  simp [endedLines, lines, Function.comp_def]

theorem assemble_endedLines : assemble (finished original) (endedLines original) = original := by
  have hiff := assemble_eq_iff (pieces_cut original) (finished original)
    (map_fst_endedLines original)
  rw [flatten_pieces] at hiff
  refine hiff.mpr ⟨fun hne => ?_, fun e he _ => ?_⟩
  · have : original ≠ [] := by
      rintro rfl; exact hne rfl
    simp [finished, this]
  · rw [endedLines, map_map, zip_map_left, zip, zipWith_self, map_map] at he
    obtain ⟨p, -, rfl⟩ := mem_map.mp he
    simp

theorem apply_regionHunk (context : Nat) : ∃ ls, ls.map (·.1) = lines modified ∧
    ls.map (·.2) = shownEndings original modified ∧
    (regionHunk (lines original) (lines modified) context).apply original =
      some (assemble (finished original) ls) := by
  obtain ⟨pre, o, n, suf, ho, hn, hp, hs⟩ := region_split (lines original) (lines modified)
  obtain ⟨P, R, hP, rfl, hR⟩ := map_eq_append_iff.mp ((map_fst_endedLines original).trans ho)
  obtain ⟨O, S, rfl, rfl, rfl⟩ := map_eq_append_iff.mp hR
  refine ⟨P ++ (n.map (·, false) ++ S), ?_, ?_, ?_⟩
  · simp [hn, Function.comp_def]
  · have hnew : (lines modified).length - S.length - P.length = n.length := by
      rw [hn]
      simp
      omega
    have hold : (lines original).length - S.length = P.length + O.length := by
      rw [ho]
      simp
      omega
    simp only [shownEndings, hp, hs, hP, length_map, hnew, hold, take_left, drop_length_add_append,
      drop_left]
    simp [Function.comp_def, map_const']
  · rw [ho, hn] at hp hs ⊢
    have hc : P.length - context ≤ P.length := Nat.sub_le _ _
    have hend := patch_context (S.take context) (S.drop context) []
    rw [take_append_drop, append_nil] at hend
    rw [regionHunk_eq hp hs, Hunk.apply, hP]
    simp only [length_map, Nat.add_sub_cancel, drop_append_of_le_length hc,
      take_append_of_le_length hc, ← map_drop, ← map_take, map_map, append_assoc,
      Function.comp_def]
    rw [patch_context, patch_removed, patch_added, hend]
    simp only [patch, Option.map_some, take_append_drop]
    rw [← append_assoc, take_append_drop]

theorem regionHunk_counts (context : Nat) :
    (regionHunk old new context).oldCount = (regionHunk old new context).body.countP (·.1.isOld) ∧
      (regionHunk old new context).newCount =
        (regionHunk old new context).body.countP (·.1.isNew) := by
  obtain ⟨pre, o, n, suf, rfl, rfl, hp, hs⟩ := region_split old new
  rw [regionHunk_eq hp hs]
  simp only [countP_append, countP_map, Function.comp_def, Mark.isOld, Mark.isNew, countP_true,
    countP_false, Function.const_apply, length_drop, length_take]
  omega

/-- The preview of two different texts, printed in full, shows the edit exactly when the edit keeps
the endings of the lines it does not change, ends its new lines in line feeds, and keeps the end of
the file. -/
theorem preview_shows_edit_iff (context maxLines : Nat) (hne : original ≠ modified)
    (hcap : (regionHunk (lines original) (lines modified) context).render.length ≤ maxLines) :
    ShowsEdit original modified context maxLines
        (regionHunk (lines original) (lines modified) context) ↔
      SameEndings original modified := by
  obtain ⟨ls, hfst, hsnd, happly⟩ := apply_regionHunk original modified context
  have hiff := assemble_eq_iff (pieces_cut modified) (finished original) hfst
  rw [flatten_pieces, hsnd] at hiff
  have hnil : pieces modified ≠ [] ↔ modified ≠ [] := by
    refine not_congr ⟨fun h => ?_, fun h => ?_⟩
    · rw [← flatten_pieces modified, h]; rfl
    · rw [h]; rfl
  rw [hnil] at hiff
  constructor
  · intro h
    have heq := happly.symm.trans h.applied
    obtain ⟨hf, hl⟩ := hiff.mp (Option.some.inj heq)
    exact ⟨hf, hl⟩
  · rintro ⟨hf, hl⟩
    have happlied := happly.trans (congrArg some (hiff.mpr ⟨hf, hl⟩))
    obtain ⟨ho, hn⟩ := regionHunk_counts (lines original) (lines modified) context
    refine ⟨?_, fun hnone => hne ?_, ho, hn, happlied⟩
    · simp only [boundedRegionDiff, if_neg hne, if_neg (not_lt.mpr hcap)]
    · -- a hunk without lines leaves the original
      rw [Hunk.apply, hnone, patch, Option.map_some, take_append_drop, assemble_endedLines]
        at happlied
      exact Option.some.inj happlied

/-- A line feed put at the end of the file does not show. -/
theorem final_newline_not_shown : ("a".toList ≠ "a\n".toList ∧
      (regionHunk (lines "a".toList) (lines "a\n".toList) 3).render.length ≤ 200) ∧
    ¬ ShowsEdit "a".toList "a\n".toList 3 200
      (regionHunk (lines "a".toList) (lines "a\n".toList) 3) := by
  refine ⟨by decide, fun h => absurd h.applied (by decide)⟩

theorem changed_line_shown : ShowsEdit "a\r\nb\n".toList "a\r\nc\n".toList 1 4
    (regionHunk (lines "a\r\nb\n".toList) (lines "a\r\nc\n".toList) 1) :=
  (preview_shows_edit_iff _ _ 1 4 (by decide) (by decide)).mpr ⟨by decide, by decide⟩

end TraceDecay.Edit
