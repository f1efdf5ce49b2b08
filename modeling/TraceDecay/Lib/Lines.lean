import Mathlib.Data.List.Basic

/-!
# Lib.Lines

Cutting a list at a separator. `lines sep s` are the pieces of `s` that end in a separator,
followed by the unterminated tail when it is not empty. A streaming reader needs two equations:
`lines_append_sep` for a finished piece and `lines_of_not_mem` for the tail. `splitOnce pattern s`
cuts at the first occurrence of a pattern only.
-/

namespace Lines

open List

universe u

variable {α : Type u} [BEq α] [LawfulBEq α]

/-- The pieces of `s` between separators, without the empty piece after a last separator. -/
def lines (sep : α) (s : List α) : List (List α) :=
  if (s.splitOn sep).getLast? == some [] then (s.splitOn sep).dropLast else s.splitOn sep

variable {body s p : List α} {sep c : α}

theorem lines_append_sep (h : sep ∉ body) (rest : List α) :
    lines sep (body ++ sep :: rest) = body :: lines sep rest := by
  have hne : rest.splitOn sep ≠ [] := splitOn_ne_nil sep rest
  obtain ⟨hd, tail, hcons⟩ := exists_cons_of_ne_nil hne
  unfold lines
  rw [splitOn_append_cons_self_of_not_mem h, hcons, getLast?_cons_cons]
  split
  · rw [dropLast_cons_of_ne_nil (by simp)]
  · rfl

theorem lines_of_not_mem (h : sep ∉ body) : lines sep body = if body == [] then [] else [body] := by
  unfold lines
  rw [splitOn_eq_singleton h]; rfl

theorem lines_nil (sep : α) : lines sep ([] : List α) = [] := by
  rw [lines_of_not_mem (by simp)]; rfl

/-- What stands before and after the first occurrence of a pattern. -/
def splitOnce (pattern : List α) : List α → Option (List α × List α)
  | [] => if pattern.isEmpty then some ([], []) else none
  | c :: s =>
    match (c :: s).dropPrefix? pattern with
    | some after => some ([], after)
    | none => (splitOnce pattern s).map fun parts => (c :: parts.1, parts.2)

theorem dropPrefix?_eq_some {after : List α} : s.dropPrefix? p = some after ↔ s = p ++ after := by
  simp [dropPrefix?_eq_some_iff]

theorem eq_of_splitOnce {b a : List α} (h : splitOnce p s = some (b, a)) : s = b ++ (p ++ a) := by
  induction s generalizing b with
  | nil =>
    simp only [splitOnce, Option.ite_none_right_eq_some, List.isEmpty_iff, Option.some.injEq,
      Prod.mk.injEq] at h
    obtain ⟨rfl, rfl, rfl⟩ := h
    rfl
  | cons c s ih =>
    unfold splitOnce at h
    split at h
    · next hd =>
      cases h
      rw [nil_append]; exact dropPrefix?_eq_some.mp hd
    · obtain ⟨parts, hp, heq⟩ := Option.map_eq_some_iff.mp h
      cases heq
      rw [ih hp, cons_append]

/-- A list without the first element of the pattern ends at the pattern behind it. -/
theorem splitOnce_append {b : List α} (h : c ∉ b) (a : List α) :
    splitOnce (c :: p) (b ++ (c :: p ++ a)) = some (b, a) := by
  induction b with
  | nil =>
    rw [nil_append, cons_append, splitOnce, ← cons_append, dropPrefix?_eq_some.mpr rfl]
  | cons x b ih =>
    obtain ⟨hx, hb⟩ := not_or.mp (mem_cons.not.mp h)
    have hnone : (x :: (b ++ (c :: p ++ a))).dropPrefix? (c :: p) = none := by
      rw [Option.eq_none_iff_forall_ne_some]
      intro rest heq; exact hx (List.cons.inj (dropPrefix?_eq_some.mp heq)).1.symm
    rw [cons_append, splitOnce, hnone, ih hb]; rfl

theorem splitOnce_of_not_mem (h : c ∉ s) : splitOnce [c] s = none := by
  rw [Option.eq_none_iff_forall_ne_some]
  rintro ⟨before, after⟩ heq; exact h (eq_of_splitOnce heq ▸ by simp)

end Lines
