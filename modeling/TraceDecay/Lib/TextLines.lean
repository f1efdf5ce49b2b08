import Mathlib.Data.List.Infix

/-!
# Lib.TextLines

Text cut into lines that keep their endings. `pieces` cuts behind every line feed and loses
nothing; `lines` drops the endings, a line feed or a carriage return and a line feed. What is lost
with them is which of the two each line had: `unify` is a piece with its ending replaced by a line
feed, and joining lines gives back unified pieces.
-/

namespace TextLines

open List

/-- The text cut behind each line feed. -/
def pieces : List Char → List (List Char)
  | [] => []
  | c :: cs =>
    if c = '\n' then [c] :: pieces cs
    else
      match pieces cs with
      | [] => [[c]]
      | p :: ps => (c :: p) :: ps

def stripSuffix (c : Char) (s : List Char) : List Char :=
  if s.getLast? = some c then s.dropLast else s

variable (p : List Char)

/-- A piece without its line ending. -/
def lineOf : List Char :=
  if p.getLast? = some '\n' then stripSuffix '\r' p.dropLast else p

variable (s : List Char)

def lines : List (List Char) := (pieces s).map lineOf

/-- A piece with a line feed for its line ending. -/
def unify : List Char :=
  if p.getLast? = some '\n' then lineOf p ++ ['\n'] else p

/-- A piece that ends in a carriage return and a line feed. -/
def EndsCrlf : Prop := ['\r', '\n'] <:+ p

instance (p : List Char) : Decidable (EndsCrlf p) := inferInstanceAs (Decidable (_ <:+ _))

/-- Lines behind each other, cut at every line feed: only the last may be open. -/
inductive Cut : List (List Char) → Prop where
  | nil : Cut []
  | tail {body : List Char} : body ≠ [] → '\n' ∉ body → Cut [body]
  | line {body : List Char} {ps : List (List Char)} :
      '\n' ∉ body → Cut ps → Cut ((body ++ ['\n']) :: ps)

/-- A piece that ends in the only line feed it has. -/
def Closed : Prop := ∃ body, p = body ++ ['\n'] ∧ '\n' ∉ body

theorem flatten_pieces : (pieces s).flatten = s := by
  induction s with
  | nil => rfl
  | cons c cs ih =>
    unfold pieces
    split
    · rw [flatten_cons, ih]; rfl
    split
    · next h =>
      rw [h] at ih
      rw [← ih]; rfl
    · next h =>
      rw [h] at ih
      rw [← ih]; rfl

theorem pieces_cut : Cut (pieces s) := by
  induction s with
  | nil => exact .nil
  | cons c cs ih =>
    unfold pieces
    split
    · next hc =>
      subst hc
      have he : Cut (([] ++ ['\n']) :: pieces cs) := .line (by simp) ih
      exact he
    next hc =>
    -- the character joins the first piece, or is a piece of its own
    generalize pieces cs = ps at ih
    cases ih with
    | nil => exact .tail (by simp) (by simp [Ne.symm hc])
    | tail _ hb => exact .tail (by simp) (by simp [Ne.symm hc, hb])
    | @line body ps hb hps =>
      have hl : Cut ((c :: body ++ ['\n']) :: ps) := .line (by simp [Ne.symm hc, hb]) hps
      exact hl

theorem length_lines : (lines s).length = (pieces s).length := length_map _

variable {ps qs : List (List Char)}

theorem Cut.append (h : Cut (ps ++ qs)) : Cut ps ∧ Cut qs ∧ (qs ≠ [] → ∀ p ∈ ps, Closed p) := by
  induction ps with
  | nil => exact ⟨.nil, h, by simp⟩
  | cons p ps ih =>
    generalize hr : ps ++ qs = rest
    rw [cons_append, hr] at h
    cases h with
    | tail hne hb =>
      obtain ⟨rfl, rfl⟩ := append_eq_nil_iff.mp hr
      exact ⟨.tail hne hb, .nil, fun h => absurd rfl h⟩
    | line hb hcut =>
      obtain ⟨hps, hqs, hclosed⟩ := ih (hr ▸ hcut)
      exact ⟨.line hb hps, hqs, fun hne => forall_mem_cons.mpr ⟨⟨_, rfl, hb⟩, hclosed hne⟩⟩

theorem Cut.ne_nil (h : Cut ps) : ∀ p ∈ ps, p ≠ [] := by
  induction h with
  | nil => simp
  | tail hne _ => simpa using hne
  | line _ _ ih => simpa using ih

theorem unify_of_not_closed {p : List Char} (h : '\n' ∉ p) : unify p = p :=
  if_neg fun hl => h (mem_of_getLast? hl)

@[simp] theorem lineOf_closed (body : List Char) :
    lineOf (body ++ ['\n']) = stripSuffix '\r' body := by
  simp [lineOf]

@[simp] theorem unify_closed (body : List Char) :
    unify (body ++ ['\n']) = stripSuffix '\r' body ++ ['\n'] := by
  simp [unify]

theorem lineOf_open {body : List Char} (h : '\n' ∉ body) : lineOf body = body :=
  if_neg fun hl => h (mem_of_getLast? hl)

theorem unify_cases :
    (¬ EndsCrlf p ∧ unify p = p) ∨ ∃ t, p = t ++ ['\r', '\n'] ∧ unify p = t ++ ['\n'] := by
  by_cases hl : p.getLast? = some '\n'
  · obtain ⟨body, rfl⟩ := getLast?_eq_some_iff.mp hl
    by_cases hreturn : body.getLast? = some '\r'
    · obtain ⟨t, rfl⟩ := getLast?_eq_some_iff.mp hreturn
      refine .inr ⟨t, by simp, ?_⟩
      rw [unify_closed]; simp [stripSuffix]
    · refine .inl ⟨?_, by simp [stripSuffix, hreturn]⟩
      rintro ⟨t, ht⟩
      have hb : body = t ++ ['\r'] := by
        have : t ++ ['\r'] ++ ['\n'] = body ++ ['\n'] := by simpa using ht
        exact (append_cancel_right this).symm
      rw [hb] at hreturn; simp at hreturn
  · refine .inl ⟨?_, if_neg hl⟩; rintro ⟨t, rfl⟩; simp at hl

theorem map_unify (h : ∀ p ∈ ps, ¬ EndsCrlf p) : ps.map unify = ps := by
  refine (map_congr_left fun p hp => ?_).trans (map_id ps)
  obtain ⟨-, hp'⟩ | ⟨t, rfl, -⟩ := unify_cases p
  · exact hp'
  · exact absurd (suffix_append t _) (h _ hp)

/-- Pieces stand in front of a text that begins with them unified only if they are unified. -/
theorem not_endsCrlf_of_prefix {rest : List Char}
    (h : ps.flatten <+: (ps.map unify).flatten ++ rest) : ∀ p ∈ ps, ¬ EndsCrlf p := by
  induction ps with
  | nil => simp
  | cons p ps ih =>
    rw [flatten_cons, map_cons, flatten_cons, append_assoc] at h
    obtain ⟨hp, hsame⟩ | ⟨t, rfl, hu⟩ := unify_cases p
    · rw [hsame] at h; exact forall_mem_cons.mpr ⟨hp, ih ((prefix_append_right_inj p).mp h)⟩
    · rw [hu, append_assoc, append_assoc, prefix_append_right_inj] at h; simp at h

theorem exists_eq_append_lf (h : ∀ p ∈ ps, Closed p) :
    ∃ f, '\n' :: (ps.map unify).flatten = f ++ ['\n'] := by
  rcases eq_nil_or_concat ps with rfl | ⟨init, p, rfl⟩
  · exact ⟨[], rfl⟩
  · obtain ⟨body, rfl, -⟩ := h p (by simp)
    refine ⟨'\n' :: (init.map unify).flatten ++ stripSuffix '\r' body, ?_⟩
    simp

/-- Pieces stand at the end of a text that ends with them unified, behind a line feed, only if
they are unified. -/
theorem not_endsCrlf_of_suffix (hcut : Cut ps) {f : List Char}
    (h : ps.flatten <:+ f ++ '\n' :: (ps.map unify).flatten) : ∀ p ∈ ps, ¬ EndsCrlf p := by
  induction ps using List.reverseRecOn with
  | nil => simp
  | append_singleton ps p ih =>
    obtain ⟨x, hx⟩ := h
    simp only [flatten_append, map_append, flatten_singleton, map_cons, map_nil] at hx
    obtain ⟨hp, hsame⟩ | ⟨t, rfl, hu⟩ := unify_cases p
    · rw [hsame, ← append_assoc, ← cons_append, ← append_assoc] at hx
      exact forall_mem_append.mpr ⟨ih hcut.append.1 ⟨x, append_cancel_right hx⟩,
        forall_mem_singleton.mpr hp⟩
    · -- the line feed before the line is where the line itself would have to begin
      obtain ⟨g, hg⟩ := exists_eq_append_lf (hcut.append.2.2 (by simp))
      have hle : '\n' ∉ t := by
        have hl := hcut.append.2.1
        generalize hp : t ++ ['\r', '\n'] = p at hl
        cases hl with
        | tail _ hb => exact absurd (by simp [← hp]) hb
        | @line body _ hb _ =>
          have hb' : t ++ ['\r'] = body :=
            append_cancel_right (by simpa using hp : (t ++ ['\r']) ++ ['\n'] = body ++ ['\n'])
          intro ht; exact hb (by simp [← hb', ht])
      have hcut : (x ++ ps.flatten) ++ (t ++ ['\r']) = (f ++ g) ++ ('\n' :: t) := by
        rw [hu, ← cons_append, hg] at hx
        have hx' : ((x ++ ps.flatten) ++ (t ++ ['\r'])) ++ ['\n'] =
            ((f ++ g) ++ ('\n' :: t)) ++ ['\n'] := by simpa using hx
        exact append_cancel_right hx'
      have hsame : t ++ ['\r'] = '\n' :: t := append_inj_right' hcut (by simp)
      cases t with
      | nil => simp at hsame
      | cons c t => exact absurd ((List.cons.inj hsame).1 ▸ mem_cons_self) hle

/-! ## Joining lines -/

/-- Lines with line feeds between them. -/
def join (ls : List (List Char)) : List Char := ['\n'].intercalate ls

theorem join_append_cons (ls : List (List Char)) (l : List Char) (ms : List (List Char)) :
    join (ls ++ l :: ms) =
      (ls.map (· ++ ['\n'])).flatten ++ (l ++ (ms.map ('\n' :: ·)).flatten) := by
  have hms : ∀ (l : List Char) (ms : List (List Char)),
      join (l :: ms) = l ++ (ms.map ('\n' :: ·)).flatten := by
    intro l ms
    induction ms generalizing l with
    | nil => simp [join]
    | cons m ms ih => have := ih m; simp only [join, intercalate_cons_cons] at this ⊢; simp [this]
  induction ls with
  | nil => exact hms l ms
  | cons k ls ih =>
    have hc : join (k :: (ls ++ l :: ms)) = k ++ '\n' :: join (ls ++ l :: ms) := by
      obtain ⟨y, ys, hy⟩ := exists_cons_of_ne_nil (by simp : ls ++ l :: ms ≠ [])
      rw [hy]; simp [join]
    rw [cons_append, hc, ih]; simp

/-- Closed lines, each with a line feed behind it again. -/
theorem flatten_lineOf_closed (h : ∀ p ∈ ps, Closed p) :
    (ps.map fun p => lineOf p ++ ['\n']).flatten = (ps.map unify).flatten := by
  refine congrArg List.flatten (map_congr_left fun p hp => ?_)
  obtain ⟨body, rfl, -⟩ := h p hp
  simp

/-- Lines with a line feed before each, and one behind the last if it had one. -/
theorem flatten_lineOf_cut (h : Cut ps) (hne : ps ≠ []) :
    (ps.map fun p => '\n' :: lineOf p).flatten ++
        (if ps.flatten.getLast? = some '\n' then ['\n'] else []) =
      '\n' :: (ps.map unify).flatten := by
  induction h with
  | nil => exact absurd rfl hne
  | tail _ hb =>
    have hl : _ ≠ some '\n' := fun hl => hb (mem_of_getLast? hl)
    simp [lineOf_open hb, unify_of_not_closed hb, hl]
  | @line body ps hb hcut ih =>
    by_cases hps : ps = []
    · subst hps; simp
    have hf : ps.flatten ≠ [] := by
      obtain ⟨p, rest, rfl⟩ := exists_cons_of_ne_nil hps
      simp [hcut.ne_nil p mem_cons_self]
    have hl : ((body ++ ['\n']) :: ps).flatten.getLast? = ps.flatten.getLast? := by
      rw [flatten_cons, getLast?_append_of_ne_nil _ hf]
    rw [hl, map_cons, flatten_cons, append_assoc, ih hps]; simp

end TextLines
