import Mathlib.Data.Nat.Count
import Mathlib.Data.Set.Card

/-!
# Lexical.Proximity

How often the terms of a proximity query follow one another in a document
(`proximity_count_tokens` in `lexical/projection.rs`). From each start the search goes on to the
nearest occurrence of the next term and never back, so it misses a sequence of which the nearest
occurrence is not part.
-/

namespace TraceDecay.Lexical

section Count

variable {α : Type} [DecidableEq α] (tokens : List α) (maximumGap : Nat)

/-- The nearest later occurrence of the term. -/
def nextOccurrence (term : α) (current : Nat) : Option Nat :=
  (((tokens.take (min (current + maximumGap + 2) tokens.length)).drop (current + 1)).findIdx?
    (· = term)).map (current + · + 1)

/-- The loop over the terms after the first. -/
def complete : List α → Nat → Bool
  | [], _ => true
  | term :: terms, current =>
    match nextOccurrence tokens maximumGap term current with
    | none => false
    | some next => complete terms next

/-- There is no count where the source indexes an empty list of terms. -/
def proximityCountTokens : List α → Option Nat
  | [] => if tokens = [] then some 0 else none
  | first :: terms => some ((List.range tokens.length).countP fun start =>
      tokens[start]? = some first ∧ complete tokens maximumGap terms start = true)

/-! ## Sequences -/

/-- The term stands after position `i` with at most the gap between. -/
def Within (i : Nat) (term : α) (j : Nat) : Prop :=
  i < j ∧ j ≤ i + maximumGap + 1 ∧ tokens[j]? = some term

def Nearest (i : Nat) (term : α) (j : Nat) : Prop :=
  Within tokens maximumGap i term j ∧ ∀ k, Within tokens maximumGap i term k → j ≤ k

/-- Steps of the relation lead over the terms from one position to another. -/
def Leads (R : Nat → α → Nat → Prop) : Nat → List α → Nat → Prop
  | i, [], k => i = k
  | i, term :: terms, k => ∃ j, R i term j ∧ Leads R j terms k

/-- The terms are spelled from the position on. -/
def Spells (i : Nat) (terms : List α) : Prop := ∃ k, Leads (Within tokens maximumGap) i terms k

/-- No start has a dead end that a detour avoids: where the nearest occurrences lead to a position
that the next term does not follow, the terms left are spelled from no other position that the same
terms lead to. -/
def NoDetour (first : α) (terms : List α) : Prop :=
  ∀ i before term after p q, tokens[i]? = some first → terms = before ++ term :: after →
    Leads (Nearest tokens maximumGap) i before p → (∀ j, ¬ Within tokens maximumGap p term j) →
    Leads (Within tokens maximumGap) i before q → ¬ Spells tokens maximumGap q (term :: after)

variable {tokens maximumGap} {i j : Nat} {term : α} {terms : List α}

omit [DecidableEq α] in
theorem slice_getElem? {n : Nat} :
    ((tokens.take (min (i + maximumGap + 2) tokens.length)).drop (i + 1))[n]? = some term ↔
      Within tokens maximumGap i term (i + n + 1) := by
  rw [List.getElem?_drop, List.getElem?_take, Nat.add_right_comm i 1 n, Within]
  split
  · exact ⟨fun h => ⟨by omega, by omega, h⟩, fun h => h.2.2⟩
  · refine ⟨nofun, fun ⟨_, hle, h⟩ => ?_⟩; have := (List.getElem?_eq_some_iff.mp h).1; omega

theorem nextOccurrence_eq_none :
    nextOccurrence tokens maximumGap term i = none ↔ ∀ j, ¬ Within tokens maximumGap i term j := by
  rw [nextOccurrence, Option.map_eq_none_iff, List.findIdx?_eq_none_iff]
  constructor
  · intro h j hj
    obtain ⟨n, rfl⟩ : ∃ n, j = i + n + 1 := ⟨j - i - 1, by have := hj.1; omega⟩
    have := h term (List.mem_of_getElem? (slice_getElem?.mpr hj))
    simp at this
  · intro h t ht
    obtain ⟨n, hn⟩ := List.mem_iff_getElem?.mp ht
    refine decide_eq_false fun heq => ?_
    exact h _ (slice_getElem?.mp (heq ▸ hn))

theorem nextOccurrence_nearest (h : nextOccurrence tokens maximumGap term i = some j) :
    Nearest tokens maximumGap i term j := by
  obtain ⟨n, hn, rfl⟩ := Option.map_eq_some_iff.mp h
  obtain ⟨hlt, heq, hbefore⟩ := List.findIdx?_eq_some_iff_getElem.mp hn
  refine ⟨slice_getElem?.mp (List.getElem?_eq_some_iff.mpr ⟨hlt, by simpa using heq⟩), ?_⟩
  intro k hk
  by_contra hlt'
  obtain ⟨l, rfl⟩ : ∃ l, k = i + l + 1 := ⟨k - i - 1, by have := hk.1; omega⟩
  obtain ⟨_, hl⟩ := List.getElem?_eq_some_iff.mp (slice_getElem?.mpr hk)
  exact hbefore l (by omega) (by simpa using hl)

theorem Nearest.nextOccurrence (h : Nearest tokens maximumGap i term j) :
    nextOccurrence tokens maximumGap term i = some j := by
  cases hnext : Lexical.nextOccurrence tokens maximumGap term i with
  | none => exact absurd h.1 (nextOccurrence_eq_none.mp hnext j)
  | some k =>
    have hk := nextOccurrence_nearest hnext
    rw [Nat.le_antisymm (hk.2 j h.1) (h.2 k hk.1)]

omit [DecidableEq α] in
theorem leads_append {R : Nat → α → Nat → Prop} {b a : List α} :
    Leads R i (b ++ a) j ↔ ∃ q, Leads R i b q ∧ Leads R q a j := by
  induction b generalizing i with
  | nil => simp [Leads]
  | cons term b ih =>
    simp only [List.cons_append, Leads, ih]
    exact ⟨fun ⟨k, hk, q, hq, h⟩ => ⟨q, ⟨k, hk, hq⟩, h⟩, fun ⟨q, ⟨k, hk, hq⟩, h⟩ => ⟨k, hk, q, hq, h⟩⟩

theorem spells_of_complete (h : complete tokens maximumGap terms i = true) :
    Spells tokens maximumGap i terms := by
  induction terms generalizing i with
  | nil => exact ⟨i, rfl⟩
  | cons term terms ih =>
    unfold complete at h
    split at h
    · cases h
    · next j hj =>
      obtain ⟨k, hk⟩ := ih h
      exact ⟨k, j, (nextOccurrence_nearest hj).1, hk⟩

theorem complete_eq_false : complete tokens maximumGap terms i = false ↔
    ∃ b term a p, terms = b ++ term :: a ∧
      Leads (Nearest tokens maximumGap) i b p ∧ ∀ j, ¬ Within tokens maximumGap p term j := by
  constructor
  · intro h
    induction terms generalizing i with
    | nil => cases h
    | cons term terms ih =>
      unfold complete at h
      split at h
      · next hnone => exact ⟨[], term, terms, i, rfl, rfl, nextOccurrence_eq_none.mp hnone⟩
      · next j hj =>
        obtain ⟨b, next, a, p, rfl, hp, hdead⟩ := ih h
        exact ⟨term :: b, next, a, p, rfl, ⟨j, nextOccurrence_nearest hj, hp⟩, hdead⟩
  · rintro ⟨b, term, a, p, rfl, hp, hdead⟩
    induction b generalizing i with
    | nil => cases hp; simp [complete, nextOccurrence_eq_none.mpr hdead]
    | cons next b ih => obtain ⟨j, hj, hp⟩ := hp; simpa [complete, hj.nextOccurrence] using ih hp

/-- The search from every start is exact if and only if there is no detour. -/
theorem complete_iff_spells {f : α} : NoDetour tokens maximumGap f terms ↔
    ∀ i, tokens[i]? = some f →
      (complete tokens maximumGap terms i = true ↔ Spells tokens maximumGap i terms) := by
  constructor
  · intro h i hi
    refine ⟨spells_of_complete, fun ⟨k, hk⟩ => ?_⟩
    by_contra hfalse
    rw [Bool.not_eq_true, complete_eq_false] at hfalse
    obtain ⟨before, term, after, p, rfl, hp, hdead⟩ := hfalse
    obtain ⟨q, hq, hrest⟩ := leads_append.mp hk
    exact h i before term after p q hi rfl hp hdead hq ⟨k, hrest⟩
  · rintro h i before term after p q hi rfl hp hdead hq ⟨k, hk⟩
    have htrue := (h i hi).mpr ⟨k, leads_append.mpr ⟨q, hq, hk⟩⟩
    rw [complete_eq_false.mpr ⟨before, term, after, p, rfl, hp, hdead⟩] at htrue; cases htrue

omit [DecidableEq α] in
theorem spelled_finite (f : α) (terms : List α) :
    {i | tokens[i]? = some f ∧ Spells tokens maximumGap i terms}.Finite :=
  (Finset.range tokens.length).finite_toSet.subset fun _ hi =>
    Finset.mem_coe.mpr (Finset.mem_range.mpr (List.getElem?_eq_some_iff.mp hi.1).1)

end Count

/-- The count is the number of starts from which the terms are spelled if and only if there is no
detour. -/
theorem proximity_count_exact_iff {α : Type} [DecidableEq α] (tokens : List α) (first : α)
    (terms : List α) (maximumGap : Nat) :
    proximityCountTokens tokens maximumGap (first :: terms) =
        some {i | tokens[i]? = some first ∧ Spells tokens maximumGap i terms}.ncard ↔
      NoDetour tokens maximumGap first terms := by
  let found := (Finset.range tokens.length).filter fun i =>
    tokens[i]? = some first ∧ complete tokens maximumGap terms i = true
  have hcount : proximityCountTokens tokens maximumGap (first :: terms) = some found.card := by
    rw [proximityCountTokens, ← Nat.count_eq_card_filter_range]; rfl
  have hsub : (found : Set Nat) ⊆ {i | tokens[i]? = some first ∧ Spells tokens maximumGap i terms} :=
    fun i hi => ⟨(Finset.mem_filter.mp hi).2.1, spells_of_complete (Finset.mem_filter.mp hi).2.2⟩
  rw [hcount, Option.some_inj, complete_iff_spells, ← Set.ncard_coe_finset]
  constructor
  · intro h i hi
    have heq := Set.eq_of_subset_of_ncard_le hsub h.ge (spelled_finite first terms)
    refine ⟨spells_of_complete, fun hs => ?_⟩
    have hmem : i ∈ (found : Set Nat) := heq ▸ ⟨hi, hs⟩
    exact (Finset.mem_filter.mp hmem).2.2
  · intro h
    congr 1
    refine hsub.antisymm fun i hi => Finset.mem_filter.mpr ?_
    exact ⟨Finset.mem_range.mpr (List.getElem?_eq_some_iff.mp hi.1).1, hi.1, (h i hi.1).mpr hi.2⟩

/-- The nearest `1` is a dead end, and the next one is not. -/
theorem proximity_misses_detour : proximityCountTokens [0, 1, 1, 3, 2] 1 [0, 1, 2] = some 0 ∧
    proximityCountTokens [0, 1, 1, 3, 2] 1 [0, 1, 2] ≠
      some {i | [0, 1, 1, 3, 2][i]? = some 0 ∧ Spells [0, 1, 1, 3, 2] 1 i [1, 2]}.ncard := by
  have hcount : proximityCountTokens [0, 1, 1, 3, 2] 1 [0, 1, 2] = some 0 := by decide
  have hmem : 0 ∈ {i | [0, 1, 1, 3, 2][i]? = some 0 ∧ Spells [0, 1, 1, 3, 2] 1 i [1, 2]} :=
    ⟨rfl, 4, 2, by simp [Within], 4, by simp [Within], rfl⟩
  refine ⟨hcount, fun h => ?_⟩
  rw [hcount, Option.some_inj] at h
  exact Set.ncard_ne_zero_of_mem hmem (spelled_finite 0 [1, 2]) h.symm

end TraceDecay.Lexical
