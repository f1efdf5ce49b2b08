import Mathlib.Algebra.Order.BigOperators.Group.List
import Mathlib.Tactic.Linarith
import TraceDecay.Lcm.Assembly
import TraceDecay.Lcm.Coverage

/-!
# Lcm.Tail

The units of a replay take its messages apart in order, and the tail that is kept under a cap is the
longest one of whole units that fits.
-/

namespace TraceDecay.Lcm

open List
open Domain (trim)

/-! ## Units -/

/-- The messages are the units in order, but for results that belong to no unit and calls without
content that messages follow. `more` says whether messages follow the last one. -/
inductive Units (more : Prop) : List LcmRawMessage → List (List LcmRawMessage) → Prop
  | nil : Units more [] []
  | transaction {unit rest units} : Complete unit → NoToolFirst rest → Units more rest units →
      Units more (unit ++ rest) (unit :: units)
  | single {message rest units} : Units more rest units →
      Units more (message :: rest) ([message] :: units)
  | leftOut {message rest units} : isTool message = true ∨ (toolCallIds message).isSome ∧
      trim message.content = [] ∧ (rest ≠ [] ∨ more) → Units more rest units →
      Units more (message :: rest) units

variable {unit results after : List LcmRawMessage}

theorem replayUnits_results (ht : ∀ r ∈ results, isTool r = true) :
    replayUnits (results ++ after) = replayUnits after := by
  induction results with
  | nil => rfl
  | cons r results ih =>
    obtain ⟨hr, ht⟩ := forall_mem_cons.mp ht
    have hnone : transactionLen r (results ++ after) = none := by
      refine Option.eq_none_iff_forall_not_mem.mpr fun len hlen => ?_
      simp [isTool, (transactionLen_eq_some hlen).1] at hr
    rw [cons_append, replayUnits, hnone]; simp [hr, ih ht]

theorem Complete.replayUnits_eq (h : Complete unit) (ha : NoToolFirst after) :
    replayUnits (unit ++ after) = unit :: replayUnits after := by
  obtain ⟨m, results, rfl, ht, hlen⟩ := h
  rw [cons_append, replayUnits, transactionLen_results ht ha, hlen]; simp [replayUnits_results ht]

theorem replayUnits_append (ha : NoToolFirst after) (messages : List LcmRawMessage) :
    ∃ units, replayUnits (messages ++ after) = units ++ replayUnits after ∧
      Units (after ≠ []) messages units := by
  induction hn : messages.length using Nat.strong_induction_on generalizing messages with
  | _ n ih =>
    subst hn
    cases messages with
    | nil => exact ⟨[], rfl, .nil⟩
    | cons m rest =>
      cases hlen : transactionLen m (rest ++ after) with
      | some len =>
        obtain ⟨results, others, rfl, -, hc, ho⟩ := exists_transaction ha hlen
        obtain ⟨units, hr, hu⟩ := ih others.length (by rw [length_cons, length_append]; omega) others
          rfl
        refine ⟨(m :: results) :: units, ?_, .transaction hc (ho.of_prefix (prefix_append _ _)) hu⟩
        rw [← cons_append, append_assoc, hc.replayUnits_eq ho, hr, cons_append]
      | none =>
        obtain ⟨units, hr, hu⟩ := ih rest.length (by simp) rest rfl
        rw [cons_append, replayUnits, hlen, hr]
        simp only
        split_ifs with ht hs
        · exact ⟨units, rfl, .leftOut (.inl ht) hu⟩
        · refine ⟨units, rfl, .leftOut (.inr ⟨hs.1, hs.2.1, ?_⟩) hu⟩
          simpa [← not_and_or] using hs.2.2
        · exact ⟨[m] :: units, rfl, .single hu⟩

theorem Units.sublist {more : Prop} {messages : List LcmRawMessage} {units}
    (h : Units more messages units) : units.flatten <+ messages := by
  induction h with
  | nil => exact .slnil
  | transaction _ _ _ ih => exact (Sublist.refl _).append ih
  | single _ ih => exact ih.cons_cons _
  | leftOut _ _ ih => exact ih.cons _

theorem replayUnits_units (raws : List LcmRawMessage) : Units False raws (replayUnits raws) := by
  have hnil : NoToolFirst [] := by simp [NoToolFirst]
  obtain ⟨units, h, hu⟩ := replayUnits_append hnil raws
  simp only [append_nil, replayUnits, ne_eq, not_true_eq_false] at h hu; rwa [h]

/-! ## The tail -/

theorem one_le_lcmBudgetTokens (text : List Char) : 1 ≤ lcmBudgetTokens text := le_max_right _ _

theorem lcmBudgetTokens_le_replayMessageTokens (message : LcmRawMessage) :
    lcmBudgetTokens message.content ≤ replayMessageTokens message := by
  unfold replayMessageTokens
  split
  · simp only; omega
  · exact le_refl _

theorem tokenCount_nonneg (unit : List LcmRawMessage) : 0 ≤ tokenCount unit := by
  refine sum_nonneg fun t ht => ?_
  obtain ⟨message, -, rfl⟩ := mem_map.mp ht
  linarith [lcmBudgetTokens_le_replayMessageTokens message, one_le_lcmBudgetTokens message.content]

variable {used cap t : Int}

theorem budgetTail_skipped (units : List (List LcmRawMessage)) :
    budgetTail used cap units t true = ([], t) := by
  induction units with
  | nil => rfl
  | cons unit units ih => rw [budgetTail, ih]; simp

theorem budgetTail_longest (units : List (List LcmRawMessage)) :
    ∃ kept, budgetTail used cap units t false = (kept, t + (kept.map tokenCount).sum) ∧
      kept <+: units ∧ (kept ≠ [] → used + t + (kept.map tokenCount).sum ≤ cap) ∧
      ∀ fitting, fitting <+: units → used + t + (fitting.map tokenCount).sum ≤ cap →
        fitting <+: kept := by
  induction units generalizing t with
  | nil => exact ⟨[], by simp [budgetTail], prefix_rfl, by simp, fun _ h _ => h⟩
  | cons unit units ih =>
    rw [budgetTail, budgetTail_skipped, ite_self, if_neg Bool.false_ne_true]
    split_ifs with hf
    · refine ⟨[], by simp, nil_prefix, by simp, ?_⟩
      rintro (_ | ⟨first, fitting⟩) hp hfit
      · exact nil_prefix
      · obtain ⟨rfl, -⟩ := cons_prefix_cons.mp hp
        have hpos : 0 ≤ (fitting.map tokenCount).sum :=
          sum_nonneg (by simpa using fun unit _ => tokenCount_nonneg unit)
        rw [map_cons, sum_cons] at hfit; omega
    · obtain ⟨kept, heq, hp, hcap, hl⟩ := ih (t := t + tokenCount unit)
      refine ⟨unit :: kept, ?_, cons_prefix_cons.mpr ⟨rfl, hp⟩, fun _ => ?_, ?_⟩
      · simp only [heq, map_cons, sum_cons, Int.add_assoc]
      · rw [map_cons, sum_cons]
        by_cases hnone : kept = []
        · rw [hnone, map_nil, sum_nil]; omega
        · have := hcap hnone; omega
      rintro (_ | ⟨first, fitting⟩) hsuffix hfit
      · exact nil_prefix
      · obtain ⟨rfl, hr⟩ := cons_prefix_cons.mp hsuffix
        rw [map_cons, sum_cons] at hfit; exact cons_prefix_cons.mpr ⟨rfl, hl fitting hr (by omega)⟩

theorem selectBudgetTail_longest (raws : List LcmRawMessage) (used cap : Int) :
    ∃ kept, selectBudgetTail raws used cap = (kept.flatten, (kept.map tokenCount).sum) ∧
      kept <:+ replayUnits raws ∧ (kept ≠ [] → used + (kept.map tokenCount).sum ≤ cap) ∧
      ∀ fitting, fitting <:+ replayUnits raws → used + (fitting.map tokenCount).sum ≤ cap →
        fitting <:+ kept := by
  obtain ⟨kept, heq, hp, hcap, hl⟩ := @budgetTail_longest used cap 0 (replayUnits raws).reverse
  have hsum (units : List (List LcmRawMessage)) :
      (units.reverse.map tokenCount).sum = (units.map tokenCount).sum := by
    rw [map_reverse, sum_reverse]
  refine ⟨kept.reverse, ?_, by simpa using reverse_suffix.mpr hp, ?_, fun fitting hf hfit => ?_⟩
  · rw [selectBudgetTail, heq, hsum, Int.zero_add]
  · simpa [hsum] using hcap
  · have := hl fitting.reverse (by simpa using hf) (by rw [hsum]; omega)
    simpa using reverse_suffix.mpr this

/-- The kept tail is the longest one of whole units that fits, and empty if nothing fits. The units
are the messages in order but for orphan results and silent calls; every transaction is a unit. -/
theorem budget_tail_longest (raws : List LcmRawMessage) (used cap : Int) :
    (∃ kept, selectBudgetTail raws used cap = (kept.flatten, (kept.map tokenCount).sum) ∧
      kept <:+ replayUnits raws ∧ (kept ≠ [] → used + (kept.map tokenCount).sum ≤ cap) ∧
      ∀ fitting, fitting <:+ replayUnits raws → used + (fitting.map tokenCount).sum ≤ cap →
        fitting <:+ kept) ∧
    Units False raws (replayUnits raws) ∧
    ∀ before unit after, raws = before ++ unit ++ after → Complete unit → NoToolFirst after →
      ∃ units, replayUnits raws = units ++ unit :: replayUnits after ∧ Units True before units := by
  refine ⟨?_, ?_, ?_⟩
  · exact selectBudgetTail_longest raws used cap
  · exact replayUnits_units raws
  · rintro before unit after rfl hc ha
    obtain ⟨units, h, hu⟩ := replayUnits_append (hc.noToolFirst after) before
    rw [append_assoc, h, hc.replayUnits_eq ha]; exact ⟨units, rfl, by simpa [hc.ne_nil] using hu⟩

/-- With more used than the cap not even the empty tail fits. -/
theorem budget_tail_over_cap : selectBudgetTail [] 2 1 = ([], 0) ∧
    ∀ kept, kept <:+ replayUnits [] → ¬ 2 + (kept.map tokenCount).sum ≤ 1 := by
  refine ⟨rfl, fun kept h => ?_⟩
  rw [suffix_nil.mp h]; decide

end TraceDecay.Lcm
