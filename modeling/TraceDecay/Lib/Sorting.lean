import Mathlib.Data.List.Sort

/-!
# Lib.Sorting

The stable sort by a comparison, and what is left when neighbouring repetitions are dropped. A
comparison that orders by a key (`OrdersBy`) sorts by that key.
-/

namespace Sorting

open List

universe u v
variable {α : Type u} {κ : Type v}

def sortBy (cmp : α → α → Ordering) (l : List α) : List α :=
  l.insertionSort fun a b => cmp a b ≠ .gt

theorem sortBy_perm (cmp : α → α → Ordering) (l : List α) : (sortBy cmp l).Perm l :=
  perm_insertionSort _ l

/-- The comparison is the order of the keys. -/
def OrdersBy [LinearOrder κ] (cmp : α → α → Ordering) (key : α → κ) : Prop :=
  ∀ a b, cmp a b ≠ .gt ↔ key a ≤ key b

variable {key : α → κ} {cmp : α → α → Ordering} {l : List α} {β : Type u}

theorem sortBy_sorted [LinearOrder κ]
    (h : OrdersBy cmp key) (l : List α) : (sortBy cmp l).Pairwise fun a b => key a ≤ key b := by
  have ht : Std.Total fun a b : α => cmp a b ≠ .gt :=
    ⟨fun a b => (le_total (key a) (key b)).imp (h a b).mpr (h b a).mpr⟩
  have htrans : IsTrans α fun a b => cmp a b ≠ .gt :=
    ⟨fun a b c hab hbc => (h a c).mpr (le_trans ((h a b).mp hab) ((h b c).mp hbc))⟩
  exact (pairwise_insertionSort _ l).imp fun hab => (h _ _).mp hab

/-! ## Comparisons in several steps -/

theorem then_ne_gt {o o' : Ordering} : o.then o' ≠ .gt ↔ o = .lt ∨ o = .eq ∧ o' ≠ .gt := by
  cases o <;> simp

theorem compare_then_ne_gt [LinearOrder κ] {a b : κ} {o : Ordering} :
    (compare a b).then o ≠ .gt ↔ a < b ∨ a = b ∧ o ≠ .gt := by
  rw [then_ne_gt, compare_lt_iff_lt, compare_eq_iff_eq]

theorem compare_ne_gt [LinearOrder κ] {a b : κ} : compare a b ≠ .gt ↔ a ≤ b := by
  rw [Ne, compare_gt_iff_gt, not_lt]

/-! ## Dropping repeated neighbours -/

section
variable [DecidableEq α]

def dedup : List α → List α
  | [] => []
  | [a] => [a]
  | a :: b :: l => if a = b then dedup (b :: l) else a :: dedup (b :: l)

@[simp] theorem mem_dedup {a : α} : a ∈ dedup l ↔ a ∈ l := by
  fun_induction dedup l with
  | case1 => rfl
  | case2 b => rfl
  | case3 b l ih => simp [ih]
  | case4 b c l hne ih => simp [ih]

end

/-! ## Sorting what is sorted or mapped -/

theorem sortBy_map {cmp' : β → β → Ordering} {f : α → β}
    (h : ∀ a ∈ l, ∀ b ∈ l, cmp' (f a) (f b) = cmp a b) :
    sortBy cmp' (l.map f) = (sortBy cmp l).map f :=
  (map_insertionSort (fun a b => cmp a b ≠ .gt) (fun a b => cmp' a b ≠ .gt) f l
    fun a ha b hb => by rw [h a ha b hb]).symm

theorem sortBy_of_sorted (h : l.Pairwise fun a b => cmp a b ≠ .gt) : sortBy cmp l = l :=
  List.Pairwise.insertionSort_eq h

/-! ## The last of each key -/

section Lasts

variable [DecidableEq κ]

/-- Of neighbours with one key, the last. -/
def lasts (key : α → κ) : List α → List α
  | [] => []
  | [a] => [a]
  | a :: b :: l => if key b = key a then lasts key (b :: l) else a :: lasts key (b :: l)

theorem lasts_map {key' : β → κ} {f : α → β}
    (h : ∀ a, key' (f a) = key a) (l : List α) : lasts key' (l.map f) = (lasts key l).map f := by
  fun_induction lasts key l with
  | case1 => rfl
  | case2 a => rfl
  | case3 a b l heq ih =>
    rw [map_cons, map_cons, lasts, if_pos (by rw [h, h, heq]), ← map_cons, ih]
  | case4 a b l hne ih =>
    rw [map_cons, map_cons, lasts, if_neg (by rw [h, h]; exact hne), ← map_cons, ih, map_cons]

theorem lasts_subset : lasts key l ⊆ l := by
  fun_induction lasts key l with
  | case1 => exact List.Subset.refl _
  | case2 a => exact List.Subset.refl _
  | case3 a b l heq ih => exact subset_cons_of_subset _ ih
  | case4 a b l hne ih => exact cons_subset_cons _ ih

variable [LinearOrder κ]

theorem lasts_sorted (h : l.Pairwise fun a b => key a ≤ key b) :
    (lasts key l).Pairwise fun a b => key a < key b := by
  fun_induction lasts key l with
  | case1 => exact .nil
  | case2 a => exact pairwise_singleton _ _
  | case3 a b l heq ih => exact ih (pairwise_cons.mp h).2
  | case4 a b l hne ih =>
    obtain ⟨hf, hr⟩ := pairwise_cons.mp h
    have hab : key a < key b := lt_of_le_of_ne (hf b mem_cons_self) (Ne.symm hne)
    refine pairwise_cons.mpr ⟨fun c hc => lt_of_lt_of_le hab ?_, ih hr⟩
    rcases mem_cons.mp (lasts_subset hc) with rfl | hc
    · exact le_refl _
    · exact (pairwise_cons.mp hr).1 c hc

theorem dedup_sorted [DecidableEq α] (hkey : Function.Injective key)
    (h : l.Pairwise fun a b => key a ≤ key b) : (dedup l).Pairwise fun a b => key a < key b := by
  have hlasts : dedup l = lasts key l := by
    fun_induction dedup l with
    | case1 => rfl
    | case2 a => rfl
    | case3 b l ih => rw [ih (pairwise_cons.mp h).2, lasts, if_pos rfl]
    | case4 a b l hne ih =>
      rw [ih (pairwise_cons.mp h).2, lasts, if_neg fun heq => hne (hkey heq).symm]
  exact hlasts ▸ lasts_sorted h

theorem mem_lasts (h : l.Pairwise fun a b => key a ≤ key b) {c : α} :
    c ∈ lasts key l ↔ (l.filter fun a => decide (key a = key c)).getLast? = some c := by
  fun_induction lasts key l with
  | case1 => simp
  | case2 a =>
    by_cases ha : key a = key c
    · simp [ha, eq_comm]
    · have hne : c ≠ a := fun heq => ha (heq ▸ rfl); simp [ha, hne]
  | case3 a b l heq ih =>
    rw [ih (pairwise_cons.mp h).2]
    by_cases hb : key b = key c
    · rw [filter_cons_of_pos (by simpa using hb),
        filter_cons_of_pos (a := a) (by simpa using heq.symm.trans hb),
        filter_cons_of_pos (by simpa using hb), getLast?_cons_cons]
    · rw [filter_cons_of_neg (a := a) (by simpa using fun ha => hb (heq.trans ha))]
  | case4 a b l hne ih =>
    obtain ⟨hf, hr⟩ := pairwise_cons.mp h
    have hlt : ∀ d ∈ b :: l, key a < key d := by
      have hab : key a < key b := lt_of_le_of_ne (hf b mem_cons_self) (Ne.symm hne)
      exact forall_mem_cons.mpr
        ⟨hab, fun d hd => lt_of_lt_of_le hab ((pairwise_cons.mp hr).1 d hd)⟩
    by_cases ha : key a = key c
    · have hnone : (b :: l).filter (fun d => decide (key d = key c)) = [] :=
        filter_eq_nil_iff.mpr fun d hd => by
          simpa using fun heq => (hlt d hd).ne (ha.trans (Eq.symm heq))
      have hnot : c ∉ lasts key (b :: l) := fun hc => (hlt c (lasts_subset hc)).ne ha
      rw [filter_cons_of_pos (by simpa using ha), hnone]
      simp only [mem_cons, hnot, or_false, getLast?_singleton, Option.some.injEq]; exact eq_comm
    · rw [filter_cons_of_neg (by simpa using ha), ← ih hr, mem_cons,
        or_iff_right fun heq : c = a => ha (heq ▸ rfl)]

end Lasts

theorem eq_of_sorted_of_mem_iff [LinearOrder κ] {l' : List α}
    (h : l.Pairwise fun a b => key a < key b) (h' : l'.Pairwise fun a b => key a < key b)
    (hmem : ∀ a, a ∈ l ↔ a ∈ l') : l = l' := by
  have : Std.Irrefl fun a b => key a < key b := ⟨fun a => lt_irrefl (key a)⟩
  have : Std.Antisymm fun a b => key a < key b := ⟨fun a b hab hba => absurd hba (lt_asymm hab)⟩
  exact h.eq_of_mem_iff h' hmem

end Sorting
