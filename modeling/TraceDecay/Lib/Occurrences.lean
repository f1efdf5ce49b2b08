import Mathlib.Algebra.GroupWithZero.Nat
import Mathlib.Data.Nat.Count

/-!
# Lib.Occurrences

Counting the occurrences of a pattern in a list, overlapping ones included. A count over the two
halves of a list misses exactly the occurrences that cross the cut (`count_append`), and those
are visible in the last and first elements of the halves (`cross_edges`). Counting piece by piece
is therefore exact only when no occurrence crosses a cut: `chunkedCount_eq_iff` says so for cuts
at the multiples of a chunk size.
-/

namespace Occurrences

open List Nat

variable {α : Type} {p : List α} {n : Nat}

theorem length_le_of_isPrefix_drop {s : List α} {i : Nat} (hp : p ≠ [])
    (h : p <+: s.drop i) : i + p.length ≤ s.length := by
  have hlen := h.length_le
  have hpos : 0 < p.length := length_pos_of_ne_nil hp
  rw [length_drop] at hlen; omega

theorem isPrefix_drop_append {a b : List α} {i : Nat} (h : i + p.length ≤ a.length) :
    p <+: (a ++ b).drop i ↔ p <+: a.drop i := by
  rw [drop_append_of_le_length (by omega)]
  constructor
  · intro hp
    exact prefix_of_prefix_length_le hp (prefix_append _ _) (by
      rw [length_drop]; omega)
  · intro hp; exact hp.trans (prefix_append _ _)

theorem take_drop_eq_iff {s : List α} {i : Nat} :
    (s.drop i).take p.length = p ↔ p <+: s.drop i := by
  rw [prefix_iff_eq_take, eq_comm]

variable [DecidableEq α]

/-- How often `p` occurs in `s`. -/
def count (p s : List α) : Nat := Nat.count (fun i => p <+: s.drop i) s.length

/-- How often `p` occurs in `a ++ b` across the cut. -/
def cross (p a b : List α) : Nat :=
  Nat.count (fun i => a.length < i + p.length ∧ p <+: (a ++ b).drop i) a.length

theorem count_nil (p : List α) : count p [] = 0 := rfl

theorem count_le_length (p s : List α) : count p s ≤ s.length := count_le _

theorem count_or_of_disjoint {P Q : Nat → Prop} [DecidablePred P] [DecidablePred Q] (n : Nat)
    (h : ∀ i < n, P i → ¬ Q i) :
    Nat.count (fun i => P i ∨ Q i) n = Nat.count P n + Nat.count Q n := by
  have hd : Disjoint ((Finset.range n).filter P) ((Finset.range n).filter Q) :=
    Finset.disjoint_filter.mpr fun i hi => h i (Finset.mem_range.mp hi)
  simp only [count_eq_card_filter_range, Finset.filter_or, Finset.card_union_of_disjoint hd]

theorem count_congr {P Q : Nat → Prop} [DecidablePred P] [DecidablePred Q]
    (h : ∀ i < n, P i ↔ Q i) : Nat.count P n = Nat.count Q n := by
  rw [count_eq_card_filter_range, count_eq_card_filter_range,
    Finset.filter_congr fun i hi => h i (Finset.mem_range.mp hi)]

theorem count_append (hp : p ≠ []) (a b : List α) :
    count p (a ++ b) = count p a + cross p a b + count p b := by
  unfold count cross
  rw [length_append, count_add]
  have hl : Nat.count (fun i => p <+: (a ++ b).drop i) a.length =
      Nat.count (fun i => p <+: a.drop i) a.length +
        Nat.count (fun i => a.length < i + p.length ∧ p <+: (a ++ b).drop i) a.length := by
    rw [← count_or_of_disjoint]
    · refine count_congr fun i hi => ?_
      by_cases hfit : i + p.length ≤ a.length
      · rw [isPrefix_drop_append hfit]
        constructor
        · exact .inl
        · rintro (h | ⟨hc, -⟩)
          · exact h
          · omega
      · constructor
        · intro h; exact .inr ⟨by omega, h⟩
        · rintro (h | ⟨-, h⟩)
          · exact absurd (length_le_of_isPrefix_drop hp h) hfit
          · exact h
    · rintro i hi h ⟨hc, -⟩; have := length_le_of_isPrefix_drop hp h; omega
  have hr : Nat.count (fun k => p <+: (a ++ b).drop (a.length + k)) b.length =
      Nat.count (fun k => p <+: b.drop k) b.length := by
    refine count_congr fun k hk => ?_
    rw [drop_append, drop_eq_nil_of_le (by omega), Nat.add_sub_cancel_left, nil_append]
  rw [hl, hr]

theorem cross_eq_zero_iff {a b : List α} :
    cross p a b = 0 ↔ ∀ i, i < a.length → a.length < i + p.length → ¬ p <+: (a ++ b).drop i := by
  unfold cross
  rw [count_iff_forall_not]; exact forall₂_congr fun i _ => not_and

/-- Only the last and the first `p.length - 1` elements decide what crosses the cut. -/
theorem cross_edges {keep : Nat} (hp : p.length = keep + 1) (a b : List α) :
    cross p (a.drop (a.length - keep)) (b.take keep) = cross p a b := by
  unfold cross
  have hs : a.length = (a.length - keep) + (a.drop (a.length - keep)).length := by
    rw [length_drop]; omega
  have hfar : Nat.count (fun i => a.length < i + p.length ∧ p <+: (a ++ b).drop i)
      (a.length - keep) = 0 := by
    rw [count_iff_forall_not]
    rintro i hi ⟨hc, -⟩; omega
  conv_rhs => rw [hs, count_add]
  rw [← hs, hfar, zero_add]
  refine count_congr fun k hk => ?_
  have hd : (a ++ b).drop (a.length - keep + k) = (a.drop (a.length - keep)).drop k ++ b := by
    rw [drop_append_of_le_length (by omega), drop_drop]
  rw [hd, drop_append_of_le_length (le_of_lt hk)]
  generalize hx : (a.drop (a.length - keep)).drop k = x
  have hpos : 0 < x.length := by rw [← hx, length_drop]; omega
  have ht : x ++ b.take keep = (x ++ b).take (x.length + keep) := by
    rw [take_append, take_of_length_le (Nat.le_add_right _ _), Nat.add_sub_cancel_left]
  rw [ht, prefix_take_iff]
  constructor
  · rintro ⟨hc, hpre, -⟩; exact ⟨by omega, hpre⟩
  · rintro ⟨hc, hpre⟩; exact ⟨by omega, hpre, by omega⟩

/-! ## Windows -/

/-- The runs of `n` consecutive elements, first to last. -/
def windows (n : Nat) (s : List α) : List (List α) :=
  (List.range (s.length + 1 - n)).map fun i => (s.drop i).take n

theorem length_filter_range (P : Nat → Prop) [DecidablePred P] (n : Nat) :
    ((List.range n).filter P).length = Nat.count P n := by
  rw [Nat.count, countP_eq_length_filter]

theorem count_eq_of_le {P : Nat → Prop} [DecidablePred P] {m : Nat} (hmn : m ≤ n)
    (h : ∀ i, m ≤ i → ¬ P i) : Nat.count P n = Nat.count P m := by
  obtain ⟨d, rfl⟩ := Nat.exists_eq_add_of_le hmn
  have hz : Nat.count (fun k => P (m + k)) d = 0 := count_iff_forall_not.mpr fun k _ => h _ (by omega)
  rw [count_add, hz, add_zero]

theorem length_filter_windows (hp : p ≠ []) (s : List α) :
    ((windows p.length s).filter (· = p)).length = count p s := by
  have hpos : 0 < p.length := length_pos_of_ne_nil hp
  unfold windows count
  rw [filter_map, length_map]
  have hc : ((fun w => decide (w = p)) ∘ fun i => (s.drop i).take p.length) =
      fun i => decide (p <+: s.drop i) := by
    funext i
    simp only [Function.comp, take_drop_eq_iff]
  rw [hc, length_filter_range]
  refine (count_eq_of_le (by omega) fun i hi h => ?_).symm
  have := length_le_of_isPrefix_drop hp h
  omega

theorem length_filter_windows_cross (hp : p ≠ []) (a b : List α) :
    ((windows p.length (a ++ b)).zipIdx.filter fun (w, start) =>
      start < a.length ∧ a.length < start + p.length ∧ w = p).length = cross p a b := by
  have hidx : (windows p.length (a ++ b)).zipIdx = (List.range ((a ++ b).length + 1 - p.length)).map
        fun i => (((a ++ b).drop i).take p.length, i) := by
    unfold windows
    refine ext_getElem (by simp) fun i h1 h2 => ?_
    simp
  rw [hidx, filter_map, length_map]
  have hc : ((fun x : List α × Nat => decide
        (x.2 < a.length ∧ a.length < x.2 + p.length ∧ x.1 = p)) ∘
      fun i => (((a ++ b).drop i).take p.length, i)) =
      fun i => decide (i < a.length ∧ a.length < i + p.length ∧ p <+: (a ++ b).drop i) := by
    funext i
    simp only [Function.comp, take_drop_eq_iff]
  rw [hc, length_filter_range]
  -- neither bound cuts off a crossing position
  refine (count_eq_of_le (le_max_left _ a.length) fun i hi h => ?_).symm.trans
    ((count_eq_of_le (le_max_right _ a.length) fun i hi h => ?_).trans ?_)
  · have := length_le_of_isPrefix_drop hp h.2.2
    omega
  · omega
  · exact count_congr fun i hi => ⟨fun h => h.2, fun h => ⟨hi, h⟩⟩

/-! ## Chunks -/

def chunks (n : Nat) (s : List α) : List (List α) :=
  if n = 0 ∨ s = [] then [] else s.take n :: chunks n (s.drop n)
  termination_by s.length
  decreasing_by
    rename_i h
    have : 0 < s.length := length_pos_of_ne_nil fun hs => h (.inr hs)
    rw [length_drop]; omega

def chunkedCount (p : List α) (n : Nat) (s : List α) : Nat := ((chunks n s).map (count p)).sum

theorem chunkedCount_nil (p : List α) (n : Nat) : chunkedCount p n [] = 0 := by
  unfold chunkedCount
  rw [chunks]; simp

theorem chunkedCount_step (p : List α) (hn : 0 < n) (s : List α) :
    chunkedCount p n s = count p (s.take n) + chunkedCount p n (s.drop n) := by
  by_cases hs : s = []
  · subst hs; simp [chunkedCount_nil, count_nil]
  · unfold chunkedCount; rw [chunks, if_neg (by simp [hs]; omega)]; simp

theorem count_step (hp : p ≠ []) (n : Nat) (s : List α) :
    count p s = count p (s.take n) + cross p (s.take n) (s.drop n) + count p (s.drop n) := by
  rw [← count_append hp, take_append_drop]

/-- An occurrence that begins before and ends after a multiple of `n`. -/
def Straddles (p : List α) (n : Nat) (s : List α) : Prop :=
  ∃ i k, p <+: s.drop i ∧ i < n * k ∧ n * k < i + p.length

theorem cross_take_eq_zero_iff (hp : p ≠ []) {s : List α} : cross p (s.take n) (s.drop n) = 0 ↔
      ∀ i, p <+: s.drop i → i < n → ¬ n < i + p.length := by
  rw [cross_eq_zero_iff, take_append_drop, length_take]
  constructor
  · intro h i hocc hi hc
    have hlen := length_le_of_isPrefix_drop hp hocc
    exact h i (by omega) (by omega) hocc
  · intro h i hi hc hocc
    have hlen := length_le_of_isPrefix_drop hp hocc
    exact h i hocc (by omega) (by omega)

omit [DecidableEq α] in
theorem straddles_step {s : List α} : Straddles p n s ↔
      (∃ i, p <+: s.drop i ∧ i < n ∧ n < i + p.length) ∨ Straddles p n (s.drop n) := by
  constructor
  · rintro ⟨i, k, hocc, hlo, hhi⟩
    obtain ⟨k, rfl⟩ := Nat.exists_eq_succ_of_ne_zero (n := k) (by rintro rfl; omega)
    rw [mul_succ] at hlo hhi
    by_cases hi : i < n
    · exact .inl ⟨i, hocc, hi, by omega⟩
    · refine .inr ⟨i - n, k, ?_, by omega, by omega⟩
      rw [drop_drop, add_sub_of_le (by omega)]; exact hocc
  · rintro (⟨i, hocc, hlo, hhi⟩ | ⟨i, k, hocc, hlo, hhi⟩)
    · exact ⟨i, 1, hocc, by omega, by omega⟩
    · refine ⟨n + i, k + 1, ?_, ?_, ?_⟩
      · rw [← drop_drop]; exact hocc
      · rw [mul_succ]; omega
      · rw [mul_succ]; omega

theorem chunkedCount_le (hp : p ≠ []) (hn : 0 < n) (s : List α) :
    chunkedCount p n s ≤ count p s := by
  fun_induction chunks n s with
  | case1 s h => rw [h.resolve_left hn.ne', chunkedCount_nil]; exact zero_le _
  | case2 s _ ih => have hsp := count_step hp n s; rw [chunkedCount_step p hn]; omega

/-- **Chunked counting is exact when nothing straddles a cut.** -/
theorem chunkedCount_eq_iff (hp : p ≠ []) (hn : 0 < n) (s : List α) :
    chunkedCount p n s = count p s ↔ ¬ Straddles p n s := by
  fun_induction chunks n s with
  | case1 s h =>
    obtain rfl := h.resolve_left hn.ne'
    refine iff_of_true (by rw [chunkedCount_nil, count_nil]) ?_
    rintro ⟨i, k, hocc, -, -⟩
    rw [drop_nil, prefix_nil] at hocc; exact hp hocc
  | case2 s _ ih =>
    have hle := chunkedCount_le hp hn (s.drop n)
    have hsp := count_step hp n s
    rw [straddles_step, not_or, ← ih, chunkedCount_step p hn]
    have hc := cross_take_eq_zero_iff hp (n := n) (s := s)
    constructor
    · intro h
      refine ⟨?_, by omega⟩
      rintro ⟨i, hocc, hlo, hhi⟩; exact hc.mp (by omega) i hocc hlo hhi
    · rintro ⟨hnone, heq⟩
      have hz : cross p (s.take n) (s.drop n) = 0 :=
        hc.mpr fun i hocc hlo hhi => hnone ⟨i, hocc, hlo, hhi⟩
      omega

end Occurrences
