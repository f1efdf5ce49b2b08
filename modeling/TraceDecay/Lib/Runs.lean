/-!
# Lib.Runs

The maximal runs of elements that satisfy a test. `runs` is the definition: split at the other
elements and count the pieces that are not empty. `opened` counts where a run begins, given
whether one is already open; `runs_append` is what joining two lists does to the count.
-/

namespace Runs

open List

universe u
variable {α : Type u}

def runs (P : α → Bool) (s : List α) : Nat :=
  (s.splitOnP fun x => !P x).countP fun piece => !piece.isEmpty

def opened (P : α → Bool) : Bool → List α → Nat
  | _, [] => 0
  | inside, x :: xs => (if P x && !inside then 1 else 0) + opened P (P x) xs

def startsRun (P : α → Bool) (s : List α) : Bool := s.head?.any P

def endsRun (P : α → Bool) (s : List α) : Bool := s.getLast?.any P

variable (P : α → Bool)
include P

variable (s : List α)

/-- The pieces, without the first one when a run is already open. -/
theorem opened_eq : opened P false s = runs P s ∧
      opened P true s = ((s.splitOnP fun x => !P x).tail.countP fun p => !p.isEmpty) := by
  unfold runs
  induction s with
  | nil => exact ⟨rfl, rfl⟩
  | cons x xs ih =>
    obtain ⟨ihf, iht⟩ := ih
    rw [splitOnP_cons_eq_if_modifyHead]
    by_cases hx : P x = true
    · obtain ⟨p, more, hs⟩ := exists_cons_of_ne_nil (splitOnP_ne_nil (fun x => !P x) xs)
      rw [hs] at iht ⊢
      simp only [opened, hx, iht, modifyHead_cons, tail_cons, Bool.not_true,
        Bool.false_eq_true, if_false, Bool.and_false, Bool.not_false, Bool.and_true, if_true,
        Nat.zero_add, and_true]
      rw [countP_cons_of_pos (by simp)]; omega
    · simp only [Bool.not_eq_true] at hx
      simp only [opened, hx, Bool.not_false, if_true, Bool.false_and, Bool.false_eq_true,
        if_false, tail_cons, ihf, Nat.zero_add, and_true]
      rw [countP_cons_of_neg (by simp)]

theorem opened_false : opened P false s = runs P s := (opened_eq P s).1

theorem opened_true : opened P true s + (startsRun P s).toNat = runs P s := by
  rw [← opened_false]
  cases s with
  | nil => rfl
  | cons x xs =>
    cases hx : P x with
    | true => simp [opened, startsRun, hx, Nat.add_comm]
    | false => simp [opened, startsRun, hx]

theorem opened_append (i : Bool) (a b : List α) : opened P i (a ++ b) =
      opened P i a + opened P (if a = [] then i else endsRun P a) b := by
  induction a generalizing i with
  | nil => simp [opened]
  | cons x xs ih =>
    rw [cons_append, opened, ih, opened]
    cases xs with
    | nil => simp [endsRun, opened]
    | cons y ys =>
      have hl : endsRun P (x :: y :: ys) = endsRun P (y :: ys) := by
        unfold endsRun
        rw [getLast?_cons_cons]
      simp only [hl, reduceCtorEq, if_false]; omega

theorem runs_append (a b : List α) :
    runs P (a ++ b) + (endsRun P a && startsRun P b).toNat = runs P a + runs P b := by
  rw [← opened_false, opened_append, opened_false]
  by_cases ha : a = []
  · subst ha; simp [endsRun, opened_false]
  rw [if_neg ha]
  cases hend : endsRun P a with
  | true => have := opened_true P b; simp only [Bool.true_and]; omega
  | false => simp [opened_false]

theorem runs_le_length : runs P s ≤ s.length := by
  rw [← opened_false]
  suffices h : ∀ i, opened P i s ≤ s.length from h false
  induction s with
  | nil => exact fun _ => Nat.le_refl 0
  | cons x xs ih =>
    intro i
    have := ih (P x)
    simp only [opened, length_cons]
    split <;> omega

end Runs
