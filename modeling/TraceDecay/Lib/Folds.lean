/-!
# Lib.Folds

Folds that only ever add to what a predicate holds of, or only ever take away from it. The invariant
says what the steps may assume of the state.
-/

universe u v

namespace Folds

variable {σ : Type u} {α : Type v} {f : σ → α → σ} {I p : σ → Prop} {q : α → Prop}

variable (hI : ∀ s x, I s → I (f s x))
include hI

theorem foldl_inv {s : σ} (hs : I s) (l : List α) : I (l.foldl f s) := by
  induction l generalizing s with
  | nil => exact hs
  | cons x l ih => exact ih (hI s x hs)

theorem foldl_iff_or (hsp : ∀ s x, I s → (p (f s x) ↔ p s ∨ q x))
    {s : σ} (hs : I s) (l : List α) : p (l.foldl f s) ↔ p s ∨ ∃ x ∈ l, q x := by
  induction l generalizing s with
  | nil => simp
  | cons x l ih => rw [List.foldl_cons, ih (hI s x hs), hsp s x hs]; simp [or_assoc]

theorem foldl_iff_and (hsp : ∀ s x, I s → (p (f s x) ↔ p s ∧ q x)) {s : σ} (hs : I s) (l : List α) :
    p (l.foldl f s) ↔ p s ∧ ∀ x ∈ l, q x := by
  induction l generalizing s with
  | nil => simp
  | cons x l ih => rw [List.foldl_cons, ih (hI s x hs), hsp s x hs]; simp [and_assoc]

omit hI

theorem foldl_iff_exists (hsp : ∀ s x, p (f s x) ↔ p s ∨ q x) (s : σ) (l : List α) :
    p (l.foldl f s) ↔ p s ∨ ∃ x ∈ l, q x :=
  foldl_iff_or (I := fun _ => True) (fun _ _ _ => trivial) (fun s x _ => hsp s x) trivial l

end Folds
