import Mathlib.Tactic.Ring

/-!
# Lib.BinaryLog

The binary logarithm by repeated squaring. A number is held as a mantissa of `w + 1` bits and an
exponent. Squaring doubles the logarithm, and whether the square is one bit longer is its next bit.
Each square is cut off, so the mantissa falls behind the number, but by little (`Approximates`); and
cutting off keeps the order of two numbers (`Below.step`).
-/

namespace BinaryLog

def step (w : Nat) (s : Nat × Nat) : Nat × Nat :=
  if 2 ^ (w + 1) ≤ s.1 * s.1 / 2 ^ w then (s.1 * s.1 / 2 ^ w / 2, 2 * s.2 + 1)
  else (s.1 * s.1 / 2 ^ w, 2 * s.2)

def start (w value : Nat) : Nat × Nat := (value * 2 ^ (w - value.log2), value.log2)

def log (w bits value : Nat) : Nat := ((step w)^[bits] (start w value)).2

variable {w v k n c p x q a b : Nat} {s t : Nat × Nat}

/-! ## The error -/

theorem square_le (h : n * p ≤ x * 2 ^ w) (hq : q * 2 ^ w ≤ n * n) :
    q * (p * p) ≤ x * x * 2 ^ w := by
  refine Nat.le_of_mul_le_mul_right ?_ (Nat.two_pow_pos w)
  calc q * (p * p) * 2 ^ w = q * 2 ^ w * (p * p) := by ring
    _ ≤ n * n * (p * p) := Nat.mul_le_mul_right _ hq
    _ = n * p * (n * p) := by ring
    _ ≤ x * 2 ^ w * (x * 2 ^ w) := Nat.mul_le_mul h h
    _ = x * x * 2 ^ w * 2 ^ w := by ring

theorem le_square (h : x * 2 ^ w ≤ (n + c) * p) (hq : n * n ≤ 2 ^ w * (q + 1))
    (hn : n ≤ 2 * 2 ^ w) (hc : c ≤ 2 ^ w) : x * x * 2 ^ w ≤ (q + (5 * c + 1)) * (p * p) := by
  refine Nat.le_of_mul_le_mul_right ?_ (Nat.two_pow_pos w)
  calc x * x * 2 ^ w * 2 ^ w = x * 2 ^ w * (x * 2 ^ w) := by ring
    _ ≤ (n + c) * p * ((n + c) * p) := Nat.mul_le_mul h h
    _ = (n * n + (2 * n + c) * c) * (p * p) := by ring
    _ ≤ (2 ^ w * (q + 1) + 5 * 2 ^ w * c) * (p * p) :=
      Nat.mul_le_mul_right _ (Nat.add_le_add hq (Nat.mul_le_mul_right c (by omega)))
    _ = (q + (5 * c + 1)) * (p * p) * 2 ^ w := by ring

/-- The mantissa and exponent of a number squared `k` times. -/
structure Approximates (w v k : Nat) (s : Nat × Nat) : Prop where
  low : 2 ^ w ≤ s.1
  high : s.1 < 2 * 2 ^ w
  le : s.1 * 2 ^ s.2 ≤ v ^ 2 ^ k * 2 ^ w
  ge : v ^ 2 ^ k * 2 ^ w ≤ (s.1 + 6 ^ k) * 2 ^ s.2

theorem Approximates.step (h : Approximates w v k s) (hk : 6 ^ k ≤ 2 ^ w) :
    Approximates w v (k + 1) (step w s) := by
  have hpos := Nat.two_pow_pos w
  have hc : 1 ≤ 6 ^ k := Nat.one_le_pow _ _ (by decide)
  have hv : v ^ 2 ^ (k + 1) = v ^ 2 ^ k * v ^ 2 ^ k := by rw [pow_succ, pow_mul, pow_two]
  have hsquare : 2 ^ (2 * s.2) = 2 ^ s.2 * 2 ^ s.2 := by rw [two_mul, pow_add]
  have hlow : 2 ^ w ≤ s.1 * s.1 / 2 ^ w :=
    (Nat.le_div_iff_mul_le hpos).mpr (Nat.mul_le_mul h.low h.low)
  have hhigh : s.1 * s.1 / 2 ^ w < 4 * 2 ^ w := by
    rw [Nat.div_lt_iff_lt_mul hpos]
    calc s.1 * s.1 < 2 * 2 ^ w * (2 * 2 ^ w) := Nat.mul_lt_mul_of_lt_of_lt h.high h.high
      _ = 4 * 2 ^ w * 2 ^ w := by ring
  have hle := square_le h.le (Nat.div_mul_le_self _ _)
  have hge := le_square h.ge (Nat.lt_mul_div_succ _ hpos).le h.high.le hk
  rw [← hv, ← hsquare] at hle hge
  unfold BinaryLog.step
  generalize s.1 * s.1 / 2 ^ w = q at *
  split_ifs with hlong
  · -- the bit that goes with the halving is within the error
    refine ⟨by omega, by omega, ?_, ?_⟩
    · calc q / 2 * 2 ^ (2 * s.2 + 1) = q / 2 * 2 * 2 ^ (2 * s.2) := by ring
        _ ≤ q * 2 ^ (2 * s.2) := Nat.mul_le_mul_right _ (Nat.div_mul_le_self q 2)
        _ ≤ _ := hle
    · calc _ ≤ (q + (5 * 6 ^ k + 1)) * 2 ^ (2 * s.2) := hge
        _ ≤ (q / 2 + 6 * 6 ^ k) * 2 * 2 ^ (2 * s.2) := Nat.mul_le_mul_right _ (by omega)
        _ = (q / 2 + 6 ^ (k + 1)) * 2 ^ (2 * s.2 + 1) := by ring
  · refine ⟨hlow, by omega, hle, hge.trans (Nat.mul_le_mul_right _ ?_)⟩; rw [pow_succ]; omega

theorem Approximates.pow_le (h : Approximates w v k s) : 2 ^ s.2 ≤ v ^ 2 ^ k := by
  refine Nat.le_of_mul_le_mul_right ?_ (Nat.two_pow_pos w)
  exact (mul_comm ..).trans_le ((Nat.mul_le_mul_right _ h.low).trans h.le)

theorem Approximates.exponent_lt (h : Approximates w v k s) (hv : v < 2 ^ b) : s.2 < b * 2 ^ k := by
  refine (Nat.pow_lt_pow_iff_right (by decide : 1 < 2)).mp (h.pow_le.trans_lt ?_)
  rw [pow_mul]; exact Nat.pow_lt_pow_left hv (Nat.two_pow_pos k).ne'

theorem approximates_start (ha : a ≠ 0) (haw : a < 2 ^ (w + 1)) :
    Approximates w a 0 (start w a) := by
  have hlog : a.log2 ≤ w := Nat.lt_succ_iff.mp ((Nat.log2_lt ha).mpr haw)
  have hsplit : 2 ^ a.log2 * 2 ^ (w - a.log2) = 2 ^ w := by rw [← pow_add, Nat.add_sub_cancel' hlog]
  have hval : a * 2 ^ (w - a.log2) * 2 ^ a.log2 = a ^ 2 ^ 0 * 2 ^ w := by
    rw [mul_assoc, mul_comm (2 ^ (w - _)), hsplit, pow_zero, pow_one]
  refine ⟨?_, ?_, hval.le, hval.ge.trans (Nat.mul_le_mul_right _ (Nat.le_add_right _ _))⟩
  · exact hsplit.ge.trans (Nat.mul_le_mul_right _ (Nat.log2_self_le ha))
  · rw [← hsplit, ← mul_assoc, ← pow_succ']
    exact Nat.mul_lt_mul_of_pos_right Nat.lt_log2_self (Nat.two_pow_pos _)

theorem approximates_iterate (ha : a ≠ 0) (haw : a < 2 ^ (w + 1)) (hk : 6 ^ k ≤ 2 ^ w) :
    Approximates w a k ((step w)^[k] (start w a)) := by
  induction k with
  | zero => exact approximates_start ha haw
  | succ k ih =>
    have hk' : 6 ^ k ≤ 2 ^ w := (Nat.pow_le_pow_right (by decide) (Nat.le_succ k)).trans hk
    rw [Function.iterate_succ_apply']; exact (ih hk').step hk'

theorem log_bounds (ha : a ≠ 0) (haw : a < 2 ^ (w + 1)) (hk : 6 ^ k ≤ 2 ^ w) :
    2 ^ log w k a ≤ a ^ 2 ^ k ∧ a ^ 2 ^ k < 2 ^ (log w k a + 2) := by
  have h := approximates_iterate ha haw hk
  refine ⟨h.pow_le, Nat.lt_of_mul_lt_mul_right (a := 2 ^ w) (h.ge.trans_lt ?_)⟩
  have hhigh := h.high
  rw [pow_add, mul_assoc, mul_comm]; exact Nat.mul_lt_mul_of_pos_left (by omega) (Nat.two_pow_pos _)

/-! ## The order -/

def Below (s t : Nat × Nat) : Prop := s.2 < t.2 ∨ s.2 = t.2 ∧ s.1 ≤ t.1

theorem Below.step (h : Below s t) : Below (step w s) (step w t) := by
  unfold BinaryLog.step
  obtain hlt | ⟨heq, hle⟩ := h
  · left
    split_ifs <;> dsimp only <;> omega
  · have hsquare : s.1 * s.1 / 2 ^ w ≤ t.1 * t.1 / 2 ^ w :=
      Nat.div_le_div_right (Nat.mul_le_mul hle hle)
    unfold Below
    split_ifs <;> dsimp only <;> omega

theorem below_start (ha : a ≠ 0) (hab : a ≤ b) : Below (start w a) (start w b) := by
  have hlog : a.log2 ≤ b.log2 :=
    (Nat.le_log2 (by omega)).mpr ((Nat.log2_self_le ha).trans hab)
  obtain hlt | heq := hlog.lt_or_eq
  · exact .inl hlt
  · refine .inr ⟨heq, ?_⟩
    unfold start
    rw [heq]; exact Nat.mul_le_mul_right _ hab

theorem log_mono (ha : a ≠ 0) (hab : a ≤ b) : log w k a ≤ log w k b := by
  have hbelow : Below ((step w)^[k] (start w a)) ((step w)^[k] (start w b)) := by
    induction k with
    | zero => exact below_start ha hab
    | succ k ih => rw [Function.iterate_succ_apply', Function.iterate_succ_apply']; exact ih.step
  exact hbelow.elim le_of_lt fun h => h.1.le

end BinaryLog
