import Mathlib.Algebra.GroupWithZero.Nat

/-!
# Lib.Arith

Integer code that is written once and read three ways: with operations that saturate at their width,
with operations that fail where those would saturate, and with operations that have no bound.
-/

structure Arith (m : Type → Type) where
  mul (width a b : Nat) : m Nat
  add (width a b : Nat) : m Nat
  sub (a b : Nat) : m Nat

namespace Arith

def saturating : Arith Id where
  mul width a b := pure (min (a * b) (2 ^ width - 1))
  add width a b := pure (min (a + b) (2 ^ width - 1))
  sub a b := pure (a - b)

/-- Where `saturating` would change the result there is none. -/
def checked : Arith Option where
  mul width a b := if a * b < 2 ^ width then some (a * b) else none
  add width a b := if a + b < 2 ^ width then some (a + b) else none
  sub a b := if b ≤ a then some (a - b) else none

def unbounded : Arith Id where
  mul _ a b := pure (a * b)
  add _ a b := pure (a + b)
  sub a b := pure (a - b)

/-- The operations are exact where their results have the width. -/
structure Exact {m : Type → Type} [Monad m] (A : Arith m) : Prop where
  mul {width a b : Nat} (h : a * b < 2 ^ width) : A.mul width a b = pure (a * b)
  add {width a b : Nat} (h : a + b < 2 ^ width) : A.add width a b = pure (a + b)
  sub {a b : Nat} (h : b ≤ a) : A.sub a b = pure (a - b)

theorem exact_saturating : Exact saturating where
  mul h := congrArg pure (Nat.min_eq_left (Nat.le_sub_one_of_lt h))
  add h := congrArg pure (Nat.min_eq_left (Nat.le_sub_one_of_lt h))
  sub _ := rfl

theorem exact_checked : Exact checked where
  mul h := if_pos h
  add h := if_pos h
  sub h := if_pos h

end Arith
