import Mathlib.Tactic.TypeStar

/-!
# Lib.LittleEndian

Numbers as a fixed count of bytes, lowest first, and fields cut out of a byte string by position.
-/

namespace TraceDecay

abbrev Bytes := List UInt8

/-- An array of exactly `n` bytes. -/
structure FixedBytes (n : Nat) where
  bytes : Bytes
  length_eq : bytes.length = n
deriving DecidableEq

attribute [simp] FixedBytes.length_eq

def FixedBytes.zero (n : Nat) : FixedBytes n := ⟨List.replicate n 0, List.length_replicate⟩

namespace LittleEndian

/-- The lowest `k` bytes of `n`. -/
def encode : Nat → Nat → List UInt8
  | 0, _ => []
  | k + 1, n => UInt8.ofNat n :: encode k (n / 256)

def decode : List UInt8 → Nat
  | [] => 0
  | b :: bs => b.toNat + 256 * decode bs

@[simp] theorem length_encode (k n : Nat) : (encode k n).length = k := by
  induction k generalizing n with
  | zero => rfl
  | succ k ih => simp [encode, ih]

end LittleEndian

/-- The `n` entries of `l` from position `i` on, fewer where `l` ends first. -/
def slice {α : Type*} (l : List α) (i n : Nat) : List α := (l.drop i).take n

end TraceDecay
