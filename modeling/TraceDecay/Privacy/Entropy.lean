import Mathlib.Algebra.BigOperators.Group.List.Basic
import TraceDecay.Lib.Arith
import TraceDecay.Lib.BinaryLog

/-!
# Privacy.Entropy

The fixed-point entropy by which the detector tells a random token. All arithmetic is on 128-bit
words and in integers; `none` is the panic of a checked build, on an operation that leaves the word.
-/

namespace TraceDecay.Privacy

open Arith BinaryLog

def entropyScale : Nat := 1 <<< 20

def leadingZeros (value : Nat) : Nat := if value = 0 then 64 else 63 - value.log2

/-- The body of the loop, on `(normalized, result)`. -/
def fixedLog2Bit (s : Nat × Nat) (bit : Nat) : Option (Nat × Nat) := do
  let normalized := (← checked.mul 128 s.1 s.1) >>> 63
  if 2 <<< 63 ≤ normalized then
    return (normalized >>> 1, ← checked.add 128 s.2 (entropyScale >>> bit))
  return (normalized, s.2)

def fixedLog2 (value : Nat) : Option Nat := do
  let integer ← checked.sub 63 (leadingZeros value)
  let result ← checked.mul 128 integer entropyScale
  -- the bits a shift moves out of the word are lost
  let normalized := (value <<< (63 - integer)) % 2 ^ 128
  return (← (List.range' 1 20).foldlM fixedLog2Bit (normalized, result)).2

def byteCounts (token : List UInt8) : List Nat :=
  token.foldl (fun counts byte => counts.modify byte.toNat (· + 1)) (List.replicate 256 0)

def spend (spent count : Nat) : Option Nat := do
  checked.add 128 spent (← checked.mul 128 count (← fixedLog2 count))

def entropySum (token : List UInt8) : Option Nat := do
  let total ← checked.mul 128 token.length (← fixedLog2 token.length)
  let spent ← ((byteCounts token).filter (· != 0)).foldlM spend 0
  checked.sub total spent

/-- The score; the inner `none` is a score that is no `u32`. -/
def entropyBitsPerMille (token : List UInt8) : Option (Option Nat) := do
  if token.isEmpty then return some 0
  let entropySum ← entropySum token
  let score := (← checked.mul 128 entropySum 1000) / (← checked.mul 128 token.length entropyScale)
  return if score < 2 ^ 32 then some score else none

def isAsciiHexdigit (byte : UInt8) : Bool :=
  (Char.ofUInt8 byte).isDigit || "abcdefABCDEF".toList.contains (Char.ofUInt8 byte)

def tokenByte (byte : UInt8) : Bool :=
  (Char.ofUInt8 byte).isAlphanum || "+/=_-".toList.contains (Char.ofUInt8 byte)

def looksHighEntropyToken (token : List UInt8) : Option Bool := do
  if token.length < 36 || !token.all tokenByte || token.all isAsciiHexdigit then return false
  if !token.any (Char.ofUInt8 · |>.isAlpha) || !token.any (Char.ofUInt8 · |>.isDigit) then
    return false
  let entropySum ← entropySum token
  return (← checked.mul 128 (← checked.mul 128 token.length 42) entropyScale) ≤
    (← checked.mul 128 entropySum 10)

theorem entropyScale_eq : entropyScale = 2 ^ 20 := rfl

variable {value : Nat} {token : List UInt8}

/-! ## The logarithm -/

theorem fixedLog2Bit_eq {n r m bit : Nat} (hn : n < 2 ^ 64) (hr : r * 2 ^ (m + 1) < 2 ^ 26)
    (hbit : bit + m = 20) : fixedLog2Bit (n, r * 2 ^ (m + 1)) bit =
      some ((step 63 (n, r)).1, (step 63 (n, r)).2 * 2 ^ m) := by
  have hsquare : n * n < 2 ^ 64 * 2 ^ 64 := Nat.mul_lt_mul_of_lt_of_lt hn hn
  have hscale : entropyScale >>> bit = 2 ^ m := by
    rw [entropyScale_eq, Nat.shiftRight_eq_div_pow, Nat.pow_div (by omega) (by decide), ← hbit,
      Nat.add_sub_cancel_left]
  have hm : 2 ^ m ≤ 2 ^ 20 := Nat.pow_le_pow_right (by decide) (by omega)
  have hone : checked.add 128 (r * 2 ^ (m + 1)) (2 ^ m) = some ((2 * r + 1) * 2 ^ m) :=
    (exact_checked.add (by omega)).trans (congrArg some (by ring))
  have hzero : r * 2 ^ (m + 1) = 2 * r * 2 ^ m := by ring
  have hword : 2 <<< 63 = 2 ^ (63 + 1) := rfl
  simp only [fixedLog2Bit, step, exact_checked.mul (hsquare.trans_eq (pow_add 2 64 64).symm),
    hscale, hone, hword, Nat.shiftRight_eq_div_pow, Option.bind_eq_bind, Option.bind_some,
      Option.pure_def]
  split_ifs with hlong
  · rfl
  · rw [hzero]

theorem foldlM_fixedLog2Bit {v k m : Nat} {s : Nat × Nat} (hv : v < 2 ^ 64)
    (h : Approximates 63 v k s) (hk : k + m = 20) :
    (List.range' (k + 1) m).foldlM fixedLog2Bit (s.1, s.2 * 2 ^ m) = some ((step 63)^[m] s) := by
  induction m generalizing k s with
  | zero => simp
  | succ m ih =>
    have hstep := h.step ((Nat.pow_le_pow_right (by decide) (by omega : k ≤ 20)).trans (by decide))
    have hr : s.2 * 2 ^ (m + 1) < 2 ^ 26 := by
      calc s.2 * 2 ^ (m + 1) < 64 * 2 ^ k * 2 ^ (m + 1) :=
            Nat.mul_lt_mul_of_pos_right (h.exponent_lt hv) (Nat.two_pow_pos _)
        _ = 2 ^ 26 := by rw [mul_assoc, ← pow_add, hk]; norm_num
    rw [List.range'_succ, List.foldlM_cons, fixedLog2Bit_eq h.high hr (by omega)]
    exact ih hstep (by omega)

theorem fixedLog2_eq (h : value ≠ 0) (hv : value < 2 ^ 64) :
    fixedLog2 value = some (log 63 20 value) := by
  have hlog : value.log2 < 64 := (Nat.log2_lt h).mpr hv
  have hstart : start 63 value = (value <<< (63 - value.log2), value.log2) := by
    rw [start, Nat.shiftLeft_eq]
  have happrox := approximates_start h hv
  have hhigh := happrox.high
  have hrun := foldlM_fixedLog2Bit hv happrox (zero_add 20)
  rw [hstart] at hhigh hrun
  have hinteger : checked.sub 63 (leadingZeros value) = some value.log2 := by
    rw [leadingZeros, if_neg h, exact_checked.sub (Nat.sub_le ..), Nat.sub_sub_self (by omega)]; rfl
  have hresult : value.log2 * entropyScale < 2 ^ 128 := by rw [entropyScale_eq]; omega
  have hmod := Nat.mod_eq_of_lt (hhigh.trans (by decide : 2 * 2 ^ 63 < 2 ^ 128))
  rw [log, hstart]
  -- bind by bind: a unifier that may evaluate would run the loop
  refine Option.bind_eq_some_iff.mpr ⟨_, hinteger, ?_⟩
  refine Option.bind_eq_some_iff.mpr ⟨_, exact_checked.mul hresult, ?_⟩
  refine Option.bind_eq_some_iff.mpr ⟨_, (congrArg (fun n => (List.range' 1 20).foldlM fixedLog2Bit
    (n, value.log2 * entropyScale)) hmod).trans hrun, rfl⟩

theorem log_lt (h : value ≠ 0) (hv : value < 2 ^ 64) : log 63 20 value < 2 ^ 26 := by
  rw [log]; exact ((approximates_iterate h hv (by decide)).exponent_lt hv).trans_eq (by norm_num)

/-! ## The entropy -/

theorem sum_modify {l : List Nat} {i : Nat} (h : i < l.length) :
    (l.modify i (· + 1)).sum = l.sum + 1 := by
  induction l generalizing i with
  | nil => cases h
  | cons x l ih =>
    cases i with
    | zero => exact add_right_comm x 1 l.sum
    | succ i =>
      rw [List.modify_succ_cons, List.sum_cons, ih (Nat.lt_of_succ_lt_succ h), List.sum_cons,
        add_assoc]

theorem sum_byteCounts (token : List UInt8) : (byteCounts token).sum = token.length := by
  suffices h : ∀ counts : List Nat, counts.length = 256 →
      (token.foldl (fun counts byte => counts.modify byte.toNat (· + 1)) counts).sum =
        counts.sum + token.length by
    rw [byteCounts, h _ List.length_replicate, List.sum_replicate, Nat.nsmul_eq_mul, mul_zero,
      zero_add]
  induction token with
  | nil => exact fun _ _ => rfl
  | cons byte token ih =>
    intro counts hc
    rw [List.foldl_cons, ih _ (by rw [List.length_modify, hc]), sum_modify (hc ▸ byte.toNat_lt)]
    rw [List.length_cons, add_assoc, add_comm 1]

/-- No count spends more for its bytes than the whole token has for them. -/
theorem foldlM_spend {len : Nat} {counts : List Nat} (hlen : len < 2 ^ 64)
    (hcounts : ∀ count ∈ counts, count ≠ 0) (hsum : counts.sum ≤ len) (spent : Nat)
    (hspent : spent + counts.sum * log 63 20 len < 2 ^ 128) :
    ∃ spent', counts.foldlM spend spent = some spent' ∧
      spent' ≤ spent + counts.sum * log 63 20 len := by
  induction counts generalizing spent with
  | nil => exact ⟨spent, rfl, Nat.le_add_right _ _⟩
  | cons count counts ih =>
    rw [List.forall_mem_cons] at hcounts
    rw [List.sum_cons] at hsum hspent ⊢
    have hmono : count * log 63 20 count ≤ count * log 63 20 len :=
      Nat.mul_le_mul_left _ (log_mono hcounts.1 (by omega))
    rw [add_mul] at hspent ⊢
    obtain ⟨spent', hrun, hle⟩ :=
      ih hcounts.2 (by omega) (spent + count * log 63 20 count) (by omega)
    refine ⟨spent', ?_, by omega⟩
    have hmul := exact_checked.mul (show count * log 63 20 count < 2 ^ 128 by omega)
    have hadd := exact_checked.add (show spent + count * log 63 20 count < 2 ^ 128 by omega)
    rw [List.foldlM_cons, spend, fixedLog2_eq hcounts.1 (by omega)]
    simpa only [Option.bind_eq_bind, Option.bind_some, hmul, hadd, Option.pure_def] using hrun

theorem entropySum_some (hne : token.length ≠ 0) (hlen : token.length < 2 ^ 64) :
    ∃ sum < 2 ^ 90, entropySum token = some sum := by
  have htotal : token.length * log 63 20 token.length < 2 ^ 64 * 2 ^ 26 :=
    Nat.mul_lt_mul_of_lt_of_lt hlen (log_lt hne hlen)
  have hsum : ((byteCounts token).filter (· != 0)).sum ≤ token.length :=
    (List.sum_filter_bne_zero _).trans_le (sum_byteCounts token).le
  have hspent := Nat.mul_le_mul_right (log 63 20 token.length) hsum
  obtain ⟨spent, hrun, hle⟩ := foldlM_spend hlen
    (fun _ hcount => bne_iff_ne.mp (List.mem_filter.mp hcount).2) hsum 0 (by omega)
  refine ⟨token.length * log 63 20 token.length - spent, by omega, ?_⟩
  have hmul := exact_checked.mul (show token.length * log 63 20 token.length < 2 ^ 128 by omega)
  simp only [entropySum, fixedLog2_eq hne hlen, hrun, hmul, Option.bind_eq_bind, Option.bind_some,
    Option.pure_def]
  exact exact_checked.sub (by omega)

theorem entropyBitsPerMille_isSome (hlen : token.length < 2 ^ 64) :
    (entropyBitsPerMille token).isSome := by
  unfold entropyBitsPerMille
  split_ifs with hempty
  · rfl
  · have hne : token.length ≠ 0 := by simpa using hempty
    obtain ⟨sum, hlt, hsum⟩ := entropySum_some hne hlen
    have hscale : token.length * entropyScale < 2 ^ 128 := by rw [entropyScale_eq]; omega
    simp [hsum, exact_checked.mul hscale, exact_checked.mul (show sum * 1000 < 2 ^ 128 by omega)]

theorem looksHighEntropyToken_isSome (hlen : token.length < 2 ^ 64) :
    (looksHighEntropyToken token).isSome := by
  unfold looksHighEntropyToken
  split_ifs with hshape hkinds
  · rfl
  · rfl
  · have hne : token.length ≠ 0 := by
      rintro hzero; simp [hzero] at hshape
    obtain ⟨sum, hlt, hsum⟩ := entropySum_some hne hlen
    have hscale : token.length * 42 * entropyScale < 2 ^ 128 := by rw [entropyScale_eq]; omega
    have hlow := exact_checked.mul (show token.length * 42 < 2 ^ 128 by omega)
    have hhigh := exact_checked.mul (show sum * 10 < 2 ^ 128 by omega)
    refine Option.isSome_iff_exists.mpr ⟨decide (token.length * 42 * entropyScale ≤ sum * 10), ?_⟩
    refine Option.bind_eq_some_iff.mpr ⟨_, hsum, ?_⟩
    refine Option.bind_eq_some_iff.mpr ⟨_, hlow, ?_⟩
    refine Option.bind_eq_some_iff.mpr ⟨_, exact_checked.mul hscale, ?_⟩
    exact Option.bind_eq_some_iff.mpr ⟨_, hhigh, rfl⟩

/-- The logarithm grows with its argument and falls behind the true one by less than two of its
units, which are `2⁻²⁰`. No operation leaves its word, and no token has counts that spend more than
the total. -/
theorem entropy_never_underflows :
    (∀ a b : Nat, 1 ≤ a → a ≤ b → b < 2 ^ 64 → ∃ la lb, fixedLog2 a = some la ∧
      fixedLog2 b = some lb ∧ la ≤ lb ∧ 2 ^ la ≤ a ^ 2 ^ 20 ∧ a ^ 2 ^ 20 < 2 ^ (la + 2)) ∧
    ∀ token : List UInt8, token.length < 2 ^ 64 →
      (entropyBitsPerMille token).isSome ∧ (looksHighEntropyToken token).isSome := by
  refine ⟨fun a b ha hab hb => ?_, fun token hlen =>
    ⟨entropyBitsPerMille_isSome hlen, looksHighEntropyToken_isSome hlen⟩⟩
  have hne : a ≠ 0 := by omega
  have hlt : a < 2 ^ 64 := by omega
  exact ⟨_, _, fixedLog2_eq hne hlt, fixedLog2_eq (by omega) hb, log_mono hne hab,
    log_bounds hne hlt (by decide)⟩

end TraceDecay.Privacy
