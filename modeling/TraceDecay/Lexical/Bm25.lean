import Mathlib.Tactic.Linarith
import Mathlib.Tactic.Ring
import TraceDecay.Lib.Arith

/-!
# Lexical.Bm25

The fixed-point BM25 score (`bm25_score_micros` in `lexical/projection.rs`). The logarithm halves its
argument into `[1, 2)` and sums eight terms of `2 artanh z`; what the halvings took is added back in
units of `ln 2`. All eight terms are rounded down, so at the end of the range the sum is still at
most one such unit (`artanh_le_ln2`), and the logarithm grows across every halving.
-/

namespace TraceDecay.Lexical

open Arith Nat

section Score

variable {m : Type → Type} [Monad m] (A : Arith m)

def scale : Nat := 2 ^ 40

def ln2Scaled : Nat := 762123384786

/-- The halving loop; a `u128` is halved at most 128 times. -/
def halve (limit : Nat) : Nat → Nat → Nat → Nat × Nat
  | 0, ratio, powersOfTwo => (ratio, powersOfTwo)
  | fuel + 1, ratio, powersOfTwo =>
    if limit ≤ ratio then halve limit fuel (ratio / 2) (powersOfTwo + 1) else (ratio, powersOfTwo)

def series (zSquared : Nat) : List Nat → Nat → Nat → m Nat
  | [], _, sum => pure sum
  | divisor :: divisors, term, sum => do
    let term := (← A.mul 128 term zSquared) / scale
    series zSquared divisors term (← A.add 128 sum (term / divisor))

/-- The sum of the eight terms. -/
def artanh (ratio : Nat) : m Nat := do
  let z := (← A.mul 128 (← A.sub ratio scale) scale) / max (← A.add 128 ratio scale) 1
  let zSquared := (← A.mul 128 z z) / scale
  series A zSquared [3, 5, 7, 9, 11, 13, 15] z z

def fixedLnRatioMicros (numerator denominator : Nat) : m Nat := do
  let ratio := (← A.mul 128 numerator scale) / max denominator 1
  let halved := halve (← A.mul 128 scale 2) 128 ratio 0
  let sum ← artanh A halved.1
  let scaled ← A.add 128 (← A.mul 128 sum 2) (← A.mul 128 halved.2 ln2Scaled)
  return min ((← A.mul 128 scaled 1000000) / scale) (2 ^ 64 - 1)

def bm25K1Millis : Nat := 1200

def bm25BMillis : Nat := 750

def idfMicros (documentCount documentFrequency : Nat) : m Nat := do
  fixedLnRatioMicros A (← A.add 64 (← A.mul 64 documentCount 2) 2)
    (← A.add 64 (← A.mul 64 documentFrequency 2) 1)

def tfMicros (termFrequency documentLength averageLength : Nat) : m Nat := do
  let lengthRatioMillis := (← A.mul 128 documentLength 1000) / max averageLength 1
  let normalizationMillis :=
    (1000 - bm25BMillis) + (← A.mul 128 bm25BMillis lengthRatioMillis) / 1000
  let denominatorMillis := (← A.mul 128 termFrequency 1000) +
    (← A.mul 128 bm25K1Millis normalizationMillis) / 1000
  return (← A.mul 128 (← A.mul 128 termFrequency (bm25K1Millis + 1000)) 1000000) /
    max denominatorMillis 1

def bm25ScoreMicros (documentCount documentFrequency termFrequency documentLength averageLength
    fieldWeightMillis : UInt64) : m Nat := do
  if documentCount = 0 ∨ documentFrequency = 0 ∨ termFrequency = 0 then
    return 0
  let idf ← idfMicros A documentCount.toNat documentFrequency.toNat
  let tf ← tfMicros A termFrequency.toNat documentLength.toNat averageLength.toNat
  let score := (← A.mul 128 (← A.mul 128 idf tf) fieldWeightMillis.toNat) / 1000000 / 1000
  return min score (2 ^ 64 - 1)

end Score

/-! ## The logarithm -/

theorem halve_eq {fuel r ps : Nat} (h : r < 2 ^ (41 + fuel)) :
    ∃ p ≤ fuel, halve (scale * 2) fuel r ps = (r / 2 ^ p, ps + p) ∧
      r / 2 ^ p < scale * 2 ∧ (p = 0 ∨ scale ≤ r / 2 ^ p) := by
  induction fuel generalizing r ps with
  | zero => exact ⟨0, le_rfl, by simp [halve], by simpa [scale] using h, .inl rfl⟩
  | succ fuel ih =>
    rw [← add_assoc, pow_succ'] at h
    unfold halve
    by_cases hr : scale * 2 ≤ r
    · obtain ⟨p, hle, hp, hlt, hge⟩ := @ih (r / 2) (ps + 1) (by omega)
      rw [Nat.div_div_eq_div_mul, ← pow_succ'] at hp hlt hge
      refine ⟨p + 1, by omega, ?_, hlt, .inr ?_⟩
      · rw [if_pos hr, hp, add_assoc, add_comm 1 p]
      · rcases hge with rfl | hge
        · rw [zero_add, pow_one]; omega
        · exact hge
    · exact ⟨0, by omega, by simp [if_neg hr], by simpa using hr, .inl rfl⟩

theorem halve_spec {r : Nat} (h : r < 2 ^ 104) :
    ∃ p ≤ 128, halve (scale * 2) 128 r 0 = (r / 2 ^ p, p) ∧
      r / 2 ^ p < scale * 2 ∧ (p = 0 ∨ scale ≤ r / 2 ^ p) := by
  simpa only [zero_add] using @halve_eq 128 r 0 (h.trans (by decide))

theorem series_mono {x x' : Nat} (hx : x ≤ x') {ds : List Nat} {t t' s s' : Nat} (ht : t ≤ t')
    (hs : s ≤ s') : (series unbounded x ds t s).run ≤ (series unbounded x' ds t' s').run := by
  induction ds generalizing t t' s s' with
  | nil => exact hs
  | cons d ds ih =>
    have hterm : t * x / scale ≤ t' * x' / scale := Nat.div_le_div_right (Nat.mul_le_mul ht hx)
    exact ih hterm (Nat.add_le_add hs (Nat.div_le_div_right hterm))

theorem div_mono {a b c d : Nat} (hd : 0 < d) (h : a * d ≤ c * b) : a / b ≤ c / d := by
  rcases Nat.eq_zero_or_pos b with rfl | hb
  · simp
  rw [le_div_iff_mul_le hd]
  refine le_of_mul_le_mul_right ?_ hb
  calc a / b * d * b = a / b * b * d := mul_right_comm _ _ _
    _ ≤ a * d := mul_le_mul_right d (div_mul_le_self a b)
    _ ≤ c * b := h

theorem z_mono {r r' : Nat} (h : r ≤ r') :
    (r - scale) * scale / max (r + scale) 1 ≤ (r' - scale) * scale / max (r' + scale) 1 := by
  have hs : 1 ≤ scale := by decide
  rw [max_eq_left (by omega), max_eq_left (by omega)]
  refine div_mono (by omega) ?_
  rcases le_total scale r with hr | hr
  · obtain ⟨a, rfl⟩ := Nat.exists_eq_add_of_le hr
    obtain ⟨b, rfl⟩ := Nat.exists_eq_add_of_le h
    rw [Nat.add_sub_cancel_left, show scale + a + b - scale = a + b by omega]
    have : 0 ≤ b * scale := zero_le _
    nlinarith
  · simp [Nat.sub_eq_zero_of_le hr]

theorem artanh_mono {r r' : Nat} (h : r ≤ r') :
    (artanh unbounded r).run ≤ (artanh unbounded r').run := by
  have hz := z_mono h
  unfold artanh; exact series_mono (Nat.div_le_div_right (Nat.mul_le_mul hz hz)) hz hz

theorem artanh_le_ln2 {r : Nat} (h : r < scale * 2) : (artanh unbounded r).run * 2 ≤ ln2Scaled :=
  calc (artanh unbounded r).run * 2 ≤ (artanh unbounded (scale * 2 - 1)).run * 2 :=
        mul_le_mul_right 2 (artanh_mono (le_sub_one_of_lt h))
    _ ≤ ln2Scaled := by decide +kernel

/-- The value before it is turned into millionths. -/
def lnScaled (ratio : Nat) : Nat :=
  (artanh unbounded (halve (scale * 2) 128 ratio 0).1).run * 2 +
    (halve (scale * 2) 128 ratio 0).2 * ln2Scaled

theorem lnScaled_mono {r r' : Nat} (h : r ≤ r') (hr : r' < 2 ^ 104) : lnScaled r ≤ lnScaled r' := by
  obtain ⟨p, -, hp, hlt, hge⟩ := halve_spec (h.trans_lt hr)
  obtain ⟨q, -, hq, hlt', -⟩ := halve_spec hr
  rw [lnScaled, lnScaled, hp, hq]
  dsimp only
  rcases lt_trichotomy p q with hpq | rfl | hpq
  · -- the whole first sum is at most one unit, of which the second has more
    have hsum := artanh_le_ln2 hlt
    have hunits : (p + 1) * ln2Scaled ≤ q * ln2Scaled := mul_le_mul_right _ hpq
    rw [succ_mul] at hunits; omega
  · have := artanh_mono (Nat.div_le_div_right (c := 2 ^ p) h); omega
  · -- fewer halvings were enough for the larger ratio
    have hbig : scale * 2 ^ p ≤ r :=
      (le_div_iff_mul_le (by positivity)).mp (hge.resolve_left (by omega))
    have hsmall : r' < scale * 2 * 2 ^ q := (div_lt_iff_lt_mul (by positivity)).mp hlt'
    have hpow : 2 * 2 ^ q ≤ 2 ^ p := by rw [← pow_succ']; exact Nat.pow_le_pow_right (by decide) hpq
    have := mul_le_mul_left scale hpow
    rw [← mul_assoc] at this; omega

theorem lnScaled_le {r : Nat} (hr : r < 2 ^ 104) : lnScaled r ≤ 129 * ln2Scaled := by
  obtain ⟨p, hle, hp, hlt, -⟩ := halve_spec hr
  have hsum := artanh_le_ln2 hlt
  have hunits := mul_le_mul_right ln2Scaled hle
  rw [lnScaled, hp]
  dsimp only
  omega

/-- The logarithm without bounds. -/
def lnMicros (numerator denominator : Nat) : Nat :=
  min (lnScaled (numerator * scale / max denominator 1) * 1000000 / scale) (2 ^ 64 - 1)

variable {n d : Nat}

theorem ratio_lt (hn : n < 2 ^ 64) : n * scale / max d 1 < 2 ^ 104 :=
  (div_le_self _ _).trans_lt (by unfold scale; omega)

theorem lnMicros_mono {n n' d d' : Nat} (hn : n ≤ n') (hd : d' ≤ d) (hn' : n' < 2 ^ 64) :
    lnMicros n d ≤ lnMicros n' d' := by
  have hr : n * scale / max d 1 ≤ n' * scale / max d' 1 :=
    Nat.div_le_div (Nat.mul_le_mul_right _ hn) (max_le_max_right 1 hd) (by omega)
  exact min_le_min_right _ (Nat.div_le_div_right (Nat.mul_le_mul_right _
    (lnScaled_mono hr (ratio_lt hn'))))

theorem lnMicros_lt (hn : n < 2 ^ 64) : lnMicros n d < 2 ^ 27 := by
  refine (min_le_left _ _).trans_lt ?_
  rw [div_lt_iff_lt_mul (by decide)]
  have hle := lnScaled_le (ratio_lt (d := d) hn)
  rw [ln2Scaled] at hle
  have hs : scale = 2 ^ 40 := rfl
  omega

section Exact

variable {m : Type → Type} [Monad m] [LawfulMonad m] {A : Arith m} (hA : Exact A)
include hA

theorem series_exact {x : Nat} (hx : x ≤ scale) {ds : List Nat} {t s : Nat} (ht : t ≤ scale)
    (hs : s + ds.length * scale < 2 ^ 128) :
    series A x ds t s = pure (series unbounded x ds t s).run := by
  induction ds generalizing t s with
  | nil => rfl
  | cons d ds ih =>
    have hmul : t * x ≤ scale * scale := Nat.mul_le_mul ht hx
    have hterm : t * x / scale ≤ scale := Nat.div_le_of_le_mul hmul
    have hquot := div_le_self (t * x / scale) d
    rw [List.length_cons, succ_mul] at hs
    unfold series
    rw [hA.mul (hmul.trans_lt (by decide)), pure_bind]
    dsimp only
    rw [hA.add (by omega), pure_bind]; exact ih hterm (by omega)

theorem artanh_exact {r : Nat} (hr : r < scale * 2) (hsub : A.sub r scale = pure (r - scale)) :
    artanh A r = pure (artanh unbounded r).run := by
  have hz : (r - scale) * scale / max (r + scale) 1 ≤ scale :=
    Nat.div_le_of_le_mul (Nat.mul_le_mul_right _ (by omega))
  have hmul : (r - scale) * scale ≤ scale * scale := Nat.mul_le_mul_right _ (by omega)
  have hsq := Nat.mul_le_mul hz hz
  unfold artanh
  rw [hsub, pure_bind, hA.mul (hmul.trans_lt (by decide)), pure_bind,
    hA.add (by unfold scale at hr ⊢; omega), pure_bind]
  dsimp only
  rw [hA.mul (hsq.trans_lt (by decide)), pure_bind]
  refine series_exact hA (Nat.div_le_of_le_mul hsq) hz ?_
  simp only [List.length_cons, List.length_nil]
  unfold scale at hz ⊢; omega

/-- The subtraction is exact when it never saturates or when the ratio is at least one. -/
theorem fixedLnRatioMicros_exact (hn : n < 2 ^ 64)
    (hsub : (∀ a b, A.sub a b = pure (a - b)) ∨ max d 1 ≤ n) :
    fixedLnRatioMicros A n d = pure (lnMicros n d) := by
  have hr := ratio_lt (d := d) hn
  have hle := lnScaled_le hr
  obtain ⟨p, -, hp, hlt, hge⟩ := halve_spec hr
  have hsub' : A.sub (n * scale / max d 1 / 2 ^ p) scale =
      pure (n * scale / max d 1 / 2 ^ p - scale) := by
    rcases hsub with h | h
    · exact h _ _
    · refine hA.sub ?_
      rcases hge with rfl | hge
      · rw [pow_zero, Nat.div_one, Nat.le_div_iff_mul_le (by omega), Nat.mul_comm]
        exact mul_le_mul_right _ h
      · exact hge
  rw [lnScaled, hp] at hle
  dsimp only at hle
  have hnum : ln2Scaled = 762123384786 := rfl
  unfold fixedLnRatioMicros
  rw [hA.mul (by unfold scale; omega), pure_bind, hA.mul (by decide), pure_bind, hp]
  dsimp only
  rw [artanh_exact hA hlt hsub', pure_bind, hA.mul (by omega), pure_bind, hA.mul (by omega),
    pure_bind, hA.add (by omega), pure_bind, hA.mul (by omega), pure_bind, lnMicros, lnScaled, hp]

/-! ## The score -/

theorem tfMicros_exact {t l a : Nat} (ht : t < 2 ^ 64) (hl : l < 2 ^ 64) :
    tfMicros A t l a = pure (tfMicros unbounded t l a).run := by
  have hratio : l * 1000 / max a 1 ≤ l * 1000 := div_le_self _ _
  unfold tfMicros bm25BMillis bm25K1Millis
  rw [hA.mul (by omega), pure_bind]
  dsimp only
  rw [hA.mul (by omega), pure_bind, hA.mul (by omega), pure_bind, hA.mul (by omega), pure_bind,
    hA.mul (by omega), pure_bind, hA.mul (by omega), pure_bind]
  rfl

end Exact

/-- What the length of the document adds to the denominator. -/
def lengthMillis (length average : Nat) : Nat :=
  1200 * (250 + 750 * (length * 1000 / max average 1) / 1000) / 1000

theorem tfMicros_run (t l a : Nat) : (tfMicros unbounded t l a).run =
    t * 2200 * 1000000 / max (t * 1000 + lengthMillis l a) 1 := rfl

theorem tfMicros_mono {t t' l l' a : Nat} (ht : t ≤ t') (hl : l' ≤ l) :
    (tfMicros unbounded t l a).run ≤ (tfMicros unbounded t' l' a).run := by
  have hlen : lengthMillis l' a ≤ lengthMillis l a := by
    unfold lengthMillis
    gcongr
  have hpos : 1 ≤ lengthMillis l' a := by unfold lengthMillis; omega
  rw [tfMicros_run, tfMicros_run, max_eq_left (by omega), max_eq_left (by omega)]
  refine div_mono (by omega) ?_
  calc t * 2200 * 1000000 * (t' * 1000 + lengthMillis l' a) =
        2200 * 1000000 * (t * t' * 1000 + t * lengthMillis l' a) := by ring
    _ ≤ 2200 * 1000000 * (t * t' * 1000 + t' * lengthMillis l a) := by gcongr
    _ = t' * 2200 * 1000000 * (t * 1000 + lengthMillis l a) := by ring

theorem tfMicros_le (t l a : Nat) : (tfMicros unbounded t l a).run ≤ 2200000 := by
  refine Nat.div_le_of_le_mul ?_
  calc t * 2200 * 1000000 = t * 1000 * 2200000 := by ring
    _ ≤ max (t * 1000 + lengthMillis l a) 1 * 2200000 :=
      mul_le_mul_right _ ((le_add_right _ _).trans (le_max_left _ _))

def weighted (idf tf weight : Nat) : Nat := min (idf * tf * weight / 1000000 / 1000) (2 ^ 64 - 1)

theorem weighted_mono {i i' t t' : Nat} (hi : i ≤ i') (ht : t ≤ t') (w : Nat) :
    weighted i t w ≤ weighted i' t' w := by
  unfold weighted
  gcongr

section Scores

variable {m : Type → Type} [Monad m] [LawfulMonad m] {A : Arith m}
  {documentCount documentFrequency termFrequency documentLength averageLength weight : UInt64}

theorem bm25ScoreMicros_exact (hA : Exact A) (hn : n < 2 ^ 64)
    (hidf : idfMicros A documentCount.toNat documentFrequency.toNat = pure (lnMicros n d)) :
    bm25ScoreMicros A documentCount documentFrequency termFrequency documentLength averageLength
        weight =
      pure (if documentCount = 0 ∨ documentFrequency = 0 ∨ termFrequency = 0 then 0 else
        weighted (lnMicros n d)
          (tfMicros unbounded termFrequency.toNat documentLength.toNat averageLength.toNat).run
          weight.toNat) := by
  unfold bm25ScoreMicros
  split
  · rfl
  have hi := lnMicros_lt (d := d) hn
  have ht := tfMicros_le termFrequency.toNat documentLength.toNat averageLength.toNat
  have hmul := Nat.mul_le_mul hi.le ht
  have hscore := Nat.mul_le_mul hmul weight.toNat_lt.le
  rw [hidf, pure_bind, tfMicros_exact hA termFrequency.toNat_lt documentLength.toNat_lt, pure_bind,
    hA.mul (hmul.trans_lt (by decide)), pure_bind, hA.mul (hscore.trans_lt (by decide)), pure_bind]
  rfl

end Scores

/-- What the doubled count and frequency are as `u64`. -/
def doubled (value offset : Nat) : Nat := min (min (value * 2) (2 ^ 64 - 1) + offset) (2 ^ 64 - 1)

theorem doubled_lt (v o : Nat) : doubled v o < 2 ^ 64 := by
  unfold doubled; omega

theorem idfMicros_saturating (c f : Nat) :
    idfMicros saturating c f = pure (lnMicros (doubled c 2) (doubled f 1)) := by
  unfold idfMicros
  exact fixedLnRatioMicros_exact exact_saturating (doubled_lt c 2) (.inl fun _ _ => rfl)

theorem idfMicros_checked {c f : Nat} (hc : c < 2 ^ 63 - 1) (hf : f ≤ c) :
    idfMicros checked c f = pure (lnMicros (doubled c 2) (doubled f 1)) := by
  have hcount : doubled c 2 = c * 2 + 2 := by unfold doubled; omega
  have hfrequency : doubled f 1 = f * 2 + 1 := by unfold doubled; omega
  rw [hcount, hfrequency]
  unfold idfMicros
  rw [exact_checked.mul (by omega), pure_bind, exact_checked.add (by omega), pure_bind,
    exact_checked.mul (by omega), pure_bind, exact_checked.add (by omega), pure_bind]
  exact fixedLnRatioMicros_exact exact_checked (by omega) (.inr (by omega))

/-- The code. -/
abbrev scoreMicros (documentCount documentFrequency termFrequency documentLength averageLength
    fieldWeightMillis : UInt64) : Nat :=
  (bm25ScoreMicros saturating documentCount documentFrequency termFrequency documentLength
    averageLength fieldWeightMillis).run

abbrev lnRatioMicros (numerator denominator : UInt64) : Nat :=
  (fixedLnRatioMicros saturating numerator.toNat denominator.toNat).run

theorem ite_zero_mono {c c' : Prop} [Decidable c] [Decidable c'] {a a' : Nat} (hc : c' → c)
    (ha : a ≤ a') : (if c then 0 else a) ≤ if c' then 0 else a' := by
  split
  · exact zero_le _
  · rwa [if_neg (mt hc ‹_›)]

theorem lnRatioMicros_eq (n d : UInt64) : lnRatioMicros n d = lnMicros n.toNat d.toNat := by
  rw [lnRatioMicros, fixedLnRatioMicros_exact exact_saturating n.toNat_lt (.inl fun _ _ => rfl),
    Id.run_pure]

theorem scoreMicros_eq (c f term l a weight : UInt64) : scoreMicros c f term l a weight =
      if c = 0 ∨ f = 0 ∨ term = 0 then 0 else
        weighted (lnMicros (doubled c.toNat 2) (doubled f.toNat 1))
          (tfMicros unbounded term.toNat l.toNat a.toNat).run weight.toNat := by
  rw [scoreMicros, bm25ScoreMicros_exact exact_saturating (doubled_lt _ _)
    (idfMicros_saturating _ _), Id.run_pure]

/-- The score grows with the term frequency and falls with the document frequency and the length,
the logarithm grows with its numerator and falls with its denominator, and where the frequency is at
most the count and the doubled count fits no operation saturates. -/
theorem bm25_score_monotone (count frequency term length average weight : UInt64) :
    (∀ term', term ≤ term' → scoreMicros count frequency term length average weight ≤
      scoreMicros count frequency term' length average weight) ∧
    (∀ frequency', 1 ≤ frequency → frequency ≤ frequency' →
      scoreMicros count frequency' term length average weight ≤
        scoreMicros count frequency term length average weight) ∧
    (∀ length', length ≤ length' → scoreMicros count frequency term length' average weight ≤
      scoreMicros count frequency term length average weight) ∧
    (∀ n n' d, n ≤ n' → lnRatioMicros n d ≤ lnRatioMicros n' d) ∧
    (∀ n d d', d ≤ d' → lnRatioMicros n d' ≤ lnRatioMicros n d) ∧
    (frequency ≤ count → count.toNat < 2 ^ 63 - 1 →
      bm25ScoreMicros checked count frequency term length average weight =
        some (scoreMicros count frequency term length average weight)) := by
  refine ⟨fun term' ht => ?_, fun frequency' hpos hf => ?_, fun length' hl => ?_, fun n n' d hn => ?_,
    fun n d d' hd => ?_, fun hf hc => ?_⟩
  · rw [scoreMicros_eq, scoreMicros_eq]
    have hzero : term' = 0 → term = 0 := fun h => UInt64.le_zero_iff.mp (h ▸ ht)
    exact ite_zero_mono (fun h => h.imp_right (Or.imp_right hzero)) (weighted_mono le_rfl
      (tfMicros_mono (UInt64.le_iff_toNat_le.mp ht) le_rfl) _)
  · rw [scoreMicros_eq, scoreMicros_eq]
    have hzero : frequency = 0 → frequency' = 0 := fun h => by simp [h] at hpos
    have hdoubled : doubled frequency.toNat 1 ≤ doubled frequency'.toNat 1 := by
      have := UInt64.le_iff_toNat_le.mp hf
      unfold doubled; omega
    exact ite_zero_mono (fun h => h.imp_right (Or.imp_left hzero)) (weighted_mono
      (lnMicros_mono le_rfl hdoubled (doubled_lt _ _)) le_rfl _)
  · rw [scoreMicros_eq, scoreMicros_eq]
    exact ite_zero_mono id (weighted_mono le_rfl
      (tfMicros_mono le_rfl (UInt64.le_iff_toNat_le.mp hl)) _)
  · rw [lnRatioMicros_eq, lnRatioMicros_eq]
    exact lnMicros_mono (UInt64.le_iff_toNat_le.mp hn) le_rfl n'.toNat_lt
  · rw [lnRatioMicros_eq, lnRatioMicros_eq]
    exact lnMicros_mono le_rfl (UInt64.le_iff_toNat_le.mp hd) n.toNat_lt
  · rw [scoreMicros_eq]
    exact bm25ScoreMicros_exact exact_checked (doubled_lt _ _)
      (idfMicros_checked hc (UInt64.le_iff_toNat_le.mp hf))

/-- Doubling a count of `2 ^ 63` saturates, and so does the subtraction for a frequency above the
count. -/
theorem bm25_score_saturates : bm25ScoreMicros checked 0x8000000000000000 1 1 1 1 1 = none ∧
      bm25ScoreMicros checked 1 2 1 1 1 1 = none := by
  decide +kernel

end TraceDecay.Lexical
