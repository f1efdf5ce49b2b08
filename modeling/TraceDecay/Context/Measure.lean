import TraceDecay.Context.Estimation

/-!
# Context.Measure

What the summaries mean. `plainTokens` is each policy's count on the whole text, with no mention
of fragments. `measured policy missed s` is the summary of `s` that has lost `missed` occurrences
of the pattern: `scan` yields it with the occurrences that straddle its chunks missing
(`scan_eq`), and `concatenate` adds up what its arguments missed and loses nothing of its own
(`concatenate_measured`).
-/

namespace TraceDecay.Context

open Utf8 Occurrences Runs Fallible Domain
open List hiding count count_nil

def isTokenChar (c : Char) : Bool := !isWhitespace c

def plainTokens : TokenPolicy → List Char → Nat
  | .whitespace, s => runs isTokenChar s
  | .characters, s => s.length
  | .substring pattern, s => count (encode pattern) (encode s)
  | .jsonDocument, s => if s.head? = some '\x7b' ∧ s.getLast? = some '\x7d' then 0 else 1

/-- The policy's pattern, if it has one, passes `validate_token_pattern`. -/
def TokenPolicy.Valid (policy : TokenPolicy) : Prop :=
  ∀ pattern, policy = .substring pattern → validateTokenPattern pattern = .ok ()

/-- The occurrences a scan of `s` does not see. -/
def missedBy : TokenPolicy → List Char → Nat
  | .substring pattern, s => count (encode pattern) (encode s) -
      chunkedCount (encode pattern) tokenScanChunkBytes (encode s)
  | _, _ => 0

def measured (policy : TokenPolicy) (missed : Nat) (s : List Char) : TokenSummary :=
  match policy with
  | .whitespace => .whitespace (runs isTokenChar s) (startsRun isTokenChar s)
      (endsRun isTokenChar s) s.isEmpty
  | .characters => .characters s.length
  | .substring pattern =>
    let keep := (encode pattern).length - 1
    .substring pattern (count (encode pattern) (encode s) - missed) ((encode s).take keep)
      ((encode s).drop ((encode s).length - keep)) (encode s).length
  | .jsonDocument => .jsonDocument s.head? s.getLast?

theorem validateTokenPattern_ok {p : List Char} (h : validateTokenPattern p = .ok ()) :
    p ≠ [] ∧ ∀ c ∈ p, c.toNat < 128 := by
  unfold validateTokenPattern at h
  split at h
  · cases h
  · rename_i hc
    simp only [not_or, not_not, all_eq_true, decide_eq_true_eq] at hc
    exact ⟨hc.1, hc.2.2⟩

theorem encode_ne_nil {p : List Char} (h : p ≠ []) : encode p ≠ [] := by
  intro hnil
  have hlen := length_le_encode p
  rw [hnil, length_nil] at hlen; exact h (length_eq_zero_iff.mp (by omega))

theorem TokenPolicy.Valid.encode_ne_nil {p : List Char} (hv : (TokenPolicy.substring p).Valid) :
    encode p ≠ [] := Context.encode_ne_nil (validateTokenPattern_ok (hv p rfl)).1

theorem checkedAdd_eq_ok {r : String} {a b c : Nat} :
    checkedAdd r a b = .ok c ↔ a + b < 2 ^ 64 ∧ a + b = c := by
  unfold checkedAdd
  split_ifs with h <;> simp only [h, Except.ok.injEq, true_and, false_and]

theorem checkedAdd_ok {r : String} {a b : Nat} (h : a + b < 2 ^ 64) :
    checkedAdd r a b = .ok (a + b) := if_pos h

/-! ## Scanning -/

theorem foldlM_of_append {α β : Type} {f : β → α → Except ContextError β} {g : List α → β}
    {s : List α} (h : ∀ pre c, pre ++ [c] <+: s → f (g pre) c = .ok (g (pre ++ [c]))) :
    s.foldlM f (g []) = .ok (g s) := by
  obtain ⟨r, hr, rfl⟩ := foldlM_ok (P := fun pre b => b = g pre) rfl
    fun pre c b hpre hb => ⟨_, hb ▸ h pre c hpre, rfl⟩
  exact hr

variable (s : List Char)

def wordsOf : TokenSummary.WordScan :=
  ⟨runs isTokenChar s, startsRun isTokenChar s, endsRun isTokenChar s, endsRun isTokenChar s,
    s.isEmpty⟩

theorem wordScan_step (c : Char) (h : (s ++ [c]).length < 2 ^ 64) :
    (wordsOf s).step c = .ok (wordsOf (s ++ [c])) := by
  have hr := runs_append isTokenChar s [c]
  have hle := runs_le_length isTokenChar s
  have hs : startsRun isTokenChar (s ++ [c]) =
      if s.isEmpty then isTokenChar c else startsRun isTokenChar s := by
    cases s <;> simp [startsRun]
  have hend : endsRun isTokenChar (s ++ [c]) = isTokenChar c := by simp [endsRun]
  have hone : runs isTokenChar [c] = (isTokenChar c).toNat := by
    cases hc : isTokenChar c <;> simp [← opened_false, opened, hc]
  have hsc : startsRun isTokenChar [c] = isTokenChar c := by simp [startsRun]
  simp only [length_append, length_singleton] at h
  unfold TokenSummary.WordScan.step wordsOf
  change (if isTokenChar c && !endsRun isTokenChar s then
    checkedAdd "token" (runs isTokenChar s) 1 else .ok (runs isTokenChar s)) >>= _ = _
  rw [checkedAdd_ok (by omega), hs, hend]
  cases hc : isTokenChar c <;> cases he : endsRun isTokenChar s <;>
    simp_all [bind, Except.bind, isTokenChar]

theorem scan_words (h : s.length < 2 ^ 64) :
    s.foldlM TokenSummary.WordScan.step {} = .ok (wordsOf s) := by
  refine foldlM_of_append (g := wordsOf) fun pre c hpre => wordScan_step pre c ?_
  have := hpre.length_le
  omega

theorem scan_characters (h : s.length < 2 ^ 64) :
    s.foldlM (fun count _ => checkedAdd "token" count 1) 0 = .ok s.length := by
  refine foldlM_of_append (g := List.length) fun pre c hpre => ?_
  have := hpre.length_le
  rw [length_append, length_singleton] at this ⊢; exact checkedAdd_ok (by omega)

theorem scan_edges : s.foldl (fun (e : Option Char × Option Char) character =>
      (if e.1.isNone then some character else e.1, some character)) (none, none) =
      (s.head?, s.getLast?) := by
  induction s using List.reverseRecOn with
  | nil => rfl
  | append_singleton s c ih =>
    rw [foldl_append, ih]
    cases s with
    | nil => rfl
    | cons d s => rw [getLast?_append]; simp

theorem countSubstrings_eq {p : List UInt8} (hp : p ≠ []) (bytes : List UInt8) :
    countSubstrings bytes p = count p bytes := by
  unfold countSubstrings
  split
  · rename_i hs
    refine (Nat.count_iff_forall_not.mpr fun i _ hocc => ?_).symm
    have := length_le_of_isPrefix_drop hp hocc
    omega
  · exact length_filter_windows hp bytes

theorem scan_chunks {p : List UInt8} (hp : p ≠ []) (ps : List (List UInt8))
    (h : (ps.map (count p)).sum < 2 ^ 64) :
    ps.foldlM (fun f chunk => checkedAdd "token" f (countSubstrings chunk p)) 0 =
      .ok (ps.map (count p)).sum := by
  refine foldlM_of_append (g := fun l => (l.map (count p)).sum) fun pre c hpre => ?_
  obtain ⟨rest, hr⟩ := hpre
  rw [countSubstrings_eq hp, checkedAdd_ok]
  · simp
  · rw [← hr] at h
    simp only [map_append, sum_append, map_cons, map_nil, sum_cons, sum_nil] at h; omega

variable {p : TokenPolicy}

theorem empty_eq (hv : p.Valid) : TokenSummary.empty p = .ok (measured p 0 []) := by
  cases p with
  | substring pattern => simp [TokenSummary.empty, hv pattern rfl, ok_bind, measured, count_nil]
  | _ => rfl

theorem scan_eq (hv : p.Valid) {s : List Char} (h : (encode s).length < 2 ^ 64) :
    TokenSummary.scan p s = .ok (measured p (missedBy p s) s) := by
  have hlen := length_le_encode s
  simp only [TokenSummary.scan, empty_eq hv, ok_bind]
  cases p with
  | whitespace => simp only [scan_words s (by omega), ok_bind]; rfl
  | characters => simp only [scan_characters s (by omega), ok_bind]; rfl
  | substring pattern =>
    have hp := hv.encode_ne_nil
    have hle := chunkedCount_le hp (n := tokenScanChunkBytes) (by decide) (encode s)
    have hc := count_le_length (encode pattern) (encode s)
    have hsum := scan_chunks hp (chunks tokenScanChunkBytes (encode s))
      (show chunkedCount _ _ _ < _ by omega)
    simp only [hsum, ok_bind, measured, missedBy, Except.ok.injEq, TokenSummary.substring.injEq,
      true_and, and_true]
    refine ⟨?_, ?_, ?_⟩
    · show chunkedCount _ _ _ = _
      omega
    · rw [← take_take, take_length]
    · congr 1; omega
  | jsonDocument => simp only [scan_edges]; rfl

/-! ## Joining -/

theorem countCrossingSubstrings_eq {p : List UInt8} (hp : p ≠ []) (left right : List UInt8) :
    countCrossingSubstrings (left ++ right) left.length p = cross p left right := by
  unfold countCrossingSubstrings
  split
  · rename_i hs
    refine (cross_eq_zero_iff.mpr fun i _ _ hocc => ?_).symm
    have := length_le_of_isPrefix_drop hp hocc
    omega
  · exact length_filter_windows_cross hp left right

theorem join_prefix (a b : List UInt8) (keep : Nat) : (if a.length ≥ min keep (a.length + b.length)
      then (a.take keep).take (min keep (a.length + b.length))
      else a.take keep ++
        (b.take keep).take (min keep (a.length + b.length) - (a.take keep).length)) =
      (a ++ b).take keep := by
  rw [take_append]
  split_ifs with h
  · by_cases hb : b = []
    · subst hb; simp [take_take]
    · have hpos : 0 < b.length := length_pos_of_ne_nil hb
      rw [take_take, Nat.sub_eq_zero_of_le (by omega), take_zero, append_nil]
      congr 1
      omega
  · rw [take_take, take_of_length_le (show a.length ≤ keep by omega)]
    congr 1
    rw [take_eq_take_iff]; omega

theorem join_suffix (a b : List UInt8) (keep : Nat) : (if b.length ≥ min keep (a.length + b.length)
      then (b.drop (b.length - keep)).take (min keep (a.length + b.length))
      else (a.drop (a.length - keep)).drop ((a.drop (a.length - keep)).length -
        (min keep (a.length + b.length) - (b.drop (b.length - keep)).length)) ++
          b.drop (b.length - keep)) =
      (a ++ b).drop ((a ++ b).length - keep) := by
  rw [length_append, drop_append]
  split_ifs with h
  · have hl : a.drop (a.length + b.length - keep) = [] := drop_eq_nil_of_le (by omega)
    rw [take_of_length_le (by rw [length_drop]; omega), hl, nil_append]
    congr 1
    omega
  · rw [drop_drop, length_drop, length_drop]
    congr 2 <;> omega

def occurrencesIn : TokenPolicy → List Char → Nat
  | .substring pattern, s => count (encode pattern) (encode s)
  | _, _ => 0

theorem missedBy_le (p : TokenPolicy) (s : List Char) : missedBy p s ≤ occurrencesIn p s := by
  cases p with
  | substring pattern => exact Nat.sub_le _ _
  | _ => exact Nat.le_refl 0

theorem concatenate_measured (hv : p.Valid) {a b : List Char}
    {ka kb : Nat} (hka : ka ≤ occurrencesIn p a) (hkb : kb ≤ occurrencesIn p b)
    (hlen : (encode (a ++ b)).length < 2 ^ 64) :
    (measured p ka a).concatenate (measured p kb b) = .ok (measured p (ka + kb) (a ++ b)) := by
  have hc := length_le_encode (a ++ b)
  rw [length_append] at hc
  cases p with
  | whitespace =>
    simp only [measured, TokenSummary.concatenate]
    by_cases ha : a = []
    · subst ha; simp
    by_cases hb : b = []
    · subst hb; simp [ha]
    have hj := runs_append isTokenChar a b
    have hla := runs_le_length isTokenChar a
    have hlb := runs_le_length isTokenChar b
    simp only [List.isEmpty_iff, ha, hb, if_false, checkedAdd_ok (show
      runs isTokenChar a + runs isTokenChar b < 2 ^ 64 by omega), ok_bind]
    rw [if_neg (by omega)]
    have hs : startsRun isTokenChar (a ++ b) = startsRun isTokenChar a := by
      unfold startsRun
      rw [head?_append_of_ne_nil _ ha]
    have hend : endsRun isTokenChar (a ++ b) = endsRun isTokenChar b := by
      unfold endsRun
      rw [getLast?_append_of_ne_nil _ hb]
    rw [hs, hend]
    simp only [Except.ok.injEq, TokenSummary.whitespace.injEq, true_and]
    refine ⟨by omega, ?_⟩
    simp [ha]
  | characters =>
    simp only [measured, TokenSummary.concatenate, checkedAdd_ok (show
      a.length + b.length < 2 ^ 64 by omega), ok_bind, length_append]
  | substring pattern =>
    have hp := hv.encode_ne_nil
    have hpos : 0 < (encode pattern).length := length_pos_of_ne_nil hp
    rw [encode_append, length_append] at hlen
    have hcount := count_append hp (encode a) (encode b)
    have hall := count_le_length (encode pattern) (encode (a ++ b))
    rw [encode_append, length_append] at hall
    simp only [occurrencesIn] at hka hkb
    have hcross : countCrossingSubstrings ((encode a).drop ((encode a).length -
          ((encode pattern).length - 1)) ++ (encode b).take ((encode pattern).length - 1))
        ((encode a).drop ((encode a).length - ((encode pattern).length - 1))).length
          (encode pattern) = cross (encode pattern) (encode a) (encode b) := by
      rw [countCrossingSubstrings_eq hp]; exact cross_edges (by omega) _ _
    simp only [measured, TokenSummary.concatenate, if_true, hcross, encode_append]
    rw [checkedAdd_ok hlen, ok_bind, checkedAdd_ok (by omega), ok_bind, checkedAdd_ok (by omega),
      ok_bind, join_prefix, join_suffix, length_append]
    simp only [Except.ok.injEq, TokenSummary.substring.injEq, true_and, and_true]; omega
  | jsonDocument => simp only [measured, TokenSummary.concatenate, head?_append, getLast?_append]

end TraceDecay.Context
