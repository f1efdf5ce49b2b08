import TraceDecay.Context.WireCorrect

/-!
# Context.Accounting

When token accounting is exact. `Accounts policy a b` is what the summaries are for: scanning the
whole is joining the scans of the parts, the count is the policy's plain one, and the streaming
writer reports the same measure for every way of writing the bytes. The word, character and
document policies always account so; the substring policy does exactly when no occurrence of the
pattern lies across a byte offset at which a scan changes chunks (`accounts_iff`).
-/

namespace TraceDecay.Context

open Utf8 Occurrences Fallible StreamingWriter
open List hiding count count_nil
open TokenSummary (scan)

/-- The longest string Rust can hold, `isize::MAX` bytes. -/
def maxStrBytes : Nat := 2 ^ 63 - 1

structure Accounts (policy : TokenPolicy) (a b : List Char) : Prop where
  joins : (do
    let left ← scan policy a
    let right ← scan policy b
    left.concatenate right) = scan policy (a ++ b)
  plain : (scan policy (a ++ b)).map TokenSummary.tokens = .ok (plainTokens policy (a ++ b))
  streams : ∀ writes : List (List UInt8), writes.flatten = encode (a ++ b) →
    measureWrites policy writes =
      (scan policy (a ++ b)).map (WireMeasure.mk (encode (a ++ b)).length)

/-- No scan can have an occurrence of the pattern across a change of chunks: not the scans of the
whole or of the right part, and not those of the fragments the streaming writer may form. -/
def NoHiddenMatch (policy : TokenPolicy) (a b : List Char) : Prop :=
  ∀ pattern, policy = .substring pattern →
    ¬ Straddles (encode pattern) tokenScanChunkBytes (encode (a ++ b)) ∧
    ¬ Straddles (encode pattern) tokenScanChunkBytes (encode b) ∧
    ∀ rest, FragmentStart (a ++ b) rest → ¬ CutsPattern pattern rest

variable {policy : TokenPolicy}

theorem wireMeasure_empty (hv : policy.Valid) :
    WireMeasure.empty policy = .ok ⟨0, measured policy 0 []⟩ := by
  rw [WireMeasure.empty, empty_eq hv, ok_bind]

theorem measuring_feeds (hv : policy.Valid) (text : List Char) :
    ∃ w, measuring policy = .ok w ∧ Feeding policy false w [] text 0 ∧ w.pending = [] ∧
      w.measure.bytes = 0 := by
  refine ⟨⟨⟨0, measured policy 0 []⟩, none, [], false, policy⟩, ?_, ?_, rfl, rfl⟩
  · rw [measuring, wireMeasure_empty hv, ok_bind]
  · exact ⟨rfl, rfl, rfl, Nat.zero_le _, rfl, nil_prefix⟩

variable {text s : List Char} {k : Nat}

theorem measureWrites_eq (hv : policy.Valid) (hb : (encode text).length < 2 ^ 64)
    {ws : List (List UInt8)} (hw : ws.flatten = encode text) :
    ∃ missed, measureWrites policy ws = .ok ⟨(encode text).length, measured policy missed text⟩ ∧
      (StreamsWhole policy text → missed = 0) := by
  obtain ⟨w, hnew, hf, he, hz⟩ := measuring_feeds hv text
  have hfed : Fed policy false text w [] 0 :=
    ⟨[], text, hf, .start, rfl, by simp [he], by simp [he, tokenScanChunkBytes]⟩
  obtain ⟨w', missed, hrun, hbytes, hf', -, hsame⟩ :=
    writeAll_feeds hv hb ws hfed (by simpa using hz) (by simp [hw])
  rw [nil_append, hw] at hbytes hf'
  refine ⟨missed, ?_, hsame⟩
  simp only [measureWrites, hnew, ok_bind, hrun, (finish_fed hv hb hf' hbytes).1]

theorem encode_ascii {p : List Char} (h : ∀ c ∈ p, c.toNat < 128) :
    ∀ b ∈ encode p, b.toNat < 128 := by
  intro b hb
  obtain ⟨c, hc, hbc⟩ := mem_flatMap.mp hb
  have hv : c.val.toNat ≤ 127 := Nat.le_of_lt_succ (h c hc)
  simp only [String.utf8EncodeChar, if_pos hv, mem_singleton] at hbc
  subst hbc
  simp only [UInt8.toNat_ofNat']; omega

theorem missedBy_pos_of_cut {pattern rest : List Char} (hv : (TokenPolicy.substring pattern).Valid)
    {i : Nat} (hocc : encode pattern <+: (encode rest).drop i) (hlo : i < tokenScanChunkBytes)
    (hhi : tokenScanChunkBytes < i + (encode pattern).length) :
    0 < missedBy (.substring pattern) (wholeChars (i + (encode pattern).length) rest) := by
  obtain ⟨-, ha⟩ := validateTokenPattern_ok (hv pattern rfl)
  have hp := hv.encode_ne_nil
  have hend := length_le_of_isPrefix_drop hp hocc
  have htake : (encode rest).take (i + (encode pattern).length) =
      (encode rest).take i ++ encode pattern := by
    rw [take_add, ← prefix_iff_eq_take.mp hocc]
  obtain ⟨part, ht, hpart⟩ := take_encode (i + (encode pattern).length) rest
  -- the bytes taken end with an ASCII byte, so no character is cut
  have hnone : part = [] := by
    by_contra hcut
    have hl := congrArg List.getLast? (ht.symm.trans htake)
    rw [getLast?_append_of_ne_nil _ hcut, getLast?_append_of_ne_nil _ hp,
      getLast?_eq_some_getLast hcut, getLast?_eq_some_getLast hp,
      Option.some.injEq] at hl
    have hh := hpart.high _ (getLast_mem hcut)
    have hlow := encode_ascii ha _ (getLast_mem hp)
    rw [hl] at hh; omega
  rw [hnone, append_nil, htake] at ht
  refine Nat.pos_of_ne_zero fun hz => ?_
  refine (missedBy_eq_zero_iff hv _).mp hz pattern rfl ⟨i, 1, ?_, by omega, by omega⟩
  rw [← ht, drop_left' (by rw [length_take]; omega)]

theorem measureWrites_misses (hv : policy.Valid)
    (hb : (encode text).length < 2 ^ 64) (hcut : ¬ StreamsWhole policy text) :
    ∃ ws : List (List UInt8), ws.flatten = encode text ∧
      ∃ missed ≤ occurrencesIn policy text, 0 < missed ∧
        measureWrites policy ws = .ok ⟨(encode text).length, measured policy missed text⟩ := by
  unfold StreamsWhole at hcut
  push Not at hcut
  obtain ⟨pattern, rfl, rest, hs, i, hocc, hlo, hhi, hcap⟩ := hcut
  have hend := length_le_of_isPrefix_drop hv.encode_ne_nil hocc
  have hl := missedBy_pos_of_cut hv hocc hlo hhi
  obtain ⟨w, hnew, hf, he, hz⟩ := measuring_feeds hv text
  obtain ⟨ws, w1, done, missed, hrun, hf1, ht, hsame, hfrag, hc⟩ := reach_fragment hv hb hf he hz hs
  obtain ⟨w2, hwrite, hbytes, hs2, hp, hf2⟩ :=
    write_fragment hv hb hf1 ht hsame hc (Nat.le_of_lt hhi) hcap hend
  generalize i + (encode pattern).length = p at *
  have hfd2 : Fed (.substring pattern) false text w2 (encode done ++ (encode rest).take p) _ :=
    .after_full hs ht (Nat.le_of_lt hhi) hcap hend hs2 (by rw [hp]) hf2
  have hall : encode done ++ (encode rest).take p ++ [(encode rest).drop p].flatten =
      encode text := by
    rw [flatten_singleton, append_assoc, take_append_drop, ← encode_append, ht]
  obtain ⟨w3, missed3, hr3, hb3, hf3, hle, -⟩ :=
    writeAll_feeds hv hb [(encode rest).drop p] hfd2 hbytes (by rw [hall])
  rw [hall] at hb3 hf3
  obtain ⟨hfin, hl3⟩ := finish_fed hv hb hf3 hb3
  refine ⟨ws ++ [((encode rest).take p).drop w1.pending.length, (encode rest).drop p], ?_,
    missed3, hl3, by omega, ?_⟩
  · rw [flatten_append, hfrag, ← hall]
    simp only [flatten_cons, flatten_nil, append_nil, append_assoc]
    rw [← append_assoc w1.pending, hf1.pending_append_drop]
    have hchunk : tokenScanChunkBytes = 4096 := rfl
    omega
  · have hw : w.writeAll (ws ++ [((encode rest).take p).drop w1.pending.length,
        (encode rest).drop p]) = (.ok (), w3) := by
      rw [writeAll_append, hrun]
      simp only [writeAll, hwrite] at hr3 ⊢; exact hr3
    simp only [measureWrites, hnew, ok_bind, hw, hfin]

/-! ## The exact condition -/

theorem measured_inj {k' : Nat} (hk : k ≤ occurrencesIn policy s)
    (hk' : k' ≤ occurrencesIn policy s) (h : measured policy k s = measured policy k' s) : k = k' := by
  cases policy with
  | substring pattern =>
    simp only [measured, TokenSummary.substring.injEq, true_and, and_true] at h
    simp only [occurrencesIn] at hk hk'; omega
  | _ => simp only [occurrencesIn] at hk hk'; omega

theorem tokens_eq_plain_iff (hk : k ≤ occurrencesIn policy s) :
    (measured policy k s).tokens = plainTokens policy s ↔ k = 0 := by
  cases policy with
  | substring pattern =>
    simp only [occurrencesIn] at hk
    simp only [measured, TokenSummary.tokens, plainTokens]; omega
  | _ => simp only [occurrencesIn] at hk; exact iff_of_true rfl (by omega)

theorem missedBy_left (hv : policy.Valid) {a b : List Char}
    (h : missedBy policy (a ++ b) = 0) : missedBy policy a = 0 := by
  rw [missedBy_eq_zero_iff hv] at h ⊢
  rintro pattern rfl ⟨i, k, hocc, hlo, hhi⟩
  refine h pattern rfl ⟨i, k, ?_, hlo, hhi⟩
  have hend := length_le_of_isPrefix_drop hv.encode_ne_nil hocc
  rw [encode_append]; exact (isPrefix_drop_append hend).mpr hocc

section
variable {policy : TokenPolicy} {a b : List Char}

variable (hv : policy.Valid)
include hv

theorem noHiddenMatch_iff :
    NoHiddenMatch policy a b ↔ missedBy policy (a ++ b) = 0 ∧ missedBy policy b = 0 ∧
      StreamsWhole policy (a ++ b) := by
  simp only [NoHiddenMatch, StreamsWhole, missedBy_eq_zero_iff hv, imp_and, forall_and]

theorem joins_eq (hb : (encode (a ++ b)).length < 2 ^ 64) : (do
      let left ← scan policy a
      let right ← scan policy b
      left.concatenate right) =
      .ok (measured policy (missedBy policy a + missedBy policy b) (a ++ b)) := by
  have hlen := hb
  rw [encode_append, length_append] at hlen
  simp only [scan_eq hv (show (encode a).length < 2 ^ 64 by omega),
    scan_eq hv (show (encode b).length < 2 ^ 64 by omega), ok_bind]
  exact concatenate_measured hv (missedBy_le policy a) (missedBy_le policy b) hb

theorem Accounts.noHiddenMatch (hbound : (encode (a ++ b)).length < 2 ^ 64)
    (h : Accounts policy a b) : NoHiddenMatch policy a b := by
  have hs := scan_eq hv hbound
  have hab : missedBy policy (a ++ b) = 0 := by
    have hp := h.plain
    rw [hs] at hp; exact (tokens_eq_plain_iff (missedBy_le policy _)).mp (Except.ok.inj hp)
  have hb : missedBy policy b = 0 := by
    have hj := h.joins
    rw [joins_eq hv hbound, hs] at hj
    have hsum := occurrencesIn_append hv a b
    have ha := missedBy_le policy a
    have hb := missedBy_le policy b
    have := measured_inj (by omega) (missedBy_le policy _) (Except.ok.inj hj)
    omega
  rw [noHiddenMatch_iff hv]
  refine ⟨hab, hb, ?_⟩
  by_contra hcut
  obtain ⟨writes, hf, missed, hle, hpos, hm⟩ := measureWrites_misses hv hbound hcut
  have hsame := h.streams writes hf
  rw [hm, hs, hab] at hsame
  have hsum := congrArg WireMeasure.summary (Except.ok.inj hsame)
  have := measured_inj hle (Nat.zero_le _) hsum
  omega

theorem accounts_of_noHiddenMatch (hbound : (encode (a ++ b)).length < 2 ^ 64)
    (h : NoHiddenMatch policy a b) : Accounts policy a b := by
  obtain ⟨hab, hb, hseam⟩ := (noHiddenMatch_iff hv).mp h
  have hs := scan_eq hv hbound
  rw [hab] at hs
  refine ⟨?_, ?_, ?_⟩
  · rw [joins_eq hv hbound, hs, missedBy_left hv hab, hb]
  · rw [hs]; exact congrArg Except.ok ((tokens_eq_plain_iff (Nat.zero_le _)).mpr rfl)
  · intro w hf
    obtain ⟨missed, hm, hnone⟩ := measureWrites_eq hv hbound hf
    rw [hm, hs, hnone hseam]; rfl

end

/-- **Accounting is exact unless a match is hidden at a chunk boundary.** -/
theorem accounts_iff {policy : TokenPolicy} (hv : policy.Valid) {a b : List Char}
    (hlen : (encode (a ++ b)).length ≤ maxStrBytes) :
    Accounts policy a b ↔ NoHiddenMatch policy a b := by
  have hb : (encode (a ++ b)).length < 2 ^ 64 := by unfold maxStrBytes at hlen; omega
  exact ⟨Accounts.noHiddenMatch hv hb, accounts_of_noHiddenMatch hv hb⟩

theorem valid_ab : (TokenPolicy.substring ['a', 'b']).Valid := by
  rintro _ ⟨⟩; decide

theorem accounts_iff_ab : (encode ['a', 'b']).length ≤ maxStrBytes ∧
    (Accounts (.substring ['a', 'b']) ['a'] ['b'] ↔
      NoHiddenMatch (.substring ['a', 'b']) ['a'] ['b']) :=
  ⟨by decide, accounts_iff valid_ab (by decide)⟩

theorem length_encode_replicate (n : Nat) : (encode (List.replicate n 'x')).length = n := by
  induction n with
  | zero => rfl
  | succ n ih =>
    rw [replicate_succ, encode_cons, length_append, ih, String.length_utf8EncodeChar,
      show 'x'.utf8Size = 1 from rfl, Nat.add_comm]

/-- The second byte of the only match is the first of the second chunk. -/
theorem match_across_chunks_lost : (TokenPolicy.substring ['a', 'b']).Valid ∧
      ¬ Accounts (.substring ['a', 'b']) (List.replicate 4095 'x' ++ ['a']) ['b'] := by
  refine ⟨valid_ab, fun h => ?_⟩
  have hlen := length_encode_replicate 4095
  have ht : encode (List.replicate 4095 'x' ++ ['a'] ++ ['b']) =
      encode (List.replicate 4095 'x') ++ encode ['a', 'b'] := by
    simp only [encode_append, append_assoc]; rfl
  have hb : (encode (List.replicate 4095 'x' ++ ['a'] ++ ['b'])).length < 2 ^ 64 := by
    rw [ht, length_append, hlen]; decide
  refine (h.noHiddenMatch valid_ab hb _ rfl).1 ⟨4095, 1, ?_, by decide, by decide⟩
  rw [ht, drop_left' hlen]

end TraceDecay.Context
