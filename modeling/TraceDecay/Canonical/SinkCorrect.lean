import TraceDecay.Canonical.Data

/-!
# Canonical.SinkCorrect

A sink may tell the chunks apart that it is given; what counts is their text. `Written s bytes s'`:
the sink went from `s` to `s'` by chunks that make up `bytes`.

`written_buffered`: what is written to a buffered sink is what its inner sink is given in the end.
`writeJsonString_written`, `writeU64_written`: strings are quoted, numbers are decimal.
-/

namespace TraceDecay.Canonical

open List Nat

variable {S : Type} [CanonicalSink S]

/-- The sink was given the bytes, in some chunks. -/
def Written (s : S) (bytes : Str) (s' : S) : Prop :=
  ∃ chunks : List Str, chunks.flatten = bytes ∧ chunks.foldl write s = s'

theorem Written.refl (s : S) : Written s [] s := ⟨[], rfl, rfl⟩

variable {b a bytes v : Str} {s : S} {s' : BufferedSink S} {n : Nat}

theorem Written.trans {s' s'' : S} (h : Written s a s') (h' : Written s' b s'') :
    Written s (a ++ b) s'' := by
  obtain ⟨chunks, rfl, rfl⟩ := h
  obtain ⟨chunks', rfl, rfl⟩ := h'
  exact ⟨chunks ++ chunks', flatten_append, foldl_append⟩

theorem written_write (s : S) (c : Str) : Written s c (write s c) := ⟨[c], append_nil c, rfl⟩

theorem Written.write {s' : S} (h : Written s a s') (c : Str) :
    Written s (a ++ c) (CanonicalSink.write s' c) :=
  h.trans (written_write s' c)

/-- An invariant of the sink that each chunk extends, the whole text extends. -/
theorem Written.induct {s' : S} (h : Written s b s') {P : Str → S → Prop} (hnil : P [] s)
    (hstep : ∀ a s chunk, P a s → P (a ++ chunk) (CanonicalSink.write s chunk)) : P b s' := by
  obtain ⟨c, rfl, rfl⟩ := h
  induction c using List.reverseRecOn with
  | nil => exact hnil
  | append_singleton c chunk ih =>
    rw [flatten_append, flatten_singleton, foldl_append]; exact hstep _ _ chunk ih

theorem Written.bytes_eq {s s' : List UInt8} (h : Written s bytes s') : s' = s ++ bytes := by
  refine h.induct (P := fun a t => t = s ++ a) (append_nil s).symm ?_
  rintro a t chunk rfl; exact append_assoc s a chunk

/-! ## The buffered sink -/

theorem Written.flush {i : S} (h : Written i a s'.inner) :
    Written i (a ++ s'.buffer) s'.flush.inner ∧ s'.flush.buffer = [] := by
  unfold BufferedSink.flush
  split_ifs with he
  · exact ⟨by rwa [he, append_nil], he⟩
  · exact ⟨h.write s'.buffer, rfl⟩

theorem written_inner {sink : BufferedSink S} (h : Written sink bytes s') :
    ∃ p, Written sink.inner p s'.inner ∧ p ++ s'.buffer = sink.buffer ++ bytes := by
  refine h.induct (P := fun a t => ∃ p, Written sink.inner p t.inner ∧
    p ++ t.buffer = sink.buffer ++ a) ⟨[], .refl _, by simp⟩ ?_
  rintro a t chunk ⟨p, hp, heq⟩
  have hf := heq ▸ hp.flush
  change ∃ p, Written sink.inner p (t.writeChunk chunk).inner ∧
    p ++ (t.writeChunk chunk).buffer = sink.buffer ++ (a ++ chunk)
  unfold BufferedSink.writeChunk
  split_ifs
  · refine ⟨_, hf.1.write chunk, ?_⟩; simp [hf.2]
  · refine ⟨_, hf.1, ?_⟩; simp [hf.2]
  · refine ⟨p, hp, ?_⟩; simp only [← append_assoc, heq]

theorem written_buffered {i : S}
    (h : Written (BufferedSink.new i) b s') : Written i b s'.finishReuse.1 := by
  obtain ⟨passed, hp, heq⟩ := written_inner h
  change passed ++ s'.buffer = b at heq
  exact heq ▸ hp.flush.1

/-! ## Strings -/

def escaped (value : Str) : Str := value.flatMap fun byte => (escapeOf byte).getD [byte]

def quoted (value : Str) : Str := text "\"" ++ escaped value ++ text "\""

theorem slice_self (v : Str) (n : Nat) : slice v n n = [] := by
  rw [slice, drop_eq_nil_iff]; exact length_take_le n v

theorem slice_length (v : Str) (start : Nat) : slice v start v.length = v.drop start := by
  rw [slice, take_length]

theorem slice_concat {s stop : Nat} {byte : UInt8} {rest : Str} (hs : s ≤ stop)
    (hr : v.drop stop = byte :: rest) : slice v s (stop + 1) = slice v s stop ++ [byte] := by
  have hlen := congrArg List.length hr
  rw [length_drop, length_cons] at hlen
  rw [slice, take_add, hr, drop_append_of_le_length (by rw [length_take]; omega)]; rfl

theorem writeRuns_written (rest : Str) : ∀ (index r : Nat) (o : S),
    v.drop index = rest → r ≤ index →
    ∃ b, Written o b (writeRuns v index r rest o).1 ∧ b ++ v.drop (writeRuns v index r rest o).2 =
        slice v r index ++ escaped rest := by
  induction rest with
  | nil =>
    intro index r o hr hrun
    have hend : v.length ≤ index := drop_eq_nil_iff.mp hr
    refine ⟨[], .refl _, ?_⟩
    rw [slice, take_of_length_le hend]; simp [writeRuns, escaped]
  | cons byte rest ih =>
    intro index r o hr hrun
    have hn : v.drop (index + 1) = rest := by
      rw [← tail_drop, hr, tail_cons]
    unfold writeRuns
    rw [escaped, flatMap_cons, ← escaped]
    cases he : escapeOf byte with
    | none =>
      obtain ⟨b, hb, heq⟩ := ih (index + 1) r o hn (by omega)
      refine ⟨b, hb, heq.trans ?_⟩
      rw [slice_concat hrun hr, append_assoc]; rfl
    | some escape =>
      have hrun : Written o (slice v r index)
          (if r < index then write o (slice v r index) else o) := by
        split
        · exact written_write _ _
        · have hsame : r = index := by omega
          rw [hsame, slice_self]; exact .refl _
      obtain ⟨b, hb, heq⟩ := ih (index + 1) (index + 1)
        (write (if r < index then write o (slice v r index) else o) escape) hn (le_refl _)
      refine ⟨_, (hrun.write escape).trans hb, ?_⟩
      rw [slice_self, nil_append] at heq
      rw [append_assoc, append_assoc]; exact congrArg _ (congrArg _ heq)

theorem writeJsonString_written (v : Str) (s : S) : Written s (quoted v) (writeJsonString v s) := by
  obtain ⟨bytes, hb, heq⟩ := writeRuns_written v 0 0 (write s (text "\"")) rfl (le_refl 0)
  have hl : ∀ (s : S) (n : Nat), Written s (v.drop n)
      (if n < v.length then write s (slice v n v.length) else s) := by
    intro s n
    split
    · rw [slice_length]; exact written_write _ _
    · rw [drop_eq_nil_of_le (by omega)]; exact .refl _
  have hall := (((written_write s (text "\"")).trans hb).trans
    (hl _ (writeRuns v 0 0 v (write s (text "\""))).2)).write (text "\"")
  rw [append_assoc (text "\""), heq] at hall; exact hall

/-! ## Numbers -/

theorem decimalNat_of_lt (h : n < 10) : decimalNat n = [UInt8.ofNat (0x30 + n)] := by
  unfold decimalNat
  split_ifs with hz
  · rw [hz]; rfl
  · rw [digits_of_lt 10 n hz h]; rfl

theorem decimalNat_of_ge (h : 10 ≤ n) :
    decimalNat n = decimalNat (n / 10) ++ [UInt8.ofNat (0x30 + n % 10)] := by
  have hne : n ≠ 0 := by omega
  have hne' : n / 10 ≠ 0 := by omega
  rw [decimalNat, if_neg hne, decimalNat, if_neg hne',
    digits_def' (by omega) (pos_of_ne_zero hne), reverse_cons, map_append]
  rfl

theorem fillDigits_eq {index : Nat} : ∀ {n : Nat} (b : Str), n < 10 ^ index → 0 < index →
    fillDigits index n b = some (decimalNat n ++ b) := by
  induction index with
  | zero => intro n b hn hpos; exact absurd hpos (lt_irrefl 0)
  | succ index ih =>
    intro n b hn _
    unfold fillDigits
    by_cases hlt : n < 10
    · have hz : n / 10 = 0 := div_eq_of_lt hlt
      simp only [hz, if_pos]
      rw [decimalNat_of_lt hlt, mod_eq_of_lt hlt]; rfl
    · have hge : 10 ≤ n := Nat.le_of_not_lt hlt
      have hne : n / 10 ≠ 0 := by omega
      have hs : n / 10 < 10 ^ index := by rw [div_lt_iff_lt_mul (by omega), ← pow_succ]; exact hn
      have hi : 0 < index := by
        rcases Nat.eq_zero_or_pos index with rfl | hpos
        · omega
        · exact hpos
      simp only [if_neg hne]
      rw [ih _ hs hi, decimalNat_of_ge hge, append_assoc]; rfl

theorem u64Digits_eq (v : UInt64) : u64Digits v = some (decimalNat v.toNat) := by
  have hlt : v.toNat < 10 ^ 20 := lt_of_lt_of_le v.toNat_lt (by decide)
  rw [u64Digits, fillDigits_eq [] hlt (by decide), append_nil]

theorem writeU64_written (v : UInt64) (s : S) : Written s (decimalNat v.toNat) (writeU64 v s) := by
  rw [writeU64, u64Digits_eq]; exact written_write s _

theorem toNat_unsignedAbs (v : Int64) : (unsignedAbs v).toNat = v.toInt.natAbs := by
  have hlow := v.le_toInt
  have hh := v.toInt_lt
  rw [unsignedAbs, UInt64.toNat_ofNat']; omega

theorem writeI64_written (v : Int64) (s : S) : Written s (decimal v.toInt) (writeI64 v s) := by
  have hneg : v < 0 ↔ v.toInt < 0 := Int64.lt_iff_toInt_lt
  unfold writeI64 decimal
  by_cases h : v < 0
  · rw [if_pos h, if_pos (hneg.mp h), ← toNat_unsignedAbs]
    exact (written_write s _).trans (writeU64_written _ _)
  · rw [if_neg h, if_neg fun h' => h (hneg.mpr h'), ← toNat_unsignedAbs]; exact writeU64_written _ _

end TraceDecay.Canonical
