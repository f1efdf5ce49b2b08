import Mathlib.Data.List.TakeWhile
import TraceDecay.Lib.Occurrences
import TraceDecay.Lsp.Framing

/-!
# Lsp.FramingCorrect

When the chunking of the input shows in what the `Content-Length` codec hands out. A header that is
not complete yet is held to other rules than a complete one, so the two verdicts can differ:
`HeaderSettled` says of the bytes at a frame boundary that they do not, and
`decoding_independent_of_chunking` that this, at every frame boundary of the input, is exactly what
independence of the chunking takes. The output of the encoder always meets it.
-/

namespace TraceDecay.Lsp

open Utf8 Domain Fallible Incremental List Nat

/-! ## Where the header ends -/

theorem length_headerTerminator : headerTerminator.length = 4 := rfl

variable {p : Nat} {s b : List UInt8} {e : ContentLengthCodecError}

theorem findHeaderEnd_eq_some : findHeaderEnd s = some p ↔
    headerTerminator <+: s.drop p ∧ ∀ q < p, ¬ headerTerminator <+: s.drop q := by
  induction s generalizing p with
  | nil => simp [findHeaderEnd, headerTerminator]
  | cons b rest ih =>
    rw [findHeaderEnd]
    split
    case isTrue ht =>
      refine ⟨fun h => ?_,
        fun ⟨_, h⟩ => congrArg some (Nat.eq_zero_of_not_pos fun hp => h 0 hp ht).symm⟩
      cases h; exact ⟨ht, nofun⟩
    case isFalse ht =>
      cases p with
      | zero => simp [ht]
      | succ p => rw [Nat.forall_lt_succ_left]; simp [ih, ht]

theorem findHeaderEnd_le (h : findHeaderEnd s = some p) : p + 4 ≤ s.length :=
  Occurrences.length_le_of_isPrefix_drop (by decide) (findHeaderEnd_eq_some.mp h).1

/-- Whether the header ends at `p` does not depend on what follows its terminator. -/
theorem findHeaderEnd_append_iff (t : List UInt8) (hlen : p + 4 ≤ b.length) :
    findHeaderEnd (b ++ t) = some p ↔ findHeaderEnd b = some p := by
  have hq : ∀ q ≤ p, (headerTerminator <+: (b ++ t).drop q ↔ headerTerminator <+: b.drop q) := by
    intro q hq
    exact Occurrences.isPrefix_drop_append (by rw [length_headerTerminator]; omega)
  rw [findHeaderEnd_eq_some, findHeaderEnd_eq_some, hq p le_rfl]
  exact and_congr_right fun _ => forall₂_congr fun q hlt => not_congr (hq q hlt.le)

theorem findHeaderEnd_append (h : findHeaderEnd b = some p)
    (t : List UInt8) : findHeaderEnd (b ++ t) = some p :=
  (findHeaderEnd_append_iff t (findHeaderEnd_le h)).mpr h

variable {t rest r : List UInt8} {f : Frame} {c : Char} {l : Nat} {fs : List Frame} {n : Nat}

theorem findHeaderEnd_take_eq_none
    (h : ∀ p, findHeaderEnd s = some p → n < p + 4) : findHeaderEnd (s.take n) = none := by
  cases hq : findHeaderEnd (s.take n) with
  | none => rfl
  | some q =>
    have hw : findHeaderEnd s = some q := by simpa using findHeaderEnd_append hq (s.drop n)
    have hlen := findHeaderEnd_le hq
    have := h q hw
    simp only [length_take] at hlen; omega

/-! ## Bare line endings -/

theorem hasInvalidLineEnding_iff :
    hasInvalidLineEnding s = true ↔ ∃ i < s.length, invalidEndingAt s i = true := by
  simp [hasInvalidLineEnding]

theorem hasInvalidLineEnding_append (h : hasInvalidLineEnding b = true)
    (t : List UInt8) : hasInvalidLineEnding (b ++ t) = true := by
  obtain ⟨i, hi, hbad⟩ := hasInvalidLineEnding_iff.mp h
  refine hasInvalidLineEnding_iff.mpr ⟨i, by simp; omega, ?_⟩
  have hp : (b ++ t)[i - 1]? = b[i - 1]? := getElem?_append_left (by omega)
  simp only [invalidEndingAt, getElem?_append_left hi, hp] at hbad ⊢
  split at hbad
  · next hfeed => rwa [if_pos hfeed]
  next hfeed =>
  rw [if_neg hfeed]
  split at hbad
  · next hreturn =>
    rw [if_pos hreturn]
    -- the byte behind a refused carriage return has already arrived
    cases hn : b[i + 1]? with
    | none => simp [hn] at hbad
    | some x =>
      obtain ⟨hlt, -⟩ := List.getElem?_eq_some_iff.mp hn
      rw [hn] at hbad
      rw [getElem?_append_left hlt, hn]; exact hbad
  · cases hbad

variable {header : List UInt8}

/-- Text without line endings, followed by the beginning of a terminator. -/
theorem not_hasInvalidLineEnding_header (hreturn : carriageReturn ∉ header)
    (hfeed : lineFeed ∉ header) :
    hasInvalidLineEnding (header ++ [carriageReturn, lineFeed, carriageReturn]) = false := by
  rw [Bool.eq_false_iff]
  intro h
  obtain ⟨i, hi, hbad⟩ := hasInvalidLineEnding_iff.mp h
  simp only [length_append, length_cons, length_nil] at hi
  by_cases hin : i < header.length
  · have hb : (header ++ [carriageReturn, lineFeed, carriageReturn])[i]? = some header[i] := by
      rw [getElem?_append_left hin, getElem?_eq_getElem hin]
    have hmem : header[i] ∈ header := getElem_mem hin
    have hne : header[i] ≠ lineFeed := fun he => hfeed (he ▸ hmem)
    have hne' : header[i] ≠ carriageReturn := fun he => hreturn (he ▸ hmem)
    simp [invalidEndingAt, hb, hne, hne'] at hbad
  · -- the three bytes behind the text
    obtain ⟨k, rfl⟩ : ∃ k, i = header.length + k := ⟨i - header.length, by omega⟩
    have hk : k = 0 ∨ k = 1 ∨ k = 2 := by omega
    rcases hk with rfl | rfl | rfl <;> simp [invalidEndingAt, carriageReturn, lineFeed] at hbad

/-! ## One call -/

theorem decodeFrame_incomplete (h : findHeaderEnd s = none) : decodeFrame s =
      if maxLspHeaderBytes < s.length then .error (.headerTooLarge maxLspHeaderBytes)
      else if hasInvalidLineEnding s = true then .error .malformedHeader else .ok none := by
  unfold decodeFrame
  rw [h]
  by_cases hlen : maxLspHeaderBytes < s.length <;> simp [hlen]

theorem decodeFrame_long (h : findHeaderEnd s = some p) (hp : maxLspHeaderBytes < p) :
    decodeFrame s = .error (.headerTooLarge maxLspHeaderBytes) := by
  unfold decodeFrame
  rw [h]; exact if_pos hp

/-- A complete header: its errors, an oversized length, or the payload once it has arrived. -/
theorem decodeFrame_complete (h : findHeaderEnd s = some p) (hp : p ≤ maxLspHeaderBytes) :
    decodeFrame s = (parseContentLength (s.take p)).bind fun n =>
      if maxLspFrameBytes < n then .error (.frameTooLarge n maxLspFrameBytes)
      else if s.length < p + 4 + n then .ok none
      else .ok (some ((s.take (p + 4 + n)).drop (p + 4), s.drop (p + 4 + n))) := by
  unfold decodeFrame
  rw [h]
  simp only [if_neg (not_lt.mpr hp)]
  refine congrArg _ (funext fun n => ?_)
  by_cases hn : maxLspFrameBytes < n
  · rw [if_pos hn, if_pos hn]
  · have hf : ¬ usizeMax < p + 4 + n := by
      unfold maxLspFrameBytes at hn
      unfold maxLspHeaderBytes at hp
      unfold usizeMax; omega
    rw [if_neg hn, if_neg hn, if_neg hf]

theorem decodeFrame_error_append (h : findHeaderEnd b = some p) (he : decodeFrame b = .error e)
    (t : List UInt8) : decodeFrame (b ++ t) = .error e := by
  have hw := findHeaderEnd_append h t
  have hlen := findHeaderEnd_le h
  by_cases hp : maxLspHeaderBytes < p
  · rw [decodeFrame_long hw hp, ← he, decodeFrame_long h hp]
  rw [decodeFrame_complete h (by omega)] at he
  rw [decodeFrame_complete hw (by omega), take_append_of_le_length (by omega)]
  cases hpe : parseContentLength (b.take p) with
  | error e' => rw [hpe] at he; exact he
  | ok n =>
    simp only [hpe, Except.bind] at he ⊢
    split at he
    · next hn => rw [if_pos hn, he]
    · split at he <;> cases he

theorem header_complete {r : Except ContentLengthCodecError (Option (Frame × List UInt8))}
    (h : decodeFrame s = r) (hn : r ≠ .ok none) (hm : r ≠ .error .malformedHeader)
    (hl : r ≠ .error (.headerTooLarge maxLspHeaderBytes)) :
    ∃ p ≤ maxLspHeaderBytes, findHeaderEnd s = some p := by
  subst h
  cases hp : findHeaderEnd s with
  | none =>
    revert hn hm hl
    rw [decodeFrame_incomplete hp]
    split_ifs <;> simp
  | some p => exact ⟨p, Nat.le_of_not_lt fun hp' => hl (decodeFrame_long hp hp'), rfl⟩

/-- A message at the front of the input. -/
structure Message (s header : List UInt8) (frame : Frame) (rest : List UInt8) : Prop where
  split : s = header ++ (headerTerminator ++ (frame ++ rest))
  ends : findHeaderEnd s = some header.length
  bounded : header.length ≤ maxLspHeaderBytes
  length : parseContentLength header = .ok frame.length
  fits : frame.length ≤ maxLspFrameBytes

theorem decodeFrame_eq_some_iff :
    decodeFrame s = .ok (some (f, rest)) ↔ ∃ header, Message s header f rest := by
  constructor
  · intro h
    obtain ⟨p, hlong, hp⟩ := header_complete h nofun nofun nofun
    rw [decodeFrame_complete hp hlong] at h
    obtain ⟨n, hn, h⟩ := bind_eq_ok.mp h
    split at h
    · cases h
    next hf =>
    split at h
    · cases h
    next ha =>
    cases h
    obtain ⟨t, ht⟩ := (findHeaderEnd_eq_some.mp hp).1
    have hh : (s.take p).length = p := by rw [length_take]; omega
    have htail : s.drop (p + 4) = t := by rw [← drop_drop, ← ht]; rfl
    have hframe : ((s.take (p + 4 + n)).drop (p + 4)).length = n := by
      rw [length_drop, length_take]; omega
    refine ⟨s.take p, ?_, hp.trans (congrArg some hh.symm), by omega, ?_, by omega⟩
    · have hb : (s.take (p + 4 + n)).drop (p + 4) ++ s.drop (p + 4 + n) = t := by
        rw [drop_take, htail, Nat.add_sub_cancel_left, ← drop_drop (i := n) (j := p + 4), htail]
        exact take_append_drop n t
      rw [hb, ht, take_append_drop]
    · rw [hn, hframe]
  · rintro ⟨header, rfl, he, hbound, hl, hf⟩
    have hs : header.length + 4 = (header ++ headerTerminator).length := by
      rw [length_append, length_headerTerminator]
    have hb : header ++ (headerTerminator ++ (f ++ rest)) =
        (header ++ headerTerminator) ++ (f ++ rest) := (append_assoc ..).symm
    rw [decodeFrame_complete he hbound, take_left, hl]
    simp only [Except.bind, if_neg (not_lt.mpr hf)]
    rw [if_neg (by simp [length_headerTerminator]; omega), hb, hs, drop_take,
      drop_left, Nat.add_sub_cancel_left, take_left, ← drop_drop, drop_left,
      drop_left]

theorem Message.replace (h : Message s header f rest)
    (t : List UInt8) : Message (header ++ (headerTerminator ++ (f ++ t))) header f t := by
  obtain ⟨rfl, he, hb, hl, hfits⟩ := h
  have hf : findHeaderEnd (header ++ headerTerminator) = some header.length := by
    rw [← append_assoc] at he
    exact (findHeaderEnd_append_iff _ (by simp [length_headerTerminator])).mp he
  refine ⟨rfl, ?_, hb, hl, hfits⟩
  rw [← append_assoc]; exact findHeaderEnd_append hf _

/-- The errors the header's grammar never gives. -/
def IsForeign (e : ContentLengthCodecError) : Prop :=
  e = .headerTooLarge maxLspHeaderBytes ∨ e = .unexpectedEof

theorem parseLength_avoids (v : List Char) : Avoids IsForeign (parseLength v) := by
  simp only [parseLength]
  split_ifs
  · exact .error (by simp [IsForeign])
  · exact .error (by simp [IsForeign])
  · exact .ok _

theorem parseLine_avoids (f : HeaderFields) (line : List Char) :
    Avoids IsForeign (parseLine f line) := by
  have hm : ¬ IsForeign .malformedHeader := by simp [IsForeign]
  unfold parseLine
  split
  · exact .error hm
  split
  · exact .error hm
  split
  · exact .error hm
  split
  · split
    · exact .error (by simp [IsForeign])
    · exact (parseLength_avoids _).bind fun _ _ => .ok _
  split_ifs
  · exact .error hm
  · exact .ok _
  · exact .error hm

theorem parseContentLength_avoids (header : List UInt8) :
    Avoids IsForeign (parseContentLength header) := by
  unfold parseContentLength
  split
  · exact .error (by simp [IsForeign])
  · refine (Avoids.foldlM parseLine_avoids _ _).bind fun f _ => ?_
    split
    · exact .error (by simp [IsForeign])
    · exact .ok _

/-- A complete header within the limit is refused by its grammar or for the length it states. -/
theorem decodeFrame_complete_error
    (h : findHeaderEnd s = some p) (hp : p ≤ maxLspHeaderBytes) (he : decodeFrame s = .error e) :
    ¬ IsForeign e ∧ (e = .malformedHeader → parseContentLength (s.take p) = .error e) := by
  rw [decodeFrame_complete h hp] at he
  cases hpe : parseContentLength (s.take p) with
  | error e' => rw [hpe] at he; cases he; exact ⟨parseContentLength_avoids _ _ hpe, fun _ => rfl⟩
  | ok n =>
    simp only [hpe, Except.bind] at he
    split at he
    · cases he; exact ⟨by simp [IsForeign], by simp⟩
    · split at he <;> cases he

theorem framed : Framed decodeFrame decodeEof .unexpectedEof where
  consumes := by
    intro s r f h
    obtain ⟨header, hm⟩ := decodeFrame_eq_some_iff.mp h
    refine ⟨header ++ (headerTerminator ++ f), by simp [headerTerminator], ?_, fun t => ?_⟩
    · simpa using hm.split
    · have := decodeFrame_eq_some_iff.mpr ⟨header, hm.replace t⟩; simpa using this
  empty := by decide
  eof_empty := by decide
  eof_pending := by
    intro s hs hne; simp [decodeEof, hs, hne]
  not_eof := by
    intro s h
    obtain ⟨p, hl, hp⟩ := header_complete h nofun nofun nofun
    exact (decodeFrame_complete_error hp hl h).1 (.inr rfl)

/-! ## Where the chunking shows -/

/-- At the bytes `r` of a frame boundary, the rules for an incomplete header do not refuse what the
rules for the complete one accept or refuse otherwise. -/
structure HeaderSettled (r : List UInt8) : Prop where
  /-- A header over the limit has no bare line ending within it. -/
  oversized : (∀ p, findHeaderEnd r = some p → maxLspHeaderBytes < p) →
    maxLspHeaderBytes < r.length → hasInvalidLineEnding (r.take maxLspHeaderBytes) = false
  /-- A header within the limit leaves room for all but the last byte of the terminator. -/
  room : ∀ p, findHeaderEnd r = some p → p ≤ maxLspHeaderBytes → p + 3 ≤ maxLspHeaderBytes
  /-- A header within the limit that has a bare line ending has no other fault before it. -/
  malformed : ∀ p, findHeaderEnd r = some p → p ≤ maxLspHeaderBytes →
    hasInvalidLineEnding (r.take (p + 3)) = true →
    parseContentLength (r.take p) = .error .malformedHeader

theorem HeaderSettled.error_append (h : HeaderSettled (b ++ t))
    (he : decodeFrame b = .error e) : decodeFrame (b ++ t) = .error e := by
  cases hb : findHeaderEnd b with
  | some p => exact decodeFrame_error_append hb he t
  | none =>
    have hlate : ∀ p, findHeaderEnd (b ++ t) = some p → b.length < p + 4 := by
      intro p hr
      refine Nat.lt_of_not_le fun hge => ?_
      have hf := (findHeaderEnd_append_iff t hge).mp hr
      rw [hb] at hf; cases hf
    rw [decodeFrame_incomplete hb] at he
    -- the part is over the limit, or within it and has a bare line ending
    split at he
    · next hl =>
      cases he
      cases hr : findHeaderEnd (b ++ t) with
      | none =>
        rw [decodeFrame_incomplete hr, if_pos (by rw [length_append]; omega)]
      | some p =>
        refine decodeFrame_long hr (Nat.lt_of_not_le fun hp => ?_)
        have hroom := h.room p hr hp
        have := hlate p hr
        omega
    next hs =>
    split at he
    · next hbad =>
      cases he
      have hw : (b ++ t).take maxLspHeaderBytes = b ++ t.take (maxLspHeaderBytes - b.length) := by
        rw [take_append, take_of_length_le (by omega)]
      have hbound : (∀ p, findHeaderEnd (b ++ t) = some p → maxLspHeaderBytes < p) →
          (b ++ t).length ≤ maxLspHeaderBytes := by
        intro ho
        refine Nat.le_of_not_lt fun hl => ?_
        have hc := h.oversized ho hl
        rw [hw, hasInvalidLineEnding_append hbad] at hc; cases hc
      cases hr : findHeaderEnd (b ++ t) with
      | none =>
        have hlen := hbound (by simp [hr])
        rw [decodeFrame_incomplete hr, if_neg (by omega),
          if_pos (hasInvalidLineEnding_append hbad t)]
      | some p =>
        have hlen := findHeaderEnd_le hr
        have hp : p ≤ maxLspHeaderBytes := by
          refine Nat.le_of_not_lt fun hp => ?_
          have := hbound fun q hq => by rw [hr] at hq; cases hq; exact hp
          omega
        have hle := hlate p hr
        have ht : (b ++ t).take (p + 3) = b ++ t.take (p + 3 - b.length) := by
          rw [take_append, take_of_length_le (by omega)]
        rw [decodeFrame_complete hr hp,
          h.malformed p hr hp (ht ▸ hasInvalidLineEnding_append hbad _)]
        rfl
    · cases he

theorem headerSettled_of_error_append
    (h : ∀ b t e, r = b ++ t → decodeFrame b = .error e → decodeFrame r = .error e) :
    HeaderSettled r := by
  have ht : ∀ n e, decodeFrame (r.take n) = .error e → decodeFrame r = .error e :=
    fun n e => h _ _ e (take_append_drop n r).symm
  have hcut : ∀ p, findHeaderEnd r = some p → findHeaderEnd (r.take (p + 3)) = none := fun p hp =>
    findHeaderEnd_take_eq_none fun q hq => by rw [hp] at hq; cases hq; omega
  have hroom : ∀ p, findHeaderEnd r = some p → p ≤ maxLspHeaderBytes → p + 3 ≤ maxLspHeaderBytes := by
    -- with three bytes of the terminator the buffer is over the limit, with four the header is not
    intro p hp hb
    refine Nat.le_of_not_lt fun hl => ?_
    have hlen := findHeaderEnd_le hp
    have hpart : decodeFrame (r.take (p + 3)) = .error (.headerTooLarge maxLspHeaderBytes) := by
      rw [decodeFrame_incomplete (hcut p hp), if_pos (by rw [length_take]; omega)]
    exact (decodeFrame_complete_error hp hb (ht _ _ hpart)).1 (.inl rfl)
  refine ⟨?_, hroom, ?_⟩
  · -- the bytes up to the limit alone are malformed, all of them are too many
    intro ho hl
    rw [Bool.eq_false_iff]
    intro hbad
    have hpart : decodeFrame (r.take maxLspHeaderBytes) = .error .malformedHeader := by
      have hnone : findHeaderEnd (r.take maxLspHeaderBytes) = none :=
        findHeaderEnd_take_eq_none fun p hp => by have := ho p hp; omega
      rw [decodeFrame_incomplete hnone, if_neg (by rw [length_take]; omega), if_pos hbad]
    have hw : decodeFrame r = .error (.headerTooLarge maxLspHeaderBytes) := by
      cases hr : findHeaderEnd r with
      | none => rw [decodeFrame_incomplete hr, if_pos hl]
      | some p => exact decodeFrame_long hr (ho p hr)
    have hsame := ht _ _ hpart
    rw [hw] at hsame; cases hsame
  · intro p hp hb hbad
    have hs := hroom p hp hb
    have hpart : decodeFrame (r.take (p + 3)) = .error .malformedHeader := by
      rw [decodeFrame_incomplete (hcut p hp), if_neg (by rw [length_take]; omega), if_pos hbad]
    exact (decodeFrame_complete_error hp hb (ht _ _ hpart)).2 rfl

/-- `r` is the input from one of its frame boundaries on: the start, or the end of a message. -/
inductive FromBoundary : List UInt8 → List UInt8 → Prop where
  | start (s : List UInt8) : FromBoundary s s
  | next {s header rest r : List UInt8} {frame : Frame} :
      Message s header frame rest → FromBoundary rest r → FromBoundary s r

theorem fromBoundary_iff : FromBoundary s r ↔ ∃ f, Takes decodeFrame s f r := by
  constructor
  · intro h
    induction h with
    | start s => exact ⟨[], .refl s⟩
    | next hm _ ih =>
      obtain ⟨f, ht⟩ := ih
      exact ⟨_ :: f, .step (decodeFrame_eq_some_iff.mpr ⟨_, hm⟩) ht⟩
  · rintro ⟨f, h⟩
    induction h with
    | refl s => exact .start s
    | step hs _ ih => obtain ⟨header, hm⟩ := decodeFrame_eq_some_iff.mp hs; exact .next hm ih

theorem steady_iff : Steady decodeFrame s ↔ ∀ r, FromBoundary s r → HeaderSettled r := by
  constructor
  · intro h r hr
    obtain ⟨f, ht⟩ := fromBoundary_iff.mp hr
    refine headerSettled_of_error_append fun b t e hs he => ?_
    subst hs; exact h f b t e ht he
  · intro h f b t e ht he; exact (h _ (fromBoundary_iff.mpr ⟨f, ht⟩)).error_append he

/-! ## What the encoder writes -/

/-- The encoder's header, without its terminator. -/
def headerText (length : Nat) : List Char := "Content-Length: ".toList ++ Nat.toDigits 10 length

theorem encodedHeader_eq (l : Nat) :
    encodedHeader l = encode (headerText l) ++ headerTerminator := by
  rw [encodedHeader, encode_append]; rfl

theorem digit_range (h : c.isDigit = true) : 48 ≤ c.toNat ∧ c.toNat ≤ 57 := by
  simp only [Char.isDigit, Bool.and_eq_true, decide_eq_true_eq] at h; exact ⟨h.1, h.2⟩

theorem isDigit_toDigits (h : c ∈ Nat.toDigits 10 n) : c.isDigit = true :=
  isDigit_of_mem_toDigits (by omega) (by omega) h

theorem mem_headerText (h : c ∈ headerText l) : 31 < c.toNat ∧ c.toNat < 127 := by
  rcases mem_append.mp h with h | h
  · have hf : ("Content-Length: ".toList.all fun c => 31 < c.toNat ∧ c.toNat < 127) = true := by
      decide
    exact of_decide_eq_true (all_eq_true.mp hf c h)
  · have := digit_range (isDigit_toDigits h); omega

theorem mem_encode_headerText {b : UInt8} (h : b ∈ encode (headerText l)) : 31 < b.toNat := by
  obtain ⟨c, hc, hbc⟩ := mem_flatMap.mp h
  have hr := mem_headerText hc
  have ha : c.val.toNat ≤ 127 := le_of_lt hr.2
  simp only [String.utf8EncodeChar, if_pos ha, mem_singleton] at hbc
  subst hbc
  rw [toNat_ofNat_of_lt (by omega)]; exact hr.1

theorem carriageReturn_not_mem (l : Nat) : carriageReturn ∉ encode (headerText l) :=
  fun h => absurd (mem_encode_headerText h) (by decide)

theorem lineFeed_not_mem (l : Nat) : lineFeed ∉ encode (headerText l) :=
  fun h => absurd (mem_encode_headerText h) (by decide)

theorem findHeaderEnd_of_not_mem (h : carriageReturn ∉ header)
    (t : List UInt8) : findHeaderEnd (header ++ (headerTerminator ++ t)) = some header.length := by
  refine findHeaderEnd_eq_some.mpr ⟨by rw [drop_left]; exact prefix_append .., fun q hq hpre => h ?_⟩
  rw [drop_append_of_le_length hq.le, drop_eq_getElem_cons hq] at hpre
  rw [(cons_prefix_cons.mp hpre).1]; exact getElem_mem hq

theorem splitCrlf_of_not_mem {text : List Char} (h : '\r' ∉ text) : splitCrlf text = [text] := by
  induction text with
  | nil => rfl
  | cons c text ih =>
    have hc : c ≠ '\r' := fun he => h (he ▸ mem_cons_self)
    have ht := ih fun hm => h (mem_cons_of_mem _ hm)
    unfold splitCrlf
    split
    · cases ‹_ = _›
    · next heq =>
      cases heq; exact absurd rfl hc
    · next heq =>
      cases heq
      rw [ht]; rfl

theorem isWhitespace_of_digit (h : c.isDigit = true) : isWhitespace c = false := by
  have := digit_range h
  simp only [isWhitespace, Bool.or_eq_false_iff, Bool.and_eq_false_iff, decide_eq_false_iff_not,
    beq_eq_false_iff_ne]
  omega

theorem trim_blank_digits {digits : List Char} (h : ∀ c ∈ digits, c.isDigit = true) :
    trim (' ' :: digits) = digits := by
  have hk : ∀ l : List Char, (∀ c ∈ l, c.isDigit = true) → l.dropWhile isWhitespace = l :=
    fun l hl => dropWhile_eq_self_iff.mpr fun _ =>
      Bool.eq_false_iff.mp (isWhitespace_of_digit (hl _ (getElem_mem _)))
  have hb : (' ' :: digits).dropWhile isWhitespace = digits := by
    rw [dropWhile_cons_of_pos (by decide), hk digits h]
  rw [trim, hb, hk digits.reverse fun c hc => h c (mem_reverse.mp hc), reverse_reverse]

theorem parseLength_toDigits (hn : n ≤ usizeMax) :
    parseLength (' ' :: Nat.toDigits 10 n) = .ok n := by
  have hdigits : ∀ c ∈ Nat.toDigits 10 n, c.isDigit = true := fun c => isDigit_toDigits
  have hne : (Nat.toDigits 10 n).isEmpty = false := by simp [toDigits_ne_nil]
  have hall : (Nat.toDigits 10 n).all Char.isDigit = true := all_eq_true.mpr hdigits
  have hv : Nat.ofDigitChars 10 (Nat.toDigits 10 n) 0 = n :=
    ofDigitChars_toDigits (by omega) (by omega)
  simp only [parseLength, trim_blank_digits hdigits, hne, hall, hv]; simp [not_lt.mpr hn]

theorem parseContentLength_headerText (hn : n ≤ usizeMax) :
    parseContentLength (encode (headerText n)) = .ok n := by
  have hl : '\r' ∉ headerText n := fun h => absurd (mem_headerText h) (by decide)
  have hs : splitOnce ':' (headerText n) =
      some ("Content-Length".toList, ' ' :: Nat.toDigits 10 n) := rfl
  have hp : ∀ c ∈ ' ' :: Nat.toDigits 10 n, 31 < c.toNat ∧ c.toNat < 127 :=
    fun c hc => mem_headerText (l := n) (mem_append_right "Content-Length:".toList hc)
  have hf : isHeaderField "Content-Length".toList (' ' :: Nat.toDigits 10 n) = true := by
    have hne : "Content-Length".toList.all isAscii = true ∧
        "Content-Length".toList.any (fun c => isAsciiControl c || isAsciiWhitespace c) = false := by
      decide
    have ha : (' ' :: Nat.toDigits 10 n).all isAscii = true := by
      refine all_eq_true.mpr fun c hc => ?_
      have := hp c hc
      simp only [isAscii, decide_eq_true_eq]; omega
    have hclean : (' ' :: Nat.toDigits 10 n).any (fun c => isAsciiControl c && c != '\t') = false := by
      refine any_eq_false.mpr fun c hc => ?_
      have := hp c hc
      simp only [isAsciiControl, Bool.and_eq_true, Bool.or_eq_true, decide_eq_true_eq, beq_iff_eq]
      omega
    rw [isHeaderField, hne.1, hne.2, ha, hclean]; rfl
  have hsome : (headerText n).isEmpty = false := rfl
  have hne : eqIgnoreAsciiCase "Content-Length".toList "content-length".toList = true := by decide
  have hparse : parseLine {} (headerText n) = .ok { contentLength := some n } := by
    simp only [parseLine, hsome, hs, hf, hne, parseLength_toDigits hn]; rfl
  simp only [parseContentLength, decode_encode, splitCrlf_of_not_mem hl, foldlM_cons,
    hparse, foldlM_nil]
  rfl

theorem length_toDigits_le (hn : n ≤ maxLspFrameBytes) : (Nat.toDigits 10 n).length ≤ 7 := by
  have hs : n < 10 ^ 7 := by unfold maxLspFrameBytes at hn; omega
  exact (length_toDigits_le_iff (b := 10) (k := 7) (by decide) (by decide)).mpr hs

theorem length_encode_headerText (hn : n ≤ maxLspFrameBytes) :
    (encode (headerText n)).length ≤ 23 := by
  have ha : ∀ c ∈ headerText n, c.toNat ≤ 127 := fun c hc => by
    have := mem_headerText hc
    omega
  have hlen : (headerText n).length = 16 + (Nat.toDigits 10 n).length := length_append
  have hdigits := length_toDigits_le hn
  rw [length_encode_of_ascii ha, hlen]; omega

theorem message_encoded (hf : f.length ≤ maxLspFrameBytes) (rest : List UInt8) :
    Message (encodedHeader f.length ++ f ++ rest) (encode (headerText f.length)) f rest := by
  have hs : encodedHeader f.length ++ f ++ rest =
      encode (headerText f.length) ++ (headerTerminator ++ (f ++ rest)) := by
    rw [encodedHeader_eq]; simp only [append_assoc]
  have hu : f.length ≤ usizeMax := by
    unfold maxLspFrameBytes at hf
    unfold usizeMax; omega
  have hh := length_encode_headerText hf
  refine ⟨hs, ?_, ?_, parseContentLength_headerText hu, hf⟩
  · rw [hs]; exact findHeaderEnd_of_not_mem (carriageReturn_not_mem _) _
  · unfold maxLspHeaderBytes; omega

def messages (frames : List Frame) : List UInt8 :=
  (frames.map fun frame => encodedHeader frame.length ++ frame).flatten

theorem encodeFrames_eq (h : ∀ frame ∈ fs, frame.length ≤ maxLspFrameBytes) :
    encodeFrames fs = .ok (messages fs) := by
  have hall : fs.mapM encodeFrame = .ok (fs.map fun frame => encodedHeader frame.length ++ frame) := by
    refine mapM_eq_ok.mpr (forall₂_map_right_iff.mpr (forall₂_same.mpr fun frame hf => ?_))
    exact if_neg (not_lt.mpr (h frame hf))
  rw [encodeFrames, hall]; rfl

theorem takes_messages (h : ∀ frame ∈ fs, frame.length ≤ maxLspFrameBytes) :
    Takes decodeFrame (messages fs) fs [] := by
  induction fs with
  | nil => exact .refl []
  | cons frame fs ih =>
    have hm := message_encoded (h frame mem_cons_self) (messages fs)
    exact .step (decodeFrame_eq_some_iff.mpr ⟨_, hm⟩) (ih fun f hf => h f (mem_cons_of_mem _ hf))

theorem headerSettled_messages {f : List Frame}
    (h : ∀ frame ∈ f, frame.length ≤ maxLspFrameBytes) : HeaderSettled (messages f) := by
  cases f with
  | nil => exact ⟨fun _ hl => absurd hl (not_lt_zero _), nofun, nofun⟩
  | cons frame f =>
    have hf := h frame mem_cons_self
    obtain ⟨hs, he, -, -, -⟩ := message_encoded hf (messages f)
    have hh := length_encode_headerText hf
    have hmax : maxLspHeaderBytes = 16384 := rfl
    have he' : findHeaderEnd (messages (frame :: f)) = _ := he
    have hs' : messages (frame :: f) = _ := hs
    refine ⟨fun ho _ => ?_, fun p hp _ => ?_, fun p hp _ hbad => ?_⟩
    · have := ho _ he'; omega
    · rw [he'] at hp; cases hp; omega
    · rw [he'] at hp
      cases hp
      have ht : (messages (frame :: f)).take ((encode (headerText frame.length)).length + 3)
          = encode (headerText frame.length) ++ [carriageReturn, lineFeed, carriageReturn] := by
        rw [hs', take_length_add_append]; rfl
      rw [ht, not_hasInvalidLineEnding_header (carriageReturn_not_mem _)
        (lineFeed_not_mem _)] at hbad
      cases hbad

/-- Behind a message of the encoder stand the messages of the frames after it. -/
theorem fromBoundary_messages (h : FromBoundary s r) :
    ∀ fs : List Frame, (∀ frame ∈ fs, frame.length ≤ maxLspFrameBytes) →
      s = messages fs → HeaderSettled r := by
  induction h with
  | start s => rintro fs hfs rfl; exact headerSettled_messages hfs
  | next hm _ ih =>
    rintro fs hfs rfl
    have hd := decodeFrame_eq_some_iff.mpr ⟨_, hm⟩
    cases fs with
    | nil => simp [messages, framed.empty] at hd
    | cons frame fs =>
      have hhead := message_encoded (hfs frame mem_cons_self) (messages fs)
      have he : decodeFrame (messages (frame :: fs)) = _ := decodeFrame_eq_some_iff.mpr ⟨_, hhead⟩
      rw [he] at hd
      cases hd; exact ih fs (fun f hf => hfs f (mem_cons_of_mem _ hf)) rfl

/-- The outcome of decoding an input is the same for every chunking of it exactly when the header at
each of its frame boundaries is settled, and what the encoder writes is decoded to the payloads it
was written from whatever the chunking. -/
theorem decoding_independent_of_chunking (stream : List UInt8) (payloads : List Frame) :
    ((∀ cs ds : List (List UInt8), cs.flatten = stream → ds.flatten = stream →
        decodeChunks cs = decodeChunks ds) ↔
      ∀ r, FromBoundary stream r → HeaderSettled r) ∧
    ((∀ p ∈ payloads, p.length ≤ maxLspFrameBytes) → ∃ stream, encodeFrames payloads = .ok stream ∧
        ∀ cs : List (List UInt8), cs.flatten = stream → decodeChunks cs = ⟨payloads, none⟩) := by
  constructor
  · exact (splits_agree_iff framed stream).trans steady_iff
  · intro hf
    have hs : Steady decodeFrame (messages payloads) :=
      steady_iff.mpr fun r hr => fromBoundary_messages hr payloads hf rfl
    exact ⟨messages payloads, encodeFrames_eq hf, fun cs hcs =>
      feed_of_takes_all framed hs (takes_messages hf) hcs⟩

/-- Two payloads, however their messages arrive. -/
theorem two_payloads_decoded : ∃ stream, encodeFrames [[123, 125], []] = .ok stream ∧
      ∀ cs : List (List UInt8), cs.flatten = stream → decodeChunks cs = ⟨[[123, 125], []], none⟩ :=
  (decoding_independent_of_chunking [] [[123, 125], []]).2 (by decide)

/-- A length that is no number, and behind it a line that is no field. -/
def faultyFields : List Char := "Content-Length: x\r\na\nb".toList

def faultyHeader : List UInt8 := encode faultyFields ++ headerTerminator

theorem decodeFrame_faultyHeader : decodeFrame faultyHeader = .error .invalidContentLength := by
  have hend : findHeaderEnd faultyHeader = some 22 := by decide
  have ht : faultyHeader.take 22 = encode faultyFields := by decide
  rw [decodeFrame_complete hend (by decide), ht, parseContentLength, decode_encode]; rfl

/-- As a whole the header is refused for its length; cut before its end, for the bare line feed. -/
theorem chunking_shows_in_error : ∃ cs ds : List (List UInt8), cs.flatten = ds.flatten ∧
      decodeChunks cs = ⟨[], some .invalidContentLength⟩ ∧
      decodeChunks ds = ⟨[], some .malformedHeader⟩ := by
  refine ⟨[faultyHeader], [faultyHeader.take 22, faultyHeader.drop 22], by simp, ?_, ?_⟩
  · simp [decodeChunks, feed, drain, decodeFrame_faultyHeader]
  · decide

end TraceDecay.Lsp
