import TraceDecay.Context.Wire
import TraceDecay.Context.Measure

/-!
# Context.WireCorrect

What a streaming writer reports. Fed the bytes of a text, in whatever pieces, it scans the text in
fragments that end between characters (`Feeding` is the state between two of them) and reports its
length and its summary, with the occurrences missing that the scans of the fragments missed.

`FragmentStart text rest` says that some way of writing `text` makes the writer begin a fragment
where `rest` is left. `writeAll_feeds` follows any list of write calls; `reach_fragment` finds
calls that reach a given start.
-/

namespace TraceDecay.Context

open Utf8 Occurrences StreamingWriter
open List hiding count count_nil

/-- The places a fragment may begin: between `tokenScanChunkBytes` and `pendingCapacity` bytes are
pending when their whole characters are taken. -/
inductive FragmentStart (text : List Char) : List Char → Prop where
  | start : FragmentStart text text
  | next {rest : List Char} {p : Nat} : FragmentStart text rest → tokenScanChunkBytes ≤ p →
      p ≤ pendingCapacity → p ≤ (encode rest).length →
      FragmentStart text (rest.drop (wholeChars p rest).length)

/-- A fragment that begins at `rest` can contain an occurrence that its scan does not see. -/
def CutsPattern (pattern rest : List Char) : Prop :=
  ∃ i, encode pattern <+: (encode rest).drop i ∧ i < tokenScanChunkBytes ∧
    tokenScanChunkBytes < i + (encode pattern).length ∧
    i + (encode pattern).length ≤ pendingCapacity

/-- No way of writing `text` makes the writer miss an occurrence. -/
def StreamsWhole (policy : TokenPolicy) (text : List Char) : Prop :=
  ∀ pattern, policy = .substring pattern →
    ∀ rest, FragmentStart text rest → ¬ CutsPattern pattern rest

/-- The writer has scanned `done` and holds the first bytes of `rest`. -/
structure Feeding (policy : TokenPolicy) (collect : Bool) (w : StreamingWriter)
    (done rest : List Char) (missed : Nat) : Prop where
  policy_eq : w.policy = policy
  valid : w.invalidUtf8 = false
  summary : w.measure.summary = measured policy missed done
  missed_le : missed ≤ occurrencesIn policy done
  output : w.output = if collect then some done else none
  pending : w.pending <+: encode rest

variable {policy : TokenPolicy} {collect : Bool} {w : StreamingWriter} {done rest : List Char}
  {missed : Nat}

variable (h : Feeding policy collect w done rest missed)
include h

theorem Feeding.withPending {pending : List UInt8}
    (hp : pending <+: encode rest) : Feeding policy collect { w with pending } done rest missed :=
  { h with pending := hp }

theorem Feeding.pending_append_drop {p : Nat} (hp : w.pending.length ≤ p) :
    w.pending ++ ((encode rest).take p).drop w.pending.length = (encode rest).take p :=
  prefix_iff_eq_append.mp (prefix_take_iff.mpr ⟨h.pending, hp⟩)

theorem Feeding.withBytes (bytes : Nat) :
    Feeding policy collect { w with measure := { w.measure with bytes } } done rest missed :=
  { h with }

omit h

variable (hv : policy.Valid)
include hv

theorem occurrencesIn_append (a b : List Char) :
    occurrencesIn policy a + occurrencesIn policy b ≤ occurrencesIn policy (a ++ b) := by
  cases policy with
  | substring pattern =>
    have hp := hv.encode_ne_nil
    have hc := count_append hp (encode a) (encode b)
    simp only [occurrencesIn, encode_append]; omega
  | _ => exact Nat.le_refl 0

variable (hb : (encode (done ++ rest)).length < 2 ^ 64)
include h hb

theorem processPendingPrefix_feeds {f more : List Char} {len : Nat} (hr : rest = f ++ more)
    (hlen : w.pending.take len = encode f) (hp : w.pending.drop len <+: encode more) :
    ∃ w', w.processPendingPrefix len = (.ok (), w') ∧ w'.pending = w.pending ∧
      w'.measure.bytes = w.measure.bytes ∧
      Feeding policy collect { w' with pending := w.pending.drop len } (done ++ f) more
        (missed + missedBy policy f) := by
  have hfit : (encode (done ++ f)).length < 2 ^ 64 := by
    subst hr
    simp only [encode_append, length_append] at hb ⊢; omega
  have hs : TokenSummary.scan w.policy f = .ok (measured policy (missedBy policy f) f) := by
    rw [h.policy_eq]
    refine scan_eq hv ?_
    simp only [encode_append, length_append] at hfit; omega
  have hj : w.measure.summary.concatenate (measured policy (missedBy policy f) f) =
      .ok (measured policy (missed + missedBy policy f) (done ++ f)) := by
    rw [h.summary]; exact concatenate_measured hv h.missed_le (missedBy_le policy f) hfit
  unfold processPendingPrefix
  rw [hlen, decode_encode]
  simp only [hs, hj]
  refine ⟨_, rfl, rfl, rfl, h.policy_eq, h.valid, rfl, ?_, ?_, hp⟩
  · have hle := missedBy_le policy f
    have hocc := occurrencesIn_append hv done f
    have hd := h.missed_le
    omega
  · simp only [h.output]
    cases collect <;> rfl

theorem processPending_full (hfull : tokenScanChunkBytes ≤ w.pending.length) :
    ∃ w', w.processPending false = (.ok (), w') ∧ w'.measure.bytes = w.measure.bytes ∧
      w'.pending.length ≤ 3 ∧
      encode (wholeChars w.pending.length rest) ++ w'.pending = w.pending ∧
      Feeding policy collect w' (done ++ wholeChars w.pending.length rest)
        (rest.drop (wholeChars w.pending.length rest).length)
        (missed + missedBy policy (wholeChars w.pending.length rest)) := by
  obtain ⟨part, ht, hpartial⟩ := take_encode w.pending.length rest
  have hp : w.pending = encode (wholeChars w.pending.length rest) ++ part := by
    rw [← ht]; exact prefix_iff_eq_take.mp h.pending
  obtain ⟨more, hm⟩ := wholeChars_prefix w.pending.length rest
  generalize wholeChars w.pending.length rest = fragment at hp hm ⊢
  have hd : rest.drop fragment.length = more := by rw [← hm]; simp
  have hshort := hpartial.length_le
  have hlen : w.pending.length = (encode fragment).length + part.length := by
    rw [hp, length_append]
  have hc : (4096 : Nat) ≤ w.pending.length := hfull
  have hne : (encode fragment).length ≠ 0 := by omega
  have hpre : w.pending.take (encode fragment).length = encode fragment := by rw [hp, take_left]
  have hdrop : w.pending.drop (encode fragment).length = part := by rw [hp, drop_left]
  have hpart : part <+: encode more := by
    have hall := h.pending
    rw [hp, ← hm, encode_append] at hall; exact (prefix_append_right_inj _).mp hall
  obtain ⟨w', hs, hk, hbytes, hf⟩ := processPendingPrefix_feeds h hv hb hm.symm hpre
    (by rw [hdrop]; exact hpart)
  have hr : w.processPending false =
      (.ok (), { w' with pending := w'.pending.drop (encode fragment).length }) := by
    have hval := validate_encode_append fragment hpartial
    rw [← hp] at hval
    unfold processPending
    rw [if_neg (ne_nil_of_length_pos (by omega)), hval]
    by_cases hcut : part = []
    · subst hcut
      have hw : w.pending.length = (encode fragment).length := by simpa using hlen
      simp only [if_true, hw, consumePending, hs]
    · simp only [if_neg hcut, Bool.false_eq_true, if_false, hne, consumePending, hs]
  rw [hk, hdrop] at hr
  rw [hdrop] at hf
  refine ⟨_, hr, hbytes, hshort, hp.symm, ?_⟩
  rw [hd]; exact hf

theorem processPending_last (hall : w.pending = encode rest) :
    ∃ w', w.processPending true = (.ok (), w') ∧ w'.measure.bytes = w.measure.bytes ∧
      Feeding policy collect w' (done ++ rest) [] (missed + missedBy policy rest) := by
  by_cases hnil : w.pending = []
  · have hr : rest = [] := by
      by_contra hne
      exact encode_ne_nil hne (hall ▸ hnil)
    subst hr
    refine ⟨w, by simp [processPending, hnil], rfl, ?_⟩
    have hz : missedBy policy [] = 0 := by
      cases policy <;> simp_all [missedBy, count_nil]
    simpa [hz] using h
  · have hr : rest = rest ++ [] := (append_nil rest).symm
    obtain ⟨w', hs, hk, hbytes, hf⟩ := processPendingPrefix_feeds h hv hb hr
      (show w.pending.take w.pending.length = encode rest by rw [take_length, hall])
      (by simp)
    have hval := validate_encode_append rest (show Partial [] from .inl rfl)
    rw [append_nil, ← hall] at hval
    refine ⟨{ w' with pending := w'.pending.drop w.pending.length }, ?_, hbytes, ?_⟩
    · unfold processPending; rw [if_neg hnil, hval]; simp only [if_true, consumePending, hs]
    · rw [hk]; exact hf

/-! ## What the fragments miss -/

omit h hb

theorem missedBy_eq_zero_iff (s : List Char) : missedBy policy s = 0 ↔ ∀ pattern,
    policy = .substring pattern → ¬ Straddles (encode pattern) tokenScanChunkBytes (encode s) := by
  cases policy with
  | substring pattern =>
    have hp := hv.encode_ne_nil
    have hn : 0 < tokenScanChunkBytes := by decide
    have hle := chunkedCount_le hp hn (encode s)
    simp only [TokenPolicy.substring.injEq, forall_eq', ← chunkedCount_eq_iff hp hn, missedBy]
    omega
  | _ => simp [missedBy]

omit hv in
/-- Text no longer than a buffer can only hide an occurrence across its first chunk boundary. -/
theorem straddles_iff_of_length_le {p b : List UInt8} (hp : p ≠ [])
    (hlen : b.length ≤ pendingCapacity) :
    Straddles p tokenScanChunkBytes b ↔ ∃ i, p <+: b.drop i ∧ i < tokenScanChunkBytes ∧
        tokenScanChunkBytes < i + p.length := by
  constructor
  · rintro ⟨i, k, hocc, hlo, hhi⟩
    have hend := length_le_of_isPrefix_drop hp hocc
    simp only [pendingCapacity, tokenScanChunkBytes] at hlen hlo hhi ⊢
    obtain rfl : k = 1 := by omega
    exact ⟨i, hocc, by omega, by omega⟩
  · rintro ⟨i, hocc, hlo, hhi⟩; exact ⟨i, 1, hocc, by omega, by omega⟩

theorem missedBy_short {s : List Char}
    (hlen : (encode s).length ≤ tokenScanChunkBytes) : missedBy policy s = 0 := by
  rw [missedBy_eq_zero_iff hv]
  rintro pattern rfl ⟨i, k, hocc, hlo, hhi⟩
  have hend := length_le_of_isPrefix_drop hv.encode_ne_nil hocc
  simp only [tokenScanChunkBytes] at hlen hlo hhi; omega

omit hv in
theorem encode_wholeChars_length (p : Nat) (rest : List Char) :
    (encode (wholeChars p rest)).length ≤ p := by
  obtain ⟨part, ht, -⟩ := take_encode p rest
  have := congrArg List.length ht
  rw [length_take, length_append] at this; omega

theorem missedBy_fragment {text : List Char} (hw : StreamsWhole policy text)
    (hs : FragmentStart text rest) {p : Nat} (hp : p ≤ pendingCapacity) :
    missedBy policy (wholeChars p rest) = 0 := by
  have hlen := encode_wholeChars_length p rest
  rw [missedBy_eq_zero_iff hv]
  rintro pattern rfl hstraddles
  have hne := hv.encode_ne_nil
  obtain ⟨i, hocc, hlo, hhi⟩ := (straddles_iff_of_length_le hne (by omega)).mp hstraddles
  obtain ⟨more, hm⟩ := wholeChars_prefix p rest
  have hend := length_le_of_isPrefix_drop hne hocc
  refine hw pattern rfl rest hs ⟨i, ?_, hlo, hhi, by omega⟩
  rw [← hm, encode_append]; exact (isPrefix_drop_append (by omega)).mpr hocc

/-! ## Write calls -/

omit hv

/-- The writer has been fed the bytes `fed` of `text` and is between two write calls. -/
def Fed (policy : TokenPolicy) (collect : Bool) (text : List Char) (w : StreamingWriter)
    (fed : List UInt8) (missed : Nat) : Prop :=
  ∃ done rest, Feeding policy collect w done rest missed ∧ FragmentStart text rest ∧
    done ++ rest = text ∧ encode done ++ w.pending = fed ∧
    w.pending.length < tokenScanChunkBytes

variable {text : List Char} {fed : List UInt8}

theorem Fed.after_full {w' : StreamingWriter} {p missed' : Nat} (hs : FragmentStart text rest)
    (ht : done ++ rest = text) (hlo : tokenScanChunkBytes ≤ p) (hhi : p ≤ pendingCapacity)
    (hp : p ≤ (encode rest).length) (hshort : w'.pending.length ≤ 3)
    (hfed : encode done ++ (encode (wholeChars p rest) ++ w'.pending) = fed)
    (h : Feeding policy collect w' (done ++ wholeChars p rest)
      (rest.drop (wholeChars p rest).length) missed') :
    Fed policy collect text w' fed missed' := by
  refine ⟨_, _, h, .next hs hlo hhi hp, ?_, ?_, ?_⟩
  · rw [append_assoc, wholeChars_append_drop, ht]
  · rw [encode_append, append_assoc, hfed]
  · have hc : tokenScanChunkBytes = 4096 := rfl; omega

variable (hbound : (encode text).length < 2 ^ 64)
include hv hbound

theorem writeLoop_feeds (fuel : Nat)
    {r : List UInt8} (h : Fed policy collect text w fed missed)
    (hrem : fed ++ r <+: encode text) (hfuel : r.length ≤ fuel) :
    ∃ w' m', writeLoop fuel w r = (.ok (), w') ∧ w'.measure.bytes = w.measure.bytes ∧
      Fed policy collect text w' (fed ++ r) m' ∧ missed ≤ m' ∧
      (StreamsWhole policy text → m' = missed) := by
  induction fuel generalizing w fed missed r with
  | zero =>
    obtain rfl : r = [] := length_eq_zero_iff.mp (by omega)
    exact ⟨w, missed, rfl, rfl, by simpa using h, Nat.le_refl _, fun _ => rfl⟩
  | succ fuel ih =>
    by_cases hnil : r = []
    · subst hnil
      exact ⟨w, missed, by simp [writeLoop], rfl, by simpa using h, Nat.le_refl _, fun _ => rfl⟩
    obtain ⟨done, rest, hfeeds, hs, ht, hfed, hshort⟩ := h
    have hc : tokenScanChunkBytes = 4096 := rfl
    have hcap : pendingCapacity = 4099 := rfl
    unfold writeLoop
    rw [if_neg hnil]
    simp only
    generalize htake : min (pendingCapacity - w.pending.length) r.length = take
    have hpre : w.pending ++ r.take take <+: encode rest := by
      have hall := hrem
      rw [← hfed, ← ht, encode_append, append_assoc] at hall
      have hbehind := (prefix_append_right_inj _).mp hall
      refine List.IsPrefix.trans ?_ hbehind
      exact (prefix_append_right_inj _).mpr (List.take_prefix _ _)
    have hf' := hfeeds.withPending hpre
    have hlen : (w.pending ++ r.take take).length = w.pending.length + take := by
      rw [length_append, length_take]; omega
    have hr : fed ++ r = fed ++ r.take take ++ r.drop take := by
      rw [append_assoc, take_append_drop]
    have hfed' : encode done ++ (w.pending ++ r.take take) =
        fed ++ r.take take := by rw [← append_assoc, hfed]
    have hd : (r.drop take).length ≤ fuel := by rw [length_drop]; omega
    by_cases hf : (w.pending ++ r.take take).length ≥ tokenScanChunkBytes
    · rw [if_pos hf]
      obtain ⟨w', hstep, hbytes, hs', hp, hfragment⟩ :=
        processPending_full hf' hv (by rw [ht]; exact hbound) hf
      simp only [hstep]
      have ha : Fed policy collect text w' (fed ++ r.take take) _ :=
        .after_full hs ht hf (by simp only [hlen]; omega) hf'.pending.length_le hs' (hp ▸ hfed')
          hfragment
      obtain ⟨w'', missed'', hrun, hbound', hf'', hle, hsame⟩ := ih ha (by rw [← hr]; exact hrem) hd
      refine ⟨w'', missed'', hrun, hbound'.trans hbytes, hr ▸ hf'', by omega, ?_⟩
      intro hw
      rw [hsame hw, missedBy_fragment hv hw hs (by simp only [hlen]; omega), Nat.add_zero]
    · rw [if_neg hf]
      obtain ⟨w'', missed'', hrun, hbound', hf'', hle, hsame⟩ :=
        ih ⟨done, rest, hf', hs, ht, hfed', Nat.lt_of_not_le hf⟩ (by rw [← hr]; exact hrem) hd
      exact ⟨w'', missed'', hrun, hbound', hr ▸ hf'', hle, hsame⟩

theorem writeAll_feeds (ws : List (List UInt8)) (h : Fed policy collect text w fed missed)
    (hc : w.measure.bytes = fed.length) (hrem : fed ++ ws.flatten <+: encode text) :
    ∃ w' m', w.writeAll ws = (.ok (), w') ∧ w'.measure.bytes = (fed ++ ws.flatten).length ∧
      Fed policy collect text w' (fed ++ ws.flatten) m' ∧ missed ≤ m' ∧
      (StreamsWhole policy text → m' = missed) := by
  induction ws generalizing w fed missed with
  | nil => exact ⟨w, missed, rfl, by simpa using hc, by simpa using h, Nat.le_refl _, fun _ => rfl⟩
  | cons buffer buffers ih =>
    rw [flatten_cons, ← append_assoc] at hrem ⊢
    have hsofar : fed ++ buffer <+: encode text := (prefix_append _ _).trans hrem
    have hfit : w.measure.bytes + buffer.length < 2 ^ 64 := by
      have := hsofar.length_le
      rw [length_append] at this; omega
    obtain ⟨done, rest, hf, hs, ht, hfed, hshort⟩ := h
    obtain ⟨w', m', hrun, hbytes, hf', hle, hsame⟩ := writeLoop_feeds hv hbound buffer.length
        (w := { w with measure := { w.measure with bytes := w.measure.bytes + buffer.length } })
        ⟨done, rest, hf.withBytes _, hs, ht, hfed, hshort⟩ hsofar (Nat.le_refl _)
    have hwrite : w.write buffer = (.ok (), w') := by
      unfold write
      rw [checkedAdd_ok hfit]; exact hrun
    obtain ⟨w'', missed'', hr, hbound', hf'', hle', hs'⟩ :=
      ih hf' (by rw [hbytes, length_append, hc]) hrem
    refine ⟨w'', missed'', ?_, hbound', hf'', by omega, ?_⟩
    · unfold writeAll; rw [hwrite]; exact hr
    · intro hw
      rw [hs' hw, hsame hw]

theorem finish_fed (h : Fed policy collect text w (encode text) missed)
    (hc : w.measure.bytes = (encode text).length) :
    w.finish (.ok ()) = .ok (⟨(encode text).length, measured policy missed text⟩,
      if collect then some text else none) ∧ missed ≤ occurrencesIn policy text := by
  obtain ⟨done, rest, hf, -, ht, hfed, hshort⟩ := h
  have hall : w.pending = encode rest := by
    rw [← ht, encode_append] at hfed; exact append_cancel_left hfed
  obtain ⟨w', hs, hbytes, hl⟩ := processPending_last hf hv (by rw [ht]; exact hbound) hall
  rw [missedBy_short hv (by rw [← hall]; omega), Nat.add_zero, ht] at hl
  refine ⟨?_, hl.missed_le⟩
  unfold finish
  rw [hs]
  simp only [hl.valid, Bool.false_eq_true, if_false, hl.output]
  rw [← hc, ← hbytes, ← hl.summary]

/-! ## Reaching a fragment -/

/-- One call can bring the pending bytes to any length a scan may start from. -/
theorem write_fragment (h : Feeding policy collect w done rest missed)
    (htext : done ++ rest = text) (hshort : w.pending.length ≤ 3)
    (hc : w.measure.bytes = (encode done ++ w.pending).length) {p : Nat}
    (hlo : tokenScanChunkBytes ≤ p) (hhi : p ≤ pendingCapacity) (hp : p ≤ (encode rest).length) :
    ∃ w', w.write (((encode rest).take p).drop w.pending.length) = (.ok (), w') ∧
      w'.measure.bytes = (encode done ++ (encode rest).take p).length ∧ w'.pending.length ≤ 3 ∧
      encode (wholeChars p rest) ++ w'.pending = (encode rest).take p ∧
      Feeding policy collect w' (done ++ wholeChars p rest) (rest.drop (wholeChars p rest).length)
        (missed + missedBy policy (wholeChars p rest)) := by
  have hchunk : tokenScanChunkBytes = 4096 := rfl
  have hpending : w.pending ++ ((encode rest).take p).drop w.pending.length =
      (encode rest).take p := h.pending_append_drop (by omega)
  generalize hbuffer : ((encode rest).take p).drop w.pending.length = buffer at hpending
  have hlen : buffer.length = p - w.pending.length := by
    rw [← hbuffer, length_drop, length_take]; omega
  have ht : ((encode rest).take p).length = p := by rw [length_take]; omega
  have hfit : w.measure.bytes + buffer.length < 2 ^ 64 := by
    rw [← htext, encode_append, length_append] at hbound
    rw [hc, length_append]; omega
  have hfeeds := (h.withBytes (w.measure.bytes + buffer.length)).withPending
    (List.take_prefix p (encode rest))
  obtain ⟨w', hs, hbytes, hs', hwhole, hfragment⟩ := processPending_full hfeeds hv
    (by rw [htext]; exact hbound) (by simp only [ht]; exact hlo)
  simp only [ht] at hwhole hfragment
  refine ⟨w', ?_, ?_, hs', hwhole, hfragment⟩
  · obtain ⟨fuel, hf⟩ : ∃ fuel, buffer.length = fuel + 1 := ⟨buffer.length - 1, by omega⟩
    have hmin : min (pendingCapacity - w.pending.length) buffer.length = buffer.length := by omega
    unfold write
    rw [checkedAdd_ok hfit]
    simp only
    rw [hf]
    unfold writeLoop
    rw [if_neg (ne_nil_of_length_pos (by omega))]
    simp only [hmin, take_length, drop_length, hpending]
    rw [if_pos (by rw [ht]; exact hlo), ← hf]
    simp only [hs]
    cases fuel with
    | zero => rfl
    | succ fuel => simp [writeLoop]
  · rw [hbytes, length_append, ht]; simp only [hc, length_append]; omega

omit hv hbound in
theorem writeAll_append (w : StreamingWriter) (b after : List (List UInt8)) :
    w.writeAll (b ++ after) =
      match w.writeAll b with
      | (.error e, w) => (.error e, w)
      | (.ok (), w) => w.writeAll after := by
  induction b generalizing w with
  | nil => rfl
  | cons buffer b ih =>
    simp only [cons_append, writeAll]
    generalize w.write buffer = out
    obtain ⟨result, w'⟩ := out
    cases result with
    | error e => rfl
    | ok u => exact ih w'

theorem reach_fragment (h : Feeding policy collect w [] text 0) (he : w.pending = [])
    (hz : w.measure.bytes = 0) (hs : FragmentStart text rest) :
    ∃ ws w' done missed, w.writeAll ws = (.ok (), w') ∧
      Feeding policy collect w' done rest missed ∧ done ++ rest = text ∧
      w'.pending.length ≤ 3 ∧ ws.flatten = encode done ++ w'.pending ∧
      w'.measure.bytes = (encode done ++ w'.pending).length := by
  induction hs with
  | start => exact ⟨[], w, [], 0, rfl, h, rfl, by simp [he], by simp [he], by simp [he, hz]⟩
  | @next rest p hprev hlo hhi hp ih =>
    obtain ⟨ws, w', done, missed, hrun, hf, ht, hshort, hflat, hc⟩ := ih
    obtain ⟨w'', hw, hbytes, hs', hwhole, hf'⟩ := write_fragment hv hbound hf ht hshort hc hlo hhi hp
    have hall : encode (done ++ wholeChars p rest) ++ w''.pending =
        encode done ++ (encode rest).take p := by rw [encode_append, append_assoc, hwhole]
    refine ⟨ws ++ [((encode rest).take p).drop w'.pending.length], w'', _, _, ?_, hf', ?_,
      hs', ?_, by rw [hall]; exact hbytes⟩
    · rw [writeAll_append, hrun]; simp only [writeAll, hw]
    · rw [append_assoc, wholeChars_append_drop, ht]
    · rw [hall, flatten_append, hflat, append_assoc]
      congr 1
      rw [flatten_singleton]
      exact hf.pending_append_drop (by simp only [tokenScanChunkBytes] at hlo; omega)

end TraceDecay.Context
