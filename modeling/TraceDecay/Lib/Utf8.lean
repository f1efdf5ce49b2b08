import TraceDecay.Lib.Fallible

/-!
# Lib.Utf8

Text as the characters it is made of and the bytes that encode them. `validate` reads bytes one
at a time and reports how many of them are whole characters and how the rest ends: nothing left
over, a character cut short, or bytes no character starts with.

* `validate_encode_append`: on encoded text followed by the beginning of one more character it
  stops at the end of the text.
* `take_encode`: any leading bytes of encoded text are whole characters and the beginning of
  the next.
* `decode_encode`, `encode_of_decode`: what was encoded is decoded, and nothing else is.
* `prefix_of_encode_prefix`, `suffix_of_encode_suffix`: text found at either end of encoded text is
  made of whole characters of it.
-/

namespace Utf8

open List Fallible
open String (utf8EncodeChar)

def encode (cs : List Char) : List UInt8 := cs.flatMap utf8EncodeChar

@[simp] theorem encode_nil : encode [] = [] := rfl

@[simp] theorem encode_append (a b : List Char) : encode (a ++ b) = encode a ++ encode b :=
  flatMap_append

theorem encode_cons (c : Char) (cs : List Char) :
    encode (c :: cs) = utf8EncodeChar c ++ encode cs := flatMap_cons

theorem length_le_encode (cs : List Char) : cs.length ≤ (encode cs).length := by
  induction cs with
  | nil => exact Nat.le_refl _
  | cons c cs ih =>
    have hpos : 0 < c.utf8Size := c.utf8Size_pos
    rw [encode_cons, length_append, String.length_utf8EncodeChar, length_cons]; omega

variable {cs : List Char} {n : Nat} {c : Char} {b : UInt8}

theorem length_encode_of_ascii (h : ∀ c ∈ cs, c.toNat ≤ 127) : (encode cs).length = cs.length := by
  induction cs with
  | nil => rfl
  | cons c cs ih =>
    have hc : c.val.toNat ≤ 127 := h c mem_cons_self
    have hone : (utf8EncodeChar c).length = 1 := by
      simp only [utf8EncodeChar, if_pos hc, length_singleton]
    rw [encode_cons, length_append, hone, ih fun c' hc' => h c' (mem_cons_of_mem _ hc'),
      length_cons, Nat.add_comm]

def decode (bytes : List UInt8) : Option (List Char) :=
  (String.fromUTF8? ⟨bytes.toArray⟩).map String.toList

theorem decode_encode (cs : List Char) : decode (encode cs) = some cs := by
  have hb : (⟨(encode cs).toArray⟩ : ByteArray) = cs.utf8Encode := by
    refine ByteArray.ext ?_
    simp [encode, List.utf8Encode]
  have hv : ByteArray.IsValidUTF8 cs.utf8Encode := ⟨cs, rfl⟩
  unfold decode String.fromUTF8?
  rw [hb, dif_pos (by simpa [ByteArray.validateUTF8_eq_true_iff] using hv)]
  simp only [Option.map_some, Option.some.injEq]
  have hlist : String.fromUTF8 cs.utf8Encode hv = String.ofList cs := rfl
  rw [hlist, String.toList_ofList]

theorem encode_of_decode {bytes : List UInt8} (h : decode bytes = some cs) : encode cs = bytes := by
  obtain ⟨s, hs, -⟩ := Option.map_eq_some_iff.mp h
  have hvalid : ByteArray.IsValidUTF8 ⟨bytes.toArray⟩ := by
    unfold String.fromUTF8? at hs
    split at hs
    · rename_i hv; exact hv
    · cases hs
  obtain ⟨cs', hcs'⟩ := hvalid
  have hb : bytes = encode cs' := by
    have hd := congrArg (fun b : ByteArray => b.data.toList) hcs'
    simpa [encode, List.utf8Encode] using hd
  rw [hb, decode_encode, Option.some.injEq] at h
  rw [hb, h]

/-! ## Validation, one byte at a time -/

inductive Ending where
  | complete
  | truncated
  | malformed
deriving DecidableEq

/-- The ranges of the bytes a lead byte calls for. -/
def follow (b : UInt8) : Option (List (Nat × Nat)) :=
  let b := b.toNat
  if b < 0x80 then some []
  else if b < 0xC2 then none
  else if b < 0xE0 then some [(0x80, 0xBF)]
  else if b = 0xE0 then some [(0xA0, 0xBF), (0x80, 0xBF)]
  else if b = 0xED then some [(0x80, 0x9F), (0x80, 0xBF)]
  else if b < 0xF0 then some [(0x80, 0xBF), (0x80, 0xBF)]
  else if b = 0xF0 then some [(0x90, 0xBF), (0x80, 0xBF), (0x80, 0xBF)]
  else if b < 0xF4 then some [(0x80, 0xBF), (0x80, 0xBF), (0x80, 0xBF)]
  else if b = 0xF4 then some [(0x80, 0x8F), (0x80, 0xBF), (0x80, 0xBF)]
  else none

def Within (range : Nat × Nat) (b : UInt8) : Prop := range.1 ≤ b.toNat ∧ b.toNat ≤ range.2

instance (range : Nat × Nat) (b : UInt8) : Decidable (Within range b) :=
  inferInstanceAs (Decidable (_ ∧ _))

/-- The bytes of whole characters, `held` of which were read before, with `owed` still to come. -/
def validateFrom (owed : List (Nat × Nat)) (held : Nat) : List UInt8 → Nat × Ending
  | [] => (0, if owed = [] then .complete else .truncated)
  | b :: rest =>
    match owed with
    | [] =>
      match follow b with
      | none => (0, .malformed)
      | some [] => let (n, e) := validateFrom [] 0 rest; (n + 1, e)
      | some owed => validateFrom owed 1 rest
    | range :: owed =>
      if Within range b then
        if owed = [] then let (n, e) := validateFrom [] 0 rest; (n + held + 1, e)
        else validateFrom owed (held + 1) rest
      else (0, .malformed)

def validate (bytes : List UInt8) : Nat × Ending := validateFrom [] 0 bytes

variable {owed : List (Nat × Nat)} {tail part : List UInt8}

theorem validateFrom_owed
    (h : List.Forall₂ Within owed tail) (hne : owed ≠ []) (held : Nat) (rest : List UInt8) :
    validateFrom owed held (tail ++ rest) =
      ((validate rest).1 + held + tail.length, (validate rest).2) := by
  induction h generalizing held with
  | nil => exact absurd rfl hne
  | @cons range b owed tail hb ht ih =>
    simp only [cons_append, validateFrom, if_pos hb]
    by_cases hl : owed = []
    · subst hl; cases ht; simp [validate]
    · rw [if_neg hl, ih hl]; simp only [length_cons, Prod.mk.injEq, and_true]; omega

theorem validateFrom_cut (h : List.Forall₂ Within owed tail) (hp : part <+: tail)
    (hcut : part.length < tail.length) (held : Nat) : validateFrom owed held part =
      (0, .truncated) := by
  induction h generalizing held part with
  | nil => simp at hcut
  | @cons range b owed tail hb ht ih =>
    cases part with
    | nil => rfl
    | cons p part =>
      obtain ⟨rfl, hm⟩ := cons_prefix_cons.mp hp
      have hs : part.length < tail.length := by simpa using hcut
      have howed : owed ≠ [] := by
        rintro rfl
        cases ht; simp at hs
      simp only [validateFrom, if_pos hb, if_neg howed]; exact ih hm hs _

theorem toNat_ofNat_of_lt (h : n < 256) : (UInt8.ofNat n).toNat = n := by
  simp only [UInt8.toNat_ofNat']; omega

theorem within_ofNat {lo hi : Nat} (h : n < 256) (hlo : lo ≤ n) (hhi : n ≤ hi) :
    Within (lo, hi) (UInt8.ofNat n) := by
  unfold Within
  rw [toNat_ofNat_of_lt h]; exact ⟨hlo, hhi⟩

theorem follow_three (h : 0xE0 ≤ n) (h' : n < 0xF0) : follow (UInt8.ofNat n) =
    some [(if n = 0xE0 then 0xA0 else 0x80, if n = 0xED then 0x9F else 0xBF), (0x80, 0xBF)] := by
  simp only [follow, toNat_ofNat_of_lt (show n < 256 by omega)]
  split_ifs
  any_goals rfl
  all_goals omega

theorem follow_four (h : 0xF0 ≤ n) (h' : n < 0xF5) : follow (UInt8.ofNat n) =
    some [(if n = 0xF0 then 0x90 else 0x80, if n = 0xF4 then 0x8F else 0xBF), (0x80, 0xBF),
      (0x80, 0xBF)] := by
  simp only [follow, toNat_ofNat_of_lt (show n < 256 by omega)]
  rw [if_neg (by omega), if_neg (by omega), if_neg (by omega), if_neg (by omega),
    if_neg (by omega), if_neg (by omega)]
  split_ifs
  any_goals rfl
  all_goals omega

theorem utf8EncodeChar_follow (c : Char) :
    ∃ lead tail owed, utf8EncodeChar c = lead :: tail ∧ follow lead = some owed ∧
      List.Forall₂ Within owed tail := by
  have hv : c.val.toNat < 0xD800 ∨ 0xDFFF < c.val.toNat ∧ c.val.toNat < 0x110000 := c.valid
  unfold utf8EncodeChar
  generalize c.val.toNat = v at hv
  by_cases h1 : v ≤ 127
  · simp only [if_pos h1]
    refine ⟨_, _, [], rfl, ?_, .nil⟩
    simp only [follow, toNat_ofNat_of_lt (show v < 256 by omega)]
    rw [if_pos (by omega)]
  by_cases h2 : v ≤ 2047
  · simp only [if_neg h1, if_pos h2]
    refine ⟨_, _, [(0x80, 0xBF)], rfl, ?_, .cons (within_ofNat ?_ ?_ ?_) .nil⟩
    · simp only [follow, toNat_ofNat_of_lt (show v / 64 % 32 + 192 < 256 by omega)]
      rw [if_neg (by omega), if_neg (by omega), if_pos (by omega)]
    all_goals omega
  by_cases h3 : v ≤ 65535
  · simp only [if_neg h1, if_neg h2, if_pos h3]
    refine ⟨_, _, _, rfl, follow_three ?_ ?_,
      .cons (within_ofNat ?_ ?_ ?_) (.cons (within_ofNat ?_ ?_ ?_) .nil)⟩
    any_goals split_ifs
    all_goals omega
  · simp only [if_neg h1, if_neg h2, if_neg h3]
    refine ⟨_, _, _, rfl, follow_four ?_ ?_, .cons (within_ofNat ?_ ?_ ?_)
      (.cons (within_ofNat ?_ ?_ ?_) (.cons (within_ofNat ?_ ?_ ?_) .nil))⟩
    any_goals split_ifs
    all_goals omega

theorem validate_char_append (c : Char) (rest : List UInt8) : validate (utf8EncodeChar c ++ rest) =
      ((validate rest).1 + (utf8EncodeChar c).length, (validate rest).2) := by
  obtain ⟨lead, tail, owed, hc, hf, ht⟩ := utf8EncodeChar_follow c
  rw [hc, cons_append]
  unfold validate
  rw [validateFrom, hf]
  cases ht with
  | nil => rfl
  | @cons range b owed tail hb ht =>
    simp only
    rw [validateFrom_owed (.cons hb ht) (by simp)]
    simp only [validate, length_cons, Prod.mk.injEq, and_true]; omega

theorem validate_cut (hp : part <+: utf8EncodeChar c) (hne : part ≠ [])
    (hcut : part.length < (utf8EncodeChar c).length) : validate part = (0, .truncated) := by
  obtain ⟨lead, tail, owed, hc, hf, ht⟩ := utf8EncodeChar_follow c
  rw [hc] at hp hcut
  cases part with
  | nil => exact absurd rfl hne
  | cons b part =>
    obtain ⟨rfl, hm⟩ := cons_prefix_cons.mp hp
    have hs : part.length < tail.length := by simpa using hcut
    cases ht with
    | nil => simp at hs
    | @cons range b' owed tail hb ht =>
      unfold validate
      rw [validateFrom, hf]; exact validateFrom_cut (.cons hb ht) hm hs 1

/-- Bytes that end inside a character: its first bytes, or none. -/
def Partial (part : List UInt8) : Prop :=
  part = [] ∨ ∃ c, part <+: utf8EncodeChar c ∧ part.length < (utf8EncodeChar c).length

theorem Partial.length_le (h : Partial part) : part.length ≤ 3 := by
  rcases h with rfl | ⟨c, -, hlen⟩
  · exact Nat.zero_le 3
  · have := c.utf8Size_le_four; rw [String.length_utf8EncodeChar] at hlen; omega

theorem follow_range (h : follow b = some owed) : ∀ r ∈ owed, 0x80 ≤ r.1 ∧ r.2 ≤ 0xBF := by
  simp only [follow] at h
  split_ifs at h
  all_goals cases h
  all_goals simp

theorem Partial.high (h : Partial part) : ∀ b ∈ part, 0x80 ≤ b.toNat := by
  rcases h with rfl | ⟨c, hp, hlen⟩
  · simp
  obtain ⟨lead, tail, owed, hc, hf, ht⟩ := utf8EncodeChar_follow c
  rw [hc] at hp hlen
  intro b hb
  rcases mem_cons.mp (hp.subset hb) with rfl | hb'
  · -- an ASCII lead byte is a character by itself, so it cannot be cut
    rcases Nat.lt_or_ge b.toNat 0x80 with hlow | hh
    · have ho : owed = [] := by
        simp only [follow, if_pos hlow, Option.some.injEq] at hf; exact hf.symm
      subst ho
      cases ht
      cases part with
      | nil => simp at hb
      | cons _ _ => simp at hlen
    · exact hh
  · obtain ⟨range, hr, hw⟩ := exists_of_mem_right ht hb'
    have := (follow_range hf range hr).1
    have := hw.1
    omega

/-- The characters that fit into `n` bytes. -/
def wholeChars : Nat → List Char → List Char
  | _, [] => []
  | n, c :: cs => if c.utf8Size ≤ n then c :: wholeChars (n - c.utf8Size) cs else []

theorem wholeChars_prefix (n : Nat) (cs : List Char) : wholeChars n cs <+: cs := by
  induction cs generalizing n with
  | nil => exact prefix_rfl
  | cons c cs ih =>
    unfold wholeChars
    split
    · exact cons_prefix_cons.mpr ⟨rfl, ih _⟩
    · exact nil_prefix

theorem wholeChars_append_drop (n : Nat) (cs : List Char) :
    wholeChars n cs ++ cs.drop (wholeChars n cs).length = cs := by
  obtain ⟨more, hm⟩ := wholeChars_prefix n cs
  generalize wholeChars n cs = whole at hm ⊢
  rw [← hm, drop_left]

theorem take_encode (n : Nat) (cs : List Char) :
    ∃ part, (encode cs).take n = encode (wholeChars n cs) ++ part ∧ Partial part := by
  induction cs generalizing n with
  | nil => exact ⟨[], by simp [wholeChars], .inl rfl⟩
  | cons c cs ih =>
    have hs := String.length_utf8EncodeChar c
    unfold wholeChars
    rw [encode_cons, take_append]
    split_ifs with hfit
    · obtain ⟨part, ht, hp⟩ := ih (n - c.utf8Size)
      refine ⟨part, ?_, hp⟩
      rw [take_of_length_le (by omega), hs, ht, encode_cons, append_assoc]
    · refine ⟨(utf8EncodeChar c).take n, ?_, .inr ⟨c, List.take_prefix _ _, ?_⟩⟩
      · rw [Nat.sub_eq_zero_of_le (by omega)]; simp
      · rw [length_take]; omega

/-- **Validation stops at the last whole character.** -/
theorem validate_encode_append (cs : List Char) (hpart : Partial part) :
    validate (encode cs ++ part) =
      ((encode cs).length, if part = [] then .complete else .truncated) := by
  induction cs with
  | nil =>
    rcases hpart with rfl | ⟨c, hp, hlen⟩
    · rfl
    · by_cases hne : part = []
      · subst hne; rfl
      · simpa [hne] using validate_cut hp hne hlen
  | cons c cs ih =>
    rw [encode_cons, append_assoc, validate_char_append, ih, length_append]
    simp only [Prod.mk.injEq, and_true]; omega

/-! ## Parts of encoded text -/

theorem encode_injective : Function.Injective encode := by
  intro a b h
  have hd := congrArg decode h
  rw [decode_encode, decode_encode] at hd; exact Option.some.inj hd

/-- The first bytes of a text that are a text are its first characters. -/
theorem prefix_of_encode_prefix {a b : List Char} (h : encode a <+: encode b) : a <+: b := by
  obtain ⟨part, ht, hp⟩ := take_encode (encode a).length b
  rw [← prefix_iff_eq_take.mp h] at ht
  have hw := validate_encode_append a (.inl rfl)
  rw [append_nil, ht, validate_encode_append _ hp] at hw
  have hnil : part = [] := by
    by_contra hne
    simp [hne] at hw
  rw [hnil, append_nil] at ht
  rw [encode_injective ht]; exact wholeChars_prefix _ b

/-- A byte of a character behind its lead byte leads no character. -/
theorem follow_eq_none_of_mem_tail {lead : UInt8}
    (hc : utf8EncodeChar c = lead :: tail) (hb : b ∈ tail) : follow b = none := by
  obtain ⟨lead', tail', owed, hc', hf, ht⟩ := utf8EncodeChar_follow c
  rw [hc] at hc'
  cases hc'
  obtain ⟨range, hr, hw⟩ := exists_of_mem_right ht hb
  have hbounds := follow_range hf range hr
  have hlo := hw.1
  have hhi := hw.2
  simp only [follow]
  rw [if_neg (by omega), if_pos (by omega)]

/-- The last bytes of a text that are a text are its last characters. -/
theorem suffix_of_encode_suffix {a b : List Char} (h : encode a <:+ encode b) : a <:+ b := by
  induction b with
  | nil =>
    have hnil : encode a = encode [] := suffix_nil.mp h
    obtain rfl := encode_injective hnil
    exact suffix_rfl
  | cons c b ih =>
    rw [encode_cons] at h
    by_cases hs : (encode a).length ≤ (encode b).length
    · have hb : encode b <:+ utf8EncodeChar c ++ encode b := suffix_append ..
      exact (ih (suffix_of_suffix_length_le h hb hs)).trans (suffix_cons c b)
    -- the text begins inside the character: at its lead byte, or at a byte that leads none
    obtain ⟨front, hf⟩ := h
    obtain ⟨mid, hmid, hcut⟩ : ∃ mid, encode a = mid ++ encode b ∧
        front ++ mid = utf8EncodeChar c := by
      refine append_eq_append_iff.mp hf |>.elim ?_ ?_
      · rintro ⟨mid, hc, ha⟩; exact ⟨mid, ha, hc.symm⟩
      · rintro ⟨mid, -, hb⟩
        have := congrArg List.length hb
        simp only [length_append] at this; omega
    cases front with
    | nil => rw [← encode_cons] at hf; obtain rfl := encode_injective hf; exact suffix_rfl
    | cons lead front =>
      exfalso
      obtain ⟨x, mid, rfl⟩ : ∃ x rest, mid = x :: rest := by
        refine exists_cons_of_ne_nil ?_
        rintro rfl; simp [hmid] at hs
      have hnone : follow x = none := follow_eq_none_of_mem_tail hcut.symm (by simp)
      cases a with
      | nil => simp at hmid
      | cons d a =>
        obtain ⟨lead', tail', owed, hd, hfollow, -⟩ := utf8EncodeChar_follow d
        rw [encode_cons, hd, cons_append, cons_append] at hmid
        rw [(List.cons.inj hmid).1, hnone] at hfollow; cases hfollow

end Utf8
