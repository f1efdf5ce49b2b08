import TraceDecay.Domain.Text
import TraceDecay.Lib.Lines

/-!
# Git.Hunk

The header of a unified diff hunk (`git/hunk.rs`): `@@ -old[,count] +new[,count] @@[ section]`. The
reader is built from `split_once` and the standard integer parser. The grammar is given twice over
one scheme, with the numbers git writes and with those the integer parser reads; the reader accepts
the second.
-/

namespace TraceDecay.Git

open Domain Lines Option

/-- `section` of the source is `heading` here. -/
structure ParsedHunkHeader where
  (oldStart oldCount newStart newCount : UInt32)
  heading : Option (List Char)
deriving DecidableEq

/-- `str::parse::<u32>`, which takes a leading plus sign and leading zeros. -/
def parseU32 (text : List Char) : Option UInt32 :=
  let digits := if text.head? = some '+' then text.tail else text
  let value := Nat.ofDigitChars 10 digits 0
  if digits ≠ [] ∧ digits.all Char.isDigit ∧ value < 2 ^ 32 then some (UInt32.ofNat value) else none

def parseHunkRange (range : List Char) : Option (UInt32 × UInt32) :=
  match splitOnce [','] range with
  | some (start, count) => do
    let start ← parseU32 start
    let count ← parseU32 count
    some (start, count)
  | none => do
    let start ← parseU32 range
    some (start, 1)

/-- What follows the closing marker: nothing, or a blank and a heading that may be blank. -/
def parseHeading (rest : List Char) : Option (Option (List Char)) :=
  if rest.isEmpty then some none
  else do
    let heading := trim (← rest.dropPrefix? [' '])
    some (if heading.isEmpty then none else some heading)

def parseHunkHeader (line : List Char) : Option ParsedHunkHeader := do
  let body ← line.dropPrefix? "@@ -".toList
  let (old, rest) ← splitOnce [' '] body
  let rest ← rest.dropPrefix? ['+']
  let (new, rest) ← splitOnce " @@".toList rest
  let (oldStart, oldCount) ← parseHunkRange old
  let (newStart, newCount) ← parseHunkRange new
  let heading ← parseHeading rest
  some ⟨oldStart, oldCount, newStart, newCount, heading⟩

/-! ## The grammar -/

/-- A non-empty run of decimal digits whose value is a `u32`. -/
def Decimal (text : List Char) (value : UInt32) : Prop :=
  text ≠ [] ∧ (∀ c ∈ text, c.isDigit = true) ∧ Nat.ofDigitChars 10 text 0 = value.toNat

/-- A decimal number, or one behind a plus sign. -/
def Numeral (text : List Char) (value : UInt32) : Prop :=
  Decimal text value ∨ ∃ digits, text = '+' :: digits ∧ Decimal digits value

/-- `start[,count]`, over what counts as a number. -/
inductive Range (Number : List Char → UInt32 → Prop) : List Char → UInt32 × UInt32 → Prop
  | start {text : List Char} {a : UInt32} : Number text a → Range Number text (a, 1)
  | counted {start count : List Char} {a b : UInt32} :
      Number start a → Number count b → Range Number (start ++ ',' :: count) (a, b)

def headerText (old new tail : List Char) : List Char :=
  "@@ -".toList ++ (old ++ (' ' :: '+' :: (new ++ (" @@".toList ++ tail))))

/-- Nothing, or a blank and any text. -/
def Tail (tail : List Char) : Prop := tail = [] ∨ ∃ text, tail = ' ' :: text

/-- A header with the two ranges, over what counts as a number. -/
def Header (Number : List Char → UInt32 → Prop) (line : List Char) (old new : UInt32 × UInt32) :
    Prop :=
  ∃ oldText newText tail, line = headerText oldText newText tail ∧ Range Number oldText old ∧
    Range Number newText new ∧ Tail tail

/-- A header some of whose numbers have a plus sign of their own. -/
def Signed (line : List Char) : Prop :=
  ∃ oldText newText tail old new, line = headerText oldText newText tail ∧
    Range Numeral oldText old ∧ Range Numeral newText new ∧ Tail tail ∧
    ('+' ∈ oldText ∨ '+' ∈ newText)

/-! ## Numbers and ranges -/

variable {line text : List Char} {value : UInt32} {range old new : UInt32 × UInt32} {c : Char}
  {tail : List Char}

theorem Decimal.not_mem (h : Decimal text value) (hc : c.isDigit = false) : c ∉ text := fun hmem => by
  rw [h.2.1 c hmem] at hc; cases hc

theorem Numeral.not_mem (h : Numeral text value)
    (hc : c.isDigit = false) (hp : c ≠ '+') : c ∉ text := by
  rcases h with h | ⟨digits, rfl, h⟩
  · exact h.not_mem hc
  · exact List.mem_cons.not.mpr (not_or.mpr ⟨hp, h.not_mem hc⟩)

theorem parse_digits {d : List Char} :
    (if d ≠ [] ∧ d.all Char.isDigit ∧ Nat.ofDigitChars 10 d 0 < 2 ^ 32 then
      some (UInt32.ofNat (Nat.ofDigitChars 10 d 0)) else none) = some value ↔
      Decimal d value := by
  rw [ite_none_right_eq_some, Option.some.injEq, List.all_eq_true, Decimal]
  constructor
  · rintro ⟨⟨hne, hdigits, hb⟩, rfl⟩; exact ⟨hne, hdigits, (UInt32.toNat_ofNat_of_lt' hb).symm⟩
  · rintro ⟨hne, hdigits, hv⟩
    exact ⟨⟨hne, hdigits, hv ▸ value.toNat_lt⟩, by rw [hv, UInt32.ofNat_toNat]⟩

theorem parseU32_eq_some : parseU32 text = some value ↔ Numeral text value := by
  unfold parseU32
  by_cases hs : text.head? = some '+'
  · obtain ⟨digits, rfl⟩ : ∃ digits, text = '+' :: digits := by
      cases text with
      | nil => cases hs
      | cons c digits => exact ⟨digits, by rw [Option.some.inj hs]⟩
    rw [if_pos hs, List.tail_cons, parse_digits]
    constructor
    · intro h; exact .inr ⟨digits, rfl, h⟩
    · rintro (h | ⟨_, heq, h⟩)
      · exact absurd List.mem_cons_self (h.not_mem (by decide))
      · exact (List.cons.inj heq).2 ▸ h
  · rw [if_neg hs, parse_digits]
    constructor
    · exact .inl
    · rintro (h | ⟨digits, rfl, -⟩)
      · exact h
      · exact absurd rfl hs

theorem parseHunkRange_eq_some : parseHunkRange text = some range ↔ Range Numeral text range := by
  constructor
  · intro h
    unfold parseHunkRange at h
    split at h
    · next start count hs =>
      obtain ⟨a, ha, h⟩ := bind_eq_some_iff.mp h
      obtain ⟨b, hb, h⟩ := bind_eq_some_iff.mp h
      cases h
      rw [eq_of_splitOnce hs]; exact .counted (parseU32_eq_some.mp ha) (parseU32_eq_some.mp hb)
    · obtain ⟨a, ha, h⟩ := bind_eq_some_iff.mp h; cases h; exact .start (parseU32_eq_some.mp ha)
  · intro h
    cases h with
    | start h =>
      have hc := h.not_mem (c := ',') (by decide) (by decide)
      rw [parseHunkRange, splitOnce_of_not_mem hc, parseU32_eq_some.mpr h]; rfl
    | @counted start count a b hstart hcount =>
      have hc := hstart.not_mem (c := ',') (by decide) (by decide)
      have hs : splitOnce [','] (start ++ ',' :: count) = some (start, count) :=
        splitOnce_append hc count
      simp only [parseHunkRange, hs, parseU32_eq_some.mpr hstart, parseU32_eq_some.mpr hcount]; rfl

theorem Range.not_mem {Number : List Char → UInt32 → Prop} (h : Range Number text range)
    (hc : c ≠ ',') (hn : ∀ {text value}, Number text value → c ∉ text) : c ∉ text := by
  cases h with
  | start h => exact hn h
  | counted hs hb => simp [hc, hn hs, hn hb]

theorem Range.blank_not_mem (h : Range Numeral text range) : ' ' ∉ text :=
  h.not_mem (by decide) fun h => h.not_mem (by decide) (by decide)

theorem Range.numeral (h : Range Decimal text range) : Range Numeral text range := by
  cases h with
  | start h => exact .start (.inl h)
  | counted hs hc => exact .counted (.inl hs) (.inl hc)

theorem Range.plus_not_mem (h : Range Decimal text range) : '+' ∉ text :=
  h.not_mem (by decide) fun h => h.not_mem (by decide)

theorem Numeral.decimal (h : Numeral text value) (hp : '+' ∉ text) : Decimal text value := by
  rcases h with h | ⟨digits, rfl, -⟩
  · exact h
  · exact absurd List.mem_cons_self hp

theorem Range.decimal (h : Range Numeral text range) (hp : '+' ∉ text) : Range Decimal text range := by
  cases h with
  | start h => exact .start (h.decimal hp)
  | counted hs hc =>
    rw [List.mem_append, List.mem_cons, not_or, not_or] at hp
    exact .counted (hs.decimal hp.1) (hc.decimal hp.2.2)

/-! ## Lines -/

theorem exists_parseHeading : (∃ heading, parseHeading tail = some heading) ↔ Tail tail := by
  cases tail with
  | nil => exact ⟨fun _ => .inl rfl, fun _ => ⟨none, rfl⟩⟩
  | cons c text =>
    constructor
    · rintro ⟨heading, h⟩
      obtain ⟨rest, hr, -⟩ := bind_eq_some_iff.mp h
      exact .inr ⟨rest, dropPrefix?_eq_some.mp hr⟩
    · rintro (h | ⟨text, h⟩)
      · cases h
      · have hd : (c :: _).dropPrefix? [' '] = some text := dropPrefix?_eq_some.mpr h
        simp [parseHeading, hd]

theorem cuts_headerText {old new : List Char} (hold : ' ' ∉ old) (hnew : ' ' ∉ new)
    (tail : List Char) :
    let rest := new ++ (" @@".toList ++ tail)
    (headerText old new tail).dropPrefix? "@@ -".toList = some (old ++ (' ' :: '+' :: rest)) ∧
      splitOnce [' '] (old ++ (' ' :: '+' :: rest)) = some (old, '+' :: rest) ∧
      ('+' :: rest).dropPrefix? ['+'] = some rest ∧ splitOnce " @@".toList rest = some (new, tail) :=
  ⟨dropPrefix?_eq_some.mpr rfl, splitOnce_append hold _, dropPrefix?_eq_some.mpr rfl,
    splitOnce_append hnew tail⟩

theorem headerText_inj {old old' new new' tail' : List Char}
    (h : headerText old new tail = headerText old' new' tail') (hold : ' ' ∉ old) (hnew : ' ' ∉ new)
    (ho' : ' ' ∉ old') (hn' : ' ' ∉ new') : old = old' ∧ new = new' := by
  obtain ⟨hb, hf, -, hs⟩ := cuts_headerText hold hnew tail
  obtain ⟨hb', hf', -, hs'⟩ := cuts_headerText ho' hn' tail'
  rw [h, hb', Option.some.injEq] at hb
  rw [← hb, hf', Option.some.injEq, Prod.mk.injEq, List.cons.injEq] at hf
  rw [← hf.2.2, hs', Option.some.injEq, Prod.mk.injEq] at hs
  exact ⟨hf.1.symm, hs.1.symm⟩

theorem parseHunkHeader_eq_some {header : ParsedHunkHeader} : parseHunkHeader line = some header ↔
      ∃ old new tail, line = headerText old new tail ∧
        Range Numeral old (header.oldStart, header.oldCount) ∧
        Range Numeral new (header.newStart, header.newCount) ∧
        parseHeading tail = some header.heading := by
  constructor
  · intro h
    simp only [parseHunkHeader, bind_eq_bind, bind_eq_some_iff, Prod.exists] at h
    obtain ⟨body, hb, old, rest, hold, rest', hr, new, tail, hnew, a, b, ho, c, d, hn, heading, hh,
      h⟩ := h
    cases h
    refine ⟨old, new, tail, ?_, parseHunkRange_eq_some.mp ho, parseHunkRange_eq_some.mp hn, hh⟩
    rw [dropPrefix?_eq_some.mp hb, eq_of_splitOnce hold, dropPrefix?_eq_some.mp hr,
      eq_of_splitOnce hnew]
    rfl
  · rintro ⟨old, new, tail, rfl, hold, hnew, hh⟩
    obtain ⟨hb, hf, hp, hs⟩ := cuts_headerText hold.blank_not_mem hnew.blank_not_mem tail
    simp only [parseHunkHeader, hb, hf, hp, hs, parseHunkRange_eq_some.mpr hold,
      parseHunkRange_eq_some.mpr hnew, hh, bind_eq_bind, bind_some]

def ParsedHunkHeader.ranges (header : ParsedHunkHeader) : (UInt32 × UInt32) × (UInt32 × UInt32) :=
  ((header.oldStart, header.oldCount), (header.newStart, header.newCount))

/-- The reader accepts the headers over the integer parser's numbers, and returns their ranges. -/
theorem parseHunkHeader_ranges :
    (parseHunkHeader line).map ParsedHunkHeader.ranges = some (old, new) ↔
      Header Numeral line old new := by
  rw [map_eq_some_iff]
  constructor
  · rintro ⟨header, h, heq⟩
    cases heq
    obtain ⟨oldText, newText, tail, rfl, hold, hnew, hh⟩ := parseHunkHeader_eq_some.mp h
    exact ⟨oldText, newText, tail, rfl, hold, hnew, exists_parseHeading.mp ⟨_, hh⟩⟩
  · rintro ⟨oldText, newText, tail, rfl, hold, hnew, ht⟩
    obtain ⟨heading, hh⟩ := exists_parseHeading.mpr ht
    exact ⟨⟨old.1, old.2, new.1, new.2, heading⟩,
      parseHunkHeader_eq_some.mpr ⟨oldText, newText, tail, rfl, hold, hnew, hh⟩, rfl⟩

theorem Header.numeral (h : Header Decimal line old new) : Header Numeral line old new := by
  obtain ⟨oldText, newText, tail, rfl, hold, hnew, ht⟩ := h
  exact ⟨oldText, newText, tail, rfl, hold.numeral, hnew.numeral, ht⟩

/-- Git's headers have no signs: a line is cut into its ranges in one way only. -/
theorem Header.not_signed (h : Header Decimal line old new) : ¬ Signed line := by
  rintro ⟨oldText, newText, tail, old', new', hl, hold, hnew, -, hp⟩
  obtain ⟨oldText', newText', tail', rfl, ho', hn', -⟩ := h
  obtain ⟨rfl, rfl⟩ := headerText_inj hl ho'.numeral.blank_not_mem
    hn'.numeral.blank_not_mem hold.blank_not_mem hnew.blank_not_mem
  exact hp.elim ho'.plus_not_mem hn'.plus_not_mem

theorem Header.decimal
    (h : Header Numeral line old new) (hs : ¬ Signed line) : Header Decimal line old new := by
  obtain ⟨oldText, newText, tail, rfl, hold, hnew, ht⟩ := h
  refine ⟨oldText, newText, tail, rfl, hold.decimal fun hp => ?_, hnew.decimal fun hp => ?_, ht⟩
  · exact hs ⟨_, _, _, _, _, rfl, hold, hnew, ht, .inl hp⟩
  · exact hs ⟨_, _, _, _, _, rfl, hold, hnew, ht, .inr hp⟩

/-! ## Writing a header -/

/-- `u32::to_string`. -/
def decimal (n : UInt32) : List Char := Nat.toDigits 10 n.toNat

theorem decimal_decimal (n : UInt32) : Decimal (decimal n) n :=
  ⟨Nat.toDigits_ne_nil, fun _ hc => Nat.isDigit_of_mem_toDigits (by omega) (by omega) hc,
    Nat.ofDigitChars_toDigits (by omega) (by omega)⟩

/-- `@@ -a,b +c,d @@`. -/
def renderHunkHeader (old new : UInt32 × UInt32) : List Char :=
  headerText (decimal old.1 ++ ',' :: decimal old.2) (decimal new.1 ++ ',' :: decimal new.2) []

/-- The reader answers with git's header and its numbers, on every line but one whose numbers have
signs. What is rendered is read back. -/
theorem parseHunkHeader_grammar (line : List Char) :
    ((((parseHunkHeader line).isSome ↔ ∃ old new, Header Decimal line old new) ∧
        ∀ old new, Header Decimal line old new →
          (parseHunkHeader line).map ParsedHunkHeader.ranges = some (old, new)) ↔
      ¬ Signed line) ∧
    ∀ old new, (parseHunkHeader (renderHunkHeader old new)).map ParsedHunkHeader.ranges =
      some (old, new) := by
  have hsome : ∀ {line : List Char}, (parseHunkHeader line).isSome ↔
      ∃ old new, Header Numeral line old new := by
    intro line
    simp only [← parseHunkHeader_ranges]
    cases parseHunkHeader line with
    | none => simp
    | some header => simp [ParsedHunkHeader.ranges]
  refine ⟨⟨?_, ?_⟩, ?_⟩
  · rintro ⟨ha, -⟩ hs
    obtain ⟨oldText, newText, tail, old, new, rfl, hold, hnew, ht, -⟩ := id hs
    obtain ⟨old', new', h⟩ :=
      ha.mp (hsome.mpr ⟨old, new, oldText, newText, tail, rfl, hold, hnew, ht⟩)
    exact h.not_signed hs
  · intro hs
    refine ⟨hsome.trans ⟨?_, ?_⟩, ?_⟩
    · rintro ⟨old, new, h⟩; exact ⟨old, new, h.decimal hs⟩
    · rintro ⟨old, new, h⟩; exact ⟨old, new, h.numeral⟩
    · intro old new h; exact parseHunkHeader_ranges.mpr h.numeral
  · intro old new
    refine parseHunkHeader_ranges.mpr ⟨_, _, _, rfl, ?_, ?_, .inl rfl⟩
    · exact .counted (.inl (decimal_decimal _)) (.inl (decimal_decimal _))
    · exact .counted (.inl (decimal_decimal _)) (.inl (decimal_decimal _))

/-- A line that is no header of git's, and is read as one. -/
theorem parseHunkHeader_signed :
    parseHunkHeader "@@ -+1,2 +3,4 @@".toList = some ⟨1, 2, 3, 4, none⟩ ∧
      ¬ ∃ old new, Header Decimal "@@ -+1,2 +3,4 @@".toList old new := by
  refine ⟨by decide +kernel, ?_⟩
  have hr : ∀ {text : List Char} {range}, parseHunkRange text = some range →
      Range Numeral text range := parseHunkRange_eq_some.mp
  rintro ⟨old, new, h⟩
  exact h.not_signed ⟨"+1,2".toList, "3,4".toList, [], (1, 2), (3, 4), rfl,
    hr (by decide +kernel), hr (by decide +kernel), .inl rfl, .inl (by decide)⟩

end TraceDecay.Git
