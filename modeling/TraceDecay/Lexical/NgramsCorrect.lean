import Mathlib.Data.List.ReduceOption
import TraceDecay.Lexical.Ngrams

/-!
# Lexical.NgramsCorrect

The n-gram prefilter loses no match. A document whose text contains a literal has every window of
it, each under the kind the query looks it up in (`key_of_literal`), and any intersection of lists
that all hold a document holds it (`ngramBitmapCandidates_within`). So a query either runs over its
budget or admits the document (`Admits`).
-/

namespace TraceDecay.Lexical

open Domain Sorting Occurrences Fallible
open List hiding dedup mem_dedup

/-! ## Packed windows -/

variable {n : Nat} {w text : Text} {α : Type} {byte : UInt8}

theorem testBit_place (byte : UInt8) (i k : Nat) {j : Nat} (hj : j < 8) :
    (byte.toNat <<< (i * 8)).testBit (k * 8 + j) = (decide (i = k) && byte.toNat.testBit j) := by
  rw [Nat.testBit_shiftLeft]
  rcases lt_trichotomy i k with hik | rfl | hik
  · have hlt : byte.toNat < 2 ^ (k * 8 + j - i * 8) :=
      lt_of_lt_of_le byte.toNat_lt (Nat.pow_le_pow_right (by omega) (by omega))
    rw [Nat.testBit_lt_two_pow hlt, Bool.and_false, decide_eq_false hik.ne, Bool.false_and]
  · simp
  · rw [decide_eq_false (by omega), decide_eq_false hik.ne']; rfl

/-- At each place of a packed window is the byte of the window, and above them its width. -/
theorem testBit_pack (w : Text) (k : Nat) {j : Nat} (hj : j < 8) :
    (packByteNgram w).testBit (k * 8 + j) =
      ((w.length <<< 24).testBit (k * 8 + j) || w[k]?.any fun byte => byte.toNat.testBit j) := by
  have hfold : ∀ (l : List (UInt8 × Nat)) (n : Nat),
      (l.foldl (fun packed e => packed ||| e.1.toNat <<< (e.2 * 8)) n).testBit
        (k * 8 + j) = (n.testBit (k * 8 + j) ||
          l.any fun e => decide (e.2 = k) && e.1.toNat.testBit j) := by
    intro l
    induction l with
    | nil => simp
    | cons e l ih =>
      intro n; rw [foldl_cons, ih, Nat.testBit_or, testBit_place _ _ _ hj, any_cons, Bool.or_assoc]
  refine (hfold w.zipIdx _).trans (congrArg _ (Bool.eq_iff_iff.mpr ?_))
  simp only [any_eq_true, Prod.exists, mem_zipIdx_iff_getElem?, Bool.and_eq_true,
    decide_eq_true_eq, Option.any_eq_true]
  constructor
  · rintro ⟨byte, _, hb, rfl, hbit⟩; exact ⟨byte, hb, hbit⟩
  · rintro ⟨byte, hb, hbit⟩; exact ⟨byte, k, hb, rfl, hbit⟩

theorem ngramIsCaseSensitive_pack (hle : w.length ≤ 3) :
    ngramIsCaseSensitive (packByteNgram w) = w.any isAsciiUppercase := by
  have hw : packByteNgram w >>> 24 = w.length := by
    refine Nat.eq_of_testBit_eq fun j => ?_
    have hk := testBit_pack w (3 + j / 8) (Nat.mod_lt j (Nat.succ_pos 7))
    rw [show (3 + j / 8) * 8 + j % 8 = 24 + j by omega, getElem?_eq_none (by omega)] at hk
    rw [Nat.testBit_shiftRight, hk]; simp
  have hb : ∀ i (h : i < w.length),
      UInt8.ofNat (packByteNgram w >>> (i * 8)) = w.get ⟨i, h⟩ := by
    intro i h
    refine UInt8.toNat_inj.mp (Nat.eq_of_testBit_eq fun j => ?_)
    rw [UInt8.toNat_ofNat', Nat.testBit_mod_two_pow, Nat.testBit_shiftRight]
    by_cases hj : j < 8
    · rw [testBit_pack w i hj, getElem?_eq_getElem h, Nat.testBit_shiftLeft,
        decide_eq_false (by omega : ¬ 24 ≤ i * 8 + j)]
      simp [hj]
    · have hlt : (w.get ⟨i, h⟩).toNat < 2 ^ j :=
        lt_of_lt_of_le (UInt8.toNat_lt _) (Nat.pow_le_pow_right (by omega) (by omega))
      rw [decide_eq_false hj, Nat.testBit_lt_two_pow hlt]; rfl
  rw [Bool.eq_iff_iff, ngramIsCaseSensitive, hw, any_eq_true, any_eq_true]
  constructor
  · rintro ⟨i, hi, hu⟩; have hi := mem_range.mp hi; exact ⟨_, get_mem w ⟨i, hi⟩, hb i hi ▸ hu⟩
  · rintro ⟨byte, hmem, hu⟩
    obtain ⟨⟨i, hi⟩, rfl⟩ := mem_iff_get.mp hmem
    exact ⟨i, mem_range.mpr hi, (hb i hi).symm ▸ hu⟩

/-! ## Windows -/

theorem mem_windows {s w : List α} : w ∈ windows n s ↔ w.length = n ∧ w <:+: s := by
  simp only [windows, mem_map, mem_range]
  constructor
  · rintro ⟨i, hi, rfl⟩
    refine ⟨by rw [length_take, length_drop]; omega, ?_⟩
    exact (List.take_prefix _ _).isInfix.trans (drop_suffix _ _).isInfix
  · rintro ⟨rfl, a, b, rfl⟩
    refine ⟨a.length, by simp; omega, ?_⟩
    rw [append_assoc, drop_left, take_left]

variable {bytes : Text} {ngrams : List Nat}

theorem mem_documentWindows : w ∈ documentWindows bytes ↔
      0 < w.length ∧ w.length ≤ 3 ∧ w <:+: bytes := by
  simp only [documentWindows, mem_flatMap, mem_range, mem_windows]
  constructor
  · rintro ⟨index, hindex, hl, hi⟩; exact ⟨by omega, by omega, hi⟩
  · rintro ⟨hpos, hle, hi⟩; have := hi.length_le; exact ⟨w.length - 1, by omega, by omega, hi⟩

theorem mem_sortedNgrams : n ∈ sortedNgrams ngrams ↔ n ∈ ngrams := by
  rw [sortedNgrams, mem_dedup, (sortBy_perm _ _).mem_iff]

theorem sortedNgrams_nodup (ngrams : List Nat) : (sortedNgrams ngrams).Nodup := by
  have hsorted := dedup_sorted Function.injective_id
    (sortBy_sorted (fun a b => compare_ne_gt : OrdersBy compare (id : Nat → Nat)) ngrams)
  exact hsorted.imp ne_of_lt

theorem mem_queryNgrams {ngram : Nat} : ngram ∈ queryNgrams bytes ↔ bytes ≠ [] ∧
      ∃ w, w.length = min bytes.length 3 ∧ w <:+: bytes ∧ packByteNgram w = ngram := by
  unfold queryNgrams
  cases bytes with
  | nil => simp
  | cons byte bytes => simp [mem_sortedNgrams, mem_windows, and_assoc]

theorem queryNgrams_ne_nil (h : bytes ≠ []) : queryNgrams bytes ≠ [] := by
  refine ne_nil_of_mem (mem_queryNgrams.mpr ⟨h, bytes.take 3, ?_, ?_, rfl⟩)
  · rw [length_take, Nat.min_comm]
  · exact (List.take_prefix _ _).isInfix

/-! ## The keys of a document -/

theorem documentNgrams_eq_ok (h : documentNgrams bytes = .ok ngrams) :
    ngrams = sortedNgrams ((documentWindows bytes).map packByteNgram) := by
  obtain ⟨_, -, h⟩ := bind_eq_ok.mp h
  obtain ⟨-, h⟩ := ite_error_eq_ok.mp h
  exact (Except.ok.inj h).symm

theorem mem_of_documentNgrams (h : documentNgrams bytes = .ok ngrams)
    (hpos : 0 < w.length) (hle : w.length ≤ 3) (hi : w <:+: bytes) : packByteNgram w ∈ ngrams := by
  rw [documentNgrams_eq_ok h, mem_sortedNgrams]
  exact mem_map_of_mem (mem_documentWindows.mpr ⟨hpos, hle, hi⟩)

theorem documentNgrams_nodup (h : documentNgrams bytes = .ok ngrams) : ngrams.Nodup := by
  rw [documentNgrams_eq_ok h]; exact sortedNgrams_nodup _

section Keys
variable {search sanitized normalized : Text} {keys : List NgramKey}

variable (h : documentNgramKeys search sanitized normalized = .ok keys)
include h

theorem documentNgramKeys_eq_ok : ∃ ngrams raw, documentNgrams search = .ok ngrams ∧
      (sanitized ≠ normalized → documentNgrams sanitized = .ok raw) ∧ raw.Nodup ∧
      keys = ngrams.map (fun n => toLex (ngramNormalized, n)) ++
        (raw.filter ngramIsCaseSensitive).map fun n => toLex (ngramRawOverride, n) := by
  obtain ⟨ngrams, hn, h⟩ := bind_eq_ok.mp h
  split at h
  · next heq =>
    exact ⟨ngrams, [], hn, fun hne => absurd heq hne, nodup_nil,
      by simpa using (Except.ok.inj h).symm⟩
  · obtain ⟨raw, hraw, h⟩ := bind_eq_ok.mp h
    exact ⟨ngrams, raw, hn, fun _ => hraw, documentNgrams_nodup hraw, (Except.ok.inj h).symm⟩

theorem documentNgramKeys_nodup : keys.Nodup := by
  obtain ⟨ngrams, raw, hn, -, hraw, rfl⟩ := documentNgramKeys_eq_ok h
  have hinj : ∀ kind : Nat, Function.Injective fun ngram : Nat => (toLex (kind, ngram) : NgramKey) :=
    fun kind a b hab => (Prod.mk.inj (toLex.injective hab)).2
  refine nodup_append.mpr ⟨(documentNgrams_nodup hn).map (hinj _), (hraw.filter _).map (hinj _), ?_⟩
  rintro key hkey key' hk' rfl
  obtain ⟨a, -, rfl⟩ := mem_map.mp hkey
  obtain ⟨b, -, hb⟩ := mem_map.mp hk'
  exact absurd (Prod.mk.inj (toLex.injective hb)).1 (by decide)

theorem normalizedKey_mem (hpos : 0 < w.length) (hle : w.length ≤ 3)
    (hi : w <:+: search) : toLex (ngramNormalized, packByteNgram w) ∈ keys := by
  obtain ⟨ngrams, raw, hn, -, -, rfl⟩ := documentNgramKeys_eq_ok h
  exact mem_append_left _ (mem_map.mpr ⟨_, mem_of_documentNgrams hn hpos hle hi, rfl⟩)

theorem rawKey_mem (hne : sanitized ≠ normalized) (hpos : 0 < w.length)
    (hle : w.length ≤ 3) (hi : w <:+: sanitized) (hu : w.any isAsciiUppercase = true) :
    toLex (ngramRawOverride, packByteNgram w) ∈ keys := by
  obtain ⟨ngrams, raw, -, hraw, -, rfl⟩ := documentNgramKeys_eq_ok h
  refine mem_append_right _ (mem_map.mpr ⟨_, mem_filter.mpr ⟨?_, ?_⟩, rfl⟩)
  · exact mem_of_documentNgrams (hraw hne) hpos hle hi
  · rw [ngramIsCaseSensitive_pack hle, hu]

end Keys

theorem infix_intercalate {x : List α} {l : List (List α)} (sep : List α) (h : x ∈ l) :
    x <:+: List.intercalate sep l := by
  induction l with
  | nil => exact absurd h not_mem_nil
  | cons y l ih =>
    cases l with
    | nil => obtain rfl := mem_singleton.mp h; simp
    | cons z l =>
      rcases mem_cons.mp h with rfl | h
      · exact (prefix_append _ _).isInfix
      · exact (ih h).trans ((suffix_append _ _).trans (suffix_append _ _)).isInfix

theorem toAsciiLowercase_of_upper (h : isAsciiUppercase byte = true) :
    toAsciiLowercase byte ≠ byte := by
  rw [toAsciiLowercase, if_pos h]
  intro heq
  have := congrArg UInt8.toNat heq
  simp at this
  omega

theorem normalizeLexical_of_no_upper (h : text.any isAsciiUppercase = false) :
    normalizeLexical text = text := by
  rw [any_eq_false] at h
  exact (map_congr_left fun byte hb => if_neg (h byte hb)).trans (map_id _)

theorem normalizeLexical_ne_of_upper (h : text.any isAsciiUppercase = true) :
    text ≠ normalizeLexical text := by
  intro heq
  obtain ⟨byte, hb, hu⟩ := any_eq_true.mp h
  have hall : ∀ byte ∈ text, toAsciiLowercase byte = byte := by
    have hmap : text.map toAsciiLowercase = text.map id := by rw [map_id]; exact heq.symm
    exact map_inj_left.mp hmap
  exact toAsciiLowercase_of_upper hu (hall byte hb)

theorem normalizeLexical_infix {a b : Text} (h : a <:+: b) :
    normalizeLexical a <:+: normalizeLexical b := h.map _

namespace ProjectedChunk

variable {chunk : ProjectedChunk}

theorem normalizedText_infix : chunk.normalizedText <:+: chunk.normalizedSearchText :=
  infix_intercalate _ mem_cons_self

theorem fieldText_infix {f : LexicalField}
    (h : chunk.normalizedFieldText f = some text) : text <:+: chunk.normalizedSearchText := by
  have hd : ∀ {v : Option Text}, v ∈ [some chunk.logicalPath,
      chunk.symbolSimpleName, chunk.symbolQualifiedName, chunk.symbolSignature,
      chunk.symbolDocumentation] → v.map normalizeLexical = some text →
      text <:+: chunk.normalizedSearchText := by
    intro v hv ht
    obtain ⟨raw, rfl, rfl⟩ := Option.map_eq_some_iff.mp ht
    refine infix_intercalate _ (mem_cons_of_mem _ (mem_map_of_mem ?_))
    exact reduceOption_mem_iff.mpr hv
  cases f with
  | path => exact @hd (some chunk.logicalPath) (by simp) h
  | symbolName | qualifiedName | signature | documentation => exact hd (by simp) h
  | bodyText | preambleText =>
    simp only [normalizedFieldText] at h
    split at h <;> cases h
    exact normalizedText_infix
  | exactTerm | subtoken => cases h

end ProjectedChunk

namespace IndexedDocument

variable (document : IndexedDocument)

/-- A text inside the search text has all its windows under the normalized kind. -/
theorem key_of_phrase {p : Text} (hi : p <:+: document.chunk.normalizedSearchText)
    (hn : n ∈ queryNgrams p) : toLex (ngramNormalized, n) ∈ document.keys := by
  obtain ⟨hne, window, hl, hw, rfl⟩ := mem_queryNgrams.mp hn
  have hpos := length_pos_of_ne_nil hne
  exact normalizedKey_mem document.indexed (by omega) (by omega) (hw.trans hi)

/-- A literal inside the raw text has each of its windows under the kind that holds it. -/
theorem key_of_literal {l : Text} (hi : l <:+: document.chunk.sanitizedText)
    (hngram : n ∈ queryNgrams l) :
    toLex (if ngramIsCaseSensitive n then ngramRawOverride else ngramNormalized, n) ∈
      document.keys := by
  obtain ⟨hne, window, hl, hw, rfl⟩ := mem_queryNgrams.mp hngram
  have hpos : 0 < window.length := by have := length_pos_of_ne_nil hne; omega
  have hle : window.length ≤ 3 := by omega
  have hraw : window <:+: document.chunk.sanitizedText := hw.trans hi
  rw [ngramIsCaseSensitive_pack hle]
  cases hu : window.any isAsciiUppercase with
  | true =>
    -- the raw text holds an upper-case letter, so it is not its own normal form
    have hd : document.chunk.sanitizedText ≠ document.chunk.normalizedText := by
      refine normalizeLexical_ne_of_upper (any_eq_true.mpr ?_)
      obtain ⟨byte, hb, hb'⟩ := any_eq_true.mp hu
      exact ⟨byte, hraw.mem hb, hb'⟩
    exact rawKey_mem document.indexed hd hpos hle hraw hu
  | false =>
    have hn : window <:+: document.chunk.normalizedText := by
      have := normalizeLexical_infix hraw
      rwa [normalizeLexical_of_no_upper hu] at this
    exact normalizedKey_mem document.indexed hpos hle (hn.trans ProjectedChunk.normalizedText_infix)

end IndexedDocument

/-! ## The sealed lists -/

namespace SealedDocuments

variable {artifact : SealedDocuments} {key : NgramKey}

theorem keyOccurrences_nodup (document : IndexedDocument) :
    ((keyOccurrences document).map Prod.fst).Nodup := by
  have hmap : (keyOccurrences document).map Prod.fst = document.keys := by
    simp [keyOccurrences, Function.comp_def]
  rw [hmap]; exact documentNgramKeys_nodup document.indexed

theorem mem_documentsOf : n ∈ artifact.documentsOf key ↔
      ∃ document, (n, document) ∈ artifact.documents ∧ key ∈ document.keys := by
  simp only [documentsOf, mem_map, Prod.exists, Inverted.mem_postings, keyOccurrences]
  constructor
  · rintro ⟨_, ⟨⟩, ⟨document, hd, key', hkey, heq⟩, rfl⟩; cases heq; exact ⟨document, hd, hkey⟩
  · rintro ⟨document, hd, hkey⟩; exact ⟨n, (), ⟨document, hd, key, hkey, rfl⟩, rfl⟩

theorem documentsOf_nodup : (artifact.documentsOf key).Nodup := by
  have ha := Inverted.postings_ascending keyOccurrences_nodup artifact.ascending key
  exact pairwise_map.mpr (ha.imp ne_of_lt)

theorem ngramRow?_eq_some {row : NgramRow} (h : artifact.ngramRow? key = some row) :
    row.documents = (artifact.documentsOf key).toFinset ∧
      row.documentFrequency = (artifact.documentsOf key).length := by
  simp only [ngramRow?] at h
  split at h
  · cases h
  · cases h; exact ⟨rfl, rfl⟩

end SealedDocuments

/-! ## Queries -/

/-- Every row counts the documents it lists. -/
def Counts (row? : NgramKey → Option NgramRow) : Prop :=
  ∀ key row, row? key = some row → row.documents.card = row.documentFrequency

def Lists (row? : NgramKey → Option NgramRow) (number : Nat) (key : NgramKey) : Prop :=
  ∃ row, row? key = some row ∧ number ∈ row.documents

/-- The document is listed for every window of the literal, under the kind that holds it. -/
def ListsLiteral (row? : NgramKey → Option NgramRow) (number : Nat) (literal : Text) : Prop :=
  ∀ n ∈ queryNgrams literal, Lists row? number
    (toLex (if ngramIsCaseSensitive n then ngramRawOverride else ngramNormalized, n))

theorem SealedDocuments.counts (artifact : SealedDocuments) : Counts artifact.ngramRow? := by
  intro key row hrow
  obtain ⟨hd, hf⟩ := ngramRow?_eq_some hrow
  rw [hd, hf]; exact toFinset_card_of_nodup documentsOf_nodup

theorem SealedDocuments.lists {artifact : SealedDocuments}
    {document : IndexedDocument} (hd : (n, document) ∈ artifact.documents)
    {key : NgramKey} (hkey : key ∈ document.keys) : Lists artifact.ngramRow? n key := by
  have hmem : n ∈ artifact.documentsOf key := mem_documentsOf.mpr ⟨document, hd, hkey⟩
  exact ⟨_, if_neg (by simpa using ne_nil_of_mem hmem), mem_toFinset.mpr hmem⟩

/-- The result is within the budget and satisfies `p`, or the budget is exceeded. -/
def WithinBudget {α : Type} (p : α → Prop) (result : Except RetrievalPortError α) : Prop :=
  result = .error .budgetExceeded ∨ ∃ a, result = .ok a ∧ p a

namespace WithinBudget

variable {α β : Type} {p : α → Prop} {x : Except RetrievalPortError α}

theorem ok {a : α} (h : p a) : WithinBudget p (.ok a) := .inr ⟨a, rfl, h⟩

theorem bind {q : β → Prop} {f : α → Except RetrievalPortError β} (hx : WithinBudget p x)
    (hf : ∀ a, p a → WithinBudget q (f a)) : WithinBudget q (x >>= f) := by
  rcases hx with rfl | ⟨a, rfl, ha⟩
  · exact .inl rfl
  · exact hf a ha

theorem imp {q : α → Prop} (hx : WithinBudget p x) (h : ∀ a, p a → q a) : WithinBudget q x := by
  rcases hx with rfl | ⟨a, rfl, ha⟩
  · exact .inl rfl
  · exact ok (h a ha)

end WithinBudget

theorem ensureNgramCandidateCardinality_within (c : Nat) :
    WithinBudget (fun _ => True) (ensureNgramCandidateCardinality c) := by
  unfold ensureNgramCandidateCardinality
  split
  · exact .inl rfl
  · exact .ok trivial

theorem chargeNgramEncodedListBytes_within (r l : Nat) :
    WithinBudget (fun _ => True) (chargeNgramEncodedListBytes r l) := by
  unfold chargeNgramEncodedListBytes
  split_ifs
  · exact .inl rfl
  · exact .inl rfl
  · exact .ok trivial

section Query
variable {row? : NgramKey → Option NgramRow}

/-- All keys have a row and are kept, or one has none and no document has them all. -/
def Selected (row? : NgramKey → Option NgramRow) (keys : List NgramKey) :
    Option (List NgramSelectivity) → Prop
  | none => ∀ number, ¬ ∀ key ∈ keys, Lists row? number key
  | some selectivities => selectivities.map (·.key) = keys ∧ ∀ key ∈ keys, (row? key).isSome

theorem ngramSelectivities_within (keys : List NgramKey) :
    WithinBudget (Selected row? keys) (ngramSelectivities row? keys) := by
  induction keys with
  | nil => exact .ok ⟨rfl, fun key h => absurd h not_mem_nil⟩
  | cons key keys ih =>
    rw [ngramSelectivities]
    cases hrow : row? key with
    | none =>
      refine .ok fun n hall => ?_
      obtain ⟨row, hf, -⟩ := hall key mem_cons_self
      rw [hrow] at hf; cases hf
    | some row =>
      refine (ensureNgramCandidateCardinality_within _).bind fun _ _ => ih.bind fun o ho => ?_
      cases o with
      | none => exact .ok fun n hall => ho n fun k hk => hall k (mem_cons_of_mem _ hk)
      | some o =>
        obtain ⟨hkeys, hr⟩ := ho
        exact .ok ⟨by simp [hkeys], forall_mem_cons.mpr ⟨by rw [hrow]; rfl, hr⟩⟩

theorem intersectNgrams_within (hcs : Counts row?) {rest : List NgramSelectivity}
    (hr : ∀ s ∈ rest, (row? s.key).isSome) (r : Nat) (cs : Option (Finset Nat)) :
    WithinBudget (fun f => ∀ n, (∀ c ∈ cs, n ∈ c) → (∀ s ∈ rest, Lists row? n s.key) →
        (cs.isSome ∨ rest ≠ []) → ∃ d ∈ f, n ∈ d)
      (intersectNgrams row? r cs rest) := by
  induction rest generalizing r cs with
  | nil =>
    refine .ok fun n hc _ hmem => ?_
    obtain ⟨d, rfl⟩ := Option.isSome_iff_exists.mp (hmem.resolve_right (by simp))
    exact ⟨d, rfl, hc d rfl⟩
  | cons selectivity rest ih =>
    obtain ⟨row, hrow⟩ := Option.isSome_iff_exists.mp (hr selectivity mem_cons_self)
    have hlt : ∀ n, (∀ c ∈ cs, n ∈ c) → (∀ s ∈ selectivity :: rest, Lists row? n s.key) →
        n ∈ cs.elim row.documents (row.documents ∩ ·) := by
      intro n hc hl
      obtain ⟨row', hr', hn⟩ := hl selectivity mem_cons_self
      rw [hrow] at hr'
      cases hr'
      cases cs with
      | none => exact hn
      | some c => exact Finset.mem_inter.mpr ⟨hn, hc c rfl⟩
    simp only [intersectNgrams, hrow]
    refine (chargeNgramEncodedListBytes_within _ _).bind fun left _ => ?_
    rw [if_neg (by simpa using hcs _ _ hrow)]
    refine (ensureNgramCandidateCardinality_within _).bind fun _ _ => ?_
    split
    · refine .ok fun n hc hl _ => ?_; exact ⟨_, rfl, hlt n hc hl⟩
    · refine (ih (fun s hs => hr s (mem_cons_of_mem _ hs)) left _).imp ?_
      intro f hf n hc hl _
      refine hf n ?_ (fun s hs => hl s (mem_cons_of_mem _ hs)) (.inl rfl)
      rintro c ⟨⟩; exact hlt n hc hl

theorem ngramBitmapCandidates_within (hc : Counts row?) (keys : List NgramKey) :
    WithinBudget (fun f => keys ≠ [] → ∀ n, (∀ key ∈ keys, Lists row? n key) → n ∈ f)
      (ngramBitmapCandidates row? keys) := by
  refine (ngramSelectivities_within keys).bind fun sorted hsorted => ?_
  cases sorted with
  | none => exact .ok fun _ n hall => absurd hall (hsorted n)
  | some selectivities =>
    obtain ⟨hk, hr⟩ := hsorted
    have hp := sortBy_perm selectivityCmp selectivities
    have hkey : ∀ s ∈ (sortBy selectivityCmp selectivities).take ngramIntersectionScratch,
        s.key ∈ keys := by
      intro s hs
      rw [← hk]; exact mem_map.mpr ⟨s, hp.mem_iff.mp (mem_of_mem_take hs), rfl⟩
    refine (intersectNgrams_within hc (fun s hs => hr _ (hkey s hs)) _ none).bind
      fun f hf => .ok fun hne n hall => ?_
    have hsome : (sortBy selectivityCmp selectivities).take ngramIntersectionScratch ≠ [] := by
      intro hnil
      have hsorted : sortBy selectivityCmp selectivities = [] :=
        (take_eq_nil_iff.mp hnil).resolve_left (by decide)
      have hnone : selectivities = [] := (hsorted ▸ hp).symm.eq_nil
      exact hne (by rw [← hk, hnone]; rfl)
    obtain ⟨documents, hd, hmem⟩ := hf n (by simp) (fun s hs => hall _ (hkey s hs)) (.inr hsome)
    rw [Option.mem_def.mp hd]; exact hmem

theorem ngramDocumentQuery_within (hc : Counts row?) (kind : Nat) (bytes : Text) :
    WithinBudget (fun f => bytes ≠ [] → ∀ n,
        (∀ ngram ∈ queryNgrams bytes, Lists row? n (toLex (kind, ngram))) → n ∈ f)
      (ngramDocumentQuery row? kind bytes) := by
  simp only [ngramDocumentQuery]
  split
  · next he =>
    refine .ok fun hne => absurd ?_ (queryNgrams_ne_nil hne)
    simpa using he
  · refine (ngramBitmapCandidates_within hc _).imp fun f hf hne n hall => ?_
    refine hf (by simpa using queryNgrams_ne_nil hne) n fun key hkey => ?_
    obtain ⟨ngram, hn, rfl⟩ := mem_map.mp hkey
    exact hall ngram hn

theorem rawOverrideQueryNgrams_eq_some {keys : List NgramKey}
    (h : rawOverrideQueryNgrams bytes = some keys) :
    keys = (queryNgrams bytes).map fun n => toLex
      (if ngramIsCaseSensitive n then ngramRawOverride else ngramNormalized, n) := by
  simp only [rawOverrideQueryNgrams] at h
  split at h
  · exact (Option.some.inj h).symm
  · cases h

theorem not_caseSensitive_of_no_override (h : rawOverrideQueryNgrams bytes = none)
    (hn : n ∈ queryNgrams bytes) : ngramIsCaseSensitive n = false := by
  simp only [rawOverrideQueryNgrams] at h
  split at h
  · cases h
  · next hnone =>
    refine Bool.eq_false_iff.mpr fun hu => hnone (any_eq_true.mpr ?_)
    exact ⟨_, mem_map_of_mem hn, by simp [hu]⟩

theorem literalNgramDocuments_within (hc : Counts row?) (bytes : Text) :
    WithinBudget (fun f => bytes ≠ [] → ∀ n, ListsLiteral row? n bytes → n ∈ f)
      (literalNgramDocuments row? bytes) := by
  refine (ngramDocumentQuery_within hc _ bytes).bind fun d hd => ?_
  cases ho : rawOverrideQueryNgrams bytes with
  | some keys =>
    refine (ngramBitmapCandidates_within hc keys).bind fun raw hraw =>
      .ok fun hne n hall => Finset.mem_union_right _ (hraw ?_ n fun key hkey => ?_)
    · rw [rawOverrideQueryNgrams_eq_some ho]; simpa using queryNgrams_ne_nil hne
    · rw [rawOverrideQueryNgrams_eq_some ho] at hkey
      obtain ⟨ngram, hn, rfl⟩ := mem_map.mp hkey
      exact hall ngram hn
  | none =>
    -- no window needs the raw kind, so the normalized query asks for all of them
    refine .ok fun hne n hall => hd hne n fun ngram hn => ?_
    have := hall ngram hn
    rwa [not_caseSensitive_of_no_override ho hn] at this

theorem exactDocuments_within (hc : Counts row?)
    (listed? : Text → ExactFieldV1 → Option (Finset Nat)) (ds : Finset Nat)
    (ls : List ExactLiteral) :
    WithinBudget (fun f => ds ⊆ f ∧ ∀ literal ∈ ls, literal.isTextual = true →
      literal.originalBytes ≠ [] →
        ∀ n, ListsLiteral row? n literal.originalBytes → n ∈ f)
      (exactDocuments row? listed? ds ls) := by
  induction ls generalizing ds with
  | nil => exact .ok ⟨Finset.Subset.refl _, by simp⟩
  | cons literal rest ih =>
    have hfind : WithinBudget (fun f => literal.isTextual = true → literal.originalBytes ≠ [] →
        ∀ n, ListsLiteral row? n literal.originalBytes → n ∈ f) (literalDocuments row? literal) := by
      unfold literalDocuments
      split
      · exact (literalNgramDocuments_within hc _).imp fun f hf _ => hf
      · next ht => exact .ok fun ht' => absurd ht' ht
    refine hfind.bind fun f hf => (ih _).imp fun all hall => ?_
    obtain ⟨hs, hr⟩ := hall
    refine ⟨fun d hd => hs (by simp [hd]), fun l hl ht hne n hmatch => ?_⟩
    rcases mem_cons.mp hl with rfl | hl
    · exact hs (by simp [hf ht hne n hmatch])
    · exact hr l hl ht hne n hmatch

end Query

/-! ## No match is lost -/

theorem infix_of_matchCount_pos {n : Text} {fuel : Nat}
    (h : 0 < matchCount n fuel text) : n <:+: text := by
  induction fuel generalizing text with
  | zero => exact absurd h (Nat.lt_irrefl 0)
  | succ fuel ih =>
    cases text with
    | nil => exact absurd h (Nat.lt_irrefl 0)
    | cons byte rest =>
      rw [matchCount] at h
      split at h
      · next hf => exact hf.isInfix
      · exact (ih h).trans (suffix_cons _ _).isInfix

theorem infix_of_substringCount_pos {p : Text} (h : 0 < substringCount text p) :
    p ≠ [] ∧ p <:+: text := by
  unfold substringCount at h
  split at h
  · exact absurd h (Nat.lt_irrefl 0)
  · next hne => exact ⟨by simpa using hne, infix_of_matchCount_pos h⟩

/-- A query over its budget, or one that has the document among those it found. -/
def Admits (number : Nat) (result : Except RetrievalPortError (Finset Nat)) : Prop :=
  WithinBudget (fun found => number ∈ found) result

/-- A document whose text contains a literal is among those its n-grams find, alone and as part of a
request, and one with a field that contains a phrase is among those the phrase finds. -/
theorem ngram_prefilter_keeps_matches (artifact : SealedDocuments) (number : Nat)
    (document : IndexedDocument) (hdocument : (number, document) ∈ artifact.documents) :
    (∀ literal, literal ≠ [] → literal <:+: document.chunk.sanitizedText →
      Admits number (literalNgramDocuments artifact.ngramRow? literal)) ∧
    (∀ listed? found literals, ∀ literal ∈ literals, literal.isTextual = true →
      literal.originalBytes ≠ [] → literal.originalBytes <:+: document.chunk.sanitizedText →
      Admits number (exactDocuments artifact.ngramRow? listed? found literals)) ∧
    (∀ field text phrase, document.chunk.normalizedFieldText field = some text →
      0 < substringCount text phrase →
      Admits number (ngramDocumentQuery artifact.ngramRow? ngramNormalized phrase)) := by
  have hl : ∀ {literal : Text}, literal <:+: document.chunk.sanitizedText →
      ListsLiteral artifact.ngramRow? number literal :=
    fun hi _ hn => SealedDocuments.lists hdocument (document.key_of_literal hi hn)
  refine ⟨?_, ?_, ?_⟩
  · intro literal hne hi
    exact (literalNgramDocuments_within artifact.counts literal).imp
      fun found hf => hf hne number (hl hi)
  · intro listed? documents literals literal hmem ht hne hi
    exact (exactDocuments_within artifact.counts listed? documents literals).imp
      fun found hf => hf.2 literal hmem ht hne number (hl hi)
  · intro field text phrase hfield hc
    obtain ⟨hne, hi⟩ := infix_of_substringCount_pos hc
    refine (ngramDocumentQuery_within artifact.counts ngramNormalized phrase).imp
      fun found hf => hf hne number fun n hn => ?_
    have hs := hi.trans (ProjectedChunk.fieldText_infix hfield)
    exact SealedDocuments.lists hdocument (document.key_of_phrase hs hn)

/-- A chunk with the text `aBcDe` in a file `main`. -/
def mixedCaseChunk : ProjectedChunk where
  grain := .fileWindow
  sanitizedText := [97, 66, 99, 68, 101]
  logicalPath := [109, 97, 105, 110]
  symbolSimpleName := none
  symbolQualifiedName := none
  symbolSignature := none
  symbolDocumentation := none

def mixedCaseDocument : IndexedDocument where
  chunk := mixedCaseChunk
  keys := mixedCaseChunk.ngramKeys.toOption.getD []
  indexed := by decide +kernel

def mixedCaseArtifact : SealedDocuments where
  documents := [(0, mixedCaseDocument)]
  ascending := pairwise_singleton _ _
  encodedBytes := fun _ => 1

/-- The literal `BcDe` is found, and so is the phrase `ain` of the path. -/
theorem mixed_case_found :
    Admits 0 (literalNgramDocuments mixedCaseArtifact.ngramRow? [66, 99, 68, 101]) ∧
      Admits 0 (exactDocuments mixedCaseArtifact.ngramRow? (fun _ _ => none) ∅
        [⟨.quotedPhrase, [66, 99, 68, 101], [98, 99, 100, 101]⟩]) ∧
      Admits 0 (ngramDocumentQuery mixedCaseArtifact.ngramRow? ngramNormalized [97, 105, 110]) := by
  obtain ⟨hl, hexact, hp⟩ := ngram_prefilter_keeps_matches mixedCaseArtifact 0
    mixedCaseDocument (mem_singleton.mpr rfl)
  have hi : [66, 99, 68, 101] <:+: mixedCaseDocument.chunk.sanitizedText := ⟨[97], [], rfl⟩
  refine ⟨hl _ (by decide) hi, ?_, hp .path [109, 97, 105, 110] _ rfl (by decide)⟩
  exact hexact _ _ _ _ (mem_singleton.mpr rfl) (by decide) (by decide) hi

end TraceDecay.Lexical
