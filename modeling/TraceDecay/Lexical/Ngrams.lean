import Mathlib.Data.Prod.Lex
import TraceDecay.Lib.Inverted
import TraceDecay.Lib.Occurrences
import TraceDecay.Lib.Sorting
import TraceDecay.Domain.Text
import TraceDecay.Lexical.Format

/-!
# Lexical.Ngrams

The n-gram prefilter of the lexical artifact: the keys a document is indexed under
(`artifact/postings.rs`, `artifact/prepared.rs`), and the documents a literal or a phrase asks for
(`artifact/reader.rs`). Every operation on text here works on its bytes, so a text is the list of
its bytes, and a Roaring bitmap is a finite set of documents.

Windows of one to three bytes of the normalized text are kept under one kind. Those of the raw text
are kept under another, and only where they hold an upper-case letter: any other window of the raw
text is the same window of the normalized one.
-/

namespace TraceDecay.Lexical

open Domain Sorting Occurrences

abbrev Text := List UInt8

def isAsciiUppercase (byte : UInt8) : Bool := 65 ≤ byte && byte ≤ 90

def toAsciiLowercase (byte : UInt8) : UInt8 := if isAsciiUppercase byte then byte + 32 else byte

def normalizeLexical (value : Text) : Text := value.map toAsciiLowercase

/-! ## Packed n-grams -/

/-- The width in the top byte, the bytes below it from the lowest one up. -/
def packByteNgram (window : Text) : Nat :=
  window.zipIdx.foldl (fun packed (byte, index) => packed ||| byte.toNat <<< (index * 8))
    (window.length <<< 24)

def sortedNgrams (ngrams : List Nat) : List Nat := dedup (sortBy compare ngrams)

/-- `packed_query_ngrams`: windows of one width, three bytes or all there are. -/
def queryNgrams (bytes : Text) : List Nat :=
  let width := min bytes.length 3
  if width = 0 then [] else sortedNgrams ((windows width bytes).map packByteNgram)

def usizeSize : Nat := 2 ^ 64

def documentScratchLimitBytes : Nat := 64 * 1024 * 1024

def nextPowerOfTwo (count : Nat) : Nat := if count ≤ 1 then 1 else 2 ^ (Nat.log2 (count - 1) + 1)

/-- The windows of a text of this length, and the bytes reserved to hold them. -/
def documentNgramScratch (textLen : Nat) : Except CodeLexicalArtifactError (Nat × Nat) :=
  let windowCount := (List.range (min textLen 3)).foldl
    (fun count index => count + (textLen - (index + 1) + 1)) 0
  let capacity := if windowCount = 0 then 0 else nextPowerOfTwo windowCount
  if usizeSize ≤ windowCount then
    .error (.contract "lexical artifact n-gram scratch count overflowed")
  else if usizeSize ≤ capacity then
    .error (.contract "lexical artifact n-gram scratch capacity overflowed")
  else if usizeSize ≤ capacity * 4 then
    .error (.contract "lexical artifact n-gram scratch bytes overflowed")
  else .ok (windowCount, capacity * 4)

def documentWindows (bytes : Text) : List Text :=
  (List.range (min bytes.length 3)).flatMap fun index => windows (index + 1) bytes

def documentNgrams (bytes : Text) : Except CodeLexicalArtifactError (List Nat) := do
  let (_, scratchBytes) ← documentNgramScratch bytes.length
  if documentScratchLimitBytes < scratchBytes then
    .error (.contract s!"one lexical document requires {scratchBytes} bytes of n-gram scratch, exceeding the {documentScratchLimitBytes}-byte bound")
  else .ok (sortedNgrams ((documentWindows bytes).map packByteNgram))

def ngramIsCaseSensitive (ngram : Nat) : Bool :=
  (List.range (ngram >>> 24)).any fun index =>
    isAsciiUppercase (UInt8.ofNat (ngram >>> (index * 8)))

/-! ## The keys of a document -/

/-- A kind and an n-gram. -/
abbrev NgramKey := Nat ×ₗ Nat

def ngramNormalized : Nat := 0

def ngramRawOverride : Nat := 1

def documentNgramKeys (searchText sanitizedText normalizedText : Text) :
    Except CodeLexicalArtifactError (List NgramKey) := do
  let normalized ← documentNgrams searchText
  let keys : List NgramKey := normalized.map fun ngram => toLex (ngramNormalized, ngram)
  if sanitizedText = normalizedText then .ok keys
  else do
    let raw ← documentNgrams sanitizedText
    .ok (keys ++ (raw.filter ngramIsCaseSensitive).map fun ngram => toLex (ngramRawOverride, ngram))

inductive CodeSearchChunkGrain where
  | symbolSignature
  | symbolBody
  | symbolMember
  | filePreamble
  | fileWindow
deriving DecidableEq

inductive LexicalField where
  | symbolName
  | qualifiedName
  | path
  | signature
  | documentation
  | bodyText
  | preambleText
  | exactTerm
  | subtoken
deriving DecidableEq

/-- The text of a chunk, as the projection keeps it. -/
structure ProjectedChunk where
  grain : CodeSearchChunkGrain
  (sanitizedText logicalPath : Text)
  (symbolSimpleName symbolQualifiedName symbolSignature symbolDocumentation : Option Text)

namespace ProjectedChunk

variable (chunk : ProjectedChunk)

def normalizedText : Text := normalizeLexical chunk.sanitizedText

/-- The fields beside the text of the chunk. -/
def displayFields : List Text :=
  [some chunk.logicalPath, chunk.symbolSimpleName, chunk.symbolQualifiedName,
    chunk.symbolSignature, chunk.symbolDocumentation].reduceOption

def normalizedSearchText : Text :=
  List.intercalate [10] (chunk.normalizedText :: chunk.displayFields.map normalizeLexical)

def normalizedFieldText : LexicalField → Option Text
  | .symbolName => chunk.symbolSimpleName.map normalizeLexical
  | .qualifiedName => chunk.symbolQualifiedName.map normalizeLexical
  | .path => some (normalizeLexical chunk.logicalPath)
  | .signature => chunk.symbolSignature.map normalizeLexical
  | .documentation => chunk.symbolDocumentation.map normalizeLexical
  | .bodyText => if chunk.grain = .filePreamble then none else some chunk.normalizedText
  | .preambleText => if chunk.grain = .filePreamble then some chunk.normalizedText else none
  | .exactTerm => none
  | .subtoken => none

def ngramKeys : Except CodeLexicalArtifactError (List NgramKey) :=
  documentNgramKeys chunk.normalizedSearchText chunk.sanitizedText chunk.normalizedText

end ProjectedChunk

/-- Matches that do not overlap, found from the left; `fuel` is the length of the text. -/
def matchCount (needle : Text) : Nat → Text → Nat
  | 0, _ => 0
  | _, [] => 0
  | fuel + 1, byte :: rest =>
    if needle <+: byte :: rest then 1 + matchCount needle fuel ((byte :: rest).drop needle.length)
    else matchCount needle fuel rest

def substringCount (haystack needle : Text) : Nat :=
  if needle.isEmpty then 0 else matchCount needle haystack.length haystack

/-! ## The sealed lists -/

/-- A chunk the artifact holds, with the keys it was indexed under. -/
structure IndexedDocument where
  chunk : ProjectedChunk
  keys : List NgramKey
  indexed : chunk.ngramKeys = .ok keys

/-- A row of `ngram_postings`: the documents, how many they are said to be, and the logical length
of the set they are stored as. -/
structure NgramRow where
  documents : Finset Nat
  (documentFrequency encodedBytes : Nat)

/-- The documents of an artifact, in the order of their numbers, and the length each key's document
set is stored with. -/
structure SealedDocuments where
  documents : List (Nat × IndexedDocument)
  ascending : Inverted.Ascending documents
  encodedBytes : NgramKey → Nat

namespace SealedDocuments

def keyOccurrences (document : IndexedDocument) : List (NgramKey × Unit) :=
  document.keys.map fun key => (key, ())

def documentsOf (artifact : SealedDocuments) (key : NgramKey) : List Nat :=
  (Inverted.postings keyOccurrences artifact.documents key).map Prod.fst

/-- The row of a key; a key no document has has none. -/
def ngramRow? (artifact : SealedDocuments) (key : NgramKey) : Option NgramRow :=
  let documents := artifact.documentsOf key
  if documents.isEmpty then none
  else some ⟨documents.toFinset, documents.length, artifact.encodedBytes key⟩

end SealedDocuments

/-! ## Queries -/

inductive RetrievalPortError where
  | authorityUnavailable (message : String)
  | budgetExceeded
  | contract (message : String)
deriving DecidableEq

def queryCacheBudgetBytes : Nat := 256 * 1024 * 1024

def ngramMaxEncodedListBytes : Nat := queryCacheBudgetBytes / 8

def ngramQueryEncodedBytes : Nat := queryCacheBudgetBytes / 4

def ngramMaxCandidates : Nat := queryCacheBudgetBytes / 4 / 8

def ngramIntersectionScratch : Nat := 16

structure NgramSelectivity where
  key : NgramKey
  cardinality : Nat

def selectivityCmp (left right : NgramSelectivity) : Ordering :=
  (compare left.cardinality right.cardinality).then (compare left.key right.key)

def ensureNgramCandidateCardinality (cardinality : Nat) : Except RetrievalPortError Unit :=
  if ngramMaxCandidates < cardinality then .error .budgetExceeded else .ok ()

def chargeNgramEncodedListBytes (remaining listBytes : Nat) : Except RetrievalPortError Nat :=
  if ngramMaxEncodedListBytes < listBytes then .error .budgetExceeded
  else if remaining < listBytes then .error .budgetExceeded
  else .ok (remaining - listBytes)

variable (row? : NgramKey → Option NgramRow)

/-- How many documents each key has, or nothing when a key has no row. -/
def ngramSelectivities : List NgramKey → Except RetrievalPortError (Option (List NgramSelectivity))
  | [] => .ok (some [])
  | key :: rest =>
    match row? key with
    | none => .ok none
    | some row => do
      ensureNgramCandidateCardinality row.documentFrequency
      let others ← ngramSelectivities rest
      .ok (others.map (⟨key, row.documentFrequency⟩ :: ·))

/-- One list after the other, each intersected with what is left; an empty set ends it. A row that
was there for its selectivity is there for its list. -/
def intersectNgrams : Nat → Option (Finset Nat) → List NgramSelectivity →
    Except RetrievalPortError (Option (Finset Nat))
  | _, candidates, [] => .ok candidates
  | remaining, candidates, selectivity :: rest =>
    match row? selectivity.key with
    | none => .error (.authorityUnavailable "lexical artifact read failed: Query returned no rows")
    | some row => do
      let remaining ← chargeNgramEncodedListBytes remaining row.encodedBytes
      if row.documents.card ≠ row.documentFrequency then
        .error (.contract "lexical artifact ngram list cardinality changed after verification")
      else do
        let list := candidates.elim row.documents (row.documents ∩ ·)
        ensureNgramCandidateCardinality list.card
        if list = ∅ then .ok (some list) else intersectNgrams remaining (some list) rest

/-- The documents in the lists of the rarest of the keys. -/
def ngramBitmapCandidates (keys : List NgramKey) : Except RetrievalPortError (Finset Nat) := do
  match ← ngramSelectivities row? keys with
  | none => .ok ∅
  | some selectivities => do
    let rarest := (sortBy selectivityCmp selectivities).take ngramIntersectionScratch
    let candidates ← intersectNgrams row? ngramQueryEncodedBytes none rarest
    .ok (candidates.getD ∅)

def ngramDocumentQuery (kind : Nat) (bytes : Text) : Except RetrievalPortError (Finset Nat) :=
  let keys : List NgramKey := (queryNgrams bytes).map fun ngram => toLex (kind, ngram)
  if keys.isEmpty then .ok ∅ else ngramBitmapCandidates row? keys

/-- The kind that holds each window of a literal, when one of them needs the raw kind. -/
def rawOverrideQueryNgrams (bytes : Text) : Option (List NgramKey) :=
  let keys : List NgramKey := (queryNgrams bytes).map fun ngram =>
    toLex (if ngramIsCaseSensitive ngram then ngramRawOverride else ngramNormalized, ngram)
  if keys.any fun key => (ofLex key).1 == ngramRawOverride then some keys else none

/-- What `exact_documents` takes from the n-gram lists for one literal. -/
def literalNgramDocuments (bytes : Text) : Except RetrievalPortError (Finset Nat) := do
  let documents ← ngramDocumentQuery row? ngramNormalized bytes
  match rawOverrideQueryNgrams bytes with
  | none => .ok documents
  | some keys => do
    let raw ← ngramBitmapCandidates row? keys
    .ok (documents ∪ raw)

structure ExactLiteral where
  field : ExactFieldV1
  (originalBytes canonicalBytes : Text)

/-- The fields whose literals are looked for inside the text. -/
def ExactLiteral.isTextual (literal : ExactLiteral) : Bool :=
  literal.field == .quotedPhrase || literal.field == .diagnosticText ||
    literal.field == .compilerOrRuntimeError

/-- The documents a literal is looked for in; other fields are looked up by term alone. -/
def literalDocuments (literal : ExactLiteral) : Except RetrievalPortError (Finset Nat) :=
  if literal.isTextual then literalNgramDocuments row? literal.originalBytes else .ok ∅

/-- `exact_documents`; `listed?` is the table `exact_postings` by term and field. -/
def exactDocuments (listed? : Text → ExactFieldV1 → Option (Finset Nat)) (documents : Finset Nat) :
    List ExactLiteral → Except RetrievalPortError (Finset Nat)
  | [] => .ok documents
  | literal :: rest => do
    let found ← literalDocuments row? literal
    let listed := (listed? literal.canonicalBytes literal.field).getD ∅
    exactDocuments listed? (documents ∪ found ∪ listed) rest

end TraceDecay.Lexical
