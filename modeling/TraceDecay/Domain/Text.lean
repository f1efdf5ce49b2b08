import Mathlib.Data.String.Basic
import TraceDecay.Lib.Utf8

/-!
# Domain.Text

Canonical text (`canonical_text.rs`) and the identities made of it. The string newtypes of the
domain validate in every constructor, so an identity carries the proof that its text is canonical.
-/

namespace TraceDecay.Domain

open Utf8

/-- `char::is_whitespace`: the Unicode property `White_Space`. -/
def isWhitespace (c : Char) : Bool :=
  let v := c.toNat
  (0x09 ≤ v && v ≤ 0x0D) || v == 0x20 || v == 0x85 || v == 0xA0 || v == 0x1680 ||
    (0x2000 ≤ v && v ≤ 0x200A) || v == 0x2028 || v == 0x2029 || v == 0x202F || v == 0x205F ||
    v == 0x3000

/-- `char::is_control`: the Unicode category `Cc`. -/
def isControl (c : Char) : Bool := c.toNat ≤ 0x1F || (0x7F ≤ c.toNat && c.toNat ≤ 0x9F)

def trim (s : List Char) : List Char :=
  ((s.dropWhile isWhitespace).reverse.dropWhile isWhitespace).reverse

def canonicalTextMaxBytes : Nat := 512

def isCanonicalText (value : List Char) : Bool :=
  !value.isEmpty && trim value == value && !value.any isControl

def isCanonicalTextWithin (value : List Char) (maxBytes : Nat) : Bool :=
  (encode value).length ≤ maxBytes && isCanonicalText value

structure CanonicalString where
  value : String
  canonical : isCanonicalTextWithin value.toList canonicalTextMaxBytes = true
deriving DecidableEq

namespace CanonicalString

theorem value_injective : Function.Injective value := by
  rintro ⟨a, ha⟩ ⟨b, hb⟩ h
  cases h; rfl

instance : LinearOrder CanonicalString := LinearOrder.lift' value value_injective

def chars (id : CanonicalString) : List Char := id.value.toList

/-- `new`: text becomes an identity when it is canonical. -/
def new? (value : String) : Option CanonicalString :=
  if h : isCanonicalTextWithin value.toList canonicalTextMaxBytes = true then some ⟨value, h⟩
  else none

/-- The text is checked again wherever a contract validates the identities it holds. -/
def validate (id : CanonicalString) : Bool := isCanonicalTextWithin id.chars canonicalTextMaxBytes

@[simp] theorem validate_eq (id : CanonicalString) : id.validate = true := id.canonical

end CanonicalString

abbrev RetrievalAnchorId := CanonicalString

abbrev SessionSummaryIdV1 := CanonicalString

abbrev SessionId := CanonicalString

/-! ## Lowercase hex -/

def isLowercaseHexDigit (c : Char) : Bool := ('0' ≤ c && c ≤ '9') || ('a' ≤ c && c ≤ 'f')

/-- Exactly `length` characters of lowercase hex. -/
def isLowercaseHex (value : List Char) (length : Nat) : Bool :=
  (encode value).length == length && value.all isLowercaseHexDigit

/-- An algorithm tag such as `sha256:` followed by lowercase hex of exactly `length`
characters. -/
def isTaggedLowercaseHex (value tag : List Char) (length : Nat) : Bool :=
  tag.isPrefixOf value && isLowercaseHex (value.drop tag.length) length

/-- Stable identity of one projected output from a canonical observation. -/
structure MessageOccurrenceIdV1 where
  value : String
  tagged : isTaggedLowercaseHex value.toList "sha256:".toList 64 = true
deriving DecidableEq

theorem MessageOccurrenceIdV1.value_injective : Function.Injective value := by
  rintro ⟨a, ha⟩ ⟨b, hb⟩ h
  cases h; rfl

instance : LinearOrder MessageOccurrenceIdV1 :=
  LinearOrder.lift' MessageOccurrenceIdV1.value MessageOccurrenceIdV1.value_injective

/-- The accepted spellings of an integrity digest: a known algorithm and its digits. -/
def isIntegrityDigest (value : List Char) : Bool :=
  isTaggedLowercaseHex value "sha256:".toList 64 || isTaggedLowercaseHex value "blake3:".toList 64 ||
    isTaggedLowercaseHex value "sha512:".toList 128

structure ManifestDigest where
  value : String
  integral : isIntegrityDigest value.toList = true
deriving DecidableEq

theorem ManifestDigest.value_injective : Function.Injective value := by
  rintro ⟨a, ha⟩ ⟨b, hb⟩ h
  cases h; rfl

instance : LinearOrder ManifestDigest :=
  LinearOrder.lift' ManifestDigest.value ManifestDigest.value_injective

def ManifestDigest.validate (digest : ManifestDigest) : Bool := isIntegrityDigest digest.value.toList

/-! ## Exact fields -/

inductive ExactFieldV1 where
  | identifier
  | qualifiedName
  | path
  | quotedPhrase
  | diagnosticCode
  | diagnosticText
  | compilerOrRuntimeError
  | cliFlag
  | toolName
  | configurationKey
  | commitIdentifier
  | taskOrSessionId
  | protocolField
deriving DecidableEq

end TraceDecay.Domain
