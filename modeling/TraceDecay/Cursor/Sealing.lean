import TraceDecay.Lib.TextCode
import TraceDecay.Ranking.Paging

/-!
# Cursor.Sealing

Minting and verifying a continuation cursor (`cursor.rs`). A cursor is bound to the operation and
parameters of the request, the execution snapshot (of which `TemporalExecutionSnapshot` holds the
parts that are bound) and the position the next page resumes from. It is five segments of text
separated by dots: the format version, the id of the signing key in hex, its version in decimal,
the payload in hex and the signature of everything before it in hex. Every segment is read by a
decoder that takes several spellings and is then compared with the one spelling `encodeCursorAt`
writes.

The payload is written and parsed by `serde_json` (`PayloadCodec`) and signed by whatever holds
the key (`SessionCursorAuthenticator`).
-/

namespace TraceDecay.Cursor

open Domain Ranking

/-! ## The request binding -/

/-- Why a presented cursor cannot page the request it was presented with. -/
inductive CursorBindingMismatchV1 where
  | foreign
  | parameterChanged (parameter : String)
deriving DecidableEq

/-- The operation and named result-shaping parameters a cursor is minted for. Each parameter has
a fingerprint, the leading digits of the digest of its value. -/
structure CursorBindingV1 where
  operation : String
  digest : ManifestDigest
  parameters : List (String × String)

/-- The part of a binding that a cursor carries. -/
structure CursorBindingStampV1 where
  operation : String
  digest : ManifestDigest
  fingerprints : List String
deriving DecidableEq

def CursorBindingV1.stamp (self : CursorBindingV1) : CursorBindingStampV1 :=
  ⟨self.operation, self.digest, self.parameters.map (·.2)⟩

/-- Whether a cursor carrying `stamp` may page this request. The digest alone decides; the
fingerprints only name the parameter that changed. -/
def CursorBindingV1.check (self : CursorBindingV1) (stamp : CursorBindingStampV1) :
    Except CursorBindingMismatchV1 Unit :=
  if stamp.operation ≠ self.operation then .error .foreign
  else if stamp.digest = self.digest then .ok ()
  else if stamp.fingerprints.length ≠ self.parameters.length then .error .foreign
  else
    match (self.parameters.zip stamp.fingerprints).find? fun (p, minted) => p.2 ≠ minted with
    | none => .error .foreign
    | some (p, _) => .error (.parameterChanged p.1)

theorem CursorBindingV1.check_eq_ok {self : CursorBindingV1} {s : CursorBindingStampV1} :
    self.check s = .ok () ↔ s.operation = self.operation ∧ s.digest = self.digest := by
  unfold CursorBindingV1.check
  by_cases hsame : s.operation = self.operation
  · by_cases hd : s.digest = self.digest
    · simp [hsame, hd]
    · rw [if_neg (not_not.mpr hsame), if_neg hd]
      refine ⟨fun h => ?_, fun h => absurd h.2 hd⟩
      split at h
      · cases h
      · split at h <;> cases h
  · simp [hsame]

/-! ## The signing key -/

abbrev SessionCursorKeyIdV1 := CanonicalString

structure SessionCursorVersionV1 where
  value : UInt16
  nonzero : value ≠ 0
deriving DecidableEq

def SessionCursorVersionV1.new? (value : UInt16) : Option SessionCursorVersionV1 :=
  if nonzero : value ≠ 0 then some ⟨value, nonzero⟩ else none

structure SignedCursorKeyRefV1 where
  keyId : SessionCursorKeyIdV1
  version : SessionCursorVersionV1

/-! ## The snapshot -/

structure BindingDigest where
  value : String
  tagged : isTaggedLowercaseHex value.toList "sha256:".toList 64 = true

theorem BindingDigest.value_injective : Function.Injective BindingDigest.value := by
  rintro ⟨a, ha⟩ ⟨b, hb⟩ h
  cases h; rfl

instance : DecidableEq BindingDigest := fun _ _ =>
  decidable_of_iff _ BindingDigest.value_injective.eq_iff

inductive TemporalRetrievalScope where
  | session (id : SessionId)
  | allSessionsInAuthorizedRoot
deriving DecidableEq

def TemporalRetrievalScope.sessionId : TemporalRetrievalScope → Option SessionId
  | .session id => some id
  | .allSessionsInAuthorizedRoot => none

structure TemporalWatermarks where
  (generation source projection index summary : Nat)

structure KernelVersions where
  (schema ranking : Nat)
  configurationDigest : BindingDigest

structure TemporalSnapshotRequest where
  retrievalScope : TemporalRetrievalScope
  providerScope : Option CanonicalString
  (rootDigest requestDigest filterDigest accessDigest : BindingDigest)
  temporalMode : TemporalModeV1
  grain : RetrievalGrainV1

structure TemporalExecutionSnapshot where
  request : TemporalSnapshotRequest
  watermarks : TemporalWatermarks
  versions : KernelVersions
  cursorKey : Option SignedCursorKeyRefV1
  epochDigest : String
  candidateCohortDigest : BindingDigest

/-! ## The position -/

/-- Where a continuation resumes reading: the storage key the candidate window starts after, and
how far the ranked page has walked inside that window. -/
structure CursorPosition where
  candidateKeyset : Option String
  lastSortKey : Option StableSortKey

def cursorFormatVersion : List Char := ['4']

def maxCursorPayloadHexBytes : Nat := 2 * 65536

def maxCursorKeyIdHexBytes : Nat := 2 * 1024

def maxSortKeyStableIdBytes : Nat := 4 * 1024

def maxCandidateKeysetBytes : Nat := 4 * 1024

def cursorLifetimeMicros : Int := 24 * 60 * 60 * 1000000

def cursorClockSkewMicros : Int := 5 * 60 * 1000000

def i64Max : Int := 9223372036854775807

inductive CursorKeyError where
  | unavailable
  | invalidMaterial
  | authenticationFailed
deriving DecidableEq

inductive CursorError where
  | malformed
  | tampered
  | wrongRequest
  | binding (mismatch : CursorBindingMismatchV1)
  | filterMismatch
  | rootMismatch
  | sessionMismatch
  | wrongAccess
  | temporalModeMismatch
  | grainMismatch
  | schemaMismatch
  | rankingMismatch
  | configurationMismatch
  | keyIdMismatch
  | keyVersionMismatch
  | generationMismatch
  | participantManifestMismatch
  | epochMismatch
  | candidateCohortMismatch
  | sourceWatermarkMismatch
  | projectionWatermarkMismatch
  | indexWatermarkMismatch
  | summaryWatermarkMismatch
  | sortKeyMismatch
  | expired
  | unknownOrExpiredKey
  | keyUnavailable
  | invalidKeyMaterial
deriving DecidableEq

def mapKeyError : CursorKeyError → CursorError
  | .unavailable => .unknownOrExpiredKey
  | .invalidMaterial => .invalidKeyMaterial
  | .authenticationFailed => .tampered

/-! ## Signatures -/

structure CursorSignature where
  bytes : List UInt8
  size : bytes.length = 32
deriving DecidableEq

def CursorSignature.toHex (self : CursorSignature) : List Char := Hex.encode self.bytes

def CursorSignature.fromHex (encoded : List Char) : Except CursorKeyError CursorSignature :=
  match Hex.decode encoded with
  | none => .error .authenticationFailed
  | some bytes =>
    if size : bytes.length = 32 then .ok ⟨bytes, size⟩ else .error .authenticationFailed

/-- Whatever signs and verifies for the store. It accepts exactly its own signatures. -/
structure SessionCursorAuthenticator where
  sign : SignedCursorKeyRefV1 → List UInt8 → Except CursorKeyError CursorSignature
  verify : SignedCursorKeyRefV1 → List UInt8 → CursorSignature → Except CursorKeyError Unit
  verify_eq_ok : ∀ key authenticated signature,
    verify key authenticated signature = .ok () ↔ sign key authenticated = .ok signature

/-! ## The payload -/

structure CursorPayload where
  binding : CursorBindingStampV1
  (issuedAtMicros expiresAtMicros : Int)
  (requestDigest filterDigest rootDigest scopeKind : String)
  (sessionId providerScope : Option String)
  (accessDigest temporalMode : String)
  cutoffMicros : Option Int
  grain : String
  (generation sourceWatermark projectionWatermark indexWatermark summaryWatermark : Nat)
  (epochDigest candidateCohortDigest : String)
  (schemaVersion rankingVersion : Nat)
  configurationDigest : String
  position : CursorPosition

/-- `serde_json::to_vec` and `from_slice` at the payload's type. What was written parses back;
other bytes may parse to the same payload. -/
structure PayloadCodec where
  toVec : CursorPayload → List UInt8
  fromSlice : List UInt8 → Option CursorPayload
  fromSlice_toVec : ∀ payload, fromSlice (toVec payload) = some payload

/-- A text of the position, as long as `maxBytes` at most and without control characters. -/
def isPositionText (text : String) (maxBytes : Nat) : Bool :=
  !text.toList.isEmpty && (Utf8.encode text.toList).length ≤ maxBytes && !text.toList.any isControl

def validatePosition (position : CursorPosition) : Except CursorError Unit :=
  if position.candidateKeyset.isNone && position.lastSortKey.isNone then .error .sortKeyMismatch
  else if position.lastSortKey.any (!isPositionText ·.stableId maxSortKeyStableIdBytes) then
    .error .sortKeyMismatch
  else if position.candidateKeyset.any (!isPositionText · maxCandidateKeysetBytes) then
    .error .sortKeyMismatch
  else .ok ()

def cursorScopeKind : TemporalRetrievalScope → String
  | .session _ => "session"
  | .allSessionsInAuthorizedRoot => "all_sessions_in_authorized_root"

def temporalCutoff : TemporalModeV1 → Option Int
  | .asOf cutoff => some cutoff
  | .current | .evolution | .forensic => none

/-- `checked_add` of the lifetime. -/
def expiryOf (issuedAtMicros : Int) (overflow : CursorError) : Except CursorError Int :=
  if issuedAtMicros + cursorLifetimeMicros ≤ i64Max then .ok (issuedAtMicros + cursorLifetimeMicros)
  else .error overflow

variable (snapshot : TemporalExecutionSnapshot)

def availableKey : Except CursorError SignedCursorKeyRefV1 :=
  snapshot.cursorKey.elim (.error .keyUnavailable) .ok

/-- The payload's fields as the snapshot, the binding and the position give them. -/
def CursorPayload.bound (binding : CursorBindingStampV1) (position : CursorPosition)
    (issuedAtMicros expiresAtMicros : Int) : CursorPayload where
  binding
  issuedAtMicros
  expiresAtMicros
  requestDigest := snapshot.request.requestDigest.value
  filterDigest := snapshot.request.filterDigest.value
  rootDigest := snapshot.request.rootDigest.value
  scopeKind := cursorScopeKind snapshot.request.retrievalScope
  sessionId := snapshot.request.retrievalScope.sessionId.map (·.value)
  providerScope := snapshot.request.providerScope.map (·.value)
  accessDigest := snapshot.request.accessDigest.value
  temporalMode := snapshot.request.temporalMode.asStr
  cutoffMicros := temporalCutoff snapshot.request.temporalMode
  grain := snapshot.request.grain.asStr
  generation := snapshot.watermarks.generation
  sourceWatermark := snapshot.watermarks.source
  projectionWatermark := snapshot.watermarks.projection
  indexWatermark := snapshot.watermarks.index
  summaryWatermark := snapshot.watermarks.summary
  epochDigest := snapshot.epochDigest
  candidateCohortDigest := snapshot.candidateCohortDigest.value
  schemaVersion := snapshot.versions.schema
  rankingVersion := snapshot.versions.ranking
  configurationDigest := snapshot.versions.configurationDigest.value
  position

def CursorPayload.fromSnapshot (binding : CursorBindingV1) (position : CursorPosition)
    (issuedAtMicros : Int) : Except CursorError CursorPayload := do
  validatePosition position
  let _ ← availableKey snapshot
  let expiresAtMicros ← expiryOf issuedAtMicros .malformed
  .ok (.bound snapshot binding.stamp position issuedAtMicros expiresAtMicros)

/-! ## Minting -/

def len (text : List Char) : Nat := (Utf8.encode text).length

/-- `u16::to_string`. -/
def decimal (n : UInt16) : List Char := Nat.toDigits 10 n.toNat

def keyIdHexOf (keyId : SessionCursorKeyIdV1) : List Char := Hex.encode (Utf8.encode keyId.chars)

def authenticatedText (version keyIdHex keyVersion payloadHex : List Char) : List Char :=
  version ++ '.' :: keyIdHex ++ '.' :: keyVersion ++ '.' :: payloadHex

variable (codec : PayloadCodec) (authenticator : SessionCursorAuthenticator)

def encodeCursorAt (snapshot : TemporalExecutionSnapshot) (binding : CursorBindingV1)
    (position : CursorPosition) (issuedAtMicros : Int) : Except CursorError (List Char) := do
  let payload ← CursorPayload.fromSnapshot snapshot binding position issuedAtMicros
  let payloadHex := Hex.encode (codec.toVec payload)
  let keyRef ← availableKey snapshot
  let keyIdHex := keyIdHexOf keyRef.keyId
  if keyIdHex.isEmpty || len keyIdHex > maxCursorKeyIdHexBytes || payloadHex.isEmpty ||
      len payloadHex > maxCursorPayloadHexBytes then
    .error .malformed
  else
    let authenticated :=
      authenticatedText cursorFormatVersion keyIdHex (decimal keyRef.version.value) payloadHex
    let signature ← (authenticator.sign keyRef (Utf8.encode authenticated)).mapError mapKeyError
    .ok (authenticated ++ '.' :: signature.toHex)

/-! ## Verifying -/

/-- `str::parse::<u16>`, which takes a leading plus sign and leading zeros. -/
def parseU16 (text : List Char) : Option UInt16 :=
  let digits := if text.head? = some '+' then text.tail else text
  let value := Nat.ofDigitChars 10 digits 0
  if digits ≠ [] ∧ digits.all Char.isDigit ∧ value < 2 ^ 16 then some (UInt16.ofNat value) else none

def routedKey (keyIdHex keyVersionText : List Char) : Except CursorError SignedCursorKeyRefV1 := do
  let keyIdBytes ← (Hex.decode keyIdHex).elim (.error .malformed) .ok
  let keyIdText ← (Utf8.decode keyIdBytes).elim (.error .malformed) .ok
  let keyId ← (CanonicalString.new? (String.ofList keyIdText)).elim (.error .malformed) .ok
  let keyVersionValue ← (parseU16 keyVersionText).elim (.error .malformed) .ok
  let keyVersion ← (SessionCursorVersionV1.new? keyVersionValue).elim (.error .malformed) .ok
  if keyIdHex ≠ keyIdHexOf keyId || keyVersionText ≠ decimal keyVersion.value then
    .error .malformed
  else .ok ⟨keyId, keyVersion⟩

def readSignature (signatureHex : List Char) : Except CursorError CursorSignature := do
  let signature ← (CursorSignature.fromHex signatureHex).mapError fun _ => .malformed
  if signatureHex ≠ signature.toHex then .error .malformed else .ok signature

def readPayload (payloadHex : List Char) : Except CursorError CursorPayload := do
  let payloadBytes ← (Hex.decode payloadHex).elim (.error .malformed) .ok
  let payload ← (codec.fromSlice payloadBytes).elim (.error .malformed) .ok
  let canonical := codec.toVec payload
  if canonical ≠ payloadBytes || payloadHex ≠ Hex.encode payloadBytes then .error .malformed
  else .ok payload

def verifyValidityWindow (payload : CursorPayload) (nowMicros : Int) : Except CursorError Unit := do
  let expectedExpiry ← expiryOf payload.issuedAtMicros .expired
  -- `saturating_add`
  let latestAcceptedIssue := min (nowMicros + cursorClockSkewMicros) i64Max
  if payload.issuedAtMicros < 0 || payload.expiresAtMicros ≠ expectedExpiry ||
      payload.issuedAtMicros > latestAcceptedIssue || nowMicros ≥ payload.expiresAtMicros then
    .error .expired
  else .ok ()

def verifyKey (routed : SignedCursorKeyRefV1) (expected : TemporalExecutionSnapshot) :
    Except CursorError Unit := do
  let expectedKey ← availableKey expected
  if routed.keyId ≠ expectedKey.keyId then .error .keyIdMismatch
  else if routed.version ≠ expectedKey.version then .error .keyVersionMismatch
  else .ok ()

/-- One bound field: the value the cursor carries against the value the snapshot has. -/
def require {α : Type} [DecidableEq α] (carried expected : α) (mismatch : CursorError) :
    Except CursorError Unit :=
  if carried ≠ expected then .error mismatch else .ok ()

def verifyBindings (payload : CursorPayload) (expected : TemporalExecutionSnapshot) :
    Except CursorError Unit := do
  require payload.rootDigest expected.request.rootDigest.value .rootMismatch
  let expectedScope := expected.request.retrievalScope
  require payload.scopeKind (cursorScopeKind expectedScope) .sessionMismatch
  require payload.sessionId (expectedScope.sessionId.map (·.value)) .sessionMismatch
  require payload.providerScope (expected.request.providerScope.map (·.value)) .wrongRequest
  require payload.requestDigest expected.request.requestDigest.value .wrongRequest
  require payload.filterDigest expected.request.filterDigest.value .filterMismatch
  require payload.accessDigest expected.request.accessDigest.value .wrongAccess
  require payload.temporalMode expected.request.temporalMode.asStr .temporalModeMismatch
  require payload.cutoffMicros (temporalCutoff expected.request.temporalMode) .temporalModeMismatch
  require payload.grain expected.request.grain.asStr .grainMismatch
  require payload.generation expected.watermarks.generation .generationMismatch
  require payload.sourceWatermark expected.watermarks.source .sourceWatermarkMismatch
  require payload.projectionWatermark expected.watermarks.projection .projectionWatermarkMismatch
  require payload.indexWatermark expected.watermarks.index .indexWatermarkMismatch
  require payload.summaryWatermark expected.watermarks.summary .summaryWatermarkMismatch
  require payload.epochDigest expected.epochDigest .epochMismatch
  require payload.schemaVersion expected.versions.schema .schemaMismatch
  require payload.rankingVersion expected.versions.ranking .rankingMismatch
  require payload.configurationDigest expected.versions.configurationDigest.value
    .configurationMismatch
  require payload.candidateCohortDigest expected.candidateCohortDigest.value
    .candidateCohortMismatch

/-- The five segments, read and checked in the order they are trusted. -/
def verifySegments (version keyIdHex keyVersionText payloadHex signatureHex : List Char)
    (expected : TemporalExecutionSnapshot) (binding : CursorBindingV1) (nowMicros : Int) :
    Except CursorError CursorPosition := do
  if version ≠ cursorFormatVersion || keyIdHex.isEmpty || len keyIdHex > maxCursorKeyIdHexBytes ||
      payloadHex.isEmpty || len payloadHex > maxCursorPayloadHexBytes ||
      len signatureHex ≠ 64 then
    .error .malformed
  else
    let routed ← routedKey keyIdHex keyVersionText
    let authenticated := authenticatedText version keyIdHex keyVersionText payloadHex
    let signature ← readSignature signatureHex
    (authenticator.verify routed (Utf8.encode authenticated) signature).mapError mapKeyError
    let payload ← readPayload codec payloadHex
    (binding.check payload.binding).mapError .binding
    verifyValidityWindow payload nowMicros
    verifyKey routed expected
    verifyBindings payload expected
    validatePosition payload.position
    .ok payload.position

def verifyCursorAt (encoded : List Char) (expected : TemporalExecutionSnapshot)
    (binding : CursorBindingV1) (nowMicros : Int) : Except CursorError CursorPosition :=
  match encoded.splitOn '.' with
  | [version, keyIdHex, keyVersionText, payloadHex, signatureHex] =>
    verifySegments codec authenticator version keyIdHex keyVersionText payloadHex signatureHex
      expected binding nowMicros
  | _ => .error .malformed

end TraceDecay.Cursor
