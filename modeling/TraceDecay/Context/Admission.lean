import TraceDecay.Context.Wire
import TraceDecay.Context.Lineage

/-!
# Context.Admission

Admission of payloads under a byte and token budget (`context/admission.rs`). The search never
renders a document: it adds up the measures of record and payload prefixes, of suffixes of the
continuation anchors and of the literals between them. `materializeAdmission` then builds the
bundle the search decided on, and `renderExact` writes it.

`Serializer` stands for `serde_json::to_writer`: whatever calls it makes, their bytes are those of
the rendered value.
-/

namespace TraceDecay.Context

open Domain Json Utf8 StreamingWriter

/-- How the serializer cuts rendered text into write calls. -/
structure Serializer where
  segments : Text → List (List UInt8)
  joined : ∀ text, (segments text).flatten = encode text

structure ContextBudget where
  (maxBytes maxTokens : Nat)
  estimatorVersion : String

structure Payload where
  anchorId : RetrievalAnchorId
  bytes : List UInt8

def canonicalContextFormat : String := "tracedecay.compact_context.v1"

def Payload.render (p : Payload) : Text :=
  match decode p.bytes with
  | some text => Json.object [("anchor_id", renderAnchor p.anchorId),
      ("encoding", renderName "utf8"), ("data", Json.string text)]
  | none => Json.object [("anchor_id", renderAnchor p.anchorId), ("encoding", renderName "bytes"),
      ("data", Json.array (p.bytes.map fun b => Json.number b.toNat))]

def renderWire (estimatorVersion : String) (bundle : CompactContextBundleV1)
    (summaryOmissions : List SummaryOmission) (payloads : List Payload) : Text :=
  Json.object [("format", renderName canonicalContextFormat),
    ("estimator_version", renderName estimatorVersion), ("bundle", bundle.render),
    ("summary_omissions", Json.array (summaryOmissions.map (·.render))),
    ("payloads", Json.array (payloads.map (·.render)))]

inductive BudgetLimit where
  | byte
  | token
deriving DecidableEq

def BudgetLimit.omissionReason : BudgetLimit → ContextOmissionReasonV1
  | .byte => .byteBudget
  | .token => .tokenBudget

def BudgetLimit.omission (limit : BudgetLimit) : CompactContextOmissionV1 :=
  ⟨none, limit.omissionReason⟩

variable (ser : Serializer) (policy : TokenPolicy)

def measureSerializable (text : Text) : Except ContextError WireMeasure :=
  measureWrites policy (ser.segments text)

def measureRaw (value : String) : Except ContextError WireMeasure :=
  measureWrites policy [encode value.toList]

structure StaticWireMeasures where
  (format estimatorVersion : WireMeasure)
  omissions : Option BudgetLimit → WireMeasure
  (coverage conflicts lineage summaryOmissions : WireMeasure)

structure WireSeparators where
  (openFormat estimatorVersionKey bundleRecords omissionsKey continuationAnchorsKey : WireMeasure)
  (coverageKey conflictsKey lineageKey encodedBytesKey summaryOmissionsKey : WireMeasure)
  (payloadsKey close : WireMeasure)

def WireSeparators.measure : Except ContextError WireSeparators := do
  let openFormat ← measureRaw policy "\x7b\"format\":"
  let estimatorVersionKey ← measureRaw policy ",\"estimator_version\":"
  let bundleRecords ← measureRaw policy ",\"bundle\":\x7b\"records\":["
  let omissionsKey ← measureRaw policy "],\"omissions\":"
  let continuationAnchorsKey ← measureRaw policy ",\"continuation_anchors\":["
  let coverageKey ← measureRaw policy "],\"coverage\":"
  let conflictsKey ← measureRaw policy ",\"conflicts\":"
  let lineageKey ← measureRaw policy ",\"lineage\":"
  let encodedBytesKey ← measureRaw policy ",\"encoded_bytes\":"
  let summaryOmissionsKey ← measureRaw policy "\x7d,\"summary_omissions\":"
  let payloadsKey ← measureRaw policy ",\"payloads\":["
  let close ← measureRaw policy "]\x7d"
  .ok ⟨openFormat, estimatorVersionKey, bundleRecords, omissionsKey, continuationAnchorsKey,
    coverageKey, conflictsKey, lineageKey, encodedBytesKey, summaryOmissionsKey, payloadsKey,
    close⟩

structure PreparedAdmission where
  records : List CompactContextRecordV1
  (recordPrefix continuationSuffix payloadPrefix : List WireMeasure)
  encodedPrefix : List Nat
  staticWire : StaticWireMeasures
  separators : WireSeparators

def appendArrayMeasure (before item : WireMeasure) (itemIndex : Nat) (comma : WireMeasure) :
    Except ContextError WireMeasure :=
  if itemIndex = 0 then before.concatenate item
  else do
    let separated ← before.concatenate comma
    separated.concatenate item

/-- The vectors filled by the loop over the payloads; `last` of each prefix is kept beside it. -/
structure AdmissionScan where
  records : List CompactContextRecordV1
  recordPrefix : List WireMeasure
  recordLast : WireMeasure
  payloadPrefix : List WireMeasure
  payloadLast : WireMeasure
  encodedPrefix : List Nat
  encodedLast : Nat
  continuationItems : List WireMeasure

def AdmissionScan.step (grain : RetrievalGrainV1) (comma : WireMeasure) (scan : AdmissionScan)
    (payload : Payload) : Except ContextError AdmissionScan := do
  let payloadMeasure ← measureSerializable ser policy payload.render
  let record : CompactContextRecordV1 := ⟨payload.anchorId, grain, .available, payloadMeasure.bytes⟩
  let recordMeasure ← measureSerializable ser policy record.render
  let anchorMeasure ← measureSerializable ser policy (renderAnchor payload.anchorId)
  let recordNext ← appendArrayMeasure scan.recordLast recordMeasure scan.records.length comma
  let payloadNext ← appendArrayMeasure scan.payloadLast payloadMeasure scan.records.length comma
  let encodedNext ← checkedAdd "byte" scan.encodedLast payloadMeasure.bytes
  .ok ⟨scan.records ++ [record], scan.recordPrefix ++ [recordNext], recordNext,
    scan.payloadPrefix ++ [payloadNext], payloadNext, scan.encodedPrefix ++ [encodedNext],
    encodedNext, scan.continuationItems ++ [anchorMeasure]⟩

/-- The suffix measures, filled from the last item to the first. -/
def continuationSuffixes (empty comma : WireMeasure) :
    List WireMeasure → Except ContextError (List WireMeasure)
  | [] => .ok [empty]
  | [item] => .ok [item, empty]
  | item :: next :: more => do
    let suffixes ← continuationSuffixes empty comma (next :: more)
    let separated ← item.concatenate comma
    let suffix ← separated.concatenate (suffixes.headD empty)
    .ok (suffix :: suffixes)

def measureOmissions (base : List CompactContextOmissionV1) (limit : Option BudgetLimit) :
    Except ContextError WireMeasure :=
  measureSerializable ser policy
    (Json.array ((base ++ (limit.map (·.omission)).toList).map (·.render)))

def prepareAdmission (available : List Payload) (grain : RetrievalGrainV1)
    (bundle : CompactContextBundleV1) (summaryOmissions : List SummaryOmission)
    (estimatorVersion : String) : Except ContextError PreparedAdmission := do
  let empty ← WireMeasure.empty policy
  let comma ← measureRaw policy ","
  let scan ← available.foldlM (AdmissionScan.step ser policy grain comma)
    ⟨[], [empty], empty, [empty], empty, [0], 0, []⟩
  let continuationSuffix ← continuationSuffixes empty comma scan.continuationItems
  let plain ← measureOmissions ser policy bundle.omissions none
  let byte ← measureOmissions ser policy bundle.omissions (some .byte)
  let token ← measureOmissions ser policy bundle.omissions (some .token)
  let format ← measureSerializable ser policy (renderName canonicalContextFormat)
  let version ← measureSerializable ser policy (renderName estimatorVersion)
  let coverage ← measureSerializable ser policy bundle.coverage.render
  let conflicts ← measureSerializable ser policy (Json.array (bundle.conflicts.map (·.render)))
  let lineage ← measureSerializable ser policy (Json.array (bundle.lineage.map (·.render)))
  let summaries ← measureSerializable ser policy (Json.array (summaryOmissions.map (·.render)))
  let separators ← WireSeparators.measure policy
  let omissions : Option BudgetLimit → WireMeasure
    | none => plain
    | some .byte => byte
    | some .token => token
  .ok ⟨scan.records, scan.recordPrefix, continuationSuffix, scan.payloadPrefix, scan.encodedPrefix,
    ⟨format, version, omissions, coverage, conflicts, lineage, summaries⟩, separators⟩

structure AdmissionDecision where
  admitted : Nat
  limit : Option BudgetLimit
  (bytes tokens : Nat)

variable (prepared : PreparedAdmission)

/-- The measures a candidate is added up from, in the order of the document. -/
def candidateParts (admitted : Nat) (limit : Option BudgetLimit)
    (empty encoded : WireMeasure) : List WireMeasure :=
  let separators := prepared.separators
  [separators.openFormat, prepared.staticWire.format,
    separators.estimatorVersionKey, prepared.staticWire.estimatorVersion,
    separators.bundleRecords, prepared.recordPrefix.getD admitted empty,
    separators.omissionsKey, prepared.staticWire.omissions limit,
    separators.continuationAnchorsKey, prepared.continuationSuffix.getD admitted empty,
    separators.coverageKey, prepared.staticWire.coverage,
    separators.conflictsKey, prepared.staticWire.conflicts,
    separators.lineageKey, prepared.staticWire.lineage,
    separators.encodedBytesKey, encoded,
    separators.summaryOmissionsKey, prepared.staticWire.summaryOmissions,
    separators.payloadsKey, prepared.payloadPrefix.getD admitted empty,
    separators.close]

/-- The measure of the document that admits the first `admitted` payloads. -/
def measureCandidate (admitted : Nat)
    (limit : Option BudgetLimit) : Except ContextError WireMeasure := do
  let empty ← WireMeasure.empty policy
  let encoded ← measureSerializable ser policy
    (Json.number (prepared.encodedPrefix.getD admitted 0))
  (candidateParts prepared admitted limit empty encoded).foldlM WireMeasure.concatenate empty

def requireFit (measure : WireMeasure) (maxBytes maxTokens : Nat) : Except ContextError Unit :=
  if measure.bytes > maxBytes then .error (.budgetExceeded "byte")
  else if measure.tokens > maxTokens then .error (.budgetExceeded "token")
  else .ok ()

/-- The search from `admitted` on, with `remaining` records left to try. -/
def admitFrom (prepared : PreparedAdmission) (maxBytes maxTokens : Nat) :
    Nat → Nat → Except ContextError AdmissionDecision
  | 0, _ => do
    let finalMeasure ← measureCandidate ser policy prepared prepared.records.length none
    .ok ⟨prepared.records.length, none, finalMeasure.bytes, finalMeasure.tokens⟩
  | remaining + 1, admitted => do
    let candidate ← measureCandidate ser policy prepared admitted none
    let limit :=
      if candidate.bytes > maxBytes then some BudgetLimit.byte
      else if candidate.tokens > maxTokens then some BudgetLimit.token
      else none
    match limit with
    | some limit =>
      let finalMeasure ← measureCandidate ser policy prepared (admitted - 1) (some limit)
      requireFit finalMeasure maxBytes maxTokens
      .ok ⟨admitted - 1, some limit, finalMeasure.bytes, finalMeasure.tokens⟩
    | none => admitFrom prepared maxBytes maxTokens remaining (admitted + 1)

def chooseAdmission (budget : ContextBudget) : Except ContextError AdmissionDecision := do
  let maxBytes := min budget.maxBytes maxContextOutputBytes
  let baseline ← measureCandidate ser policy prepared 0 none
  requireFit baseline maxBytes budget.maxTokens
  admitFrom ser policy prepared maxBytes budget.maxTokens prepared.records.length 1

variable (bundle : CompactContextBundleV1)

def materializeAdmission (available : List Payload) (prepared : PreparedAdmission) (admitted : Nat)
    (limit : Option BudgetLimit) : CompactContextBundleV1 :=
  { bundle with
    records := bundle.records ++ prepared.records.take admitted
    continuationAnchors := bundle.continuationAnchors ++ (available.drop admitted).map (·.anchorId)
    encodedBytes := prepared.encodedPrefix.getD admitted 0
    omissions := bundle.omissions ++ (limit.map (·.omission)).toList }

/-! ## The bundle contract -/

/-- Claim an anchor that no other part of the bundle may name. -/
def claimAnchor (claimed : Finset RetrievalAnchorId) (anchor : RetrievalAnchorId) :
    Except SessionContractError (Finset RetrievalAnchorId) :=
  if anchor ∈ claimed then .error .duplicateContextAnchor else .ok (insert anchor claimed)

def CompactContextConflictV1.validate (c : CompactContextConflictV1) :
    Except SessionContractError Unit := do
  validateIdentity "compact context conflict anchor" c.anchorId
  (ascending c.supportingAnchorIds).forM
    (validateIdentity "compact context conflict supporting anchor")

def CompactContextBundleV1.validate : Except SessionContractError Unit := do
  let (claimed, encodedBytes) ← bundle.records.foldlM (fun (claimed, sum) record => do
    validateIdentity "compact context record anchor" record.anchorId
    let claimed ← claimAnchor claimed record.anchorId
    if sum + record.encodedBytes < 2 ^ 64 then .ok (claimed, sum + record.encodedBytes)
    else .error .compactContextEncodedBytesOverflow) (∅, 0)
  let claimed ← bundle.continuationAnchors.foldlM (fun claimed anchor => do
    validateIdentity "compact context continuation anchor" anchor
    claimAnchor claimed anchor) claimed
  let _ ← bundle.omissions.foldlM (fun claimed omission =>
    match omission.anchorId with
    | some anchor => do
      validateIdentity "compact context omission anchor" anchor
      claimAnchor claimed anchor
    | none => .ok claimed) claimed
  bundle.conflicts.forM (·.validate)
  bundle.lineage.forM (·.validate)
  if bundle.encodedBytes ≠ encodedBytes then .error .compactContextEncodedBytesMismatch
  else .ok ()

def validateBundle : Except ContextError Unit :=
  bundle.validate.mapError fun error => .invalidBundle error.message

variable (summaryOmissions : List SummaryOmission) (payloads : List Payload)
  (estimatorVersion : String)

def measureContext : Except ContextError WireMeasure := do
  validateBundle bundle
  measureSerializable ser policy (renderWire estimatorVersion bundle summaryOmissions payloads)

def renderExact (exactBytes : Nat) : Except ContextError Text := do
  let writer ← collecting policy exactBytes
  let (result, writer) := writer.writeAll
    (ser.segments (renderWire estimatorVersion bundle summaryOmissions payloads))
  let (measurement, output) ← writer.finish result
  if measurement.bytes ≠ exactBytes then
    .error (.invalidBundle "final canonical context length drifted")
  else
    match output with
    | none => .error (.invalidBundle "missing canonical context output")
    | some text => .ok text

end TraceDecay.Context
