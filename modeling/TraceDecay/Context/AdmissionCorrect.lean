import TraceDecay.Context.Accounting
import TraceDecay.Context.Admission

/-!
# Context.AdmissionCorrect

Admission measures the document it will render. `Measures policy m text` says that `m` is the
length and the exact summary of `text`; serializing, joining and the tables of prefixes and
suffixes all keep it, so that the measure of a candidate is the measure of the document
`materializeAdmission` makes of it (`measureCandidate_eq_ok`).

The policies here are those without a pattern, for which no scan misses anything.
-/

namespace TraceDecay.Context

open Domain Json Utf8 Fallible StreamingWriter List

/-- The policy counts no pattern. -/
def TokenPolicy.Patternless (policy : TokenPolicy) : Prop := ∀ pattern, policy ≠ .substring pattern

structure Measures (policy : TokenPolicy) (m : WireMeasure) (text : Text) : Prop where
  fits : (encode text).length < 2 ^ 64
  eq : m = ⟨(encode text).length, measured policy 0 text⟩

variable {text : Text}

theorem Measures.unique {policy : TokenPolicy} {m n : WireMeasure}
    (hm : Measures policy m text) (hn : Measures policy n text) : m = n := hm.eq.trans hn.eq.symm

variable {policy : TokenPolicy}

theorem TokenPolicy.Patternless.valid (h : policy.Patternless) : policy.Valid :=
  fun pattern heq => absurd heq (h pattern)

theorem TokenPolicy.Patternless.streams (h : policy.Patternless) (text : List Char) :
    StreamsWhole policy text := fun pattern heq => absurd heq (h pattern)

/-! ## The steps of a writer -/

def writerErrors : List String :=
  ["invalid UTF-8 prefix", "compact context token scan failed",
    "compact context token accounting overflow", "canonical context is not UTF-8",
    "compact context byte accounting overflow"]

/-- A step that counts no bytes, and that fails with one of the writer's errors if it fails. -/
structure Uncounted (w : StreamingWriter) (out : Io) : Prop where
  bytes : out.2.measure.bytes = w.measure.bytes
  error : ∀ e, out.1 = .error e → e ∈ writerErrors

variable {w : StreamingWriter}

theorem Uncounted.done {w' : StreamingWriter} (h : w'.measure.bytes = w.measure.bytes) :
    Uncounted w (.ok (), w') := ⟨h, by simp⟩

theorem Uncounted.failed {w' : StreamingWriter} {e : String} (he : e ∈ writerErrors)
    (h : w'.measure.bytes = w.measure.bytes) : Uncounted w (.error e, w') :=
  ⟨h, fun _ heq => Except.error.inj heq ▸ he⟩

variable (w)

theorem processPendingPrefix_uncounted (len : Nat) : Uncounted w (w.processPendingPrefix len) := by
  unfold processPendingPrefix
  split
  · exact .failed (by decide) rfl
  · split
    · exact .failed (by decide) rfl
    · split
      · exact .failed (by decide) rfl
      · exact .done rfl

theorem consumePending_uncounted (consume : Nat) : Uncounted w (w.consumePending consume) := by
  have h := processPendingPrefix_uncounted w consume
  unfold consumePending
  generalize w.processPendingPrefix consume = out at h
  obtain ⟨_ | _, w'⟩ := out
  · exact h
  · exact .done h.bytes

theorem processPending_uncounted (finalChunk : Bool) : Uncounted w (w.processPending finalChunk) := by
  unfold processPending
  split
  · exact .done rfl
  simp only
  split
  · exact consumePending_uncounted w _
  · split_ifs
    · exact .failed (by decide) rfl
    · exact .done rfl
    · exact consumePending_uncounted w _
  · exact .failed (by decide) rfl

theorem writeLoop_uncounted (fuel : Nat) (w : StreamingWriter) (remaining : List UInt8) :
    Uncounted w (writeLoop fuel w remaining) := by
  induction fuel generalizing w remaining with
  | zero => exact .done rfl
  | succ fuel ih =>
    unfold writeLoop
    split
    · exact .done rfl
    simp only
    split
    · have hs := fun pending => processPending_uncounted { w with pending } false
      specialize hs (w.pending ++
        remaining.take (min (pendingCapacity - w.pending.length) remaining.length))
      generalize processPending _ false = out at hs ⊢
      obtain ⟨_ | _, w'⟩ := out
      · exact ⟨hs.bytes, hs.error⟩
      · exact ⟨(ih w' _).bytes.trans hs.bytes, (ih w' _).error⟩
    · exact ⟨(ih _ _).bytes, (ih _ _).error⟩

theorem writeAll_bytes {w w' : StreamingWriter} (writes : List (List UInt8))
    (h : w.writeAll writes = (.ok (), w')) (hw : w.measure.bytes < 2 ^ 64) :
    w'.measure.bytes = w.measure.bytes + writes.flatten.length ∧ w'.measure.bytes < 2 ^ 64 := by
  induction writes generalizing w with
  | nil => cases h; exact ⟨by simp, hw⟩
  | cons buffer buffers ih =>
    unfold writeAll at h
    have hwrite : ∀ w1, w.write buffer = (.ok (), w1) →
        w1.measure.bytes = w.measure.bytes + buffer.length ∧ w1.measure.bytes < 2 ^ 64 := by
      intro w1 h1
      unfold write at h1
      split at h1
      · cases h1
      next hsum =>
      obtain ⟨hfit, rfl⟩ := checkedAdd_eq_ok.mp hsum
      have hk := (writeLoop_uncounted buffer.length
        { w with measure := { w.measure with bytes := w.measure.bytes + buffer.length } }
        buffer).bytes
      rw [h1] at hk; exact ⟨hk, hk ▸ hfit⟩
    split at h
    · cases h
    · rename_i w1 h1
      obtain ⟨hb, hfit⟩ := hwrite w1 h1
      obtain ⟨hall, hlt⟩ := ih h hfit
      refine ⟨?_, hlt⟩
      rw [hall, hb, flatten_cons, length_append]; omega

variable {m : WireMeasure}

variable (hp : policy.Patternless)
include hp

theorem measureWrites_eq_ok {writes : List (List UInt8)} (hw : writes.flatten = encode text) :
    measureWrites policy writes = .ok m ↔ Measures policy m text := by
  constructor
  · intro h
    have hf : (encode text).length < 2 ^ 64 := by
      obtain ⟨w, hnew, hr⟩ := bind_eq_ok.mp h
      obtain ⟨w0, hw0, -, -, hz⟩ := measuring_feeds hp.valid text
      obtain rfl : w0 = w := Except.ok.inj (hw0.symm.trans hnew)
      generalize hrun : w0.writeAll writes = out at hr
      obtain ⟨result, w'⟩ := out
      cases result with
      | error e =>
        obtain ⟨pair, hfin, -⟩ := bind_eq_ok.mp hr
        unfold finish at hfin
        generalize w'.processPending true = last at hfin
        obtain ⟨pendingResult, w''⟩ := last
        simp only at hfin
        split at hfin <;> cases hfin
      | ok u => have := writeAll_bytes writes hrun (by rw [hz]; decide); rw [hz, hw] at this; omega
    obtain ⟨missed, hm, hnone⟩ := measureWrites_eq hp.valid hf hw
    rw [hnone (hp.streams text), h] at hm; exact ⟨hf, Except.ok.inj hm⟩
  · rintro ⟨hf, rfl⟩
    obtain ⟨missed, hm, hnone⟩ := measureWrites_eq hp.valid hf hw
    rw [hm, hnone (hp.streams text)]

variable {ser : Serializer} {texts : List Text} {α : Type}

theorem measureSerializable_eq_ok :
    measureSerializable ser policy text = .ok m ↔ Measures policy m text :=
  measureWrites_eq_ok hp (ser.joined text)

theorem measureRaw_eq_ok {value : String} :
    measureRaw policy value = .ok m ↔ Measures policy m value.toList :=
  measureWrites_eq_ok hp (by simp)

theorem Measures.concatenate {n r : WireMeasure} {a b : Text} (hm : Measures policy m a)
    (hn : Measures policy n b) : m.concatenate n = .ok r ↔ Measures policy r (a ++ b) := by
  have hj := concatenate_measured (a := a) (b := b) hp.valid (Nat.zero_le _) (Nat.zero_le _)
  rw [encode_append, length_append] at hj
  constructor
  · intro h
    obtain ⟨bytes, hb, h⟩ := bind_eq_ok.mp h
    obtain ⟨summary, hs, h⟩ := bind_eq_ok.mp h
    cases h
    rw [hm.eq, hn.eq] at hb hs
    obtain ⟨hfit, rfl⟩ := checkedAdd_eq_ok.mp hb
    obtain rfl := Except.ok.inj (hs.symm.trans (hj hfit))
    rw [← length_append, ← encode_append] at hfit ⊢
    exact ⟨hfit, rfl⟩
  · rintro ⟨hfit, rfl⟩
    rw [encode_append, length_append] at hfit ⊢
    simp only [WireMeasure.concatenate, hm.eq, hn.eq, checkedAdd_ok hfit, ok_bind, hj hfit]

omit hp

theorem length_encode_le_flatten (h : text ∈ texts) :
    (encode text).length ≤ (encode texts.flatten).length := by
  obtain ⟨before, after, rfl⟩ := append_of_mem h
  simp only [flatten_append, flatten_cons, encode_append, length_append]; omega

include hp in
theorem foldlM_concatenate {parts : List WireMeasure}
    (h : List.Forall₂ (Measures policy) parts texts) {start r : WireMeasure} {before : Text}
    (hs : Measures policy start before) :
    parts.foldlM WireMeasure.concatenate start = .ok r ↔
      Measures policy r (before ++ texts.flatten) := by
  induction h generalizing start before with
  | nil =>
    rw [flatten_nil, append_nil]
    constructor
    · intro hr; cases hr; exact hs
    · intro hr; rw [hr.unique hs]; rfl
  | @cons part text parts texts hpart _ ih =>
    rw [flatten_cons, ← append_assoc]
    constructor
    · intro hr
      obtain ⟨next, hn, hrest⟩ := bind_eq_ok.mp hr
      exact (ih ((hs.concatenate hp hpart).mp hn)).mp hrest
    · intro hr
      have hf : (encode (before ++ text)).length < 2 ^ 64 := by
        have := hr.fits
        rw [encode_append, length_append] at this; omega
      have hn : Measures policy ⟨_, measured policy 0 _⟩ (before ++ text) := ⟨hf, rfl⟩
      exact bind_eq_ok.mpr ⟨_, (hs.concatenate hp hpart).mpr hn, (ih hn).mpr hr⟩

/-! ## The tables of an admission -/

def recordOf (grain : RetrievalGrainV1) (payload : Payload) : CompactContextRecordV1 :=
  ⟨payload.anchorId, grain, .available, (encode payload.render).length⟩

def renderRecords (grain : RetrievalGrainV1) (payloads : List Payload) : Text :=
  join (payloads.map fun payload => (recordOf grain payload).render)

variable (payloads : List Payload)

def renderPayloads : Text := join (payloads.map (·.render))

def renderContinuation : Text := join (payloads.map fun payload => renderAnchor payload.anchorId)

structure Scanned (policy : TokenPolicy) (grain : RetrievalGrainV1) (seen : List Payload)
    (scan : AdmissionScan) : Prop where
  records : scan.records = seen.map (recordOf grain)
  recordPrefix : List.Forall₂ (fun payloads m => Measures policy m (renderRecords grain payloads))
    seen.inits scan.recordPrefix
  recordLast : Measures policy scan.recordLast (renderRecords grain seen)
  payloadPrefix : List.Forall₂ (fun payloads m => Measures policy m (renderPayloads payloads))
    seen.inits scan.payloadPrefix
  payloadLast : Measures policy scan.payloadLast (renderPayloads seen)
  continuationItems : List.Forall₂ (fun payload m => Measures policy m
    (renderAnchor payload.anchorId)) seen scan.continuationItems

include hp in
theorem appendArrayMeasure_measures {before item comma r : WireMeasure}
    {items : List Text} (hb : Measures policy before (join items))
    (hi : Measures policy item text) (hc : Measures policy comma [','])
    (h : appendArrayMeasure before item items.length comma = .ok r) :
    Measures policy r (join (items ++ [text])) := by
  unfold appendArrayMeasure at h
  split_ifs at h with hne
  · obtain rfl := length_eq_zero_iff.mp hne; exact (hb.concatenate hp hi).mp h
  · obtain ⟨separated, hsep, hr⟩ := bind_eq_ok.mp h
    have := (((hb.concatenate hp hc).mp hsep).concatenate hp hi).mp hr
    rw [join_concat (fun hnil => hne (by simp [hnil]))]; simpa using this

theorem inits_concat (l : List α) (a : α) : (l ++ [a]).inits = l.inits ++ [l ++ [a]] := by
  simp [inits_append]

include hp in
theorem Scanned.step {grain : RetrievalGrainV1}
    {comma : WireMeasure} (hc : Measures policy comma [',']) {seen : List Payload}
    {payload : Payload} {scan scan' : AdmissionScan} (h : Scanned policy grain seen scan)
    (hs : AdmissionScan.step ser policy grain comma scan payload = .ok scan') :
    Scanned policy grain (seen ++ [payload]) scan' := by
  obtain ⟨m, hpayload, hs⟩ := bind_eq_ok.mp hs
  simp only [bind_eq_ok] at hs
  obtain ⟨record, hrecord, anchor, hanchor, rnext, hrnext, pnext, hpnext, _, -, hs⟩ := hs
  cases hs
  replace hpayload := (measureSerializable_eq_ok hp).mp hpayload
  have hrec : (⟨payload.anchorId, grain, .available, m.bytes⟩ : CompactContextRecordV1) =
      recordOf grain payload := by
    rw [hpayload.eq]; rfl
  rw [hrec] at hrecord
  replace hrecord := (measureSerializable_eq_ok hp).mp hrecord
  replace hanchor := (measureSerializable_eq_ok hp).mp hanchor
  have hlen : scan.records.length = seen.length := by rw [h.records, length_map]
  rw [hlen] at hrnext hpnext
  have hr : Measures policy rnext (renderRecords grain (seen ++ [payload])) := by
    unfold renderRecords
    rw [map_append]; exact appendArrayMeasure_measures hp h.recordLast hrecord hc
      (by simpa using hrnext)
  have hpayloads : Measures policy pnext (renderPayloads (seen ++ [payload])) := by
    unfold renderPayloads
    rw [map_append]; exact appendArrayMeasure_measures hp h.payloadLast hpayload hc
      (by simpa using hpnext)
  refine ⟨?_, ?_, hr, ?_, hpayloads, ?_⟩
  · simp [h.records, hrec]
  · rw [inits_concat]; exact rel_append h.recordPrefix (.cons hr .nil)
  · rw [inits_concat]; exact rel_append h.payloadPrefix (.cons hpayloads .nil)
  · exact rel_append h.continuationItems (.cons hanchor .nil)

include hp in
theorem continuationSuffixes_measures {empty comma : WireMeasure}
    (he : Measures policy empty []) (hc : Measures policy comma [','])
    {payloads : List Payload} {items suffixes : List WireMeasure}
    (hitems : List.Forall₂ (fun payload m => Measures policy m (renderAnchor payload.anchorId))
      payloads items)
    (h : continuationSuffixes empty comma items = .ok suffixes) :
    List.Forall₂ (fun payloads m => Measures policy m (renderContinuation payloads))
      payloads.tails suffixes := by
  induction hitems generalizing suffixes with
  | nil => cases h; exact .cons he .nil
  | @cons payload item payloads items hi hr ih =>
    cases hr with
    | nil => cases h; exact .cons hi (.cons he .nil)
    | @cons next nextItem more moreItems hn hm =>
      obtain ⟨tail, ht, h⟩ := bind_eq_ok.mp h
      simp only [bind_eq_ok] at h
      obtain ⟨separated, hsep, suffix, hs, h⟩ := h
      cases h
      have hall := ih ht
      refine .cons ?_ hall
      cases hall with
      | cons hf _ =>
        have := (((hi.concatenate hp hc).mp hsep).concatenate hp hf).mp hs
        simpa [renderContinuation, join] using this

/-! ## The measure of a candidate -/

def limitedOmissions (bundle : CompactContextBundleV1) (limit : Option BudgetLimit) :
    List CompactContextOmissionV1 := bundle.omissions ++ (limit.map (·.omission)).toList

structure SeparatorsMeasured (policy : TokenPolicy) (s : WireSeparators) : Prop where
  openFormat : Measures policy s.openFormat "\x7b\"format\":".toList
  estimatorVersionKey : Measures policy s.estimatorVersionKey ",\"estimator_version\":".toList
  bundleRecords : Measures policy s.bundleRecords ",\"bundle\":\x7b\"records\":[".toList
  omissionsKey : Measures policy s.omissionsKey "],\"omissions\":".toList
  continuationAnchorsKey :
    Measures policy s.continuationAnchorsKey ",\"continuation_anchors\":[".toList
  coverageKey : Measures policy s.coverageKey "],\"coverage\":".toList
  conflictsKey : Measures policy s.conflictsKey ",\"conflicts\":".toList
  lineageKey : Measures policy s.lineageKey ",\"lineage\":".toList
  encodedBytesKey : Measures policy s.encodedBytesKey ",\"encoded_bytes\":".toList
  summaryOmissionsKey : Measures policy s.summaryOmissionsKey "\x7d,\"summary_omissions\":".toList
  payloadsKey : Measures policy s.payloadsKey ",\"payloads\":[".toList
  close : Measures policy s.close "]\x7d".toList

structure StaticMeasured (policy : TokenPolicy) (bundle : CompactContextBundleV1)
    (summaryOmissions : List SummaryOmission) (estimatorVersion : String)
    (s : StaticWireMeasures) : Prop where
  format : Measures policy s.format (renderName canonicalContextFormat)
  version : Measures policy s.estimatorVersion (renderName estimatorVersion)
  omissions : ∀ limit, Measures policy (s.omissions limit)
    (Json.array ((limitedOmissions bundle limit).map (·.render)))
  coverage : Measures policy s.coverage bundle.coverage.render
  conflicts : Measures policy s.conflicts (Json.array (bundle.conflicts.map (·.render)))
  lineage : Measures policy s.lineage (Json.array (bundle.lineage.map (·.render)))
  summaries : Measures policy s.summaryOmissions (Json.array (summaryOmissions.map (·.render)))

structure Prepared (policy : TokenPolicy) (available : List Payload) (grain : RetrievalGrainV1)
    (bundle : CompactContextBundleV1) (summaryOmissions : List SummaryOmission)
    (estimatorVersion : String) (p : PreparedAdmission) : Prop where
  records : p.records = available.map (recordOf grain)
  recordPrefix : List.Forall₂ (fun payloads m => Measures policy m (renderRecords grain payloads))
    available.inits p.recordPrefix
  payloadPrefix : List.Forall₂ (fun payloads m => Measures policy m (renderPayloads payloads))
    available.inits p.payloadPrefix
  continuationSuffix : List.Forall₂ (fun payloads m => Measures policy m
    (renderContinuation payloads)) available.tails p.continuationSuffix
  staticWire : StaticMeasured policy bundle summaryOmissions estimatorVersion p.staticWire
  separators : SeparatorsMeasured policy p.separators

include hp in
theorem separators_measured {s : WireSeparators}
    (h : WireSeparators.measure policy = .ok s) : SeparatorsMeasured policy s := by
  obtain ⟨m1, h1, h⟩ := bind_eq_ok.mp h
  simp only [bind_eq_ok] at h
  obtain ⟨m2, h2, m3, h3, m4, h4, m5, h5, m6, h6, m7, h7, m8, h8, m9, h9, m10, h10, m11, h11,
    m12, h12, h⟩ := h
  cases h
  have hraw : ∀ {value m}, measureRaw policy value = .ok m → Measures policy m value.toList :=
    (measureRaw_eq_ok hp).mp
  exact ⟨hraw h1, hraw h2, hraw h3, hraw h4, hraw h5, hraw h6, hraw h7, hraw h8, hraw h9,
    hraw h10, hraw h11, hraw h12⟩

variable {ser : Serializer} {available : List Payload} {grain : RetrievalGrainV1}
  {bundle : CompactContextBundleV1} {summaryOmissions : List SummaryOmission}
  {estimatorVersion : String} {prepared : PreparedAdmission}

include hp in
theorem prepareAdmission_prepared
    (h : prepareAdmission ser policy available grain bundle summaryOmissions estimatorVersion =
      .ok prepared) :
    Prepared policy available grain bundle summaryOmissions estimatorVersion prepared := by
  obtain ⟨empty, he, h⟩ := bind_eq_ok.mp h
  simp only [bind_eq_ok] at h
  obtain ⟨comma, hc, scan, hscan, suffixes, hsuffixes, plain, hplain, byte, hb, token, htoken,
    format, hf, version, hv, coverage, hcoverage, conflicts, hconflicts, lineage, hl, summaries,
    hsummaries, separators, hs, h⟩ := h
  cases h
  obtain rfl := Except.ok.inj ((wireMeasure_empty hp.valid).symm.trans he)
  have hnil : Measures policy ⟨0, measured policy 0 []⟩ [] := ⟨by decide, rfl⟩
  replace hc : Measures policy comma [','] := (measureRaw_eq_ok hp).mp hc
  have ht : Scanned policy grain available scan := by
    refine foldlM_induct ?_ (fun _ _ _ _ _ => Scanned.step hp hc) hscan
    exact ⟨rfl, .cons hnil .nil, hnil, .cons hnil .nil, hnil, .nil⟩
  have hser : ∀ {text m}, measureSerializable ser policy text = .ok m → Measures policy m text :=
    (measureSerializable_eq_ok hp).mp
  refine ⟨ht.records, ht.recordPrefix, ht.payloadPrefix,
    continuationSuffixes_measures hp hnil hc ht.continuationItems hsuffixes,
    ⟨hser hf, hser hv, ?_, hser hcoverage, hser hconflicts, hser hl, hser hsummaries⟩,
      separators_measured hp hs⟩
  intro limit
  match limit with
  | none => exact hser hplain
  | some .byte => exact hser hb
  | some .token => exact hser htoken

variable {k admitted maxBytes maxTokens : Nat} {β : Type} {decision : AdmissionDecision}
  {table : List β}

theorem getD_forall₂ {R : α → β → Prop} {l : List α} (h : List.Forall₂ R l table)
    (hk : k < l.length) (d : β) : R (l.get ⟨k, hk⟩) (table.getD k d) := by
  obtain ⟨hlen, hget⟩ := forall₂_iff_get.mp h
  have := hget k hk (hlen ▸ hk)
  rwa [getD_eq_getElem?_getD, getElem?_eq_getElem (hlen ▸ hk)]

theorem getD_inits {R : List α → β → Prop} {l : List α} (h : List.Forall₂ R l.inits table)
    (hk : k ≤ l.length) (d : β) : R (l.take k) (table.getD k d) := by
  have hk' : k < l.inits.length := by rw [length_inits]; omega
  simpa using getD_forall₂ h hk' d

theorem getD_tails {R : List α → β → Prop} {l : List α} (h : List.Forall₂ R l.tails table)
    (hk : k ≤ l.length) (d : β) : R (l.drop k) (table.getD k d) := by
  have hk' : k < l.tails.length := by rw [length_tails]; omega
  simpa using getD_forall₂ h hk' d

set_option maxRecDepth 4000 in
theorem renderWire_parts (bundle : CompactContextBundleV1) (payloads : List Payload) :
    renderWire estimatorVersion bundle summaryOmissions payloads =
      ["\x7b\"format\":".toList, renderName canonicalContextFormat,
        ",\"estimator_version\":".toList, renderName estimatorVersion,
        ",\"bundle\":\x7b\"records\":[".toList, join (bundle.records.map (·.render)),
        "],\"omissions\":".toList, Json.array (bundle.omissions.map (·.render)),
        ",\"continuation_anchors\":[".toList, join (bundle.continuationAnchors.map renderAnchor),
        "],\"coverage\":".toList, bundle.coverage.render,
        ",\"conflicts\":".toList, Json.array (bundle.conflicts.map (·.render)),
        ",\"lineage\":".toList, Json.array (bundle.lineage.map (·.render)),
        ",\"encoded_bytes\":".toList, Json.number bundle.encodedBytes,
        "\x7d,\"summary_omissions\":".toList, Json.array (summaryOmissions.map (·.render)),
        ",\"payloads\":[".toList, renderPayloads payloads, "]\x7d".toList].flatten := by
  simp only [renderWire, CompactContextBundleV1.render, Json.object, Json.field, Json.array,
    renderPayloads, map_cons, map_nil, join, flatten_cons, flatten_nil,
    append_assoc, cons_append, nil_append, append_nil]
  -- each literal is the end of one field and the key of the next
  rfl

variable (h : Prepared policy available grain bundle summaryOmissions estimatorVersion prepared)
include h

theorem candidateParts_measure (hrecords : bundle.records = [])
    (hanchors : bundle.continuationAnchors = [])
    (ha : admitted ≤ available.length) (limit : Option BudgetLimit)
    (empty : WireMeasure) {encoded : WireMeasure}
    (he : Measures policy encoded (Json.number (prepared.encodedPrefix.getD admitted 0))) :
    ∃ texts, List.Forall₂ (Measures policy)
        (candidateParts prepared admitted limit empty encoded) texts ∧
      texts.flatten = renderWire estimatorVersion
        (materializeAdmission bundle available prepared admitted limit) summaryOmissions
        (available.take admitted) := by
  obtain ⟨hrows, hr, hp, hsuffix, hs, hsep⟩ := h
  have hrec : join ((materializeAdmission bundle available prepared admitted limit).records.map
      (·.render)) = renderRecords grain (available.take admitted) := by
    simp only [materializeAdmission, hrecords, nil_append, hrows, renderRecords,
      ← map_take, map_map, Function.comp_def]
  have hc : join ((materializeAdmission bundle available prepared admitted
      limit).continuationAnchors.map renderAnchor) =
      renderContinuation (available.drop admitted) := by
    simp only [materializeAdmission, hanchors, nil_append, renderContinuation, map_map,
      Function.comp_def]
  rw [renderWire_parts, hrec, hc]
  exact ⟨_, .cons hsep.openFormat <| .cons hs.format <| .cons hsep.estimatorVersionKey <|
    .cons hs.version <| .cons hsep.bundleRecords <|
    .cons (getD_inits hr ha _) <| .cons hsep.omissionsKey <|
    .cons (hs.omissions limit) <| .cons hsep.continuationAnchorsKey <|
    .cons (getD_tails hsuffix ha _) <| .cons hsep.coverageKey <| .cons hs.coverage <|
    .cons hsep.conflictsKey <| .cons hs.conflicts <| .cons hsep.lineageKey <| .cons hs.lineage <|
    .cons hsep.encodedBytesKey <| .cons he <| .cons hsep.summaryOmissionsKey <|
    .cons hs.summaries <| .cons hsep.payloadsKey <|
    .cons (getD_inits hp ha _) <| .cons hsep.close .nil, rfl⟩

include hp in
theorem measureCandidate_eq_ok (hr : bundle.records = [])
    (hanchors : bundle.continuationAnchors = [])
    (ha : admitted ≤ available.length) {limit : Option BudgetLimit} :
    measureCandidate ser policy prepared admitted limit = .ok m ↔
      Measures policy m (renderWire estimatorVersion
        (materializeAdmission bundle available prepared admitted limit) summaryOmissions
        (available.take admitted)) := by
  have hnil : Measures policy ⟨0, measured policy 0 []⟩ [] := ⟨by decide, rfl⟩
  rw [measureCandidate, wireMeasure_empty hp.valid, ok_bind]
  constructor
  · intro hm
    obtain ⟨encoded, he, hm⟩ := bind_eq_ok.mp hm
    obtain ⟨texts, ht, hf⟩ := candidateParts_measure h hr hanchors ha limit _
      ((measureSerializable_eq_ok hp).mp he)
    rw [← hf]; exact (foldlM_concatenate hp ht hnil).mp hm
  · intro hm
    -- the number is part of the document, so it can be measured on its own
    have hfits : (encode (Json.number (prepared.encodedPrefix.getD admitted 0))).length < 2 ^ 64 := by
      have hdoc := hm.fits
      rw [renderWire_parts] at hdoc
      exact Nat.lt_of_le_of_lt (length_encode_le_flatten (by simp [materializeAdmission])) hdoc
    have he : Measures policy ⟨_, measured policy 0 _⟩ _ := ⟨hfits, rfl⟩
    obtain ⟨texts, ht, hf⟩ := candidateParts_measure h hr hanchors ha limit _ he
    rw [← hf] at hm
    exact bind_eq_ok.mpr ⟨_, (measureSerializable_eq_ok hp).mpr he,
      (foldlM_concatenate hp ht hnil).mpr hm⟩

/-! ## The decision -/

omit h

/-- A decision with the measure it was taken on, within the budget. -/
structure Decided (ser : Serializer) (policy : TokenPolicy) (prepared : PreparedAdmission)
    (maxBytes maxTokens : Nat) (decision : AdmissionDecision) (m : WireMeasure) : Prop where
  candidate : measureCandidate ser policy prepared decision.admitted decision.limit = .ok m
  admitted : decision.admitted ≤ prepared.records.length
  bytes : decision.bytes = m.bytes
  tokens : decision.tokens = m.tokens
  bytes_le : m.bytes ≤ maxBytes
  tokens_le : m.tokens ≤ maxTokens

theorem requireFit_eq_ok :
    requireFit m maxBytes maxTokens = .ok () ↔ m.bytes ≤ maxBytes ∧ m.tokens ≤ maxTokens := by
  unfold requireFit
  split_ifs <;> simp <;> omega

theorem admitFrom_decided (remaining : Nat)
    (hpos : 0 < admitted) (hcount : admitted + remaining = prepared.records.length + 1)
    {fitting : WireMeasure}
    (hf : measureCandidate ser policy prepared (admitted - 1) none = .ok fitting)
    (hbytes : fitting.bytes ≤ maxBytes) (htokens : fitting.tokens ≤ maxTokens)
    (h : admitFrom ser policy prepared maxBytes maxTokens remaining admitted = .ok decision) :
    ∃ m, Decided ser policy prepared maxBytes maxTokens decision m := by
  induction remaining generalizing admitted fitting with
  | zero =>
    obtain ⟨m, hm, hd⟩ := bind_eq_ok.mp h
    cases hd
    have hlt : admitted - 1 = prepared.records.length := by omega
    rw [hlt] at hf
    obtain rfl : fitting = m := Except.ok.inj (hf.symm.trans hm)
    exact ⟨fitting, hm, Nat.le_refl _, rfl, rfl, hbytes, htokens⟩
  | succ remaining ih =>
    obtain ⟨candidate, hc, h⟩ := bind_eq_ok.mp h
    simp only at h
    split at h
    · obtain ⟨m, hm, h⟩ := bind_eq_ok.mp h
      obtain ⟨_, hfit, h⟩ := bind_eq_ok.mp h
      cases h
      obtain ⟨hb, ht⟩ := requireFit_eq_ok.mp hfit
      exact ⟨m, hm, by simp only; omega, rfl, rfl, hb, ht⟩
    · next hl =>
      split_ifs at hl
      have hn : admitted + 1 + remaining = prepared.records.length + 1 := by omega
      exact ih (Nat.succ_pos admitted) hn hc (by omega) (by omega) h

theorem chooseAdmission_decided {budget : ContextBudget}
    (h : chooseAdmission ser policy prepared budget = .ok decision) :
    ∃ m, Decided ser policy prepared (min budget.maxBytes maxContextOutputBytes) budget.maxTokens
      decision m := by
  obtain ⟨baseline, hbaseline, h⟩ := bind_eq_ok.mp h
  obtain ⟨_, hfit, h⟩ := bind_eq_ok.mp h
  obtain ⟨hb, ht⟩ := requireFit_eq_ok.mp hfit
  exact admitFrom_decided prepared.records.length Nat.one_pos (Nat.add_comm _ _) hbaseline hb ht h

end TraceDecay.Context
