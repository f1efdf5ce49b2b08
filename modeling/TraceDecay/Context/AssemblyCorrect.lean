import TraceDecay.Context.Assembly
import TraceDecay.Context.Backoff

/-!
# Context.AssemblyCorrect

Assembly is exact. Whatever `assembleContextPartsWithFrames` returns was accounted for to the byte
and lists every available anchor once, in order; and the two checks that compare the accounting
with the rendered document never fail, because no other step reports those errors and the measures
agree where they are compared.
-/

namespace TraceDecay.Context

open Domain Json Utf8 Fallible StreamingWriter

/-- The failures of the accounting itself. -/
def Drift (e : ContextError) : Prop :=
  e = .invalidBundle "compact context admission accounting drifted" ∨
    e = .invalidBundle "final canonical context length drifted"

instance : DecidablePred Drift := fun e => by unfold Drift; infer_instance

theorem not_drift_budgetExceeded (r : String) : ¬ Drift (.budgetExceeded r) := by
  rintro (h | h) <;> cases h

theorem not_drift_message (e : SessionContractError) : ¬ Drift (.invalidBundle e.message) := by
  cases e with
  | invalidIdentity field =>
    -- the message ends in another letter than both drift messages
    rintro (h | h)
    all_goals
      have hl := congrArg (fun s => s.toList.getLast?) (ContextError.invalidBundle.inj h)
      simp [SessionContractError.message] at hl
  | _ => decide

/-! ## Steps that report other errors -/

theorem checkedAdd_avoids (r : String) (a b : Nat) : Avoids Drift (checkedAdd r a b) :=
  .ite (.ok _) (.error (not_drift_budgetExceeded r))

theorem TokenSummary.concatenate_avoids (left r : TokenSummary) :
    Avoids Drift (left.concatenate r) := by
  unfold TokenSummary.concatenate
  split
  · refine .ite (.ok _) (.ite (.ok _) ((checkedAdd_avoids _ _ _).bind fun _ _ => ?_))
    exact .ite (.error (not_drift_budgetExceeded _)) (.ok _)
  · exact (checkedAdd_avoids _ _ _).bind fun _ _ => .ok _
  · split
    · exact (checkedAdd_avoids _ _ _).bind fun _ _ => (checkedAdd_avoids _ _ _).bind fun _ _ =>
        (checkedAdd_avoids _ _ _).bind fun _ _ => .ok _
    · exact .error (by decide)
  · exact .ok _
  · exact .error (by decide)

theorem concatenate_avoids (left r : WireMeasure) : Avoids Drift (left.concatenate r) :=
  (checkedAdd_avoids _ _ _).bind fun _ _ =>
    (TokenSummary.concatenate_avoids _ _).bind fun _ _ => .ok _

variable (policy : TokenPolicy)

theorem empty_avoids : Avoids Drift (WireMeasure.empty policy) := by
  refine Avoids.bind ?_ fun _ _ => .ok _
  cases policy with
  | substring pattern =>
    exact Avoids.bind (.ite (.error (by decide)) (.ok _)) fun _ _ => .ok _
  | _ => exact .ok _

variable {e : String} {w : StreamingWriter}

theorem not_drift_writer (h : e ∈ writerErrors) : ¬ Drift (.invalidBundle e) := by
  have hall : ∀ e ∈ writerErrors, ¬ Drift (.invalidBundle e) := by decide
  exact hall e h

theorem writeAll_error (ws : List (List UInt8))
    (h : (w.writeAll ws).1 = .error e) : e ∈ writerErrors := by
  induction ws generalizing w with
  | nil => cases h
  | cons buffer buffers ih =>
    unfold writeAll at h
    split at h
    · rename_i hrun
      cases h
      unfold write at hrun
      split at hrun
      · cases hrun; decide
      · exact (writeLoop_uncounted ..).error e (by rw [hrun])
    · exact ih h

theorem finish_avoids {r : Except String Unit}
    (hr : ∀ e, r = .error e → e ∈ writerErrors) : Avoids Drift (w.finish r) := by
  unfold finish
  simp only
  split
  · exact .error (by decide)
  · split
    · exact .error (not_drift_writer (hr _ rfl))
    · rename_i hrun; exact .error (not_drift_writer ((processPending_uncounted ..).error _ hrun))
    · exact .ok _

theorem measuring_avoids : Avoids Drift (measuring policy) :=
  (empty_avoids policy).bind fun _ _ => .ok _

theorem measureWrites_avoids (ws : List (List UInt8)) : Avoids Drift (measureWrites policy ws) :=
  (measuring_avoids policy).bind fun _ _ =>
    (finish_avoids fun _ he => writeAll_error ws he).bind fun _ _ => .ok _

variable {s : List SummaryOmission}

section
variable (ser : Serializer) (policy : TokenPolicy)

theorem measureRaw_avoids (v : String) : Avoids Drift (measureRaw policy v) :=
  measureWrites_avoids policy _

theorem measureSerializable_avoids (text : Text) :
    Avoids Drift (measureSerializable ser policy text) := measureWrites_avoids policy _

theorem separators_avoids : Avoids Drift (WireSeparators.measure policy) := by
  iterate 12 refine (measureRaw_avoids policy _).bind fun _ _ => ?_
  exact .ok _

theorem appendArrayMeasure_avoids (b item : WireMeasure) (i : Nat)
    (c : WireMeasure) : Avoids Drift (appendArrayMeasure b item i c) := by
  unfold appendArrayMeasure
  split
  · exact concatenate_avoids _ _
  · exact (concatenate_avoids _ _).bind fun _ _ => concatenate_avoids _ _

theorem step_avoids (grain : RetrievalGrainV1) (c : WireMeasure) (scan : AdmissionScan)
    (p : Payload) : Avoids Drift (AdmissionScan.step ser policy grain c scan p) := by
  iterate 3 refine (measureSerializable_avoids ser policy _).bind fun _ _ => ?_
  iterate 2 refine (appendArrayMeasure_avoids _ _ _ _).bind fun _ _ => ?_
  exact (checkedAdd_avoids _ _ _).bind fun _ _ => .ok _

theorem continuationSuffixes_avoids (empty c : WireMeasure) (i : List WireMeasure) :
    Avoids Drift (continuationSuffixes empty c i) := by
  fun_induction continuationSuffixes empty c i with
  | case1 => exact .ok _
  | case2 => exact .ok _
  | case3 item next more ih =>
    exact ih.bind fun _ _ => (concatenate_avoids _ _).bind fun _ _ =>
      (concatenate_avoids _ _).bind fun _ _ => .ok _

theorem prepareAdmission_avoids (available : List Payload) (grain : RetrievalGrainV1)
    (bundle : CompactContextBundleV1) (s : List SummaryOmission) (version : String) :
    Avoids Drift (prepareAdmission ser policy available grain bundle s version) := by
  refine (empty_avoids policy).bind fun _ _ => (measureRaw_avoids policy _).bind fun _ _ =>
    (Avoids.foldlM (step_avoids ser policy grain _) _ _).bind fun _ _ =>
    (continuationSuffixes_avoids _ _ _).bind fun _ _ => ?_
  iterate 9 refine (measureSerializable_avoids ser policy _).bind fun _ _ => ?_
  exact (separators_avoids policy).bind fun _ _ => .ok _

variable (p : PreparedAdmission)

theorem measureCandidate_avoids (a : Nat) (l : Option BudgetLimit) :
    Avoids Drift (measureCandidate ser policy p a l) :=
  (empty_avoids policy).bind fun _ _ => (measureSerializable_avoids ser policy _).bind fun _ _ =>
    .foldlM concatenate_avoids _ _

theorem requireFit_avoids (m : WireMeasure) (maxBytes maxTokens : Nat) :
    Avoids Drift (requireFit m maxBytes maxTokens) :=
  have h := not_drift_budgetExceeded
  .ite (.error (h _)) (.ite (.error (h _)) (.ok _))

theorem admitFrom_avoids (maxBytes maxTokens r : Nat) (a : Nat) :
    Avoids Drift (admitFrom ser policy p maxBytes maxTokens r a) := by
  induction r generalizing a with
  | zero => exact (measureCandidate_avoids ser policy _ _ _).bind fun _ _ => .ok _
  | succ r ih =>
    refine (measureCandidate_avoids ser policy _ _ _).bind fun _ _ => ?_
    simp only
    split
    · exact (measureCandidate_avoids ser policy _ _ _).bind fun _ _ =>
        (requireFit_avoids _ _ _).bind fun _ _ => .ok _
    · exact ih _

theorem chooseAdmission_avoids (budget : ContextBudget) :
    Avoids Drift (chooseAdmission ser policy p budget) :=
  (measureCandidate_avoids ser policy _ _ _).bind fun _ _ => (requireFit_avoids _ _ _).bind
    fun _ _ => admitFrom_avoids ser policy _ _ _ _ _

theorem mapError_message_avoids {α : Type} (x : Except SessionContractError α) :
    Avoids Drift (x.mapError fun error => ContextError.invalidBundle error.message) := by
  cases x with
  | error e => exact .error (not_drift_message e)
  | ok a => exact .ok a

theorem validateLineage_avoids (l : List CompactContextLineageEdgeV1)
    (c : List CompactContextConflictV1) :
    Avoids Drift (validateLineageCyclesAreConflicted l c) := by
  refine (Avoids.forM (fun _ => mapError_message_avoids _) _).bind fun _ _ => ?_
  exact .ite (.ite (.error (by decide)) (.ok _)) (.ok _)

theorem canonicalizeFrames_avoids (frames : TemporalContextFrames) :
    Avoids Drift (canonicalizeFrames frames) :=
  .ite (.error (by decide)) ((validateLineage_avoids _ _).bind fun _ _ => .ok _)

theorem validateFrozenBounds_avoids (available : List Payload) (unavailable : List UnavailableItem)
    (frames : TemporalContextFrames) (r : Nat) :
    Avoids Drift (validateFrozenBounds available unavailable frames r) := by
  have h := not_drift_budgetExceeded
  refine Avoids.bind (.forM (fun row => .ite (.error (h _)) (.ok _)) _) fun _ _ => ?_
  exact .ite (.error (h _)) (.ite (.error (h _)) (.ok _))

theorem validatePrivacy_avoids (a : List RetrievalAnchorId)
    (unavailable : List UnavailableItem) (frames : TemporalContextFrames) :
    Avoids Drift (validatePrivacyAndAnchorOverlap a unavailable frames) := by
  unfold validatePrivacyAndAnchorOverlap
  repeat' split
  all_goals first | exact .ok _ | exact .error (by decide)

theorem baseBundle_avoids (a : List RetrievalAnchorId) (unavailable : List UnavailableItem)
    (frames : TemporalContextFrames) : Avoids Drift (baseBundle a unavailable frames) := by
  refine Avoids.bind ?_ fun _ _ => .ok _
  refine Avoids.bind (.foldlM (fun s o => ?_) _ _) fun _ _ => .ok _
  simp only
  split
  · exact .ok _
  · split
    · exact .ok _
    · split
      · exact .error (not_drift_budgetExceeded _)
      · exact .ok _

/-! ## Exactness -/

variable {ser policy} {bundle : CompactContextBundleV1} {m : WireMeasure}

theorem renderExact_eq (hp : policy.Patternless) {p : List Payload}
    {version : String} (hm : Measures policy m (renderWire version bundle s p))
    (hle : m.bytes ≤ maxContextOutputBytes) :
    renderExact ser policy bundle s p version m.bytes = .ok (renderWire version bundle s p) := by
  have hj := ser.joined (renderWire version bundle s p)
  unfold renderExact
  generalize renderWire version bundle s p = text at hm hj ⊢
  obtain ⟨w, hnew, hf, he, hz⟩ := measuring_feeds hp.valid text
  have hc : collecting policy m.bytes = .ok { w with output := some [] } := by
    unfold collecting
    rw [if_neg (by omega), hnew]; rfl
  have hfeeding : Feeding policy true { w with output := some [] } [] text 0 :=
    { hf with output := rfl }
  have hfed : Fed policy true text { w with output := some [] } [] 0 :=
    ⟨[], text, hfeeding, .start, rfl, by simp [he], by simp [he, tokenScanChunkBytes]⟩
  obtain ⟨w', missed, hrun, hb, hf', -, -⟩ := writeAll_feeds hp.valid hm.fits
    (ser.segments text) hfed (by simpa using hz) (by simp [hj])
  rw [List.nil_append, hj] at hb hf'
  obtain ⟨hfin, -⟩ := finish_fed hp.valid hm.fits hf' hb
  have hlen : m.bytes = (encode text).length := congrArg WireMeasure.bytes hm.eq
  rw [hlen] at hc ⊢; simp only [hc, ok_bind, hrun, hfin, ne_eq, not_true, if_false, if_true]

/-- What holds of a returned context. -/
structure Exact (policy : TokenPolicy) (available : List Payload) (budget : ContextBudget)
    (ctx : CompactContext) : Prop where
  bytes : ctx.accountedBytes = (encode ctx.rendered).length
  bytes_le : ctx.accountedBytes ≤ min budget.maxBytes maxContextOutputBytes
  tokens : ctx.estimatedTokens = plainTokens policy ctx.rendered
  tokens_le : ctx.estimatedTokens ≤ budget.maxTokens
  anchors : ctx.bundle.records.map (·.anchorId) ++ ctx.bundle.continuationAnchors =
    available.map (·.anchorId)

theorem Measures.tokens_eq {text : Text} (h : Measures policy m text) :
    m.tokens = plainTokens policy text := by
  rw [h.eq]; exact (tokens_eq_plain_iff (Nat.zero_le _)).mpr rfl

theorem baseBundle_empty {a : List RetrievalAnchorId} {unavailable : List UnavailableItem}
    {frames : TemporalContextFrames} (h : baseBundle a unavailable frames = .ok bundle) :
    bundle.records = [] ∧ bundle.continuationAnchors = [] := by
  obtain ⟨_, -, h⟩ := bind_eq_ok.mp h
  cases h; exact ⟨rfl, rfl⟩

theorem materialize_anchors {available : List Payload} {grain : RetrievalGrainV1}
    {p : PreparedAdmission} (hr : bundle.records = []) (ha : bundle.continuationAnchors = [])
    (hrecords : p.records = available.map (recordOf grain)) (a : Nat) (l : Option BudgetLimit) :
    (materializeAdmission bundle available p a l).records.map (·.anchorId) ++
      (materializeAdmission bundle available p a l).continuationAnchors =
      available.map (·.anchorId) := by
  simp only [materializeAdmission, hr, ha, List.nil_append, hrecords, ← List.map_take,
    List.map_map, Function.comp_def, recordOf]
  rw [← List.map_append, List.take_append_drop]

end

/-- What assembly promises of one call. -/
structure AssemblyExact (ser : Serializer) (policy : TokenPolicy) (available : List Payload)
    (unavailable : List UnavailableItem) (grain : RetrievalGrainV1)
    (frames : TemporalContextFrames) (budget : ContextBudget) : Prop where
  returned : ∀ ctx, assembleContextPartsWithFrames ser policy available unavailable grain frames
    budget = .ok ctx → Exact policy available budget ctx
  noDrift : ∀ e, assembleContextPartsWithFrames ser policy available unavailable grain frames
    budget = .error e → ¬ Drift e
  candidates : ∀ bundle summaryOmissions prepared,
    bundle.records = [] → bundle.continuationAnchors = [] →
    prepareAdmission ser policy available grain bundle summaryOmissions budget.estimatorVersion =
      .ok prepared →
    ∀ admitted ≤ available.length, ∀ limit m,
      measureCandidate ser policy prepared admitted limit = .ok m ↔
        measureSerializable ser policy (renderWire budget.estimatorVersion
          (materializeAdmission bundle available prepared admitted limit) summaryOmissions
          (available.take admitted)) = .ok m

variable {ser : Serializer} {policy : TokenPolicy} {available : List Payload}
  {unavailable : List UnavailableItem} {grain : RetrievalGrainV1} {frames : TemporalContextFrames}
  {budget : ContextBudget}

section Decided

variable (hp : policy.Patternless) {base : CompactContextBundleV1} {p : PreparedAdmission}
  {d : AdmissionDecision} (hr : base.records = []) (ha : base.continuationAnchors = [])
  (hprepared : prepareAdmission ser policy available grain base s budget.estimatorVersion = .ok p)
  (hdecision : chooseAdmission ser policy p budget = .ok d)
include hp hr ha hprepared hdecision

theorem decided_measures : ∃ m, Decided ser policy p (min budget.maxBytes maxContextOutputBytes)
      budget.maxTokens d m ∧
    Measures policy m (renderWire budget.estimatorVersion
      (materializeAdmission base available p d.admitted d.limit) s (available.take d.admitted)) := by
  have hsound := prepareAdmission_prepared hp hprepared
  obtain ⟨m, hm⟩ := chooseAdmission_decided hdecision
  have hadmitted : d.admitted ≤ available.length := by
    have := hm.admitted
    rwa [hsound.records, List.length_map] at this
  exact ⟨m, hm, (measureCandidate_eq_ok hp hsound hr ha hadmitted).mp hm.candidate⟩

theorem assembled_exact {total : WireMeasure}
    (hmeasured : measureContext ser policy
      (materializeAdmission base available p d.admitted d.limit) s (available.take d.admitted)
      budget.estimatorVersion = .ok total) :
    let bundle := materializeAdmission base available p d.admitted d.limit
    let document := renderWire budget.estimatorVersion bundle s (available.take d.admitted)
    total.bytes = d.bytes ∧ total.tokens = d.tokens ∧
      renderExact ser policy bundle s (available.take d.admitted)
        budget.estimatorVersion total.bytes = .ok document ∧
      Exact policy available budget
        ⟨document, bundle, total.bytes, total.tokens, budget.estimatorVersion⟩ := by
  obtain ⟨m, hm, hc⟩ := decided_measures hp hr ha hprepared hdecision
  obtain ⟨_, -, hd⟩ := bind_eq_ok.mp hmeasured
  replace hd := (measureSerializable_eq_ok hp).mp hd
  obtain rfl : total = m := hd.unique hc
  refine ⟨hm.bytes.symm, hm.tokens.symm, ?_, ?_⟩
  · exact renderExact_eq hp hd (Nat.le_trans hm.bytes_le (Nat.min_le_right _ _))
  · exact ⟨congrArg WireMeasure.bytes hd.eq, hm.bytes_le, hd.tokens_eq, hm.tokens_le,
      materialize_anchors hr ha (prepareAdmission_prepared hp hprepared).records _ _⟩

end Decided

/-- Assembly is exact and lossless, and its accounting never drifts. -/
theorem assembleContext_exact (hpolicy : policy = .whitespace ∨ policy = .characters) :
    AssemblyExact ser policy available unavailable grain frames budget := by
  have hp : policy.Patternless := by rintro pattern rfl; simp at hpolicy
  refine ⟨?_, ?_, ?_⟩
  · intro ctx h
    obtain ⟨_, -, h⟩ := bind_eq_ok.mp h
    simp only [bind_eq_ok] at h
    obtain ⟨canonical, -, _, -, base, hbase, p, hprepared, d, hd, _, -, total, hm, h⟩ := h
    obtain ⟨hr, ha⟩ := baseBundle_empty hbase
    obtain ⟨hb, ht, hrender, hexact⟩ := assembled_exact hp hr ha hprepared hd hm
    rw [if_neg (by simp [hb, ht]), hrender] at h
    cases h; exact hexact
  · refine (validateFrozenBounds_avoids _ _ _ _).bind fun _ _ =>
      (canonicalizeFrames_avoids _).bind fun canonical _ =>
      (validatePrivacy_avoids _ _ _).bind fun _ _ =>
      (baseBundle_avoids _ _ _).bind fun base hbase =>
      (prepareAdmission_avoids _ _ _ _ _ _ _).bind fun p hprepared =>
      (chooseAdmission_avoids _ _ _ _).bind fun d hd =>
      (mapError_message_avoids _).bind fun _ _ => ?_
    refine Avoids.bind ?_ fun total hm => ?_
    · exact (mapError_message_avoids _).bind fun _ _ => measureSerializable_avoids _ _ _
    obtain ⟨hr, ha⟩ := baseBundle_empty hbase
    obtain ⟨hb, ht, hrender, -⟩ := assembled_exact hp hr ha hprepared hd hm
    rw [if_neg (by simp [hb, ht]), hrender]; exact .ok _
  · intro bundle s p hr ha hprepared a hadmitted l m
    rw [measureSerializable_eq_ok hp]
    exact measureCandidate_eq_ok hp (prepareAdmission_prepared hp hprepared) hr ha hadmitted

/-- The checks, the decision and the check of the bundle that is decided on. -/
def decideBundle (ser : Serializer) (policy : TokenPolicy) (available : List Payload)
    (unavailable : List UnavailableItem) (grain : RetrievalGrainV1) (frames : TemporalContextFrames)
    (budget : ContextBudget) : Except ContextError CompactContextBundleV1 := do
  validateFrozenBounds available unavailable frames budget.maxBytes
  let frames ← canonicalizeFrames frames
  let availableIds := Sorting.sortBy compare (available.map (·.anchorId))
  validatePrivacyAndAnchorOverlap availableIds unavailable frames
  let base ← baseBundle availableIds unavailable frames
  let prepared ← prepareAdmission ser policy available grain base frames.summaryOmissions
    budget.estimatorVersion
  let decision ← chooseAdmission ser policy prepared budget
  let bundle := materializeAdmission base available prepared decision.admitted decision.limit
  validateBundle bundle
  return bundle

/-- From there on assembly does not fail. -/
theorem assembleContext_of_decided (hp : policy.Patternless) {bundle : CompactContextBundleV1}
    (h : decideBundle ser policy available unavailable grain frames budget = .ok bundle) :
    ∃ ctx, assembleContextPartsWithFrames ser policy available unavailable grain frames budget =
      .ok ctx ∧ ctx.bundle = bundle := by
  simp only [decideBundle, bind_eq_ok] at h
  obtain ⟨_, hbounds, canonical, hcanonical, _, hprivacy, base, hbase, p, hprepared, d, hd, _,
    hvalid, ⟨⟩⟩ := h
  obtain ⟨hr, ha⟩ := baseBundle_empty hbase
  obtain ⟨m, -, hm⟩ := decided_measures hp hr ha hprepared hd
  have hmeasured : measureContext ser policy
      (materializeAdmission base available p d.admitted d.limit) canonical.summaryOmissions
      (available.take d.admitted) budget.estimatorVersion = .ok m :=
    bind_eq_ok.mpr ⟨_, hvalid, (measureSerializable_eq_ok hp).mpr hm⟩
  obtain ⟨hb, ht, hrender, -⟩ := assembled_exact hp hr ha hprepared hd hmeasured
  simp only [assembleContextPartsWithFrames, hbounds, hcanonical, hprivacy, hbase, hprepared, hd,
    hvalid, hmeasured, ok_bind]
  rw [if_neg (by simp [hb, ht]), hrender]; exact ⟨_, rfl, rfl⟩

/-- The budget has room for one of the two payloads. -/
theorem assembleContext_exact_cut :
    (∃ ctx, assembleContextPartsWithFrames oneWrite .whitespace twoPayloads [] .turn {}
        ⟨450, 64, "v1"⟩ = .ok ctx ∧
      ctx.bundle.records.map (·.anchorId.value) = ["a1"] ∧
      ctx.bundle.continuationAnchors.map (·.value) = ["a2"]) ∧
    AssemblyExact oneWrite .whitespace twoPayloads [] .turn {} ⟨450, 64, "v1"⟩ := by
  have hrun : (decideBundle oneWrite .whitespace twoPayloads [] .turn {} ⟨450, 64, "v1"⟩ >>=
      fun bundle => .ok (bundle.records.map (·.anchorId.value),
        bundle.continuationAnchors.map (·.value))) = .ok (["a1"], ["a2"]) := by
    decide +kernel
  obtain ⟨bundle, hdecided, hshape⟩ := bind_eq_ok.mp hrun
  obtain ⟨ctx, hctx, rfl⟩ := assembleContext_of_decided (fun _ h => by cases h) hdecided
  simp only [Except.ok.injEq, Prod.mk.injEq] at hshape
  exact ⟨⟨ctx, hctx, hshape⟩, assembleContext_exact (.inl rfl)⟩

end TraceDecay.Context
