import TraceDecay.Lib.Stable
import TraceDecay.Composition.Selection

/-!
# Composition.LaneOrder

What of a composition depends on the order its lanes came in. Admission asks only what each lane is
and that none comes twice (`admittedLanes_eq_ok`), and the candidates of all lanes are told apart by
the key they are sorted by first (`sortBy_collapseCmp_perm`), so the ranking, the outcomes and the
statuses never show the order.

The freshness list and the checkpoints do. `freshness_cmp` does not read every field, and the
checkpoints are not told apart by `exhausted`; rows it takes for equal stay in the order of their
lanes, and only equal neighbours are dropped. `composition_independent_of_lane_order` says when that
makes no difference: any two lanes read the same in either order, freshness key by freshness key, up
to repeated neighbours, and checkpoints of one lane and digest are equal.
-/

namespace TraceDecay.Composition

open Domain Sorting Fallible
open List hiding dedup

/-! ## Keys -/

abbrev CollapseKey :=
  SourceOccurrenceId ×ₗ RetrievalAnchorId ×ₗ RetrievalAnchorId ×ₗ LogicalEvidenceId ×ₗ RetrieverKind

def collapseKey (candidate : CompactCandidate) : CollapseKey :=
  toLex (candidate.sourceOccurrenceId, toLex (candidate.retrieverEvidenceAnchor,
    toLex (candidate.anchorId, toLex (candidate.logicalEvidenceId, candidate.retriever))))

theorem collapseCmp_ordersBy : OrdersBy collapseCmp collapseKey := by
  intro a b
  simp only [collapseCmp, collapseKey, compare_then_ne_gt, compare_ne_gt, Prod.Lex.toLex_le_toLex]

/-- The place of an optional number: nothing comes before every number. -/
def place (value : Option Nat) : Nat := value.elim 0 (· + 1)

theorem compare_option_eq (a b : Option Nat) : compare a b = compare (place a) (place b) := by
  cases a with
  | none =>
    cases b with
    | none => rfl
    | some b => exact (compare_lt_iff_lt.mpr (Nat.succ_pos b)).symm
  | some a =>
    cases b with
    | none => exact (compare_gt_iff_gt.mpr (Nat.succ_pos a)).symm
    | some b =>
      show compare a b = compare (a + 1) (b + 1)
      simp only [Nat.compare_eq_ite_lt, Nat.add_lt_add_iff_right]

abbrev FreshnessKey := SourceNamespace ×ₗ SourceInstanceKey ×ₗ Nat ×ₗ Nat ×ₗ ComponentRevision

def freshnessKey (freshness : SourceFreshness) : FreshnessKey :=
  toLex (freshness.sourceNamespace, toLex (freshness.sourceInstance,
    toLex (place freshness.sourceGeneration, toLex (place freshness.projectionWatermark,
      freshness.policyRevision))))

theorem freshnessCmp_ordersBy : OrdersBy freshnessCmp freshnessKey := by
  intro a b
  simp only [freshnessCmp, freshnessKey, compare_option_eq, compare_then_ne_gt, compare_ne_gt,
    Prod.Lex.toLex_le_toLex]

def checkpointKey (checkpoint : RetrieverContinuation) : RetrieverKind ×ₗ CursorPayloadDigest :=
  toLex (checkpoint.lane, checkpoint.checkpointDigest)

theorem checkpointCmp_ordersBy : OrdersBy checkpointCmp checkpointKey := by
  intro a b
  simp only [checkpointCmp, checkpointKey, compare_then_ne_gt, compare_ne_gt,
    Prod.Lex.toLex_le_toLex]

/-! ## Admission -/

namespace CompositionLaneInput

variable (input : CompositionLaneInput)

def candidates : List CompactCandidate :=
  (batch? input.outcome).elim [] (·.candidates)

def freshness : List SourceFreshness :=
  input.candidates.map (·.freshness)

def checkpoints : List RetrieverContinuation :=
  (batch? input.outcome).elim [] (·.continuation.toList)

/-- What admission asks of a lane by itself. -/
def Admissible (required : List RetrieverKind) (input : CompositionLaneInput) : Prop :=
  (batch? input.outcome).elim (input.lane ∉ required) fun batch =>
    batch.validate = .ok () ∧ ∀ candidate ∈ batch.candidates, candidate.retriever = input.lane

end CompositionLaneInput

def LaneTotals.add (totals : LaneTotals) (input : CompositionLaneInput) : LaneTotals where
  seen := totals.seen.insert input.lane ()
  candidates := totals.candidates ++ input.candidates
  internalLaneOutcomes := totals.internalLaneOutcomes.insert input.lane (unitOutcome input.outcome)
  publicLaneStatuses := totals.publicLaneStatuses.insert input.lane (publicStatus input.outcome)
  freshness := totals.freshness ++ input.freshness
  laneCheckpoints := totals.laneCheckpoints ++ input.checkpoints

variable {totals t' : LaneTotals}

theorem admitBatch_eq_ok {lane : RetrieverKind} {b : RetrieverBatch} :
    admitBatch totals lane b = .ok t' ↔
      (b.validate = .ok () ∧ ∀ c ∈ b.candidates, c.retriever = lane) ∧ t' = { totals with
          candidates := totals.candidates ++ b.candidates
          freshness := totals.freshness ++ b.candidates.map (·.freshness)
          laneCheckpoints := totals.laneCheckpoints ++ b.continuation.toList } := by
  have hany : ¬ b.candidates.any (·.retriever ≠ lane) ↔
      ∀ c ∈ b.candidates, c.retriever = lane := by simp
  rw [admitBatch, bind_eq_ok]
  simp only [mapError_eq_ok, ite_error_eq_ok, hany, Except.ok.injEq]
  constructor
  · rintro ⟨_, hv, hl, rfl⟩; exact ⟨⟨hv, hl⟩, rfl⟩
  · rintro ⟨⟨hv, hl⟩, rfl⟩; exact ⟨(), hv, hl, rfl⟩

variable {input : CompositionLaneInput} {required : List RetrieverKind}

theorem admitLane_eq_ok : admitLane required totals input = .ok t' ↔
      totals.seen.contains input.lane = false ∧ input.Admissible required ∧
        t' = totals.add input := by
  rw [admitLane, ite_error_eq_ok, Bool.not_eq_true]
  refine and_congr_right fun _ => ?_
  cases hb : batch? input.outcome with
  | none =>
    simp [CompositionLaneInput.Admissible, LaneTotals.add, CompositionLaneInput.candidates,
      CompositionLaneInput.freshness, CompositionLaneInput.checkpoints, hb, ite_error_eq_ok,
      @eq_comm _ t']
  | some batch =>
    simp [CompositionLaneInput.Admissible, LaneTotals.add, CompositionLaneInput.candidates,
      CompositionLaneInput.freshness, CompositionLaneInput.checkpoints, hb, admitBatch_eq_ok]

theorem admitLanes_eq_ok {lanes : List CompositionLaneInput} :
    lanes.foldlM (admitLane required) totals = .ok t' ↔
      (lanes.map (·.lane)).Nodup ∧ (∀ input ∈ lanes, totals.seen.contains input.lane = false) ∧
        (∀ input ∈ lanes, input.Admissible required) ∧
        t' = lanes.foldl LaneTotals.add totals := by
  induction lanes generalizing totals with
  | nil => simp [pure, Except.pure, @eq_comm _ t']
  | cons first lanes ih =>
    rw [foldlM_cons, bind_eq_ok]
    have hs : ∀ lane, (totals.add first).seen.contains lane = false ↔
        lane ≠ first.lane ∧ totals.seen.contains lane = false := by
      intro lane
      by_cases hl : lane = first.lane <;> simp [LaneTotals.add, OrdMap.contains, hl]
    simp only [admitLane_eq_ok, ih, map_cons, nodup_cons, mem_map, forall_mem_cons, foldl_cons]
    constructor
    · rintro ⟨_, ⟨hf, hadm, rfl⟩, hn, hnew, hall, rfl⟩
      refine ⟨⟨?_, hn⟩, ⟨hf, fun input h => ((hs _).mp (hnew input h)).2⟩, ⟨hadm, hall⟩, rfl⟩
      rintro ⟨input, hi, heq⟩; exact ((hs _).mp (hnew input hi)).1 heq
    · rintro ⟨⟨hfresh, hn⟩, ⟨hf, hr⟩, ⟨hadm, hall⟩, rfl⟩
      refine ⟨_, ⟨hf, hadm, rfl⟩, hn, fun input h => (hs _).mpr ⟨?_, hr input h⟩, hall, rfl⟩
      exact fun heq => hfresh ⟨input, h, heq⟩

theorem foldl_add (lanes : List CompositionLaneInput) (totals : LaneTotals) :
    lanes.foldl LaneTotals.add totals = {
      seen := lanes.foldl (fun seen input => seen.insert input.lane ()) totals.seen
      candidates := totals.candidates ++ lanes.flatMap (·.candidates)
      internalLaneOutcomes := lanes.foldl (fun o input => o.insert input.lane
        (unitOutcome input.outcome)) totals.internalLaneOutcomes
      publicLaneStatuses := lanes.foldl (fun s input => s.insert input.lane
        (publicStatus input.outcome)) totals.publicLaneStatuses
      freshness := totals.freshness ++ lanes.flatMap (·.freshness)
      laneCheckpoints := totals.laneCheckpoints ++ lanes.flatMap (·.checkpoints) } := by
  induction lanes generalizing totals with
  | nil => simp
  | cons first lanes ih => simp [ih, LaneTotals.add]

def gathered (lanes : List CompositionLaneInput) : AdmittedLanes where
  candidates := lanes.flatMap (·.candidates)
  internalLaneOutcomes := .ofList (lanes.map fun input => (input.lane, unitOutcome input.outcome))
  publicLaneStatuses := .ofList (lanes.map fun input => (input.lane, publicStatus input.outcome))
  freshness := dedup (sortBy freshnessCmp (lanes.flatMap (·.freshness)))
  laneCheckpoints := sortBy checkpointCmp (lanes.flatMap (·.checkpoints))

structure Admits (profile : FusionProfile) (required : List RetrieverKind)
    (lanes : List CompositionLaneInput) : Prop where
  nodup : (lanes.map (·.lane)).Nodup
  admissible : ∀ input ∈ lanes, input.Admissible required
  required : ∀ lane ∈ required, lane ∈ lanes.map (·.lane)
  profile : ∀ lane ∈ profile.lanes, lane ∈ lanes.map (·.lane)

theorem Admits.perm {profile : FusionProfile} {lanes lanes' : List CompositionLaneInput}
    (h : Admits profile required lanes) (hp : lanes.Perm lanes') : Admits profile required lanes' := by
  have hl := hp.map (·.lane)
  exact {
    nodup := hl.nodup_iff.mp h.nodup
    admissible := fun input hi => h.admissible input (hp.mem_iff.mpr hi)
    required := fun lane hle => hl.mem_iff.mp (h.required lane hle)
    profile := fun lane hle => hl.mem_iff.mp (h.profile lane hle) }

theorem admittedLanes_eq_ok {input : FusionStageInput} {a : AdmittedLanes} :
    admittedLanes input required = .ok a ↔
      Admits input.profile required input.lanes ∧ a = gathered input.lanes := by
  obtain ⟨total, ht⟩ : ∃ total, input.lanes.foldl LaneTotals.add .empty = total := ⟨_, rfl⟩
  have hs : ∀ lane, total.seen.contains lane = true ↔ lane ∈ input.lanes.map (·.lane) := by
    intro lane
    have ho : total.seen = OrdMap.ofList (input.lanes.map fun input => (input.lane, ())) := by
      rw [← ht, foldl_add, OrdMap.ofList, foldl_map]; rfl
    rw [ho, OrdMap.contains_ofList, map_map]; rfl
  have hall : ∀ lanes : List RetrieverKind,
      ¬ (lanes.any fun lane => !total.seen.contains lane) = true ↔
        ∀ lane ∈ lanes, lane ∈ input.lanes.map (·.lane) := by
    simp only [any_eq_true, Bool.not_eq_true', not_exists, not_and, Bool.not_eq_false, hs,
      implies_true]
  have hg : gathered input.lanes = { total with
      freshness := dedup (sortBy freshnessCmp total.freshness)
      laneCheckpoints := sortBy checkpointCmp total.laneCheckpoints } := by
    rw [← ht, foldl_add, gathered, OrdMap.ofList, OrdMap.ofList, foldl_map, foldl_map]; rfl
  rw [admittedLanes, bind_eq_ok, hg]
  simp only [admitLanes_eq_ok, ht]
  constructor
  · rintro ⟨_, ⟨hn, -, hadm, rfl⟩, h⟩
    obtain ⟨hr, h⟩ := ite_error_eq_ok.mp h
    obtain ⟨hp, h⟩ := ite_error_eq_ok.mp h
    exact ⟨⟨hn, hadm, (hall _).mp hr, (hall _).mp hp⟩, (Except.ok.inj h).symm⟩
  · rintro ⟨⟨hn, hadm, hr, hp⟩, rfl⟩
    refine ⟨_, ⟨hn, fun _ _ => rfl, hadm, rfl⟩, ?_⟩
    exact ite_error_eq_ok.mpr ⟨(hall _).mpr hr, ite_error_eq_ok.mpr ⟨(hall _).mpr hp, rfl⟩⟩

/-! ## The candidates of all lanes -/

theorem validate_occurrences_nodup {batch : RetrieverBatch} (h : batch.validate = .ok ()) :
    (batch.candidates.map (·.sourceOccurrenceId)).Nodup := by
  obtain ⟨r, hf, -⟩ := bind_eq_ok.mp h
  have hinv : r = batch.candidates.zipIdx.map (·.1.sourceOccurrenceId) ∧ r.Nodup := by
    refine foldlM_induct (P := fun pre r => r = pre.map (·.1.sourceOccurrenceId) ∧ r.Nodup)
      ⟨rfl, nodup_nil⟩ ?_ hf
    rintro pre ⟨candidate, ordinal⟩ r returned' - ⟨hr, hn⟩ hs
    simp only [RetrieverBatch.validateCandidate, bind_eq_ok, ite_error_eq_ok] at hs
    obtain ⟨-, _, -, -, hnew, -, ⟨⟩⟩ := hs
    refine ⟨by simp [hr], ?_⟩
    refine nodup_append.mpr ⟨hn, nodup_singleton _, fun a ha b hb hab => ?_⟩
    exact hnew (mem_singleton.mp hb ▸ hab ▸ ha)
  have hmap : batch.candidates.zipIdx.map (·.1.sourceOccurrenceId) =
      batch.candidates.map (·.sourceOccurrenceId) := by
    rw [show (fun e : CompactCandidate × Nat => e.1.sourceOccurrenceId) =
      (·.sourceOccurrenceId) ∘ Prod.fst from rfl, ← map_map, zipIdx_map_fst]
  rw [← hmap, ← hinv.1]; exact hinv.2

variable {profile : FusionProfile} {required : List RetrieverKind}
  {lanes lanes' : List CompositionLaneInput}

theorem CompositionLaneInput.Admissible.candidates (h : input.Admissible required) :
    (∀ c ∈ input.candidates, c.retriever = input.lane) ∧
      (input.candidates.map (·.sourceOccurrenceId)).Nodup := by
  unfold Admissible at h
  unfold CompositionLaneInput.candidates
  cases hb : batch? input.outcome with
  | none => simp
  | some batch => rw [hb] at h; exact ⟨h.2, validate_occurrences_nodup h.1⟩

variable (h : Admits profile required lanes)
include h

theorem Admits.collapseKey_injOn {a b : CompactCandidate} (ha : a ∈ lanes.flatMap (·.candidates))
    (hb : b ∈ lanes.flatMap (·.candidates)) (hkey : collapseKey a = collapseKey b) : a = b := by
  obtain ⟨i, hi, ha⟩ := mem_flatMap.mp ha
  obtain ⟨j, hj, hb⟩ := mem_flatMap.mp hb
  simp only [collapseKey, toLex_inj, Prod.mk.injEq] at hkey
  obtain ⟨ho, -, -, -, hr⟩ := hkey
  rw [(h.admissible i hi).candidates.1 a ha, (h.admissible j hj).candidates.1 b hb] at hr
  obtain rfl := inj_on_of_nodup_map h.nodup hi hj hr
  exact inj_on_of_nodup_map (h.admissible i hi).candidates.2 ha hb ho

variable (hp : lanes.Perm lanes')
include hp

theorem sortBy_collapseCmp_perm : sortBy collapseCmp (lanes.flatMap (·.candidates)) =
      sortBy collapseCmp (lanes'.flatMap (·.candidates)) :=
  sortBy_eq_of_perm collapseCmp_ordersBy (hp.flatMap_right _)
    fun _ ha _ hb => h.collapseKey_injOn ha hb

theorem ofList_lanes_perm {β : Type} (f : CompositionLaneInput → β) :
    OrdMap.ofList (lanes.map fun input => (input.lane, f input)) =
      OrdMap.ofList (lanes'.map fun input => (input.lane, f input)) :=
  OrdMap.ofList_perm (by simpa [Function.comp_def] using h.nodup) (hp.map _)

/-! ## Freshness and checkpoints -/

omit h hp

/-- The freshness of a lane's candidates under one key, in the order of the batch. -/
def CompositionLaneInput.freshnessAt (input : CompositionLaneInput) (key : FreshnessKey) :
    List SourceFreshness :=
  input.freshness.filter fun freshness => freshnessKey freshness = key

/-- Two lanes that read the same in either order. -/
structure Interchangeable (a b : CompositionLaneInput) : Prop where
  freshness : ∀ key,
    dedup (a.freshnessAt key ++ b.freshnessAt key) = dedup (b.freshnessAt key ++ a.freshnessAt key)
  checkpoints : ∀ c ∈ a.checkpoints, ∀ d ∈ b.checkpoints,
    c.lane = d.lane → c.checkpointDigest = d.checkpointDigest → c = d

theorem gathered_freshness_perm_iff :
    (∀ lanes', lanes'.Perm lanes → (gathered lanes').freshness = (gathered lanes).freshness) ↔
      ∀ a ∈ lanes, ∀ b ∈ lanes, ∀ key, dedup (a.freshnessAt key ++ b.freshnessAt key) =
        dedup (b.freshnessAt key ++ a.freshnessAt key) := by
  have hw : ∀ (lanes : List CompositionLaneInput) key,
      (lanes.flatMap (·.freshness)).filter (fun f => freshnessKey f = key) =
        lanes.flatMap (·.freshnessAt key) := by
    intro lanes key
    rw [filter_flatMap]; rfl
  simp only [gathered, dedup_sortBy_eq_iff freshnessCmp_ordersBy, hw]
  constructor
  · intro h a ha b hb key
    exact dedup_flatMap_perm_iff.mp (fun lanes' hp => h lanes' hp key) a ha b hb
  · intro h lanes' hp key
    exact dedup_flatMap_perm_iff.mpr (fun a ha b hb => h a ha b hb key) lanes' hp

theorem CompositionLaneInput.checkpoints_eq {c : RetrieverContinuation}
    (hc : c ∈ input.checkpoints) : input.checkpoints = [c] := by
  unfold checkpoints at *
  cases hb : batch? input.outcome with
  | none => simp [hb] at hc
  | some batch =>
    simp only [hb, Option.elim_some, Option.mem_toList] at hc ⊢
    rw [hc, Option.toList_some]

theorem gathered_checkpoints_perm_iff : (∀ lanes', lanes'.Perm lanes →
      (gathered lanes').laneCheckpoints = (gathered lanes).laneCheckpoints) ↔
      ∀ a ∈ lanes, ∀ b ∈ lanes, ∀ c ∈ a.checkpoints, ∀ d ∈ b.checkpoints,
        c.lane = d.lane → c.checkpointDigest = d.checkpointDigest → c = d := by
  constructor
  · intro h a ha b hb c hc d hd hl hdistinct
    have hc := a.checkpoints_eq hc
    have hd := b.checkpoints_eq hd
    by_cases hab : a = b
    · subst hab; exact (List.cons.inj (hc.symm.trans hd)).1
    -- the checkpoints of their key begin with `c` and with `d`
    obtain ⟨rest, hp⟩ := exists_perm_cons_cons ha hb hab
    have heq := (h _ hp).trans (h _ ((List.Perm.swap a b rest).trans hp)).symm
    have hf := (sortBy_eq_iff checkpointCmp_ordersBy).mp heq (checkpointKey c)
    have hkey : checkpointKey d = checkpointKey c := by
      rw [checkpointKey, checkpointKey, hl, hdistinct]
    simp only [flatMap_cons, hc, hd, singleton_append] at hf
    rw [filter_cons_of_pos (by simp), filter_cons_of_pos (by simpa using hkey),
      filter_cons_of_pos (by simpa using hkey)] at hf
    exact (List.cons.inj hf).1
  · intro h lanes' hp
    refine (sortBy_eq_of_perm checkpointCmp_ordersBy (hp.symm.flatMap_right _) ?_).symm
    intro c hc d hd hkey
    obtain ⟨a, ha, hc⟩ := mem_flatMap.mp hc
    obtain ⟨b, hb, hd⟩ := mem_flatMap.mp hd
    obtain ⟨hl, hdistinct⟩ := Prod.mk.inj (toLex.injective hkey)
    exact h a ha b hb c hc d hd hl hdistinct

/-! ## Composition -/

section Compose
variable {kernel : CompositionKernel} {policy : DiversityPolicy} {tiers : AnchorTiers}

include h hp in
theorem rank_perm : kernel.rank profile policy tiers (lanes.flatMap (·.candidates)) =
      kernel.rank profile policy tiers (lanes'.flatMap (·.candidates)) := by
  have hsorted : collapseCompactCandidates (lanes.flatMap (·.candidates)) =
      collapseCompactCandidates (lanes'.flatMap (·.candidates)) := by
    rw [collapseCompactCandidates, collapseCompactCandidates, sortBy_collapseCmp_perm h hp]
  rw [CompositionKernel.rank, CompositionKernel.rank, hsorted]

def CompositionOutputV1.of (profile : FusionProfile) (admitted : AdmittedLanes)
    (ranking : Ranking) : CompositionOutputV1 :=
  { admitted, ranking with profileId := profile.profileId }

variable {out : CompositionOutputV1}

theorem composeRequired_eq_ok :
    kernel.composeRequired ⟨profile, lanes⟩ policy required tiers = .ok out ↔
      Admits profile required lanes ∧ ∃ ranking,
        kernel.rank profile policy tiers (lanes.flatMap (·.candidates)) = .ok ranking ∧
          out = .of profile (gathered lanes) ranking := by
  rw [CompositionKernel.composeRequired, bind_eq_ok]
  simp only [admittedLanes_eq_ok, bind_eq_ok, Except.ok.injEq]
  constructor
  · rintro ⟨_, ⟨ha, rfl⟩, ranking, hr, rfl⟩; exact ⟨ha, ranking, hr, rfl⟩
  · rintro ⟨ha, ranking, hr, rfl⟩; exact ⟨_, ⟨ha, rfl⟩, ranking, hr, rfl⟩

variable (hout : kernel.composeRequired ⟨profile, lanes⟩ policy required tiers = .ok out)
include hp hout

/-- The lanes in another order give an output that may differ in two of its lists. -/
theorem composeRequired_perm :
    kernel.composeRequired ⟨profile, lanes'⟩ policy required tiers = .ok { out with
      freshness := (gathered lanes').freshness
      laneCheckpoints := (gathered lanes').laneCheckpoints } := by
  obtain ⟨ha, ranking, hr, rfl⟩ := composeRequired_eq_ok.mp hout
  refine composeRequired_eq_ok.mpr ⟨ha.perm hp, ranking, ?_, ?_⟩
  · rw [← rank_perm ha hp, hr]
  · simp only [CompositionOutputV1.of, gathered, ofList_lanes_perm ha hp]

theorem composeRequired_perm_iff :
    kernel.composeRequired ⟨profile, lanes'⟩ policy required tiers = .ok out ↔
      (gathered lanes').freshness = (gathered lanes).freshness ∧
        (gathered lanes').laneCheckpoints = (gathered lanes).laneCheckpoints := by
  obtain ⟨-, ranking, -, heq⟩ := composeRequired_eq_ok.mp hout
  rw [composeRequired_perm hp hout, heq, Except.ok.injEq]
  simp only [CompositionOutputV1.of, CompositionOutputV1.mk.injEq, true_and, and_true]

end Compose

/-- Whether lanes compose does not depend on their order, and what they compose to is the same for
every order exactly when every two of them are interchangeable. -/
theorem composition_independent_of_lane_order (kernel : CompositionKernel)
    (input : FusionStageInput) (policy : DiversityPolicy) (required : List RetrieverKind)
    (tiers : AnchorTiers) :
    (∀ lanes, lanes.Perm input.lanes →
      ((kernel.composeRequired { input with lanes } policy required tiers).isOk =
        (kernel.composeRequired input policy required tiers).isOk)) ∧
    ∀ out, kernel.composeRequired input policy required tiers = .ok out →
      ((∀ lanes, lanes.Perm input.lanes →
          kernel.composeRequired { input with lanes } policy required tiers = .ok out) ↔
        ∀ a ∈ input.lanes, ∀ b ∈ input.lanes, Interchangeable a b) := by
  obtain ⟨profile, lanes⟩ := input
  constructor
  · intro lanes' hp
    have hok : ∀ {lanes lanes' : List CompositionLaneInput}, lanes.Perm lanes' →
        (kernel.composeRequired ⟨profile, lanes⟩ policy required tiers).isOk = true →
        (kernel.composeRequired ⟨profile, lanes'⟩ policy required tiers).isOk = true := by
      intro lanes lanes' hp h
      cases hout : kernel.composeRequired ⟨profile, lanes⟩ policy required tiers with
      | error e => simp [hout, Except.isOk, Except.toBool] at h
      | ok out => rw [composeRequired_perm hp hout]; rfl
    exact Bool.eq_iff_iff.mpr ⟨hok hp, hok hp.symm⟩
  · intro out hout
    have hiff : (∀ lanes', lanes'.Perm lanes →
        kernel.composeRequired ⟨profile, lanes'⟩ policy required tiers = .ok out) ↔
        (∀ lanes', lanes'.Perm lanes → (gathered lanes').freshness = (gathered lanes).freshness) ∧
          ∀ lanes', lanes'.Perm lanes →
            (gathered lanes').laneCheckpoints = (gathered lanes).laneCheckpoints := by
      rw [← forall₂_and]; exact forall₂_congr fun lanes' hp => composeRequired_perm_iff hp.symm hout
    refine hiff.trans ?_
    rw [gathered_freshness_perm_iff, gathered_checkpoints_perm_iff]
    constructor
    · rintro ⟨hf, hc⟩ a ha b hb; exact ⟨hf a ha b hb, hc a ha b hb⟩
    · intro h
      exact ⟨fun a ha b hb => (h a ha b hb).freshness, fun a ha b hb => (h a ha b hb).checkpoints⟩

/-! ## Two lanes over one source -/

def label : CanonicalString := ⟨"code", by decide⟩

def observed (observedAt : UtcMicros) : SourceFreshness where
  sourceNamespace := label
  sourceInstance := label
  sourceWatermark := none
  projectionWatermark := none
  observedAt
  sourceGeneration := some 7
  generationLag := none
  compatibility := .current
  policyRevision := label

def laneAt (lane : RetrieverKind) (observedAt : UtcMicros) : CompositionLaneInput where
  lane
  outcome := .complete {
    candidates := [{
      anchorId := label
      logicalEvidenceId := label
      sourceOccurrenceId := label
      fileOccurrenceId := none
      sourceNamespace := label
      repositoryId := none
      sessionOrThreadId := none
      logicalCopyClusterId := none
      logicalCopyEvidenceAnchor := none
      evidenceRole := .primary
      sourceRole := .productionOther
      retriever := lane
      retrieverRevision := label
      scoreDomain := label
      rawScore := 5
      ordinalRank := 0
      exactAdmissionProof := none
      retrieverEvidenceAnchor := label
      freshness := observed observedAt }]
    evidenceByOccurrence := OrdSet.ofList [label]
    coverage := ⟨1, 1, 0, 0, 0⟩
    continuation := none }

def twoLaneProfile : FusionProfile where
  profileId := label
  evaluationResultAnchor := label
  calibrations := .ofList [(.lexical, label), (.graph, label)]
  scoreDomainCalibrations := .ofList [(label, ⟨label, label, 0, 10⟩)]
  minimumCalibratedFeatureMicros := .empty
  weightsMicros := .ofList [(.lexical, 1000000), (.graph, 1000000)]

def uncapped : DiversityPolicy := ⟨none, none, none, none, none, none, none, none⟩

def composeTwo (lanes : List CompositionLaneInput) : Except FusionStageError CompositionOutputV1 :=
  CompositionKernel.composeRequired ⟨label⟩ ⟨twoLaneProfile, lanes⟩ uncapped [.lexical] .empty

theorem two_orders_of_lanes : ∃ out, composeTwo [laneAt .lexical 1, laneAt .graph 1] = .ok out ∧
      ∀ lanes, lanes.Perm [laneAt .lexical 1, laneAt .graph 1] → composeTwo lanes = .ok out := by
  have hok : (composeTwo [laneAt .lexical 1, laneAt .graph 1]).isOk = true := by decide +kernel
  cases hout : composeTwo [laneAt .lexical 1, laneAt .graph 1] with
  | error e => rw [hout] at hok; cases hok
  | ok out =>
    refine ⟨out, rfl, ((composition_independent_of_lane_order _ _ _ _ _).2 out hout).mpr ?_⟩
    have hsame : ∀ lane l' : RetrieverKind, Interchangeable (laneAt lane 1) (laneAt l' 1) :=
      fun lane l' => ⟨fun key => rfl, fun c hc => by cases hc⟩
    simp only [forall_mem_cons, not_mem_nil, false_implies, implies_true, and_true]
    exact ⟨⟨hsame _ _, hsame _ _⟩, hsame _ _, hsame _ _⟩

theorem lane_order_shows_in_freshness :
    (composeTwo [laneAt .lexical 1, laneAt .graph 2]).map (·.freshness) =
        .ok [observed 1, observed 2] ∧
      (composeTwo [laneAt .graph 2, laneAt .lexical 1]).map (·.freshness) =
        .ok [observed 2, observed 1] := by
  constructor
  · decide +kernel
  · decide +kernel

end TraceDecay.Composition
