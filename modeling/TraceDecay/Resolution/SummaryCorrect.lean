import TraceDecay.Resolution.Summary

/-!
# Resolution.SummaryCorrect

Which summaries are rejected. The chain of predecessors is a relation; the walks of the code follow
it until it ends, returns or meets an obstacle.
-/

namespace TraceDecay.Resolution

open Domain Context Relation List

section Chain

variable (byId : SummariesById) (localRejections : Rejections)

/-- The first of the two is the summary that the second names as the one before it. -/
def Precedes (t s : SessionSummaryRecordV1) : Prop :=
  ∃ p, s.predecessorSummaryId = some p ∧ byId.find? p = some t

def Cyclic (s : SessionSummaryRecordV1) : Prop :=
  ∃ t, ReflTransGen (Precedes byId) t s ∧ TransGen (Precedes byId) t t

/-- Somewhere on the chain the predecessor is missing, locally rejected or regressed from. -/
def Broken (s : SessionSummaryRecordV1) : Prop :=
  ∃ c p, ReflTransGen (Precedes byId) c s ∧ c.predecessorSummaryId = some p ∧
    (byId.find? p = none ∨ localRejections.contains p = true ∨
      ∃ t, byId.find? p = some t ∧ regresses c t = true)

/-- How a chain ends: with a summary that names no predecessor, or at its first obstacle. -/
inductive ChainEnds : SessionSummaryRecordV1 → Option SummaryLineageRejection → Prop
  | first {s} : s.predecessorSummaryId = none → ChainEnds s none
  | missing {s p} : s.predecessorSummaryId = some p → byId.find? p = none →
      ChainEnds s (some (.missingPredecessor p))
  | rejected {s t p} : s.predecessorSummaryId = some p → byId.find? p = some t →
      localRejections.contains p = true → ChainEnds s (some (.ineligiblePredecessor p))
  | regressing {s t p} : s.predecessorSummaryId = some p → byId.find? p = some t →
      localRejections.contains p = false → regresses s t = true →
      ChainEnds s (some (.horizonRegression p))
  | further {s t p o} : s.predecessorSummaryId = some p → byId.find? p = some t →
      localRejections.contains p = false → regresses s t = false → ChainEnds t o → ChainEnds s o

variable {byId localRejections} {s t u : SessionSummaryRecordV1}
  {o o' : Option SummaryLineageRejection}

variable (ht : Precedes byId t s)
include ht

theorem Precedes.unique (hu : Precedes byId u s) : t = u := by
  obtain ⟨p, hp, htp⟩ := ht
  obtain ⟨q, hq, huq⟩ := hu
  obtain rfl : p = q := Option.some.inj (hp.symm.trans hq)
  exact Option.some.inj (htp.symm.trans huq)

theorem Cyclic.next (h : Cyclic byId t) : Cyclic byId s := by
  obtain ⟨x, hx, hc⟩ := h
  exact ⟨x, hx.tail ht, hc⟩

theorem Broken.next (h : Broken byId localRejections t) : Broken byId localRejections s := by
  obtain ⟨c, p, hc, hb⟩ := h
  exact ⟨c, p, hc.tail ht, hb⟩

/-- A cycle that the chain of a summary comes to is on the chain of its predecessor. -/
theorem Cyclic.back (h : Cyclic byId s) : Cyclic byId t := by
  obtain ⟨x, hx, hc⟩ := h
  rcases hx.cases_tail with rfl | ⟨y, hxy, hys⟩
  · obtain ⟨y, hsy, hys⟩ := TransGen.tail'_iff.mp hc
    obtain rfl := hys.unique ht
    exact ⟨y, .refl, .head' hys hsy⟩
  · obtain rfl := hys.unique ht; exact ⟨x, hxy, hc⟩

omit ht

theorem not_cyclic_of_acc (h : Acc (Precedes byId) s) : ¬ Cyclic byId s := by
  induction h with
  | intro s _ ih =>
    rintro hc
    obtain ⟨t, ht⟩ : ∃ t, Precedes byId t s := by
      obtain ⟨x, hx, hloop⟩ := hc
      rcases hx.cases_tail with rfl | ⟨y, -, hys⟩
      · obtain ⟨y, -, hys⟩ := TransGen.tail'_iff.mp hloop; exact ⟨y, hys⟩
      · exact ⟨y, hys⟩
    exact ih t ht (hc.back ht)

variable (h : ChainEnds byId localRejections s o)
include h

theorem ChainEnds.unique (h' : ChainEnds byId localRejections s o') : o = o' := by
  induction h with
  | _ => cases h' <;> simp_all

theorem ChainEnds.broken {r : SummaryLineageRejection}
    (ho : o = some r) : Broken byId localRejections s := by
  induction h with
  | first => cases ho
  | missing hp hf => exact ⟨_, _, .refl, hp, .inl hf⟩
  | rejected hp _ hrej => exact ⟨_, _, .refl, hp, .inr (.inl hrej)⟩
  | regressing hp hf _ hreg => exact ⟨_, _, .refl, hp, .inr (.inr ⟨_, hf, hreg⟩)⟩
  | further hp hf _ _ _ ih => exact (ih ho).next ⟨_, hp, hf⟩

theorem ChainEnds.not_broken (ho : o = none) : ¬ Broken byId localRejections s := by
  induction h with
  | first hp =>
    rintro ⟨c, p, hc, hcp, -⟩
    rcases hc.cases_tail with rfl | ⟨y, -, q, hq, -⟩ <;> simp_all
  | further hp hf hrej hreg _ ih =>
    rintro ⟨c, p, hc, hcp, hb⟩
    rcases hc.cases_tail with rfl | ⟨y, hcy, hys⟩
    · obtain rfl := Option.some.inj (hp.symm.trans hcp); simp_all
    · obtain rfl := hys.unique ⟨_, hp, hf⟩; exact ih ho ⟨c, p, hcy, hcp, hb⟩
  | missing | rejected | regressing => cases ho

/-! ## The walks -/

omit h

/-- A walk has come to the cursor from every summary it has passed, and has turns left for every
one it has not. -/
structure Walked (byId : SummariesById) (fuel : Nat) (visited : Finset SessionSummaryIdV1)
    (cursor : SessionSummaryRecordV1) : Prop where
  passed : ∀ v ∈ visited, ∃ x, byId.find? v = some x ∧ ReflTransGen (Precedes byId) cursor x
  turns : visited.card + fuel = byId.keys.length + 2

variable {fuel : Nat} {visited : Finset SessionSummaryIdV1} {p : SessionSummaryIdV1}

theorem Walked.start (hs : byId.find? s.summaryId = some s) :
    Walked byId (byId.keys.length + 1) {s.summaryId} s where
  passed v hv := by
    obtain rfl := Finset.mem_singleton.mp hv
    exact ⟨s, hs, .refl⟩
  turns := by
    rw [Finset.card_singleton]; omega

theorem Walked.fuel_ne_zero (h : Walked byId fuel visited s) : fuel ≠ 0 := by
  have hk : visited ⊆ byId.keys.toFinset := by
    intro v hv
    obtain ⟨x, hx, -⟩ := h.passed v hv
    exact mem_toFinset.mpr (OrdMap.mem_keys.mpr (by rw [hx]; rfl))
  have hc := (Finset.card_le_card hk).trans (toFinset_card_le _)
  have ht := h.turns
  omega

theorem Walked.step (h : Walked byId (fuel + 1) visited s) (hp : s.predecessorSummaryId = some p)
    (hnew : p ∉ visited) (ht : byId.find? p = some t) :
    Walked byId fuel (insert p visited) t where
  passed v hv := by
    rcases Finset.mem_insert.mp hv with rfl | hv
    · exact ⟨t, ht, .refl⟩
    · obtain ⟨x, hx, hsx⟩ := h.passed v hv; exact ⟨x, hx, hsx.head ⟨p, hp, ht⟩⟩
  turns := by
    rw [Finset.card_insert_of_notMem hnew]
    have := h.turns
    omega

theorem Walked.cyclic (h : Walked byId fuel visited s) (hp : s.predecessorSummaryId = some p)
    (hold : p ∈ visited) : Cyclic byId s := by
  obtain ⟨x, hx, hsx⟩ := h.passed p hold
  have hxs : Precedes byId x s := ⟨p, hp, hx⟩
  exact ⟨x, .single hxs, .head' hxs hsx⟩

theorem chainReturns_spec (h : Walked byId fuel visited s) :
    (chainReturns byId fuel visited s = true ∧ Cyclic byId s) ∨
      (chainReturns byId fuel visited s = false ∧ Acc (Precedes byId) s) := by
  induction fuel generalizing visited s with
  | zero => exact absurd rfl h.fuel_ne_zero
  | succ fuel ih =>
    rw [chainReturns]
    rcases hp : s.predecessorSummaryId with _ | p
    · refine .inr ⟨rfl, .intro s ?_⟩; rintro y ⟨q, hq, -⟩; simp_all
    by_cases hold : p ∈ visited
    · simp only [hold, if_true]; exact .inl ⟨trivial, h.cyclic hp hold⟩
    simp only [hold, if_false]
    rcases ht : byId.find? p with _ | t
    · refine .inr ⟨rfl, .intro s ?_⟩; rintro y ⟨q, hq, hy⟩; simp_all
    · have hts : Precedes byId t s := ⟨p, hp, ht⟩
      rcases ih (h.step hp hold ht) with ⟨hret, hc⟩ | ⟨hret, hacc⟩
      · exact .inl ⟨hret, hc.next hts⟩
      · refine .inr ⟨hret, .intro s ?_⟩; intro y hy; rwa [hy.unique hts]

theorem chainObstacle_ends (h : Walked byId fuel visited s) (ha : ¬ Cyclic byId s) :
    ChainEnds byId localRejections s (chainObstacle byId localRejections fuel visited s) := by
  induction fuel generalizing visited s with
  | zero => exact absurd rfl h.fuel_ne_zero
  | succ fuel ih =>
    rw [chainObstacle]
    rcases hp : s.predecessorSummaryId with _ | p
    · exact .first hp
    have hold : p ∉ visited := fun hold => ha (h.cyclic hp hold)
    simp only [hold, if_false]
    rcases ht : byId.find? p with _ | t
    · exact .missing hp ht
    dsimp only
    rcases hrej : localRejections.contains p with _ | _
    · rcases hreg : regresses s t with _ | _
      · exact .further hp ht hrej hreg (ih (h.step hp hold ht) fun hc => ha (hc.next ⟨p, hp, ht⟩))
      · exact .regressing hp ht hrej hreg
    · exact .rejected hp ht hrej

variable (localRejections) in
theorem summaryChainRejection_spec (hs : byId.find? s.summaryId = some s) :
    (Cyclic byId s ∧ summaryChainRejection s byId localRejections = some .cycle) ∨
      (Acc (Precedes byId) s ∧
        ChainEnds byId localRejections s (summaryChainRejection s byId localRejections)) := by
  have hstart := Walked.start hs
  unfold summaryChainRejection
  rcases chainReturns_spec hstart with ⟨hret, hc⟩ | ⟨hret, hacc⟩
  · exact .inl ⟨hc, by simp [hret]⟩
  · refine .inr ⟨hacc, ?_⟩; simpa [hret] using chainObstacle_ends hstart (not_cyclic_of_acc hacc)

theorem summaryChainRejection_ne_none (hs : byId.find? s.summaryId = some s) :
    summaryChainRejection s byId localRejections ≠ none ↔
      Cyclic byId s ∨ Broken byId localRejections s := by
  rcases summaryChainRejection_spec localRejections hs with
    ⟨hcyc, hc⟩ | ⟨hacc, he⟩
  · simp [hcyc, hc]
  · rcases hc : summaryChainRejection s byId localRejections with _ | r
    · simp [not_cyclic_of_acc hacc, he.not_broken hc]
    · simp [he.broken hc]

end Chain

/-- The second is the summary before the first, and no horizon of it is later. -/
structure Follows (s t : SessionSummaryRecordV1) : Prop where
  named : s.predecessorSummaryId = some t.summaryId
  knowledge : t.sourceHorizon.knowledgeThrough ≤ s.sourceHorizon.knowledgeThrough
  valid : ∀ v, t.sourceHorizon.validThrough = some v →
    ∃ w, s.sourceHorizon.validThrough = some w ∧ v ≤ w

theorem follows_of_regresses {s t : SessionSummaryRecordV1}
    (hn : s.predecessorSummaryId = some t.summaryId) (h : regresses s t = false) : Follows s t := by
  rw [regresses, Bool.or_eq_false_iff] at h
  refine ⟨hn, by simpa using h.1, fun v hv => ?_⟩
  have hl := h.2
  rw [hv] at hl
  rcases hw : s.sourceHorizon.validThrough with _ | w
  · simp [hw, later] at hl
  · exact ⟨w, rfl, by simpa [hw, later] using hl⟩

/-! ## The maps -/

section Entries

variable {summaries : List SessionSummaryRecordV1} {id : SessionSummaryIdV1}
  {r : SummaryLineageRejection} {f : SessionSummaryRecordV1 → Option SummaryLineageRejection}

theorem mem_rejectionEntries : (id, r) ∈ rejectionEntries f summaries ↔
    ∃ s ∈ summaries, f s = some r ∧ s.summaryId = id := by
  simp [rejectionEntries]

theorem ids_rejectionEntries : ((rejectionEntries f summaries).map Prod.fst).Sublist
    (summaries.map (·.summaryId)) := by
  induction summaries with
  | nil => exact .slnil
  | cons s summaries ih =>
    rcases h : f s with _ | r
    · simpa [rejectionEntries, h] using ih.cons s.summaryId
    · simpa [rejectionEntries, h] using ih

end Entries

/-- What eligibility is evaluated from. -/
structure SummaryQuery where
  summaries : List SessionSummaryRecordV1
  sourceStates : OrdMap RetrievalAnchorId SummarySourceState
  sessionId : SessionId
  mode : TemporalModeV1

namespace SummaryQuery

variable (q : SummaryQuery)

abbrev result : SummaryLineageEligibility :=
  evaluateSummaryLineageEligibility q.summaries q.sourceStates q.sessionId q.mode

abbrev byId : SummariesById := byIdOf q.summaries

variable (s : SessionSummaryRecordV1)

abbrev own : Option SummaryLineageRejection :=
  summarySourceRejection s q.sourceStates q.sessionId q.mode

abbrev owned : Rejections := localRejectionsOf q.summaries q.sourceStates q.sessionId q.mode

def rejection : Option SummaryLineageRejection :=
  (q.own s).or (summaryChainRejection s q.byId q.owned)

def Rejected : Prop := q.result.rejections.contains s.summaryId = true

abbrev Distinct : Prop := (q.summaries.map (·.summaryId)).Nodup

variable {q} {s t : SessionSummaryRecordV1} {id : SessionSummaryIdV1} {r : SummaryLineageRejection}
  (hids : q.Distinct)
include hids

theorem eq_of_id (hs : s ∈ q.summaries) (ht : t ∈ q.summaries) (h : s.summaryId = t.summaryId) :
    s = t := inj_on_of_nodup_map hids hs ht h

theorem find?_byId : q.byId.find? id = some s ↔ s ∈ q.summaries ∧ s.summaryId = id := by
  rw [byId, byIdOf, OrdMap.find?_ofList (by simpa [Function.comp_def] using hids)]
  aesop

theorem find?_owned :
    q.owned.find? id = some r ↔ ∃ s ∈ q.summaries, q.own s = some r ∧ s.summaryId = id := by
  rw [owned, localRejectionsOf, OrdMap.find?_ofList (ids_rejectionEntries.nodup hids),
    mem_rejectionEntries]

theorem find?_self {m : Rejections} {f : SessionSummaryRecordV1 → Option SummaryLineageRejection}
    (hm : ∀ id r, m.find? id = some r ↔ ∃ s ∈ q.summaries, f s = some r ∧ s.summaryId = id)
    (hs : s ∈ q.summaries) : m.find? s.summaryId = f s := by
  ext r
  rw [hm]
  constructor
  · rintro ⟨t, ht, hr, hid⟩; rwa [← eq_of_id hids ht hs hid]
  · exact fun hr => ⟨s, hs, hr, rfl⟩

variable (hs : s ∈ q.summaries)
include hs

theorem contains_owned : q.owned.contains s.summaryId = (q.own s).isSome := by
  rw [OrdMap.contains, find?_self hids (fun _ _ => find?_owned hids) hs]

omit hs in
theorem find?_rejections : q.result.rejections.find? id = some r ↔
    ∃ s ∈ q.summaries, q.rejection s = some r ∧ s.summaryId = id := by
  -- both loops insert into one map, the second only the summaries that the first left out
  change OrdMap.find? (List.foldl _ (List.foldl _ _ _) _) id = some r ↔ _
  rw [← foldl_append, ← OrdMap.ofList, OrdMap.find?_ofList]
  · rw [mem_append, mem_rejectionEntries, mem_rejectionEntries, ← exists_or]
    refine exists_congr fun s => ?_
    by_cases hs : s ∈ q.summaries
    · rw [contains_owned hids hs, rejection]
      rcases hown : q.own s with _ | r' <;> simp [hs, hown]
    · simp [hs]
  · rw [map_append, nodup_append]
    refine ⟨ids_rejectionEntries.nodup hids, ids_rejectionEntries.nodup hids, ?_⟩
    simp only [mem_map, Prod.exists, exists_and_right, exists_eq_right, mem_rejectionEntries]
    rintro id ⟨r, s, hs, hr, rfl⟩ id' ⟨r', t, ht, hr', rfl⟩ hid
    obtain rfl := eq_of_id hids hs ht hid
    simp [contains_owned hids hs, hr] at hr'

theorem find?_rejections_self : q.result.rejections.find? s.summaryId = q.rejection s :=
  find?_self hids (fun _ _ => find?_rejections hids) hs

theorem rejected_iff :
    q.Rejected s ↔ q.own s ≠ none ∨ Cyclic q.byId s ∨ Broken q.byId q.owned s := by
  rw [← summaryChainRejection_ne_none ((find?_byId hids).mpr ⟨hs, rfl⟩), Rejected, OrdMap.contains,
    find?_rejections_self hids hs, rejection]
  rcases q.own s with _ | r <;> simp [Option.isSome_iff_ne_none]

/-! ## Lineage -/

/-- A summary that is not rejected is the first of its chain, or follows one that is not rejected. -/
theorem follows_of_not_rejected (h : ¬ q.Rejected s) : s.predecessorSummaryId = none ∨
      ∃ t ∈ q.summaries, Precedes q.byId t s ∧ Follows s t ∧ ¬ q.Rejected t := by
  rw [rejected_iff hids hs] at h
  push Not at h
  obtain ⟨-, ha, hw⟩ := h
  rcases hp : s.predecessorSummaryId with _ | p
  · exact .inl rfl
  rcases ht : q.byId.find? p with _ | t
  · exact absurd ⟨s, p, .refl, hp, .inl ht⟩ hw
  have hts : Precedes q.byId t s := ⟨p, hp, ht⟩
  obtain ⟨hmem, rfl⟩ := (find?_byId hids).mp ht
  refine .inr ⟨t, hmem, hts, follows_of_regresses hp ?_, ?_⟩
  · refine Bool.eq_false_iff.mpr fun hreg => hw ?_
    exact ⟨s, _, .refl, hp, .inr (.inr ⟨t, ht, hreg⟩)⟩
  · rw [rejected_iff hids hmem]
    rintro (hl | hc | hb)
    · refine hw ⟨s, _, .refl, hp, .inr (.inl ?_)⟩
      rwa [contains_owned hids hmem, Option.isSome_iff_ne_none]
    · exact ha (hc.next hts)
    · exact hw (hb.next hts)

omit hs in
/-- A finite chain of summaries that follow one another from the given one, none of them rejected. -/
def Whole (q : SummaryQuery) (s : SessionSummaryRecordV1) : Prop :=
  ∃ chain : List SessionSummaryRecordV1, List.IsChain Follows (s :: chain) ∧
    ((s :: chain).getLast (cons_ne_nil s chain)).predecessorSummaryId = none ∧
    ∀ t ∈ chain, t ∈ q.summaries ∧ ¬ q.Rejected t

theorem whole_of_not_rejected (h : ¬ q.Rejected s) : q.Whole s := by
  have hacc : Acc (Precedes q.byId) s := by
    rcases summaryChainRejection_spec .empty ((find?_byId hids).mpr ⟨hs, rfl⟩) with
      ⟨hc, -⟩ | ⟨hacc, -⟩
    · exact absurd ((rejected_iff hids hs).mpr (.inr (.inl hc))) h
    · exact hacc
  induction hacc with
  | intro s _ ih =>
    rcases follows_of_not_rejected hids hs h with hfirst | ⟨t, ht, hts, hf, hk⟩
    · exact ⟨[], .singleton s, hfirst, by simp⟩
    · obtain ⟨chain, hchain, hl, hmem⟩ := ih t hts ht hk
      refine ⟨t :: chain, .cons_cons hf hchain, by simpa using hl, ?_⟩
      rintro u (_ | ⟨_, hu⟩)
      · exact ⟨ht, hk⟩
      · exact hmem u hu

omit hs in
/-- Eligible, and not the predecessor of an eligible summary. -/
def Newest (q : SummaryQuery) (s : SessionSummaryRecordV1) : Prop :=
  ¬ q.Rejected s ∧ ∀ t ∈ q.summaries, ¬ q.Rejected t → t.predecessorSummaryId ≠ some s.summaryId

omit hids in
theorem mem_eligibleIds :
    s.summaryId ∈ eligibleIdsOf q.summaries q.result.rejections ↔ ¬ q.Rejected s := by
  simp only [eligibleIdsOf, mem_toFinset, mem_map, mem_filter, Rejected]
  constructor
  · rintro ⟨t, ⟨-, hk⟩, hid⟩; rw [← hid]; simpa using hk
  · intro h; exact ⟨s, ⟨hs, by simpa using h⟩, rfl⟩

omit hs

omit hids in
theorem mem_eligibleAnchorIds (hm : q.mode = .current) {a : RetrievalAnchorId} :
    a ∈ q.result.eligibleAnchorIds ↔ ∃ s ∈ q.summaries, s.summaryAnchorId = a ∧ q.Newest s := by
  simp only [result, evaluateSummaryLineageEligibility, mem_toFinset, mem_map,
    mem_filter, Bool.and_eq_true, decide_eq_true_eq]
  simp only [suppressedIdsOf, if_pos hm, mem_toFinset, mem_filter, mem_filterMap, decide_eq_true_eq]
  refine exists_congr fun s => ?_
  constructor
  · rintro ⟨⟨hs, hk, hl⟩, ha⟩
    refine ⟨hs, ha, (mem_eligibleIds hs).mp hk, fun t ht helig hp => hl ?_⟩
    exact ⟨⟨t, ⟨ht, (mem_eligibleIds ht).mpr helig⟩, hp⟩, hk⟩
  · rintro ⟨hs, ha, hk, hl⟩
    refine ⟨⟨hs, (mem_eligibleIds hs).mpr hk, ?_⟩, ha⟩
    rintro ⟨⟨t, ⟨ht, helig⟩, hp⟩, -⟩; exact hl t ht ((mem_eligibleIds ht).mp helig) hp

theorem rejections_perm {summaries : List SessionSummaryRecordV1} (h : q.summaries.Perm summaries) :
    q.result.rejections = { q with summaries }.result.rejections := by
  have hi' : { q with summaries }.Distinct := (h.map _).nodup_iff.mp hids
  have hb : q.byId = byIdOf summaries :=
    OrdMap.ext fun id => Option.ext fun s => by rw [find?_byId hids, find?_byId hi', h.mem_iff]
  have ho : q.owned = { q with summaries }.owned := OrdMap.ext fun id => Option.ext fun r => by
      simp only [find?_owned hids, find?_owned hi', h.mem_iff]
  refine OrdMap.ext fun id => Option.ext fun r => ?_
  simp only [find?_rejections hids, find?_rejections hi', rejection, hb, ho, h.mem_iff]

/-- A summary takes part exactly when its whole lineage does, in whatever order they are given. -/
theorem summary_lineage_closed : (∀ s ∈ q.summaries, ¬ q.Rejected s → q.Whole s) ∧
    (∀ s ∈ q.summaries, q.Rejected s ↔ q.own s ≠ none ∨ Cyclic q.byId s ∨ Broken q.byId q.owned s) ∧
    (q.mode = .current → ∀ anchor, anchor ∈ q.result.eligibleAnchorIds ↔
      ∃ s ∈ q.summaries, s.summaryAnchorId = anchor ∧ q.Newest s) ∧
    ∀ summaries, q.summaries.Perm summaries →
      let result := { q with summaries }.result
      q.result.eligibleAnchorIds = result.eligibleAnchorIds ∧
        q.result.suppressedSummaryIds = result.suppressedSummaryIds ∧
        q.result.rejections = result.rejections := by
  refine ⟨fun s hs => whole_of_not_rejected hids hs, fun s hs => rejected_iff hids hs,
    fun hm _ => mem_eligibleAnchorIds hm, fun summaries hp => ?_⟩
  have hr := rejections_perm hids hp
  have he (rejections) : eligibleIdsOf q.summaries rejections =
      eligibleIdsOf summaries rejections :=
    toFinset_eq_of_perm _ _ ((hp.filter _).map _)
  have hsupp (ids) : suppressedIdsOf q.summaries q.mode ids =
      suppressedIdsOf summaries q.mode ids := by
    unfold suppressedIdsOf
    rw [toFinset_eq_of_perm _ _ (((hp.filter _).filterMap _).filter _)]
  dsimp only [result, evaluateSummaryLineageEligibility] at hr ⊢
  rw [hr, he, hsupp]; exact ⟨toFinset_eq_of_perm _ _ ((hp.filter _).map _), rfl, rfl⟩

omit hids

def first : SessionSummaryIdV1 := ⟨"s1", by decide⟩

def second : SessionSummaryIdV1 := ⟨"s2", by decide⟩

def third : SessionSummaryIdV1 := ⟨"s3", by decide⟩

def withheld : RetrievalAnchorId := ⟨"w1", by decide⟩

def covered : RetrievalAnchorId := ⟨"c1", by decide⟩

/-- The second follows a summary whose source may not be shown; the third regresses from it. -/
def regressingChain : SummaryQuery where
  summaries :=
    [⟨first, first, first, [withheld], ⟨0, none⟩, 0, none⟩,
      ⟨second, first, second, [covered], ⟨1, none⟩, 1, some first⟩,
      ⟨third, first, third, [covered], ⟨0, none⟩, 2, some second⟩]
  sourceStates := (OrdMap.empty.insert withheld .unauthorized).insert covered (.covered 0 (.known 0))
  sessionId := first
  mode := .current

theorem summary_lineage_closed_regressing : regressingChain.Distinct ∧
    ∀ s ∈ regressingChain.summaries, regressingChain.Rejected s ↔ regressingChain.own s ≠ none ∨
      Cyclic regressingChain.byId s ∨ Broken regressingChain.byId regressingChain.owned s :=
  ⟨by decide, (summary_lineage_closed (by decide)).2.1⟩

end SummaryQuery

end TraceDecay.Resolution
