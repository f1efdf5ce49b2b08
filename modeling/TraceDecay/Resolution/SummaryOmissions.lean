import TraceDecay.Resolution.SummaryCorrect

/-!
# Resolution.SummaryOmissions

What the published omissions give away of the summaries that are hidden. A summary is hidden for
its own sources or session, or because the first obstacle on its chain is such a summary.
-/

namespace TraceDecay.Resolution

open Domain Context Option

/-- The summary that a rejection names. -/
def predecessorNamed : SummaryLineageRejection → Option SessionSummaryIdV1
  | .missingPredecessor p | .ineligiblePredecessor p | .horizonRegression p => some p
  | _ => none

def withholds : SummaryLineageRejection → Bool
  | .unauthorizedSource _ | .sessionMismatch => true
  | _ => false

section Rejections

variable {r : SummaryLineageRejection}

theorem hidesDetails_rejectionClass {rejections : Rejections} {fuel : Nat}
    {v : Finset SessionSummaryIdV1} (h : predecessorNamed r = none) :
    (rejectionClass rejections (fuel + 1) v r).hidesDetails = withholds r := by
  cases r <;> first | rfl | cases h

theorem mem_preferSummaryRejection {current : Option SummaryLineageRejection}
    {c : SummaryLineageRejection} (h : preferSummaryRejection current c = some r) :
    r = c ∨ current = some r := by
  unfold preferSummaryRejection at h
  split at h
  · exact .inl (Option.some.inj h).symm
  · split at h
    · exact .inl (Option.some.inj h).symm
    · exact .inr h

theorem predecessorNamed_of_own {q : SummaryQuery} {s : SessionSummaryRecordV1}
    (h : q.own s = some r) : predecessorNamed r = none := by
  unfold SummaryQuery.own summarySourceRejection at h
  split at h
  · cases h; rfl
  revert h
  refine List.foldlRecOn (motive := fun c => c = some r → predecessorNamed r = none)
    s.sourceAnchors _ ?_ ?_
  · intro h
    unfold cutoffRejection at h
    grind [preferSummaryRejection, predecessorNamed]
  · intro c hcurrent a _ h
    split at h
    · rename_i candidate hcandidate
      rcases mem_preferSummaryRejection h with rfl | h
      · unfold sourceCandidate at hcandidate
        grind [predecessorNamed]
      · exact hcurrent h
    · exact hcurrent h

/-- The obstacle that a rejection of the chain tells of. -/
theorem ChainEnds.obstacle {byId : SummariesById} {l : Rejections} {s : SessionSummaryRecordV1}
    {o : Option SummaryLineageRejection} (h : ChainEnds byId l s o) (ho : o = some r) :
    (∃ p, r = .missingPredecessor p ∧ byId.find? p = none) ∨
      (∃ p, r = .ineligiblePredecessor p ∧ l.contains p = true) ∨
      ∃ c t p, r = .horizonRegression p ∧
        (c = s ∨ ∃ q, byId.find? q = some c ∧ l.contains q = false) ∧
        c.predecessorSummaryId = some p ∧ byId.find? p = some t ∧
        l.contains p = false ∧ regresses c t = true := by
  induction h with
  | first => cases ho
  | missing _ hfind => cases ho; exact .inl ⟨_, rfl, hfind⟩
  | rejected _ _ hrej => cases ho; exact .inr (.inl ⟨_, rfl, hrej⟩)
  | regressing hp hfind hrej hreg =>
    cases ho; exact .inr (.inr ⟨_, _, _, rfl, .inl rfl, hp, hfind, hrej, hreg⟩)
  | further _ hfind hrej _ _ ih =>
    rcases ih ho with hmissing | hrejected | ⟨c, t, p, hr, hc, hrest⟩
    · exact .inl hmissing
    · exact .inr (.inl hrejected)
    · refine .inr (.inr ⟨c, t, p, hr, .inr ?_, hrest⟩)
      rcases hc with rfl | hc
      · exact ⟨_, hfind, hrej⟩
      · exact hc

end Rejections

namespace SummaryQuery

variable (q : SummaryQuery)

/-- The recorded rejection, followed through the predecessors it names, hides the summary. -/
def Hidden (s : SessionSummaryRecordV1) : Prop :=
  ∃ r, q.result.rejections.find? s.summaryId = some r ∧
    (summaryRejectionClass r q.result.rejections).hidesDetails = true

/-- Hidden for a source it may not show or for its session. -/
def Withheld (s : SessionSummaryRecordV1) : Prop := ∃ r, q.own s = some r ∧ withholds r = true

/-- Acceptable on its own, with a withheld summary as the first obstacle on its chain. -/
def Veiled (s : SessionSummaryRecordV1) : Prop :=
  q.own s = none ∧ ¬ Cyclic q.byId s ∧ ∃ v ∈ q.summaries, q.Withheld v ∧
      ChainEnds q.byId q.owned s (some (.ineligiblePredecessor v.summaryId))

def Concealed (s : SessionSummaryRecordV1) : Prop := q.Withheld s ∨ q.Veiled s

/-- No published entry mentions a hidden summary. -/
def Traceless : Prop :=
  ∀ h ∈ q.summaries, q.Hidden h →
    (∀ o ∈ publicSummaryOmissions q.result, o.summaryId ≠ h.summaryId ∧
      o.anchorId ≠ h.summaryAnchorId ∧ predecessorNamed o.rejection ≠ some h.summaryId) ∧
    ∀ o ∈ publicOmissions q.result, o.anchorId ≠ some h.summaryAnchorId

/-- No summary regresses from a veiled one. -/
def RegressionsClear : Prop :=
  ∀ t ∈ q.summaries, ∀ u ∈ q.summaries, t.predecessorSummaryId = some u.summaryId →
    q.own t = none → regresses t u = true → ¬ q.Veiled u

/-- No rejected summary that is shown has the anchor of a concealed one. -/
def AnchorsApart : Prop :=
  ∀ s ∈ q.summaries, ∀ h ∈ q.summaries, s.summaryAnchorId = h.summaryAnchorId →
    q.Concealed h → q.own s ≠ none ∨ Cyclic q.byId s ∨ Broken q.byId q.owned s →
    q.Concealed s

variable {q} {s t : SessionSummaryRecordV1} {r : SummaryLineageRejection} (hids : q.Distinct)
  (hs : s ∈ q.summaries)
include hids hs

theorem hidden_of_rejection (hr : q.rejection s = some r) :
    q.Hidden s ↔ (summaryRejectionClass r q.result.rejections).hidesDetails = true := by
  simp [Hidden, find?_rejections_self hids hs, hr]

omit hids hs in
theorem rejection_of_own (hr : q.own s = some r) : q.rejection s = some r := by
  rw [rejection, hr, some_or]

theorem hidesDetails_ineligiblePredecessor (hr : q.own s = some r) :
    (summaryRejectionClass (.ineligiblePredecessor s.summaryId) q.result.rejections).hidesDetails =
      withholds r := by
  have hfind := (find?_rejections_self hids hs).trans (rejection_of_own hr)
  rw [summaryRejectionClass, rejectionClass]
  simp only [Finset.notMem_empty, if_false, hfind]
  exact hidesDetails_rejectionClass (predecessorNamed_of_own hr)

omit hs in
theorem mem_publicSummaryOmissions {o : SummaryOmission} :
    o ∈ publicSummaryOmissions q.result ↔ ∃ s ∈ q.summaries, ∃ r, q.rejection s = some r ∧
      ¬ q.Hidden s ∧ o = ⟨s.summaryId, s.summaryAnchorId, r⟩ := by
  have homissions : q.result.omissions = q.summaries.filterMap fun s =>
      (q.result.rejections.find? s.summaryId).map fun r =>
        ⟨s.summaryId, s.summaryAnchorId, r⟩ := rfl
  simp only [publicSummaryOmissions, homissions, List.mem_filter, List.mem_filterMap,
    map_eq_some_iff]
  constructor
  · rintro ⟨⟨s, hs, r, hr, rfl⟩, hshown⟩
    rw [find?_rejections_self hids hs] at hr
    refine ⟨s, hs, r, hr, ?_, rfl⟩
    rw [hidden_of_rejection hids hs hr]; simpa using hshown
  · rintro ⟨s, hs, r, hr, hshown, rfl⟩
    rw [hidden_of_rejection hids hs hr] at hshown
    exact ⟨⟨s, hs, r, by rw [find?_rejections_self hids hs, hr], rfl⟩, by simpa using hshown⟩

theorem rejection_of_chain (hown : q.own s = none) :
    (Cyclic q.byId s ∧ q.rejection s = some .cycle) ∨
      (¬ Cyclic q.byId s ∧ ChainEnds q.byId q.owned s (q.rejection s)) := by
  rw [rejection, hown, none_or]
  rcases summaryChainRejection_spec q.owned ((find?_byId hids).mpr ⟨hs, rfl⟩) with
    hcyclic | ⟨hacc, hends⟩
  · exact .inl hcyclic
  · exact .inr ⟨not_cyclic_of_acc hacc, hends⟩

theorem hidden_iff : q.Hidden s ↔ q.Concealed s := by
  rcases hown : q.own s with _ | r
  · have hnot : ¬ q.Withheld s := by
      rintro ⟨r, hr, -⟩; cases hown.symm.trans hr
    rcases rejection_of_chain hids hs hown with ⟨hcyclic, hr⟩ | ⟨hacyclic, hends⟩
    · rw [hidden_of_rejection hids hs hr]
      simp [Concealed, Veiled, hcyclic, hnot, summaryRejectionClass, rejectionClass,
        SummaryRejectionClass.hidesDetails]
    constructor
    · rintro ⟨r, hr, hhides⟩
      rw [find?_rejections_self hids hs] at hr
      rcases hends.obstacle hr with ⟨p, rfl, -⟩ | ⟨p, rfl, hp⟩ | ⟨c, t, p, rfl, -⟩
      · cases hhides
      · obtain ⟨r', hfound⟩ := isSome_iff_exists.mp hp
        obtain ⟨v, hv, hr', rfl⟩ := (find?_owned hids).mp hfound
        refine .inr ⟨hown, hacyclic, v, hv, ⟨r', hr', ?_⟩, hr ▸ hends⟩
        rwa [← hidesDetails_ineligiblePredecessor hids hv hr']
      · cases hhides
    · rintro (hwithheld | ⟨-, -, v, hv, ⟨r', hr', hwithholds⟩, hends'⟩)
      · exact absurd hwithheld hnot
      · rw [hidden_of_rejection hids hs (hends.unique hends'),
          hidesDetails_ineligiblePredecessor hids hv hr', hwithholds]
  · rw [hidden_of_rejection hids hs (rejection_of_own hown), summaryRejectionClass,
      hidesDetails_rejectionClass (predecessorNamed_of_own hown)]
    simp [Concealed, Withheld, Veiled, hown]

/-- Where no summary regresses from a veiled one, a summary whose rejection names a concealed one is
itself concealed. -/
theorem concealed_of_named (hregress : q.RegressionsClear) (ht : t ∈ q.summaries)
    (hconcealed : q.Concealed t) (hr : q.rejection s = some r)
    (hnamed : predecessorNamed r = some t.summaryId) : q.Concealed s := by
  rcases hown : q.own s with _ | r'
  · rcases rejection_of_chain hids hs hown with ⟨-, hcycle⟩ | ⟨hacyclic, hends⟩
    · obtain rfl := Option.some.inj (hcycle.symm.trans hr); cases hnamed
    rcases hends.obstacle hr with
      ⟨p, rfl, hp⟩ | ⟨p, rfl, hp⟩ | ⟨c, u, p, rfl, hc, hpred, hu, hp, hreg⟩
    · cases hnamed; cases hp.symm.trans ((find?_byId hids).mpr ⟨ht, rfl⟩)
    · cases hnamed
      rw [contains_owned hids ht] at hp
      rcases hconcealed with hwithheld | hveiled
      · exact .inr ⟨hown, hacyclic, t, ht, hwithheld, hr ▸ hends⟩
      · simp [hveiled.1] at hp
    · cases hnamed
      obtain rfl := Option.some.inj (hu.symm.trans ((find?_byId hids).mpr ⟨ht, rfl⟩))
      rw [contains_owned hids ht] at hp
      rcases hconcealed with ⟨r', hr', -⟩ | hveiled
      · simp [hr'] at hp
      · refine absurd hveiled ?_
        rcases hc with rfl | ⟨p, hp', hclean⟩
        · exact hregress _ hs _ ht hpred hown hreg
        · obtain ⟨hmem, rfl⟩ := (find?_byId hids).mp hp'
          rw [contains_owned hids hmem] at hclean
          exact hregress c hmem _ ht hpred (by simpa using hclean) hreg
  · obtain rfl := Option.some.inj ((rejection_of_own hown).symm.trans hr)
    cases (predecessorNamed_of_own hown).symm.trans hnamed

omit hs

theorem traceless_iff : q.Traceless ↔ q.RegressionsClear ∧ q.AnchorsApart := by
  constructor
  · intro h
    constructor
    · rintro t ht u hu hpred hown hreg hveiled
      have hfind := (find?_byId hids).mpr ⟨hu, rfl⟩
      have hshown : q.rejection t = some (.horizonRegression u.summaryId) := by
        rcases rejection_of_chain hids ht hown with ⟨hcyclic, -⟩ | ⟨-, hends⟩
        · exact absurd (hcyclic.back ⟨_, hpred, hfind⟩) hveiled.2.1
        · refine hends.unique (.regressing hpred hfind ?_ hreg)
          rw [contains_owned hids hu, hveiled.1, isSome_none]
      have hmem := (mem_publicSummaryOmissions hids).mpr ⟨t, ht, _, hshown, by
        rw [hidden_of_rejection hids ht hshown]
        exact Bool.false_ne_true, rfl⟩
      exact ((h u hu ((hidden_iff hids hu).mpr (.inr hveiled))).1 _ hmem).2.2 rfl
    · intro s hs u hu hanchor hconcealed hrejected
      by_contra hshown
      rw [← rejected_iff hids hs] at hrejected
      obtain ⟨r, hr⟩ := isSome_iff_exists.mp hrejected
      have hmem := (mem_publicSummaryOmissions hids).mpr
        ⟨s, hs, r, (find?_rejections_self hids hs).symm.trans hr, by rwa [hidden_iff hids hs], rfl⟩
      exact ((h u hu ((hidden_iff hids hu).mpr hconcealed)).1 _ hmem).2.1 hanchor
  · rintro ⟨hregress, hanchors⟩ u hu hhidden
    have hconcealed := (hidden_iff hids hu).mp hhidden
    have hsilent : ∀ o ∈ publicSummaryOmissions q.result,
        o.summaryId ≠ u.summaryId ∧ o.anchorId ≠ u.summaryAnchorId ∧
          predecessorNamed o.rejection ≠ some u.summaryId := by
      intro o ho
      obtain ⟨s, hs, r, hr, hshown, rfl⟩ := (mem_publicSummaryOmissions hids).mp ho
      refine ⟨fun hid => ?_, fun hanchor => ?_, fun hnamed => ?_⟩
      · obtain rfl := eq_of_id hids hs hu hid; exact hshown hhidden
      · refine hshown ((hidden_iff hids hs).mpr (hanchors s hs u hu hanchor hconcealed ?_))
        rw [← rejected_iff hids hs]
        exact isSome_iff_exists.mpr ⟨r, (find?_rejections_self hids hs).trans hr⟩
      · exact hshown ((hidden_iff hids hs).mpr
          (concealed_of_named hids hs hregress hu hconcealed hr hnamed))
    refine ⟨hsilent, ?_⟩
    intro o ho hanchor
    obtain ⟨o', ho', rfl⟩ := List.mem_map.mp ho
    exact (hsilent o' ho').2.1 (Option.some.inj hanchor)

omit hids

theorem traceless_iff_regressing : regressingChain.Distinct ∧ (regressingChain.Traceless ↔
    regressingChain.RegressionsClear ∧ regressingChain.AnchorsApart) :=
  ⟨by decide, traceless_iff (by decide)⟩

/-- The omission of the third summary is published and names the second, which is hidden. -/
theorem regression_names_hidden : regressingChain.Distinct ∧
    publicSummaryOmissions regressingChain.result =
      [⟨third, third, .horizonRegression second⟩] ∧ ¬ regressingChain.Traceless := by
  have hpublished : publicSummaryOmissions regressingChain.result =
      [⟨third, third, .horizonRegression second⟩] := by
    decide +kernel
  refine ⟨by decide, hpublished, fun h => ?_⟩
  have hsecond := h _ (List.mem_cons_of_mem _ List.mem_cons_self)
    ⟨.ineligiblePredecessor first, by decide +kernel, by decide +kernel⟩
  exact (hsecond.1 _ (hpublished ▸ List.mem_singleton_self _)).2.2 rfl

end SummaryQuery

end TraceDecay.Resolution
