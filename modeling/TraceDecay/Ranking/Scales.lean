import TraceDecay.Ranking.Paging

/-!
# Ranking.Scales

Raw scores have a meaning inside one channel and source only. `rescale` replaces the scores of every
partition by its own increasing map; the rows are prepared, partitioned and sorted as before, so
that all ordinals and with them all normalized scores stay. What the fused rows keep of the raw
scores are their contributions, which `bare` leaves out.

The tier of a normalized score is the highest tier of the contributions (`Tiered`).
-/

namespace TraceDecay.Ranking

open Sorting Fallible List

def RankingCandidate.partition (c : RankingCandidate) : PartitionKey :=
  toLex (c.channel, .new c.stableId c.source)

def RankingCandidate.rescale (f : PartitionKey → Int → Int) (c : RankingCandidate) :
    RankingCandidate := { c with rawScore := f c.partition c.rawScore }

/-- Each map is strictly increasing on the scores of its partition. -/
def Increasing (f : PartitionKey → Int → Int) (rows : List RankingCandidate) : Prop :=
  ∀ c ∈ rows, ∀ d ∈ rows, c.partition = d.partition → c.rawScore < d.rawScore →
    f c.partition c.rawScore < f d.partition d.rawScore

def PreparedCandidate.rescale (f : PartitionKey → Int → Int) (p : PreparedCandidate) :
    PreparedCandidate := { p with rawScore := f p.partition p.rawScore }

variable {rows : List RankingCandidate} {prepared : List PreparedCandidate}
  {f : PartitionKey → Int → Int} {id : String}

/-! ## Preparing -/

theorem Filled.rescale {field : RankingCandidate → Option String} {slot : Option String}
    (h : Filled rows id field slot) (hf : ∀ c, field (c.rescale f) = field c) :
    Filled (rows.map (·.rescale f)) id field slot := by
  constructor
  · intro c hc hid v hv
    obtain ⟨d, hd, rfl⟩ := mem_map.mp hc
    exact h.supplied d hd hid v (hf d ▸ hv)
  · intro v hv
    obtain ⟨c, hc, hid, hcv⟩ := h.present v hv
    exact ⟨c.rescale f, mem_map_of_mem hc, hid, (hf c).trans hcv⟩

theorem IsMerged.rescale {m : MergedMetadata} (h : IsMerged rows id m) :
    IsMerged (rows.map (·.rescale f)) id m := by
  obtain ⟨c, hc, hid⟩ := h.nonempty
  exact ⟨⟨c.rescale f, mem_map_of_mem hc, hid⟩, h.stableId,
    forall_mem_map.mpr h.anchorId, forall_mem_map.mpr h.knowledge,
    forall_mem_map.mpr h.source, h.logicalMessage.rescale fun _ => rfl,
    h.turn.rescale fun _ => rfl, h.session.rescale fun _ => rfl,
    h.evidenceRole.rescale fun _ => rfl⟩

theorem IsPrepared.partition {p : PreparedCandidate} (h : IsPrepared rows p) {c : RankingCandidate}
    (hc : c ∈ rows) (hkey : recordKey c = p.key) : c.partition = p.partition := by
  obtain ⟨hid, hr⟩ := Prod.mk.inj (toLex.injective hkey)
  obtain ⟨hchannel, -⟩ := Prod.mk.inj (toLex.injective hr)
  rw [RankingCandidate.partition, PreparedCandidate.partition, h.metadata.source c hc hid, hid,
    hchannel]

theorem PreparedBy.rescale (h : PreparedBy rows prepared) (hf : Increasing f rows) :
    PreparedBy (rows.map (·.rescale f)) (prepared.map (·.rescale f)) := by
  refine ⟨pairwise_map.mpr h.sorted, forall_mem_map.mpr fun c hc => ?_,
    forall_mem_map.mpr fun p hp => ?_⟩
  · obtain ⟨p, hp, hkey⟩ := h.complete c hc; exact ⟨p.rescale f, mem_map_of_mem hp, hkey⟩
  · have he := h.entry p hp
    obtain ⟨c, hc, hkey, hraw⟩ := he.attained
    have hpart := he.partition hc hkey
    refine ⟨⟨c.rescale f, mem_map_of_mem hc, hkey, ?_⟩,
      forall_mem_map.mpr fun d hd hdkey => ?_, he.sorted, fun r => ?_,
      he.metadata.rescale⟩
    · simp only [RankingCandidate.rescale, PreparedCandidate.rescale, hpart, hraw]
    · have hdpart := he.partition hd hdkey
      simp only [RankingCandidate.rescale, PreparedCandidate.rescale]
      rcases lt_or_eq_of_le (he.best d hd hdkey) with hlt | heq
      · have hlt' := hf d hd c hc (hdpart.trans hpart.symm) (hraw ▸ hlt)
        rw [hpart, hraw] at hlt'; exact le_of_lt hlt'
      · rw [hdpart, heq]
    · simp only [mem_map, exists_exists_and_eq_and]; exact he.ranges r

theorem prepareCandidates_rescale (hf : Increasing f rows) :
    prepareCandidates (rows.map (·.rescale f)) =
      (prepareCandidates rows).map (·.map (·.rescale f)) := by
  have hmap : (rows.map (·.rescale f)).foldlM mergeRow .empty = rows.foldlM mergeRow .empty :=
    foldlM_map
  cases hmerged : rows.foldlM mergeRow .empty with
  | error e => rw [prepareCandidates, prepareCandidates, hmap, hmerged]; rfl
  | ok metadata =>
    have hconsistent := consistent_of_mergeRows hmerged
    have hr : Consistent (rows.map (·.rescale f)) := by
      refine forall_mem_map.mpr fun c hc => ?_
      obtain ⟨m, hm⟩ := hconsistent c hc
      exact ⟨m, hm.rescale⟩
    obtain ⟨prepared, hp, hids⟩ := prepareCandidates_of_consistent hconsistent
    obtain ⟨prepared', hp', hby'⟩ := prepareCandidates_of_consistent hr
    rw [hp, hp', hby'.unique (hids.rescale hf)]; rfl

/-! ## Fusing -/

theorem compare_eq_compare {a b a' b' : Int} (hlt : a < b → a' < b') (hgt : b < a → b' < a')
    (heq : a = b → a' = b') : compare a' b' = compare a b := by
  rcases lt_trichotomy a b with h | h | h
  · rw [compare_lt_iff_lt.mpr h, compare_lt_iff_lt.mpr (hlt h)]
  · rw [compare_eq_iff_eq.mpr h, compare_eq_iff_eq.mpr (heq h)]
  · rw [compare_gt_iff_gt.mpr h, compare_gt_iff_gt.mpr (hgt h)]

theorem comparePrepared_rescale (h : PreparedBy rows prepared) (hf : Increasing f rows)
    {p q : PreparedCandidate} (hp : p ∈ prepared) (hq : q ∈ prepared)
    (hpart : p.partition = q.partition) :
    comparePrepared (p.rescale f) (q.rescale f) = comparePrepared p q := by
  have hm : ∀ {p q}, p ∈ prepared → q ∈ prepared → p.partition = q.partition →
      p.rawScore < q.rawScore → f p.partition p.rawScore < f q.partition q.rawScore := by
    intro p q hp hq hpart hlt
    obtain ⟨c, hc, hckey, hcraw⟩ := (h.entry p hp).attained
    obtain ⟨d, hd, hdkey, hdraw⟩ := (h.entry q hq).attained
    have hcpart := (h.entry p hp).partition hc hckey
    have hdpart := (h.entry q hq).partition hd hdkey
    rw [← hcraw, ← hdraw] at hlt ⊢
    rw [← hcpart, ← hdpart] at hpart ⊢; exact hf c hc d hd hpart hlt
  have hraw : compare (q.rescale f).rawScore (p.rescale f).rawScore =
      compare q.rawScore p.rawScore :=
    compare_eq_compare (hm hq hp hpart.symm) (hm hp hq hpart)
      fun heq => by simp only [PreparedCandidate.rescale, hpart, heq]
  rw [comparePrepared, hraw]; rfl

theorem partitionRows_rescale : partitionRows (prepared.map (·.rescale f)) =
      (partitionRows prepared).mapValues (List.map (·.rescale f)) := by
  have he : (.empty : OrdMap PartitionKey (List PreparedCandidate)) =
      OrdMap.mapValues (List.map (PreparedCandidate.rescale f)) .empty := rfl
  rw [partitionRows, partitionRows, foldl_map]
  nth_rewrite 1 [he]
  refine foldl_hom (OrdMap.mapValues _) fun m p => ?_
  refine (OrdMap.mapValues_upsert m _ fun o => ?_).symm
  cases o <;> simp

/-- A ranked row without its contributions. -/
def RankedCandidate.bare (r : RankedCandidate) : RankedCandidate := { r with contributions := [] }

def ScoredFusion.bare (e : ScoredFusion) : ScoredFusion := { e with ranked := e.ranked.bare }

theorem mergeContribution_bare {e e' : ScoredFusion} (h : e.bare = e'.bare) (tier : RankTier)
    (c : Nat) (p p' : RetrieverContribution) :
    (mergeContribution e tier c p).bare = (mergeContribution e' tier c p').bare := by
  have hone : ∀ e p, (mergeContribution e tier c p).bare =
      (mergeContribution e.bare tier c p').bare := by
    intro e p
    have ht : e.bare.tier = e.tier := rfl
    by_cases hgt : tier.toNat > e.tier.toNat
    · simp only [mergeContribution, ht, if_pos hgt]; rfl
    · by_cases heq : tier = e.tier
      · simp only [mergeContribution, ht, if_neg hgt, if_pos heq]; rfl
      · simp only [mergeContribution, ht, if_neg hgt, if_neg heq]; rfl
  rw [hone e p, h, ← hone e' p']

/-- The maps hold the same rows, contributions apart. -/
def SameBare (best best' : BestById) : Prop :=
  best.mapValues ScoredFusion.bare = best'.mapValues ScoredFusion.bare

theorem SameBare.fuseCandidate {best b' : BestById} (h : SameBare best b')
    (c : CandidateChannel) (count i : Nat) (p : PreparedCandidate) :
    SameBare (fuseCandidate c count best (p, i)) (fuseCandidate c count b' (p.rescale f, i)) := by
  refine OrdMap.ext fun k => ?_
  have hs := congrArg (OrdMap.find? · p.stableId) h
  have ho := congrArg (OrdMap.find? · k) h
  simp only [OrdMap.find?_mapValues] at hs ho
  rw [OrdMap.find?_mapValues, OrdMap.find?_mapValues, Ranking.fuseCandidate, Ranking.fuseCandidate,
    OrdMap.find?_upsert, OrdMap.find?_upsert]
  by_cases hk : k = p.stableId
  · have hk' : k = (p.rescale f).stableId := hk
    rw [if_pos hk, if_pos hk']
    cases hold : best.find? p.stableId with
    | none =>
      rw [hold] at hs
      have hnone : b'.find? (p.rescale f).stableId = none := Option.map_eq_none_iff.mp hs.symm
      rw [hnone]; rfl
    | some e =>
      rw [hold] at hs
      obtain ⟨e', he', hb⟩ := Option.map_eq_some_iff.mp hs.symm
      have hf : b'.find? (p.rescale f).stableId = some e' := he'
      rw [hf]; exact congrArg some (mergeContribution_bare hb.symm _ _ _ _)
  · have hk' : ¬ k = (p.rescale f).stableId := hk; rw [if_neg hk, if_neg hk']; exact ho

theorem SameBare.fusePartition {best b' : BestById} (h : SameBare best b')
    (key : PartitionKey) {part : List PreparedCandidate}
    (hc : ∀ p ∈ part, ∀ q ∈ part,
      comparePrepared (p.rescale f) (q.rescale f) = comparePrepared p q) :
    SameBare (fusePartition best (key, part)) (fusePartition b' (key, part.map (·.rescale f))) := by
  rw [Ranking.fusePartition, Ranking.fusePartition, sortBy_map hc, length_map,
    zipIdx_map, foldl_map]
  refine foldl_rel h ?_
  rintro ⟨p, index⟩ - best b' h; exact h.fuseCandidate _ _ _ _

theorem fuseAll_rescale (h : PreparedBy rows prepared) (hf : Increasing f rows) :
    SameBare (fuseAll prepared) (fuseAll (prepared.map (·.rescale f))) := by
  rw [fuseAll, fuseAll, partitionRows_rescale]
  simp only [OrdMap.mapValues, foldl_map]
  refine foldl_rel rfl ?_
  rintro ⟨key, part⟩ hpart best best' hb
  refine hb.fusePartition key fun p hp q hq => ?_
  obtain ⟨hpmem, hpkey⟩ := mem_partitionRows _ hpart p hp
  obtain ⟨hqmem, hqkey⟩ := mem_partitionRows _ hpart q hq
  exact comparePrepared_rescale h hf hpmem hqmem (hpkey.trans hqkey.symm)

theorem diversify_bare (l : DiversityLimits) (c : List Counts) (ranked : List RankedCandidate) :
    (diversify l c ranked).map (·.bare) = diversify l c (ranked.map (·.bare)) := by
  induction ranked generalizing c with
  | nil => rfl
  | cons r rest ih =>
    rw [map_cons, diversify, diversify]
    have hk : r.bare.diversityKeys = r.diversityKeys := rfl
    rw [hk]
    split
    · exact ih c
    · rw [map_cons, ih]

theorem rankPrepared_bare (prepared : List PreparedCandidate) (limits : DiversityLimits) :
    (rankPrepared prepared limits).map (·.bare) = applyDiversity (sortBy compareRanked
        (((fuseAll prepared).mapValues ScoredFusion.bare).values.map (·.finish.bare))) limits := by
  have hs : ∀ l : List RankedCandidate, (sortBy compareRanked l).map (·.bare) =
      sortBy compareRanked (l.map (·.bare)) := by
    intro l
    have hc : ∀ a ∈ l, ∀ b ∈ l, compareRanked a.bare b.bare = compareRanked a b :=
      fun _ _ _ _ => rfl
    exact (sortBy_map hc).symm
  rw [rankPrepared, applyDiversity, diversify_bare, hs, OrdMap.values_mapValues, map_map, map_map]
  rfl

/-! ## Tiers -/

/-- The highest tier of a row's contributions. -/
structure HighestTier (r : RankedCandidate) (tier : RankTier) : Prop where
  attained : ∃ p ∈ r.contributions, rankTier p.channel = tier
  highest : ∀ p ∈ r.contributions, (rankTier p.channel).toNat ≤ tier.toNat

/-- The score is one of the tier. -/
def InTier (score : Nat) (tier : RankTier) : Prop :=
  tier.toNat * tierSpan ≤ score ∧ score < (tier.toNat + 1) * tierSpan

theorem inTier_encodeScore (tier : RankTier) (w : Nat) : InTier (encodeScore tier w) tier := by
  unfold InTier encodeScore tierSpan; omega

def Tiered (e : ScoredFusion) : Prop :=
  HighestTier e.ranked e.tier ∧ InTier e.withinTierScore e.tier

theorem Tiered.merge {e : ScoredFusion} (h : Tiered e) {s : Nat} {p : RetrieverContribution}
    {tier : RankTier} (ht : rankTier p.channel = tier) (hs : InTier s tier) :
    Tiered (mergeContribution e tier s p) := by
  subst ht
  obtain ⟨⟨⟨q, hq, htier⟩, hh⟩, hin⟩ := h
  have hall : ∀ {tier : RankTier}, e.tier.toNat ≤ tier.toNat →
      (rankTier p.channel).toNat ≤ tier.toNat →
      ∀ q ∈ e.ranked.contributions ++ [p], (rankTier q.channel).toNat ≤ tier.toNat := by
    intro tier hold hnew
    exact forall_mem_append.mpr
      ⟨fun q hq => (hh q hq).trans hold, forall_mem_singleton.mpr hnew⟩
  unfold mergeContribution
  split
  · rename_i hgt; exact ⟨⟨⟨p, by simp, rfl⟩, hall (Nat.le_of_lt hgt) (Nat.le_refl _)⟩, hs⟩
  rename_i hle
  have hle' := hall (Nat.le_refl _) (Nat.le_of_not_gt hle)
  split
  · rename_i heq
    refine ⟨⟨⟨p, by simp, rfl⟩, heq ▸ hle'⟩, ?_⟩
    rw [← heq] at hin
    rcases max_choice e.withinTierScore s with hmax | hmax
    · rwa [hmax]
    · rwa [hmax]
  · exact ⟨⟨⟨q, mem_append_left _ hq, htier⟩, hle'⟩, hin⟩

theorem fuseAll_tiered (prepared : List PreparedCandidate) :
    ∀ id e, (fuseAll prepared).find? id = some e → Tiered e := by
  refine List.foldlRecOn (motive := fun best => ∀ id e, OrdMap.find? best id = some e → Tiered e)
    _ _ (by simp) ?_
  intro best hb part _
  refine List.foldlRecOn (motive := fun best => ∀ id e, OrdMap.find? best id = some e → Tiered e)
    _ _ hb ?_
  rintro best hb ⟨p, index⟩ - id e hf
  rw [fuseCandidate, OrdMap.find?_upsert] at hf
  split at hf
  · cases hold : best.find? p.stableId with
    | none =>
      rw [hold] at hf
      cases hf
      refine ⟨⟨⟨_, mem_singleton_self _, rfl⟩, ?_⟩, inTier_encodeScore _ _⟩
      intro q hq
      rw [mem_singleton.mp hq]
    | some existing =>
      rw [hold] at hf
      cases hf; exact Tiered.merge (hb _ _ hold) rfl (inTier_encodeScore _ _)
  · exact hb _ _ hf

theorem rankPrepared_tiered {l : DiversityLimits} {r : RankedCandidate}
    (h : r ∈ rankPrepared prepared l) :
    ∃ tier, HighestTier r tier ∧ InTier r.normalizedScoreMicros tier := by
  have hsorted := (diversify_sublist _ _ _).subset h
  obtain ⟨e, he, rfl⟩ := mem_map.mp ((sortBy_perm _ _).mem_iff.mp hsorted)
  obtain ⟨id, hf⟩ := OrdMap.mem_values.mp he
  obtain ⟨⟨⟨q, hq, htier⟩, hh⟩, hin⟩ := fuseAll_tiered prepared id e hf
  have hp : ∀ q, q ∈ e.finish.contributions ↔ q ∈ e.ranked.contributions :=
    fun q => (sortBy_perm _ _).mem_iff
  exact ⟨e.tier, ⟨⟨q, (hp q).mpr hq, htier⟩, fun q hq => hh q ((hp q).mp hq)⟩, hin⟩

/-- Raw scores are compared inside one partition only, and a higher tier always comes first. -/
theorem rankCandidates_rescale (rows : List RankingCandidate) (f : PartitionKey → Int → Int)
    (hf : Increasing f rows) (limits : DiversityLimits) :
    (rankCandidates (rows.map (·.rescale f)) limits).map
        (·.map fun r => (r.stableId, r.normalizedScoreMicros)) =
      (rankCandidates rows limits).map (·.map fun r => (r.stableId, r.normalizedScoreMicros)) ∧
    ∀ ranked, rankCandidates rows limits = .ok ranked →
      (∀ r ∈ ranked, ∃ tier, HighestTier r tier ∧ InTier r.normalizedScoreMicros tier) ∧
      ranked.Pairwise fun a b => ∀ p ∈ b.contributions, ∃ q ∈ a.contributions,
        (rankTier p.channel).toNat ≤ (rankTier q.channel).toNat := by
  constructor
  · rw [rankCandidates, rankCandidates, prepareCandidates_rescale hf]
    cases hprepared : prepareCandidates rows with
    | error e => rfl
    | ok prepared =>
      obtain ⟨prepared', hp', hids⟩ :=
        prepareCandidates_of_consistent (consistent_of_prepareCandidates hprepared)
      obtain rfl : prepared' = prepared := Except.ok.inj (hp'.symm.trans hprepared)
      have hbare : (rankPrepared prepared' limits).map (·.bare) =
          (rankPrepared (prepared'.map (·.rescale f)) limits).map (·.bare) := by
        rw [rankPrepared_bare, rankPrepared_bare, fuseAll_rescale hids hf]
      have hv := congrArg (·.map fun r => (r.stableId, r.normalizedScoreMicros)) hbare
      simp only [map_map] at hv; exact congrArg Except.ok hv.symm
  · intro ranked h
    have hsorted := rankCandidates_sorted h
    obtain ⟨prepared, -, hranked⟩ := bind_eq_ok.mp h
    cases hranked
    refine ⟨fun r hr => rankPrepared_tiered hr, hsorted.imp_of_mem ?_⟩
    intro a b ha hb hlt p hp
    obtain ⟨tierA, ⟨⟨q, hq, htier⟩, -⟩, hinA⟩ := rankPrepared_tiered ha
    obtain ⟨tierB, ⟨-, hh⟩, hinB⟩ := rankPrepared_tiered hb
    refine ⟨q, hq, (hh p hp).trans ?_⟩
    have hs : b.normalizedScoreMicros ≤ a.normalizedScoreMicros := by
      have hle := (Prod.Lex.toLex_le_toLex'.mp (le_of_lt hlt)).1
      omega
    rw [htier]
    unfold InTier tierSpan at hinA hinB; omega

/-- Two rows of one store, with their scores doubled. -/
theorem rankCandidates_rescale_doubled :
    (rankCandidates ([lexicalRow "a1" anchorX 3, lexicalRow "a2" anchorY 5].map
        (·.rescale fun _ score => 2 * score)) ⟨8, 8, 8, 8, 8⟩).map
      (·.map fun r => (r.stableId, r.normalizedScoreMicros)) =
    .ok [("a2", 1999999), ("a1", 1499999)] := by
  refine (rankCandidates_rescale _ _ ?_ _).1.trans (by decide +kernel)
  intro c _ d _ _ hlt
  show 2 * c.rawScore < 2 * d.rawScore
  omega

end TraceDecay.Ranking
