import TraceDecay.Lib.Pages
import TraceDecay.Ranking.FusionCorrect

/-!
# Ranking.Paging

Ranked paging inside one candidate window (the end of `execute_temporal_candidate_export`). A page
ranks the window anew, keeps the rows after the position the cursor names, drops repeated anchors
and cuts at the limit; while rows remain it continues after its last row.
-/

namespace TraceDecay.Ranking

open Sorting Fallible Pages List

structure StableSortKey where
  normalizedScoreMicros : Nat
  knowledgeAtMicros : Int
  stableId : String

variable (c : RankedCandidate)

def stableSortKey : StableSortKey := ⟨c.normalizedScoreMicros, c.knowledgeAtMicros, c.stableId⟩

def isAfter (after : StableSortKey) : Bool :=
  c.normalizedScoreMicros < after.normalizedScoreMicros ||
    (c.normalizedScoreMicros = after.normalizedScoreMicros &&
      (c.knowledgeAtMicros < after.knowledgeAtMicros ||
        (c.knowledgeAtMicros = after.knowledgeAtMicros && c.stableId > after.stableId)))

/-- `retain` with a set of the anchors met so far. -/
def dropRepeatedAnchors (ranked : List RankedCandidate) : List RankedCandidate :=
  firsts (·.anchorId) [] ranked

structure RankedPage where
  ranked : List RankedCandidate
  lastSortKey : Option StableSortKey

/-- The ranked rows a page starts from. -/
def rowsAfter (ranked : List RankedCandidate) : Option StableSortKey → List RankedCandidate
  | some after => ranked.filter (isAfter · after)
  | none => ranked

/-- Cut one page off the ranked rows of a window. Without a key the window has no more. -/
def cutPage (ranked : List RankedCandidate) (limit : Nat) (after : Option StableSortKey) :
    RankedPage :=
  let distinct := dropRepeatedAnchors (rowsAfter ranked after)
  let page := distinct.take limit
  let windowHasMore := distinct.length > limit
  ⟨page, if windowHasMore then page.getLast?.map stableSortKey else none⟩

def exportPage (visible : List RankingCandidate) (diversity : DiversityLimits) (limit : Nat)
    (after : Option StableSortKey) : Except RankingError RankedPage := do
  let ranked ← rankCandidates visible diversity
  .ok (cutPage ranked limit after)

/-- Follow the continuation, at most `fuel` pages, until the window has no more. -/
def followPages (visible : List RankingCandidate) (diversity : DiversityLimits) (limit : Nat) :
    Nat → Option StableSortKey → Except RankingError (Option (List (List RankedCandidate)))
  | 0, _ => .ok none
  | fuel + 1, after => do
    let page ← exportPage visible diversity limit after
    match page.lastSortKey with
    | none => .ok (some [page.ranked])
    | some key => do
      let more ← followPages visible diversity limit fuel (some key)
      .ok (more.map (page.ranked :: ·))

/-! ## The order of the ranked rows -/

def rankPosition : Int ×ₗ Int ×ₗ String :=
  toLex (-(c.normalizedScoreMicros : Int), toLex (-c.knowledgeAtMicros, c.stableId))

theorem rankPosition_steps (a b : RankedCandidate) :
    (-(a.normalizedScoreMicros : Int) < -(b.normalizedScoreMicros : Int) ↔
      b.normalizedScoreMicros < a.normalizedScoreMicros) ∧
    (-(a.normalizedScoreMicros : Int) = -(b.normalizedScoreMicros : Int) ↔
      b.normalizedScoreMicros = a.normalizedScoreMicros) ∧
    (-a.knowledgeAtMicros < -b.knowledgeAtMicros ↔ b.knowledgeAtMicros < a.knowledgeAtMicros) ∧
    (-a.knowledgeAtMicros = -b.knowledgeAtMicros ↔ b.knowledgeAtMicros = a.knowledgeAtMicros) := by
  omega

theorem compareRanked_ordersBy : OrdersBy compareRanked rankPosition := by
  intro a b
  obtain ⟨hs, hs', hk, hk'⟩ := rankPosition_steps a b
  rw [compareRanked, compare_then_ne_gt, compare_then_ne_gt, compare_ne_gt, rankPosition,
    rankPosition, Prod.Lex.toLex_le_toLex, Prod.Lex.toLex_le_toLex]
  simp only [hs, hs', hk, hk']

theorem isAfter_iff {a b : RankedCandidate} :
    isAfter b (stableSortKey a) = true ↔ rankPosition a < rankPosition b := by
  obtain ⟨hs, hs', hk, hk'⟩ := rankPosition_steps a b
  rw [rankPosition, rankPosition, Prod.Lex.toLex_lt_toLex, Prod.Lex.toLex_lt_toLex]
  simp only [hs, hs', hk, hk', isAfter, Bool.or_eq_true, Bool.and_eq_true, decide_eq_true_eq]; rfl

/-- Every fusion is kept under the id it ranks. -/
def KeyedById (best : BestById) : Prop :=
  ∀ id fusion, best.find? id = some fusion → fusion.ranked.stableId = id

theorem KeyedById.fuseCandidate {best : BestById} (h : KeyedById best)
    {p : PreparedCandidate} (hp : p.metadata.stableId = p.stableId) (c : CandidateChannel)
    (count i : Nat) : KeyedById (fuseCandidate c count best (p, i)) := by
  intro id f hf
  simp only [Ranking.fuseCandidate, OrdMap.find?_upsert] at hf
  split at hf
  · rename_i heq
    subst heq
    cases hold : best.find? p.stableId with
    | none => rw [hold] at hf; cases hf; exact hp
    | some existing =>
      rw [hold] at hf
      cases hf
      have hk := h _ _ hold
      simp only [mergeContribution]
      split
      · exact hk
      · split <;> exact hk
  · exact h _ _ hf

def PreparedCandidate.partition (p : PreparedCandidate) : PartitionKey :=
  toLex (p.channel, .new p.stableId p.metadata.source)

theorem mem_partitionRows {prepared : List PreparedCandidate} :
    ∀ part ∈ (partitionRows prepared).entries, ∀ p ∈ part.2, p ∈ prepared ∧ p.partition = part.1 := by
  have hinv : ∀ key part, (partitionRows prepared).find? key = some part →
      ∀ p ∈ part, p ∈ prepared ∧ p.partition = key := by
    refine List.foldlRecOn (motive := fun m => ∀ key part, OrdMap.find? m key = some part →
      ∀ p ∈ part, p ∈ prepared ∧ p.partition = key) prepared _ (by simp) ?_
    intro m hm c hc key part hf p hp
    rw [OrdMap.find?_upsert] at hf
    split_ifs at hf with hkey
    · cases hf
      rcases mem_append.mp hp with hp | hp
      · cases hold : OrdMap.find? m (toLex (c.channel, .new c.stableId c.metadata.source)) with
        | none => rw [hold] at hp; exact absurd hp not_mem_nil
        | some old => rw [hold] at hp; rw [hkey]; exact hm _ _ hold p hp
      · rw [mem_singleton.mp hp]; exact ⟨hc, hkey.symm⟩
    · exact hm _ _ hf p hp
  rintro ⟨key, part⟩ hpart; exact hinv key part (OrdMap.mem_entries.mp hpart)

theorem fuseAll_keyed {prepared : List PreparedCandidate}
    (h : ∀ p ∈ prepared, p.metadata.stableId = p.stableId) : KeyedById (fuseAll prepared) := by
  refine List.foldlRecOn (motive := KeyedById) _ _ (by simp [KeyedById]) ?_
  intro best hb part hpart
  refine List.foldlRecOn (motive := KeyedById) _ _ hb ?_
  rintro best hb ⟨p, index⟩ hp
  have hmem : p ∈ part.2 := (sortBy_perm _ _).mem_iff.mp (fst_mem_of_mem_zipIdx hp)
  exact hb.fuseCandidate (h p (mem_partitionRows part hpart p hmem).1) _ _ _

theorem diversify_sublist (l : DiversityLimits) (cs : List Counts)
    (ranked : List RankedCandidate) : (diversify l cs ranked).Sublist ranked := by
  induction ranked generalizing cs with
  | nil => exact .slnil
  | cons c rest ih =>
    unfold diversify
    split
    · exact (ih cs).cons c
    · exact (ih _).cons_cons c

theorem rankCandidates_sorted {visible : List RankingCandidate} {diversity : DiversityLimits}
    {ranked : List RankedCandidate} (h : rankCandidates visible diversity = .ok ranked) :
    ranked.Pairwise fun a b => rankPosition a < rankPosition b := by
  obtain ⟨prepared, hprep, hr⟩ := bind_eq_ok.mp h
  cases hr
  obtain ⟨p', hp', hids⟩ := prepareCandidates_of_consistent (consistent_of_prepareCandidates hprep)
  obtain rfl : p' = prepared := Except.ok.inj (hp'.symm.trans hprep)
  have hk := fuseAll_keyed fun p hp => (hids.entry p hp).metadata.stableId
  refine List.Pairwise.sublist (diversify_sublist _ _ _) ?_
  have hd : ((fuseAll p').values.map (·.finish)).Pairwise fun a b => a.stableId ≠ b.stableId := by
    rw [OrdMap.values, map_map, pairwise_map]
    refine List.Pairwise.imp_of_mem ?_ (fuseAll p').sorted
    rintro ⟨idA, a⟩ ⟨idB, b⟩ ha hb hlt
    have hidA : a.ranked.stableId = idA := hk _ _ (OrdMap.mem_entries.mp ha)
    have hidB : b.ranked.stableId = idB := hk _ _ (OrdMap.mem_entries.mp hb)
    show a.ranked.stableId ≠ b.ranked.stableId
    rw [hidA, hidB]; exact ne_of_lt hlt
  have hperm := sortBy_perm compareRanked ((fuseAll p').values.map (·.finish))
  refine List.Pairwise.imp₂ ?_ (sortBy_sorted compareRanked_ordersBy _)
    (hperm.symm.pairwise hd fun h => Ne.symm h)
  intro a b hle hne
  refine lt_of_le_of_ne hle fun heq => hne ?_
  exact congrArg (fun key => (ofLex (ofLex key).2).2) heq

/-! ## Following the pages -/

variable {visible : List RankingCandidate} {diversity : DiversityLimits}
  {ranked : List RankedCandidate} {limit : Nat}

theorem rowsAfter_split {before after : List RankedCandidate} {x : RankedCandidate}
    (h : (before ++ x :: after).Pairwise fun a b => rankPosition a < rankPosition b) :
    rowsAfter (before ++ x :: after) (some (stableSortKey x)) = after := by
  obtain ⟨-, hr, hc⟩ := pairwise_append.mp h
  obtain ⟨hafter, -⟩ := pairwise_cons.mp hr
  have hb : ∀ a ∈ before, ¬ isAfter a (stableSortKey x) = true := by
    intro a ha
    rw [isAfter_iff, not_lt]; exact le_of_lt (hc a ha x mem_cons_self)
  have hs : ¬ isAfter x (stableSortKey x) = true := by rw [isAfter_iff]; exact lt_irrefl _
  rw [rowsAfter, filter_append, filter_eq_nil_iff.mpr hb, nil_append, filter_cons, if_neg hs]
  exact filter_eq_self.mpr fun a ha => isAfter_iff.mpr (hafter a ha)

theorem cut_of_length_lt {rows : List RankedCandidate} (hpos : 0 < limit)
    (hm : limit < (dropRepeatedAnchors rows).length) :
    ∃ b x after, rows = b ++ x :: after ∧ x.anchorId ∉ b.map (·.anchorId) ∧
      firsts (·.anchorId) [] (b ++ [x]) = (dropRepeatedAnchors rows).take limit ∧
      ((dropRepeatedAnchors rows).take limit).getLast? = some x ∧
      ∃ a ∈ after, a.anchorId ∉ (b ++ [x]).map (·.anchorId) := by
  obtain ⟨n, rfl⟩ := Nat.exists_eq_succ_of_ne_zero (Nat.ne_of_gt hpos)
  have hn : n < (dropRepeatedAnchors rows).length := by omega
  have ht := take_succ_eq_append_getElem hn
  have hs : dropRepeatedAnchors rows = (dropRepeatedAnchors rows).take n ++
      (dropRepeatedAnchors rows)[n] :: (dropRepeatedAnchors rows).drop (n + 1) := by
    rw [← drop_eq_getElem_cons hn, take_append_drop]
  generalize (dropRepeatedAnchors rows)[n] = x at ht hs
  obtain ⟨b, after, hr, hb, hx⟩ := firsts_split hs
  rw [append_nil] at hx
  have hp : firsts (·.anchorId) [] (b ++ [x]) = (dropRepeatedAnchors rows).take (n + 1) := by
    rw [firsts_concat hx, hb, ht]
  refine ⟨b, x, after, hr, hx, hp, by rw [ht, getLast?_concat], ?_⟩
  -- what is kept beyond the page comes from after it
  have hcut : dropRepeatedAnchors rows = (dropRepeatedAnchors rows).take (n + 1) ++
      firsts (·.anchorId) ((b ++ [x]).map (·.anchorId)) after := by
    rw [← hp]; exact (congrArg dropRepeatedAnchors hr).trans (firsts_cut b x after)
  have hlen := congrArg List.length hcut
  rw [length_append, length_take] at hlen
  obtain ⟨y, hy⟩ := exists_mem_of_length_pos
    (l := firsts (·.anchorId) ((b ++ [x]).map (·.anchorId)) after) (by omega)
  obtain ⟨hmem, hnew⟩ := mem_map_firsts.mp (mem_map_of_mem hy)
  obtain ⟨a, ha, heq⟩ := mem_map.mp hmem
  exact ⟨a, ha, heq ▸ hnew⟩

theorem followPages_paged (hr : rankCandidates visible diversity = .ok ranked)
    (hpos : 0 < limit) (rows : List RankedCandidate) :
    ∀ b key, ranked = b ++ rows → rowsAfter ranked key = rows →
      ∃ p, Paged (·.anchorId) limit rows p ∧ ∀ fuel, rows.length < fuel →
        followPages visible diversity limit fuel key = .ok (some p) := by
  induction hn : rows.length using Nat.strong_induction_on generalizing rows with
  | _ n ih =>
    intro b key hread hrows
    have he : exportPage visible diversity limit key = .ok (cutPage ranked limit key) := by
      rw [exportPage, hr, ok_bind]
    by_cases hm : limit < (dropRepeatedAnchors rows).length
    · obtain ⟨start, x, rest, rfl, hx, hp, hl, hnew⟩ := cut_of_length_lt hpos hm
      have hs : ranked = b ++ start ++ x :: rest := by rw [hread, append_assoc]
      have hnext : rowsAfter ranked (some (stableSortKey x)) = rest := by
        rw [hs]; exact rowsAfter_split (hs ▸ rankCandidates_sorted hr)
      obtain ⟨p, hpages, hrun⟩ := ih rest.length (by subst hn; simp; omega) rest rfl
        (b ++ start ++ [x]) _ (by rw [hs]; simp) hnext
      have hfull : (firsts (·.anchorId) [] (start ++ [x])).length = limit := by
        rw [hp, length_take]; omega
      refine ⟨_, .more hx hfull hnew hpages, fun fuel hf => ?_⟩
      obtain ⟨fuel, rfl⟩ := Nat.exists_eq_succ_of_ne_zero (show fuel ≠ 0 by omega)
      have hcut : cutPage ranked limit key =
          ⟨firsts (·.anchorId) [] (start ++ [x]), some (stableSortKey x)⟩ := by
        simp only [cutPage, hrows, hp, hl, gt_iff_lt, hm, if_true, Option.map_some]
      have hsteps : rest.length < fuel := by
        subst hn
        simp at hf
        omega
      rw [followPages, he, ok_bind, hcut]; simp only [hrun fuel hsteps, ok_bind, Option.map_some]
    · refine ⟨_, .last (Nat.le_of_not_lt hm), fun fuel hf => ?_⟩
      obtain ⟨fuel, rfl⟩ := Nat.exists_eq_succ_of_ne_zero (show fuel ≠ 0 by omega)
      have hcut : cutPage ranked limit key = ⟨firsts (·.anchorId) [] rows, none⟩ := by
        simp only [cutPage, hrows, gt_iff_lt, hm, if_false]
        rw [take_of_length_le (Nat.le_of_not_lt hm)]; rfl
      rw [followPages, he, ok_bind, hcut]

/-- What paging should give: the ranked rows without repeated anchors, no anchor twice. -/
structure PagesExact (ranked : List RankedCandidate) (pages : List (List RankedCandidate)) :
    Prop where
  whole : pages.flatten = dropRepeatedAnchors ranked
  once : (pages.flatten.map (·.anchorId)).Nodup

/-- Following the continuation ends; its pages are exact when no anchor has ranked rows on both
sides of a page end. -/
theorem pages_exact_iff (hrank : rankCandidates visible diversity = .ok ranked)
    (hlimit : 1 ≤ limit) :
    ∃ pages, (∀ fuel, ranked.length < fuel →
        followPages visible diversity limit fuel none = .ok (some pages)) ∧
      (PagesExact ranked pages ↔ Apart (·.anchorId) limit ranked) := by
  obtain ⟨pages, hp, hrun⟩ := followPages_paged hrank hlimit ranked [] none rfl rfl
  refine ⟨pages, hrun, ?_⟩
  rw [← hp.flatten_eq_iff]
  constructor
  · exact fun h => h.whole
  · intro h; exact ⟨h, h ▸ nodup_firsts [] ranked⟩

theorem ranked_and_followed (visible : List RankingCandidate) (diversity : DiversityLimits)
    (limit fuel : Nat) {α : Type} (f : List RankedCandidate → List (List RankedCandidate) → α) {a : α}
    (h : (do
      let ranked ← rankCandidates visible diversity
      let pages ← followPages visible diversity limit fuel none
      return pages.map (f ranked)) = .ok (some a)) :
    ∃ ranked pages, rankCandidates visible diversity = .ok ranked ∧
      followPages visible diversity limit fuel none = .ok (some pages) ∧ f ranked pages = a := by
  obtain ⟨ranked, hrank, hmore⟩ := bind_eq_ok.mp h
  obtain ⟨more, hfollow, hsome⟩ := bind_eq_ok.mp hmore
  obtain ⟨pages, rfl, hf⟩ := Option.map_eq_some_iff.mp (Except.ok.inj hsome)
  exact ⟨ranked, pages, hrank, hfollow, hf⟩

/-- The rows of the first anchor are ranked next to each other. -/
def adjacentAnchorRows : List RankingCandidate :=
  [lexicalRow "a1" anchorX 4, lexicalRow "a2" anchorX 3, lexicalRow "b1" anchorY 2,
    lexicalRow "c1" ⟨"z", by decide⟩ 1]

theorem pages_exact_iff_adjacent :
    ∃ ranked pages, rankCandidates adjacentAnchorRows ⟨8, 8, 8, 8, 8⟩ = .ok ranked ∧
      followPages adjacentAnchorRows ⟨8, 8, 8, 8, 8⟩ 2 5 none = .ok (some pages) ∧
      pages.map (·.map (·.anchorId.value)) = [["x", "y"], ["z"]] ∧ PagesExact ranked pages ∧
      Apart (fun c : RankedCandidate => c.anchorId) 2 ranked := by
  obtain ⟨ranked, pages, hrank, hfollow, h⟩ := ranked_and_followed adjacentAnchorRows
    ⟨8, 8, 8, 8, 8⟩ 2 5 (fun ranked pages => (ranked.length, pages.map (·.map (·.anchorId.value)),
      decide (pages.flatten = dropRepeatedAnchors ranked)))
    (a := (4, [["x", "y"], ["z"]], true)) (by decide)
  simp only [Prod.mk.injEq, decide_eq_true_eq] at h
  obtain ⟨hlen, hanchors, hwhole⟩ := h
  have hexact : PagesExact ranked pages := ⟨hwhole, hwhole ▸ nodup_firsts [] ranked⟩
  obtain ⟨pages', hrun, hiff⟩ := pages_exact_iff hrank (show 1 ≤ 2 by decide)
  cases (hrun 5 (by omega)).symm.trans hfollow
  exact ⟨ranked, pages, hrank, hfollow, hanchors, hexact, hiff.mp hexact⟩

/-- Two stable ids of one anchor with another anchor ranked between them. -/
def sharedAnchorRows : List RankingCandidate :=
  [lexicalRow "a1" anchorX 3, lexicalRow "b1" anchorY 2, lexicalRow "a2" anchorX 1]

/-- With one row a page, the shared anchor is returned on the first and on the last page. -/
theorem shared_anchor_returned_twice :
    ∃ ranked pages, rankCandidates sharedAnchorRows ⟨8, 8, 8, 8, 8⟩ = .ok ranked ∧
      followPages sharedAnchorRows ⟨8, 8, 8, 8, 8⟩ 1 4 none = .ok (some pages) ∧
      pages.map (·.map (·.anchorId.value)) = [["x"], ["y"], ["x"]] ∧
      ¬ PagesExact ranked pages := by
  obtain ⟨ranked, pages, hrank, hfollow, h⟩ := ranked_and_followed sharedAnchorRows
    ⟨8, 8, 8, 8, 8⟩ 1 4 (fun ranked pages => (pages.map (·.map (·.anchorId.value)),
      decide (pages.flatten = dropRepeatedAnchors ranked)))
    (a := ([["x"], ["y"], ["x"]], false)) (by decide)
  simp only [Prod.mk.injEq, decide_eq_false_iff_not] at h
  exact ⟨ranked, pages, hrank, hfollow, h.1, fun hexact => h.2 hexact.whole⟩

end TraceDecay.Ranking
