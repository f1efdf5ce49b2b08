import TraceDecay.Lcm.Tail

/-!
# Lcm.ReplayBudget

The budget tokens of an assembled replay. Anchors, tail, objective and summaries are charged one
after another against the cap, and pairing calls with results only takes messages away; only an
objective that was preserved before is put back without being charged.
-/

namespace TraceDecay.Lcm

open Json (Tree)
open Domain (isWhitespace)
open Runs Sorting List

/-! ## Tokens of messages -/

theorem wordCount_join (a b : List Char) :
    wordCount (a ++ '\n' :: '\n' :: b) = wordCount a + wordCount b := by
  have hb : wordCount ('\n' :: '\n' :: b) = wordCount b := by
    have hn : isWhitespace '\n' = true := by decide
    rw [wordCount, ← opened_false, wordCount, ← opened_false]; simp [opened, hn]
  have hs : startsRun (fun c => !isWhitespace c) ('\n' :: '\n' :: b) = false := rfl
  have ha := runs_append (fun c => !isWhitespace c) a ('\n' :: '\n' :: b)
  rw [hs, Bool.and_false, Bool.toNat_false, Nat.add_zero] at ha
  rw [wordCount, ha]; exact congrArg _ hb

theorem wordCount_joinTexts (t : List (List Char)) :
    wordCount (joinTexts t) = (t.map wordCount).sum := by
  induction t with
  | nil => rfl
  | cons text t ih =>
    cases t with
    | nil => simp [joinTexts]
    | cons next more => rw [joinTexts, wordCount_join, ih, map_cons (l := next :: more), sum_cons]

theorem lcmMessageBudgetTokens_eq (m : Tree) :
    lcmMessageBudgetTokens m = lcmBudgetTokens (lcmMessageVisibleText m) := by
  unfold lcmMessageBudgetTokens lcmMessageVisibleText
  cases visibleContent m with
  | empty | text text | structured other => rfl
  | textParts items => simp only [lcmBudgetTokens, wordCount_joinTexts]

theorem lcmMessageBudgetTokens_congr {a b : Tree} (h : a.get "content" = b.get "content") :
    lcmMessageBudgetTokens a = lcmMessageBudgetTokens b := by
  simp only [lcmMessageBudgetTokens, visibleContent, h]

theorem lcmMessageBudgetTokens_nonneg (message : Tree) : 0 ≤ lcmMessageBudgetTokens message := by
  rw [lcmMessageBudgetTokens_eq]
  linarith [one_le_lcmBudgetTokens (lcmMessageVisibleText message)]

def messagesTokens (messages : List Tree) : Int := (messages.map lcmMessageBudgetTokens).sum

/-! ## Pairing calls and results -/

theorem pairCalls_sublist (message : Tree) (r : List Tree) :
    ((pairCalls message r).map lcmMessageBudgetTokens).Sublist
      ((message :: r).map lcmMessageBudgetTokens) := by
  unfold pairCalls
  simp only
  split
  · have hsame : lcmMessageBudgetTokens (message.remove "tool_calls") =
        lcmMessageBudgetTokens message :=
      lcmMessageBudgetTokens_congr (Tree.get_remove_of_ne (by decide) message)
    split
    · exact nil_sublist _
    · rw [map_cons, map_cons, hsame]; exact List.Sublist.cons_cons _ (nil_sublist _)
  · rw [map_cons, map_cons, lcmMessageBudgetTokens_congr (Tree.get_set_of_ne (by decide) _ message)]
    exact List.Sublist.cons_cons _ (filter_sublist.map _)

/-- Every message that is left has the tokens of one that was there. Tool messages at the front are
dropped, which is what carries the induction over the results of a call. -/
theorem normalizeReplayToolPairs_sublist (m : List Tree) :
    ((normalizeReplayToolPairs m).map lcmMessageBudgetTokens).Sublist
      ((m.dropWhile isToolMessage).map lcmMessageBudgetTokens) := by
  induction m with
  | nil => exact List.Sublist.refl _
  | cons message rest ih =>
    have hr : ((normalizeReplayToolPairs rest).map lcmMessageBudgetTokens).Sublist
        (rest.map lcmMessageBudgetTokens) := ih.trans ((dropWhile_sublist _).map _)
    rw [normalizeReplayToolPairs]
    by_cases ht : isToolMessage message = true
    · rw [if_pos ht, dropWhile_cons_of_pos ht]; exact ih
    rw [if_neg ht, dropWhile_cons_of_neg ht]
    split_ifs
    · exact hr.cons_cons _
    · exact List.Sublist.cons_cons _ (nil_sublist _)
    · have hs : (message :: rest).map lcmMessageBudgetTokens =
          (message :: rest.takeWhile isToolMessage).map lcmMessageBudgetTokens ++
            (rest.dropWhile isToolMessage).map lcmMessageBudgetTokens := by
        rw [← map_append, cons_append, takeWhile_append_dropWhile]
      rw [hs, map_append]; exact (pairCalls_sublist _ _).append ih

theorem messagesTokens_normalize_le (messages : List Tree) :
    messagesTokens (normalizeReplayToolPairs messages) ≤ messagesTokens messages := by
  refine List.Sublist.sum_le_sum ((normalizeReplayToolPairs_sublist messages).trans
    ((dropWhile_sublist _).map _)) fun t ht => ?_
  obtain ⟨message, -, rfl⟩ := mem_map.mp ht
  exact lcmMessageBudgetTokens_nonneg message

/-! ## The tail -/

theorem anchorTokens_nonneg (messages : List LcmRawMessage) : 0 ≤ anchorTokens messages := by
  refine sum_nonneg fun t ht => ?_
  obtain ⟨message, -, rfl⟩ := mem_map.mp ht
  linarith [one_le_lcmBudgetTokens message.content]

/-- The tokens of the kept tail are at most those counted, which fit under the cap unless nothing is
kept. -/
theorem selectBudgetTail_spec (raws : List LcmRawMessage) (used cap : Int) :
    anchorTokens (selectBudgetTail raws used cap).1 ≤ (selectBudgetTail raws used cap).2 ∧
      (used ≤ cap → used + (selectBudgetTail raws used cap).2 ≤ cap) ∧
      (cap < used → (selectBudgetTail raws used cap).2 = 0) := by
  obtain ⟨kept, heq, -, hcap, -⟩ := selectBudgetTail_longest raws used cap
  have hn : 0 ≤ (kept.map tokenCount).sum :=
    sum_nonneg (by simpa using fun unit _ => tokenCount_nonneg unit)
  rw [heq]
  refine ⟨?_, fun hle => ?_, fun hlt => ?_⟩
  · have hf : (kept.map tokenCount).sum = (kept.flatten.map replayMessageTokens).sum := by
      rw [map_flatten, sum_flatten, map_map]; rfl
    exact (sum_le_sum fun m _ => lcmBudgetTokens_le_replayMessageTokens m).trans_eq hf.symm
  · by_cases hnone : kept = []
    · simpa [hnone] using hle
    · exact hcap hnone
  · by_cases hnone : kept = []
    · rw [hnone]; rfl
    · have := hcap hnone; omega

/-! ## Summaries -/

def summaryTokens (summaries : List LcmUncondensedSummaryNode) : Int :=
  (summaries.map fun summary => lcmBudgetTokens summary.summaryText).sum

theorem claimBudget_sublist (b : Int) (entries : List (LcmUncondensedSummaryNode × Nat))
    (used : Int) : (claimBudget b entries used).Sublist entries := by
  induction entries generalizing used with
  | nil => exact List.Sublist.refl _
  | cons entry entries ih =>
    rw [claimBudget]
    split
    · exact (ih used).cons _
    · exact (ih _).cons_cons _

theorem claimBudget_le (budget : Int) (e : List (LcmUncondensedSummaryNode × Nat)) (used : Int)
    (hu : used ≤ budget) :
    used + summaryTokens ((claimBudget budget e used).map (·.1)) ≤ budget := by
  induction e generalizing used with
  | nil => simpa [claimBudget, summaryTokens] using hu
  | cons entry e ih =>
    rw [claimBudget]
    split
    · exact ih used hu
    · have := ih (used + lcmBudgetTokens entry.1.summaryText) (by omega)
      simp only [summaryTokens, map_cons, sum_cons] at this ⊢; omega

theorem filter_places {α : Type} {e picked : List (α × Nat)} (h : picked.Sublist e)
    (hn : (e.map (·.2)).Nodup) :
    (e.filter fun entry => entry.2 ∈ picked.map (·.2)) = picked := by
  induction h with
  | slnil => rfl
  | @cons picked e entry hsub ih =>
    rw [map_cons, nodup_cons] at hn
    have hnot : entry.2 ∉ picked.map (·.2) := fun hmem => hn.1 ((hsub.map _).subset hmem)
    rw [filter_cons_of_neg (by simpa using hnot), ih hn.2]
  | @cons_cons picked e entry hsub ih =>
    rw [map_cons, nodup_cons] at hn
    rw [filter_cons_of_pos (by simp)]
    refine congrArg _ ((filter_congr fun o ho => ?_).trans (ih hn.2))
    have hne : o.2 ≠ entry.2 := fun heq => hn.1 (heq ▸ mem_map_of_mem ho)
    simp [hne]

theorem selectBudgetSummaries_le (s : List LcmUncondensedSummaryNode) {budget : Int}
    (hb : 0 ≤ budget) : summaryTokens (selectBudgetSummaries s budget) ≤ budget := by
  unfold selectBudgetSummaries
  generalize hsorted : sortBy _ s.zipIdx = byDepth
  have hp : byDepth.Perm s.zipIdx := hsorted ▸ sortBy_perm _ _
  have hn : (byDepth.map (·.2)).Nodup := by
    rw [(hp.map _).nodup_iff, zipIdx_map_snd]; exact nodup_range'
  have hpicked := filter_places (claimBudget_sublist budget byDepth 0) hn
  have hsum := ((hp.symm.filter fun e => decide (e.2 ∈
    (claimBudget budget byDepth 0).map (·.2))).map fun e => lcmBudgetTokens e.1.summaryText).sum_eq
  rw [hpicked] at hsum
  have hle := claimBudget_le budget byDepth 0 hb
  rw [summaryTokens, map_map]
  rw [summaryTokens, map_map] at hle
  refine (hsum.trans_le ?_)
  simpa [Function.comp_def] using hle

/-! ## The assembled replay -/

/-- What replays a message shows what is stored of it. -/
def ShowsContent (message : LcmRawMessage) : Prop :=
  lcmMessageVisibleText (rawReplayMessage message) = message.content

instance : DecidablePred ShowsContent := fun _ => inferInstanceAs (Decidable (_ = _))

theorem tokens_rawItems {messages : List LcmRawMessage} (h : ∀ m ∈ messages, ShowsContent m) :
    messagesTokens ((messages.map rawItem).map (·.message)) = anchorTokens messages := by
  rw [messagesTokens, map_map, map_map]
  refine congrArg _ (map_congr_left fun m hm => ?_)
  exact (lcmMessageBudgetTokens_eq _).trans (congrArg _ (h m hm))

def objectiveTokens (objective : Option (Int × List Char)) : Int :=
  (objective.map fun objective => lcmBudgetTokens objective.2).getD 0

theorem tokens_replayItems {a : List LcmRawMessage} (s : Selection) (ha : ∀ m ∈ a, ShowsContent m)
    (hr : ∀ m ∈ s.raws, ShowsContent m) :
    messagesTokens ((replayItems a s).map (·.message)) =
      anchorTokens a + summaryTokens s.summaries +
        objectiveTokens s.objective + anchorTokens s.raws := by
  have hs : messagesTokens ((s.summaries.map fun summary => (⟨
      summary.firstSourceStoreId.getD 0x7FFFFFFFFFFFFFFF, 0, summaryReplayMessage summary⟩ :
      ReplayItem)).map (·.message)) = summaryTokens s.summaries := by
    rw [messagesTokens, map_map, map_map]; rfl
  have ho : messagesTokens (((s.objective.map fun o => (⟨o.1, 0,
      objectiveReplayMessage o.2⟩ : ReplayItem)).toList).map (·.message)) =
      objectiveTokens s.objective := by
    cases s.objective with
    | none => rfl
    | some o => exact add_zero _
  unfold messagesTokens at hs ho ⊢
  unfold replayItems
  simp only [map_append, sum_append, hs, ho]
  congr 1
  · congr 2; exact tokens_rawItems ha
  · exact tokens_rawItems hr

/-- The tokens of an objective that was preserved before and is put back. -/
def reinsertedTokens (anchor : Option (Int × List Char × Bool)) : Int :=
  match anchor with
  | some (_, part, true) => lcmBudgetTokens part
  | _ => 0

theorem chargeObjective_le (b : Int) (anchor : Option (Int × List Char × Bool)) (hb : 0 ≤ b) :
    0 ≤ (chargeObjective b anchor).2 ∧
      objectiveTokens (chargeObjective b anchor).1 + (chargeObjective b anchor).2 ≤
        b + reinsertedTokens anchor := by
  match anchor with
  | none => simp [chargeObjective, objectiveTokens, reinsertedTokens, hb]
  | some (storeId, part, true) =>
    simp [chargeObjective, objectiveTokens, reinsertedTokens, hb, add_comm]
  | some (storeId, part, false) =>
    rw [chargeObjective]
    split_ifs with hf
    · simp only [objectiveTokens, reinsertedTokens, Option.map_some, Option.getD_some]; omega
    · simp [objectiveTokens, reinsertedTokens, hb]

theorem mem_of_mem_selectBudgetTail {raws : List LcmRawMessage} {used cap : Int}
    {m : LcmRawMessage} (h : m ∈ (selectBudgetTail raws used cap).1) : m ∈ raws := by
  obtain ⟨kept, heq, hs, -⟩ := selectBudgetTail_longest raws used cap
  rw [heq] at h
  obtain ⟨unit, hu, hm⟩ := mem_flatten.mp h
  exact (replayUnits_units raws).sublist.subset (mem_flatten.mpr ⟨unit, hs.subset hu, hm⟩)

/-- A replay assembled under a cap has at most the larger of the cap and its anchors' tokens, beside
an objective that was preserved before and is not in the kept tail. -/
theorem assembled_tokens_le (anchors : List LcmRawMessage)
    (summaries : List LcmUncondensedSummaryNode)
    (raws anchorSource : List LcmRawMessage) (cap : Int)
    (hshows : ∀ message ∈ anchors ++ raws, ShowsContent message)
    (hcap : -0x8000000000000000 ≤ cap - anchorTokens anchors ∧ cap < 0x8000000000000000) :
    ((assembleReplayMessages anchors summaries raws anchorSource (some cap)).map
        lcmMessageBudgetTokens).sum ≤
      max cap (anchorTokens anchors) + reinsertedTokens (latestUserContextAnchor anchorSource
        (selectBudgetTail raws (anchorTokens anchors) cap).1) := by
  have ht := selectBudgetTail_spec raws (anchorTokens anchors) cap
  have hr : ∀ message ∈ (selectBudgetTail raws (anchorTokens anchors) cap).1,
      ShowsContent message := fun message hmem =>
    hshows message (mem_append_right _ (mem_of_mem_selectBudgetTail hmem))
  refine (messagesTokens_normalize_le _).trans ?_
  rw [messagesTokens, (((sortBy_perm _ _).map _).map _).sum_eq]
  have hi := tokens_replayItems (selectReplay anchors summaries raws anchorSource
    (some cap)) (fun message hm => hshows message (mem_append_left _ hm)) hr
  rw [messagesTokens] at hi
  rw [hi]
  simp only [selectReplay]
  have ha := anchorTokens_nonneg anchors
  generalize selectBudgetTail raws (anchorTokens anchors) cap = tail at ht ⊢
  generalize latestUserContextAnchor anchorSource tail.1 = anchor
  have hk := (anchorTokens_nonneg tail.1).trans ht.1
  -- the one difference that is taken stays in range
  have hw : wrapI64 (cap - anchorTokens anchors - tail.2) = cap - anchorTokens anchors - tail.2 := by
    unfold wrapI64
    rcases le_or_gt (anchorTokens anchors) cap with hle | hlt
    · have := ht.2.1 hle; omega
    · have := ht.2.2 hlt; omega
  rw [hw]
  obtain ⟨hl, hc⟩ := chargeObjective_le (max (cap - anchorTokens anchors - tail.2) 0) anchor
    (le_max_right _ _)
  have hs := selectBudgetSummaries_le summaries hl
  rcases le_or_gt (anchorTokens anchors) cap with hle | hlt
  · have := ht.2.1 hle; omega
  · have := ht.2.2 hlt; omega

/-- A tail of one user message under a policy message. -/
theorem assembled_tokens_le_short :
    (∀ message ∈ [(⟨1, "system", "be brief".toList, none⟩ : LcmRawMessage)] ++
      [⟨2, "user", "hello".toList, none⟩], ShowsContent message) ∧
    ((assembleReplayMessages [⟨1, "system", "be brief".toList, none⟩] []
        [⟨2, "user", "hello".toList, none⟩] [] (some 3)).map lcmMessageBudgetTokens).sum ≤
      max 3 (anchorTokens [⟨1, "system", "be brief".toList, none⟩]) +
        reinsertedTokens (latestUserContextAnchor [] (selectBudgetTail
          [⟨2, "user", "hello".toList, none⟩]
          (anchorTokens [⟨1, "system", "be brief".toList, none⟩]) 3).1) :=
  ⟨by decide +kernel, assembled_tokens_le [⟨1, "system", "be brief".toList, none⟩] []
    [⟨2, "user", "hello".toList, none⟩] [] 3 (by decide +kernel) (by decide +kernel)⟩

/-- An objective that was preserved before is put back whatever the cap is. -/
theorem reinserted_objective_exceeds_cap :
    ShowsContent ⟨1, "assistant", preservedObjectiveContextPrefix, none⟩ ∧
    ¬ ((assembleReplayMessages [] [] [] [⟨1, "assistant", preservedObjectiveContextPrefix, none⟩]
        (some 1)).map lcmMessageBudgetTokens).sum ≤ max 1 (anchorTokens []) := by
  decide +kernel

end TraceDecay.Lcm
