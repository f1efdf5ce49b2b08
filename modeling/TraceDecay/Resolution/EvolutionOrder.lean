import TraceDecay.Resolution.EvolutionCorrect
import TraceDecay.Resolution.Suppression

/-!
# Resolution.EvolutionOrder

The order of an evolution answer. One pass of draining emits the anchors no cycle holds back, each
after what leads to it (`drain_run`); the second pass does the same for what the cycles blocked, on
the graph cut down to it (`Descendants.within`). `orderEvolution_topological` puts them together.
-/

namespace TraceDecay.Resolution

open Domain Graph OrdMap Relation List

variable {descendants : Descendants} {visible removed nodes : List RetrievalAnchorId}
  {indegree : OrdMap RetrievalAnchorId Nat} {ready' : OrdSet RetrievalAnchorId}
  {blocked : OrdMap RetrievalAnchorId ResolvedOccurrence}

/-! ## One pass -/

section Pass

variable {r : OrdSet RetrievalAnchorId} (h : Draining visible descendants indegree r removed)
include h

/-- Nothing is ready any more, and the anchors were removed in order. -/
structure Exhausted (visible : List RetrievalAnchorId) (descendants : Descendants)
    (removed : List RetrievalAnchorId) : Prop where
  state : ∃ degree, Peeling (successionEdges visible descendants) visible removed [] degree ∧
    Waiting visible removed [] degree
  ordered : Topological (successionEdges visible descendants) removed

theorem Draining.exhausted
    (ht : Topological (successionEdges visible descendants) removed) (hnone : r.keys = []) :
    Exhausted visible descendants removed := by
  have hp := h.peeling
  have hw := h.waiting
  rw [hnone] at hp hw; exact ⟨⟨degreeOf indegree, hp, hw⟩, ht⟩

theorem drain_run (fuel : Nat) (ht : Topological (successionEdges visible descendants) removed)
    (hfuel : visible.length ≤ removed.length + fuel)
      (w : OrdMap RetrievalAnchorId ResolvedOccurrence)
    (o : List ResolvedOccurrence) :
    ∃ emitted : List RetrievalAnchorId, Exhausted visible descendants (emitted.reverse ++ removed) ∧
      (∀ k, (drain descendants fuel w indegree r o).1.find? k =
        if k ∈ emitted then none else w.find? k) ∧
      (drain descendants fuel w indegree r o).2 = o ++ emitted.filterMap w.find? := by
  induction fuel generalizing w indegree r o removed with
  | zero =>
    refine ⟨[], h.exhausted ht (eq_nil_of_length_eq_zero ?_), by simp [drain], by simp [drain]⟩
    have hle := (subperm_of_subset h.peeling.nodup h.peeling.mem).length_le
    rw [length_append] at hle; omega
  | succ fuel ih =>
    unfold drain
    cases hpop : r.popFirst? with
    | none =>
      refine ⟨[], h.exhausted ht ?_, by simp, by simp⟩
      have hh : r.entries.head? = none := by simpa [OrdMap.popFirst?] using hpop
      rw [OrdMap.keys, head?_eq_none_iff.mp hh, map_nil]
    | some popped =>
      obtain ⟨a, ready'⟩ := popped
      have hr : a ∈ r.keys ++ removed := by rw [popFirst?_eq_some hpop]; exact mem_cons_self
      have ht' : Topological (successionEdges visible descendants) (a :: removed) :=
        ⟨fun u hu => h.peeling.removed_of_leads hr hu, ht⟩
      obtain ⟨emitted, he, hfind, hl⟩ := ih (h.step hpop) ht'
        (by simp only [length_cons]; omega) (w.erase a) (o ++ (w.find? a).toList)
      have hfresh : a ∉ emitted := by
        obtain ⟨degree, hp, -⟩ := he.state
        have hn := (nodup_append'.mp hp.nodup).2.1
        intro hmem; exact (nodup_append'.mp hn).2.2 (mem_reverse.mpr hmem) mem_cons_self
      refine ⟨a :: emitted, by simpa using he, fun k => ?_, ?_⟩
      · rw [hfind k, find?_erase]
        by_cases hk : k = a <;> simp [hk]
      · rw [hl]
        have hsame : emitted.filterMap (w.erase a).find? = emitted.filterMap w.find? := by
          refine filterMap_congr fun k hk => ?_
          rw [find?_erase, if_neg fun heq : k = a => hfresh (heq ▸ hk)]
        rw [hsame, append_assoc]
        cases hf : w.find? a <;> simp [hf]

end Pass

/-! ## A pass over a part of the graph -/

/-- The graph cut down to some anchors. -/
def Descendants.within (descendants : Descendants) (nodes : List RetrievalAnchorId) : Descendants :=
  .ofList (nodes.map fun node => (node, .ofList ((descendants.of node).filter (· ∈ nodes))))

theorem mem_within {u v : RetrievalAnchorId} :
    v ∈ (descendants.within nodes).of u ↔ u ∈ nodes ∧ v ∈ descendants.of u ∧ v ∈ nodes := by
  rw [Descendants.of, Descendants.within, find?_ofList_map]
  split_ifs with hu
  · rw [Option.map_some, Option.getD_some, OrdMap.mem_keys]
    refine contains_ofList.trans ?_
    simp [hu]
  · simp [hu]

theorem of_sorted (descendants : Descendants) (u : RetrievalAnchorId) :
    (descendants.of u).Pairwise (· < ·) := by
  unfold Descendants.of
  cases descendants.find? u with
  | none => exact .nil
  | some s => exact s.keys_sorted

theorem within_of {u : RetrievalAnchorId} (hu : u ∈ nodes) :
    (descendants.within nodes).of u = (descendants.of u).filter (· ∈ nodes) :=
  Sorting.eq_of_sorted_of_mem_iff (of_sorted _ u : List.Pairwise (fun v w => id v < id w) _)
    ((of_sorted descendants u).filter _) fun v => by rw [mem_within]; simp [hu]

/-- The counts and the ready anchors are about the given anchors. -/
def Inside (nodes : List RetrievalAnchorId)
    (state : OrdMap RetrievalAnchorId Nat × OrdSet RetrievalAnchorId) : Prop :=
  (∀ v, state.1.contains v = true → v ∈ nodes) ∧ ∀ v ∈ state.2.keys, v ∈ nodes

theorem release_inside {s : OrdMap RetrievalAnchorId Nat × OrdSet RetrievalAnchorId}
    (h : Inside nodes s) (c : RetrievalAnchorId) : Inside nodes (release s c) := by
  unfold release
  cases hf : s.1.find? c with
  | none => exact h
  | some degree =>
    have hc : c ∈ nodes := h.1 c (by rw [OrdMap.contains, hf]; rfl)
    refine ⟨fun v hv => ?_, fun v hv => ?_⟩
    · by_cases heq : v = c
      · exact heq ▸ hc
      · refine h.1 v ?_; simpa [OrdMap.contains, heq] using hv
    · by_cases heq : v = c
      · exact heq ▸ hc
      · refine h.2 v ?_
        simp only at hv
        split at hv
        · simpa [OrdMap.mem_keys, heq] using hv
        · exact hv

theorem foldl_release_within (c : List RetrievalAnchorId)
    {state : OrdMap RetrievalAnchorId Nat × OrdSet RetrievalAnchorId} (h : Inside nodes state) :
    c.foldl release state = (c.filter (· ∈ nodes)).foldl release state := by
  induction c generalizing state with
  | nil => rfl
  | cons child c ih =>
    by_cases hc : child ∈ nodes
    · rw [filter_cons_of_pos (by simpa using hc), foldl_cons, foldl_cons]
      exact ih (release_inside h child)
    · have hnone : state.1.find? child = none :=
        Option.not_isSome_iff_eq_none.mp fun hs => hc (h.1 child hs)
      rw [filter_cons_of_neg (by simpa using hc), foldl_cons]
      have hsame : release state child = state := by simp [release, hnone]
      rw [hsame]; exact ih h

theorem drain_within (fuel : Nat) (h : Inside nodes (indegree, r))
    (w : OrdMap RetrievalAnchorId ResolvedOccurrence) (ordered : List ResolvedOccurrence) :
    drain descendants fuel w indegree r ordered =
      drain (descendants.within nodes) fuel w indegree r ordered := by
  induction fuel generalizing w indegree r ordered with
  | zero => rfl
  | succ fuel ih =>
    unfold drain
    cases hpop : r.popFirst? with
    | none => rfl
    | some popped =>
      obtain ⟨anchor, ready'⟩ := popped
      have hk := popFirst?_eq_some hpop
      have ha : anchor ∈ nodes := h.2 anchor (by rw [hk]; exact mem_cons_self)
      have hi : Inside nodes (indegree, ready') :=
        ⟨h.1, fun v hv => h.2 v (by rw [hk]; exact mem_cons_of_mem _ hv)⟩
      simp only [within_of ha, ← foldl_release_within _ hi]
      have hreleased : Inside nodes ((descendants.of anchor).foldl release (indegree, ready')) :=
        Folds.foldl_inv (I := Inside nodes) (fun _ child hs => release_inside hs child) hi _
      exact ih hreleased _ _

/-! ## The degrees among the blocked anchors -/

theorem find?_foldl_count (t : List RetrievalAnchorId)
    (d : OrdMap RetrievalAnchorId Nat) (v : RetrievalAnchorId) :
    (t.foldl (fun d c => d.upsert c fun n => n.getD 0 + 1) d).find? v =
      if v ∈ t ∨ d.contains v = true then some ((d.find? v).getD 0 + t.count v) else none := by
  induction t generalizing d with
  | nil => cases hf : d.find? v <;> simp [OrdMap.contains, hf]
  | cons c t ih =>
    rw [foldl_cons, ih, OrdMap.contains, find?_upsert]
    by_cases hv : v = c
    · subst hv; simp [Nat.add_assoc, Nat.add_comm 1]
    · simp [OrdMap.contains, hv, count_cons_of_ne (Ne.symm hv)]

variable (descendants blocked) in
theorem blockedDegrees_counted :
    Counted blocked ⟨descendants.within blocked.keys, blockedDegrees descendants blocked⟩ := by
  intro v
  have hc : ∀ w, blocked.contains w = true ↔ w ∈ blocked.keys := fun w => mem_keys.symm
  -- the targets counted are those of the edges from the blocked anchors that have successors
  have ht : ((descendants.keys.filter blocked.contains).flatMap fun p =>
      (descendants.of p).filter blocked.contains) =
        (successionEdges (descendants.keys.filter blocked.contains)
          (descendants.within blocked.keys)).map Prod.snd := by
    rw [successionEdges, map_flatMap]
    refine flatMap_congr fun p hp => ?_
    rw [within_of ((hc p).mp (List.mem_filter.mp hp).2), List.map_map]
    simp only [Function.comp_def, map_id']
    refine filter_congr fun w _ => ?_
    rw [Bool.eq_iff_iff, hc, decide_eq_true_eq]
  rw [blockedDegrees, find?_foldl_count, ht, OrdMap.contains, noEdges, find?_ofList_map]
  refine if_congr ?_ (congrArg some ?_) rfl
  · refine Iff.trans ⟨?_, fun hv => .inr (by simp [hv])⟩ (hc v).symm
    rintro (hv | hv)
    · obtain ⟨e, he, rfl⟩ := mem_map.mp hv
      exact (mem_within.mp (leads_successionEdges.mp he).2).2.2
    · by_contra hout
      simp [hout] at hv
  · have hz : (if v ∈ blocked.keys then some 0 else none : Option Nat).getD 0 = 0 := by
      split <;> rfl
    rw [hz, Nat.zero_add, List.count, countP_map]
    refine Eq.trans (countP_congr fun e _ => by simp) ((indegree_successionEdges _ _ v).trans ?_)
    rw [countP_eq_length_filter, countP_eq_length_filter]
    refine List.Perm.length_eq ((perm_ext_iff_of_nodup
      ((descendants.keys_nodup.filter _).filter _) (blocked.keys_nodup.filter _)).mpr fun u => ?_)
    simp only [mem_filter, decide_eq_true_eq, mem_within, hc]
    refine ⟨fun h => ⟨h.1.2, h.2⟩, fun h => ⟨⟨?_, h.1⟩, h.2⟩⟩
    rw [OrdMap.mem_keys]
    refine Option.isSome_iff_ne_none.mpr fun hnone => ?_
    have hchild := h.2.2.1
    simp [Descendants.of, hnone] at hchild

/-! ## The answer -/

variable (descendants blocked) in
theorem blockedDegrees_inside : Inside blocked.keys
      (blockedDegrees descendants blocked, ready (blockedDegrees descendants blocked)) := by
  have hk : ∀ v, (blockedDegrees descendants blocked).contains v = true → v ∈ blocked.keys := by
    intro v hv
    have hc := blockedDegrees_counted descendants blocked v
    by_cases hin : blocked.contains v = true
    · exact mem_keys.mpr hin
    · rw [if_neg hin] at hc; rw [OrdMap.contains, hc] at hv; cases hv
  refine ⟨hk, fun v hv => hk v ?_⟩
  rw [OrdMap.contains, mem_ready.mp hv]; rfl

/-- The second pass emits all that the cycles blocked, in order. -/
theorem drain_blocked (ha : ∀ v, ¬ TransGen
      (Leads (successionEdges blocked.keys (descendants.within blocked.keys))) v v)
    (o : List ResolvedOccurrence) :
    ∃ second : List RetrievalAnchorId, second.Nodup ∧
      (∀ k, k ∈ second ↔ blocked.contains k = true) ∧
      Topological (successionEdges blocked.keys (descendants.within blocked.keys)) second.reverse ∧
      (let drained := drain descendants blocked.keys.length blocked
        (blockedDegrees descendants blocked) (ready (blockedDegrees descendants blocked)) o
      drained.2 ++ Sorting.sortBy stableOccurrenceOrder drained.1.values =
        o ++ second.filterMap blocked.find?) := by
  have hi : Draining blocked.keys (descendants.within blocked.keys)
      (blockedDegrees descendants blocked) (ready (blockedDegrees descendants blocked)) [] :=
    draining_init (s := ⟨descendants.within blocked.keys, blockedDegrees descendants blocked⟩)
      (fun u v hv => (mem_within.mp hv).2.2) (blockedDegrees_counted descendants blocked)
  obtain ⟨second, he, hf, hl⟩ := drain_run hi
    blocked.keys.length trivial (by simp) blocked o
  rw [append_nil] at he
  obtain ⟨degree, hp, hw⟩ := he.state
  have hall : ∀ k, k ∈ second ↔ blocked.contains k = true := by
    intro k
    rw [← mem_reverse]
    refine Iff.trans ?_ (mem_keys (m := blocked))
    exact ⟨fun hk => hp.mem k hk, fun hk => hp.all_removed hw
      (fun a b hab => (leads_successionEdges.mp hab).1) ha hk⟩
  refine ⟨second, nodup_reverse.mp (nodup_append'.mp hp.nodup).2.1, hall, he.ordered, ?_⟩
  rw [drain_within _ (blockedDegrees_inside descendants blocked)]
  generalize drain (descendants.within blocked.keys) blocked.keys.length blocked
    (blockedDegrees descendants blocked) (ready (blockedDegrees descendants blocked)) o =
      drained at hf hl
  have hempty : drained.1.values = [] := by
    refine eq_nil_iff_forall_not_mem.mpr fun x hx => ?_
    obtain ⟨k, hk⟩ := mem_values.mp hx
    rw [hf k] at hk
    split at hk
    · cases hk
    · rename_i hout; exact hout ((hall k).mpr (by rw [OrdMap.contains, hk]; rfl))
  simp [hl, hempty, Sorting.sortBy]

theorem map_anchor_filterMap {m : OrdMap RetrievalAnchorId ResolvedOccurrence}
    (ha : ∀ k x, m.find? k = some x → x.occurrence.anchorId = k)
    {l : List RetrievalAnchorId} (hl : ∀ k ∈ l, m.contains k = true) :
    (l.filterMap m.find?).map (·.occurrence.anchorId) = l := by
  induction l with
  | nil => rfl
  | cons k l ih =>
    obtain ⟨x, hx⟩ := Option.isSome_iff_exists.mp (hl k mem_cons_self)
    rw [filterMap_cons_some hx, map_cons, ha k x hx, ih fun k' hk' => hl k' (mem_cons_of_mem _ hk')]

section Answer

variable {visible : OrdMap RetrievalAnchorId ResolvedOccurrence}
  {assertions : List ResolutionAssertion} {resolved : List ResolvedOccurrence}

open scoped Classical in
noncomputable def flagged (cyclic : RetrievalAnchorId → Prop) (item : ResolvedOccurrence) :
    ResolvedOccurrence :=
  if cyclic item.occurrence.anchorId then { item with conflicted := true } else item

theorem flagged_anchor (c : RetrievalAnchorId → Prop) (item : ResolvedOccurrence) :
    (flagged c item).occurrence.anchorId = item.occurrence.anchorId := by
  unfold flagged
  split <;> rfl

variable {c : RetrievalAnchorId → Prop}

theorem flagged_of_mem_iff {m : Finset RetrievalAnchorId} (h : ∀ k, k ∈ m ↔ c k)
    (item : ResolvedOccurrence) :
    flagged c item =
      if item.occurrence.anchorId ∈ m then { item with conflicted := true } else item := by
  by_cases hin : item.occurrence.anchorId ∈ m
  · rw [flagged, if_pos ((h _).mp hin), if_pos hin]
  · rw [flagged, if_neg (mt (h _).mpr hin), if_neg hin]

theorem flagged_conflicted {item : ResolvedOccurrence} :
    (flagged c item).conflicted = true ↔
      item.conflicted = true ∨ c item.occurrence.anchorId := by
  unfold flagged
  split_ifs with h <;> simp [h]

/-- What is emitted first, the members of the cycles and what they blocked are all items, flagged
when they are members. -/
theorem mem_flagged {remaining blocked : OrdMap RetrievalAnchorId ResolvedOccurrence}
    {first second : List RetrievalAnchorId} {members : Finset RetrievalAnchorId}
    {x : ResolvedOccurrence} (ha : ∀ k x, visible.find? k = some x → x.occurrence.anchorId = k)
    (hr : ∀ k, remaining.find? k = if k ∈ first then none else visible.find? k)
    (hb : ∀ k y, blocked.find? k = some y ↔ remaining.find? k = some y ∧ k ∉ members)
    (hf : ∀ k ∈ first, k ∉ members) (hm : ∀ k, k ∈ members ↔ c k)
    (hs : ∀ k, k ∈ second ↔ blocked.contains k = true) :
    x ∈ first.filterMap visible.find? ++ Sorting.sortBy stableOccurrenceOrder
        ((remaining.entries.filter fun e => e.1 ∈ members).map fun e =>
          { e.2 with conflicted := true }) ++ second.filterMap blocked.find? ↔
      ∃ k y, visible.find? k = some y ∧ x = flagged c y := by
  have hc : ∀ {k y}, visible.find? k = some y →
      flagged c y = if k ∈ members then { y with conflicted := true } else y := fun h => by
    rw [flagged_of_mem_iff hm, ha _ _ h]
  have hsub : ∀ {k y}, remaining.find? k = some y ↔ k ∉ first ∧ visible.find? k = some y := by
    simp [hr]
  simp only [mem_append, mem_filterMap, (Sorting.sortBy_perm _ _).mem_iff, mem_map, mem_filter,
    Prod.exists, mem_entries, decide_eq_true_eq, hb, hsub]
  constructor
  · rintro ((⟨k, hk, hx⟩ | ⟨k, y, ⟨⟨-, hy⟩, hk⟩, rfl⟩) | ⟨k, -, ⟨-, hx⟩, hk⟩)
    · exact ⟨k, x, hx, by rw [hc hx, if_neg (hf k hk)]⟩
    · exact ⟨k, y, hy, by rw [hc hy, if_pos hk]⟩
    · exact ⟨k, x, hx, by rw [hc hx, if_neg hk]⟩
  · rintro ⟨k, y, hy, rfl⟩
    rw [hc hy]
    by_cases hk : k ∈ first
    · exact .inl (.inl ⟨k, hk, by rwa [if_neg (hf k hk)]⟩)
    split_ifs with hin
    · exact .inl (.inr ⟨k, y, ⟨⟨hk, hy⟩, hin⟩, rfl⟩)
    · refine .inr ⟨k, (hs k).mpr ?_, ⟨hk, hy⟩, hin⟩
      rw [OrdMap.contains, (hb k y).mpr ⟨hsub.mpr ⟨hk, hy⟩, hin⟩]; rfl

/-- An evolution answer over the visible items: the anchors no cycle holds back, the members of
cycles, and what the cycles blocked, each part in order. -/
structure Parts (visible : OrdMap RetrievalAnchorId ResolvedOccurrence)
    (assertions : List ResolutionAssertion) (answer : List ResolvedOccurrence)
    (first cyclic second : List RetrievalAnchorId) : Prop where
  anchors : answer.map (·.occurrence.anchorId) = first ++ cyclic ++ second
  nodup : (first ++ cyclic ++ second).Nodup
  items : ∀ x, x ∈ answer ↔ ∃ k y, visible.find? k = some y ∧
    x = flagged (OnSuccessionCycle (· ∈ visible.keys) assertions) y
  cyclic : ∀ k ∈ cyclic, OnSuccessionCycle (· ∈ visible.keys) assertions k
  first : ∀ u v, Succeeds (· ∈ visible.keys) assertions u v → v ∈ first →
    ∃ before after, first = before ++ u :: after ∧ v ∈ after
  second : ∀ u v, Succeeds (· ∈ visible.keys) assertions u v → u ∈ second →
    v ∈ second → ∃ before after, second = before ++ u :: after ∧ v ∈ after

def ordered (visible : OrdMap RetrievalAnchorId ResolvedOccurrence)
    (assertions : List ResolutionAssertion) : List ResolvedOccurrence :=
  let succession := successionAmong visible assertions
  let drained := drain succession.descendants visible.keys.length visible succession.indegree
    (ready succession.indegree) []
  releaseCycles succession.descendants
    (cycleMembersAmong drained.1.keys succession.descendants) drained.1 drained.2

theorem ordered_parts (assertions : List ResolutionAssertion)
    (ha : ∀ k x, visible.find? k = some x → x.occurrence.anchorId = k) :
    ∃ first c second, Parts visible assertions (ordered visible assertions) first c second := by
  obtain ⟨hlinks, hcounted⟩ := links visible assertions
  have hinit := draining_init (closed_of_succeeds hlinks) hcounted
  obtain ⟨first, hdone, hfind, hl⟩ := drain_run hinit
    visible.keys.length trivial (by simp) visible []
  rw [append_nil] at hdone
  obtain ⟨degree, hp, -⟩ := hdone.state
  have hf : ∀ k ∈ first, k ∈ visible.keys ∧
      ¬ OnSuccessionCycle (· ∈ visible.keys) assertions k := by
    intro k hk
    have hk' : k ∈ [] ++ first.reverse := by simpa using hk
    refine ⟨hp.mem k hk', fun hc => hp.acyclic k hk' ?_⟩
    exact TransGen.mono (fun a b hab => (leads_iff_succeeds hlinks).mpr hab) k k hc
  unfold ordered
  dsimp only
  generalize drain (successionAmong visible assertions).descendants visible.keys.length visible
    (successionAmong visible assertions).indegree
    (ready (successionAmong visible assertions).indegree) [] = drained at hfind hl ⊢
  have hm : ∀ v, v ∈ cycleMembersAmong drained.1.keys
      (successionAmong visible assertions).descendants ↔
        OnSuccessionCycle (· ∈ visible.keys) assertions v := by
    refine fun v => mem_cycleMembers_iff hlinks fun w hw => ?_
    rw [hfind w, if_neg fun hmem => (hf w hmem).2 hw]
  generalize cycleMembersAmong drained.1.keys (successionAmong visible assertions).descendants =
    members at hm ⊢
  have hsub : ∀ k y, drained.1.find? k = some y → visible.find? k = some y ∧ k ∉ first := by
    intro k y hk
    rw [hfind k] at hk
    split at hk
    · cases hk
    · rename_i hout; exact ⟨hk, hout⟩
  obtain ⟨blocked, hb⟩ : ∃ blocked : OrdMap RetrievalAnchorId ResolvedOccurrence,
      blocked = .ofList (drained.1.entries.filter fun e => e.1 ∉ members) := ⟨_, rfl⟩
  have hblocked : ∀ k y, blocked.find? k = some y ↔ drained.1.find? k = some y ∧ k ∉ members :=
    fun k y => hb ▸ find?_blocked k y
  have hkeys : ∀ k ∈ blocked.keys, ∃ y, drained.1.find? k = some y ∧ k ∉ members := by
    intro k hk
    obtain ⟨y, hy⟩ := Option.isSome_iff_exists.mp (mem_keys.mp hk)
    exact ⟨y, (hblocked k y).mp hy⟩
  have hacyclic : ∀ v, ¬ TransGen (Leads (successionEdges blocked.keys
      ((successionAmong visible assertions).descendants.within blocked.keys))) v v := by
    intro v hc
    obtain ⟨u, -, huv⟩ := TransGen.tail'_iff.mp hc
    obtain ⟨_, _, hout⟩ := hkeys v (mem_within.mp (leads_successionEdges.mp huv).2).2.2
    refine hout ((hm v).mpr (TransGen.mono (fun a b hab => ?_) v v hc))
    exact (hlinks a b).mp (mem_within.mp (leads_successionEdges.mp hab).2).2.1
  obtain ⟨i, hi⟩ : ∃ i, i = Sorting.sortBy stableOccurrenceOrder
      ((drained.1.entries.filter fun e => e.1 ∈ members).map fun e =>
        { e.2 with conflicted := true }) := ⟨_, rfl⟩
  have hperm : (i.map (·.occurrence.anchorId)).Perm
      ((drained.1.entries.filter fun e => e.1 ∈ members).map Prod.fst) := by
    rw [hi]
    refine ((Sorting.sortBy_perm _ _).map _).trans (List.Perm.of_eq ?_)
    rw [List.map_map]
    refine map_congr_left fun e he => ?_
    exact ha e.1 e.2 (hsub e.1 e.2 (mem_entries.mp (mem_of_mem_filter he))).1
  have hcyclic : ∀ k ∈ i.map (·.occurrence.anchorId), k ∉ first ∧ k ∈ members := by
    intro k hk
    obtain ⟨e, he, rfl⟩ := mem_map.mp (hperm.mem_iff.mp hk)
    obtain ⟨hentry, hin⟩ := mem_filter.mp he
    exact ⟨(hsub e.1 e.2 (mem_entries.mp hentry)).2, by simpa using hin⟩
  obtain ⟨second, hn, hall, ht, hanswer⟩ := drain_blocked hacyclic (drained.2 ++ i)
  have hs : ∀ k ∈ second, k ∈ blocked.keys := fun k hk => mem_keys.mpr ((hall k).mp hk)
  have hr : releaseCycles (successionAmong visible assertions).descendants members drained.1
      drained.2 = drained.2 ++ i ++ second.filterMap blocked.find? := by
    rw [← hanswer, hi, hb]; rfl
  refine ⟨first, i.map (·.occurrence.anchorId), second, ?_, ?_, fun x => ?_, ?_, ?_, ?_⟩
  · rw [hr, hl, nil_append, map_append, map_append,
        map_anchor_filterMap ha fun k hk => mem_keys.mp (hf k hk).1,
      map_anchor_filterMap (fun k x hx => ha k x (hsub k x ((hblocked k x).mp hx).1).1)
        fun k hk => (hall k).mp hk]
  · refine nodup_append'.mpr ⟨nodup_append'.mpr ⟨?_, ?_, ?_⟩, hn, ?_⟩
    · exact nodup_reverse.mp (nodup_append'.mp hp.nodup).2.1
    · exact hperm.nodup_iff.mpr ((filter_sublist.map Prod.fst).nodup drained.1.keys_nodup)
    · exact fun k hk hk' => (hcyclic k hk').1 hk
    · intro k hk hk'
      obtain ⟨y, hy, hout⟩ := hkeys k (hs k hk')
      rcases mem_append.mp hk with hk | hk
      · exact (hsub k y hy).2 hk
      · exact hout (hcyclic k hk).2
  · rw [hr, hl, nil_append, hi]
    exact mem_flagged ha hfind hblocked (fun k hk => mt (hm k).mp (hf k hk).2) hm hall
  · exact fun k hk => (hm k).mp (hcyclic k hk).2
  · exact fun u v huv hv => hdone.ordered.before ((leads_iff_succeeds hlinks).mpr huv) hv
  · intro u v huv hu hv
    refine ht.before (leads_successionEdges.mpr ⟨hs u hu, ?_⟩) hv
    exact mem_within.mpr ⟨hs u hu, (hlinks u v).mpr huv, hs v hv⟩

/-- What an evolution answer reports as conflicted. -/
theorem orderEvolution_conflicted {v : RetrievalAnchorId} :
    (∃ x ∈ orderEvolution resolved assertions, x.occurrence.anchorId = v ∧ x.conflicted = true) ↔
      ∃ y, (itemsByAnchor resolved).find? v = some y ∧ (y.conflicted = true ∨
        OnSuccessionCycle (· ∈ (itemsByAnchor resolved).keys) assertions v) := by
  obtain ⟨_, _, _, hp⟩ := ordered_parts assertions fun _ _ h => (of_find?_itemsByAnchor h).2
  constructor
  · rintro ⟨x, hx, rfl, hc⟩
    obtain ⟨k, y, hy, rfl⟩ := (hp.items x).mp hx
    obtain ⟨-, rfl⟩ := of_find?_itemsByAnchor hy
    rw [flagged_anchor]; exact ⟨y, hy, flagged_conflicted.mp hc⟩
  · rintro ⟨y, hy, hc⟩
    obtain ⟨-, rfl⟩ := of_find?_itemsByAnchor hy
    exact ⟨_, (hp.items _).mpr ⟨_, y, hy, rfl⟩, flagged_anchor .., flagged_conflicted.mpr hc⟩

/-- **An evolution answer is a topological order.** It holds every occurrence once, flags exactly
the anchors on a cycle of corrections and supersessions in addition, and puts what is off the
cycles after what it replaces. -/
theorem orderEvolution_topological (hdistinct : (resolved.map (·.occurrence.anchorId)).Nodup) :
    (orderEvolution resolved assertions).Perm (resolved.map (flagged (OnSuccessionCycle
        (fun a => a ∈ resolved.map (·.occurrence.anchorId)) assertions))) ∧
      ∀ u v, Succeeds (fun a => a ∈ resolved.map (·.occurrence.anchorId)) assertions u v →
        ¬ OnSuccessionCycle (fun a => a ∈ resolved.map (·.occurrence.anchorId)) assertions u →
        ¬ OnSuccessionCycle (fun a => a ∈ resolved.map (·.occurrence.anchorId)) assertions v →
          ∃ before after, (orderEvolution resolved assertions).map (·.occurrence.anchorId) =
            before ++ u :: after ∧ v ∈ after := by
  have hk : ((resolved.map fun item => (item.occurrence.anchorId, item)).map Prod.fst) =
      resolved.map (·.occurrence.anchorId) := by
    rw [List.map_map]; rfl
  have hf : ∀ k x, (itemsByAnchor resolved).find? k = some x ↔
      x ∈ resolved ∧ x.occurrence.anchorId = k := by
    refine fun k x => ⟨of_find?_itemsByAnchor, ?_⟩
    rintro ⟨hmem, rfl⟩; exact (find?_ofList (hk ▸ hdistinct)).mpr (mem_map.mpr ⟨x, hmem, rfl⟩)
  have hvisible : (· ∈ (itemsByAnchor resolved).keys) =
      fun a => a ∈ resolved.map (·.occurrence.anchorId) := by
    funext a
    rw [OrdMap.mem_keys]
    exact propext (contains_ofList.trans (by rw [hk]))
  obtain ⟨first, cyclic, second, hparts⟩ :=
    ordered_parts assertions fun k x hx => ((hf k x).mp hx).2
  have hanswer : ordered (itemsByAnchor resolved) assertions = orderEvolution resolved assertions :=
    rfl
  obtain ⟨ha, hn, hi, hc, hfirst, hs⟩ := hparts
  rw [hanswer] at ha hi
  rw [hvisible] at hi hc hfirst hs
  refine ⟨?_, fun u v huv hu hv => ?_⟩
  · refine (perm_ext_iff_of_nodup ?_ ?_).mpr fun x => ?_
    · exact List.Nodup.of_map _ (ha ▸ hn)
    · refine List.Nodup.of_map (·.occurrence.anchorId) ?_
      simpa [Function.comp_def, flagged_anchor] using hdistinct
    · rw [hi, mem_map]
      constructor
      · rintro ⟨k, y, hy, rfl⟩; exact ⟨y, ((hf k y).mp hy).1, rfl⟩
      · rintro ⟨y, hy, rfl⟩; exact ⟨_, y, (hf _ y).mpr ⟨hy, rfl⟩, rfl⟩
  · obtain ⟨-, -, -, -, -, humem, hvmem⟩ := id huv
    rw [ha]
    have hp : ∀ w ∈ resolved.map (·.occurrence.anchorId),
        ¬ OnSuccessionCycle (fun a => a ∈ resolved.map (·.occurrence.anchorId)) assertions w →
          w ∈ first ∨ w ∈ second := by
      intro w hw hout
      obtain ⟨item, hitem, rfl⟩ := mem_map.mp hw
      have hin : item.occurrence.anchorId ∈ first ++ cyclic ++ second := by
        rw [← ha, mem_map]
        exact ⟨_, (hi _).mpr ⟨_, item, (hf _ item).mpr ⟨hitem, rfl⟩, rfl⟩, flagged_anchor _ _⟩
      rw [mem_append, mem_append] at hin
      rcases hin with (hin | hin) | hin
      · exact .inl hin
      · exact absurd (hc _ hin) hout
      · exact .inr hin
    by_cases hvfirst : v ∈ first
    · obtain ⟨before, after, rfl, hafter⟩ := hfirst u v huv hvfirst
      exact ⟨before, after ++ cyclic ++ second, by simp, by simp [hafter]⟩
    · have hvsecond := (hp v hvmem hv).resolve_left hvfirst
      rcases hp u humem hu with hufirst | husecond
      · obtain ⟨before, after, rfl⟩ := append_of_mem hufirst
        exact ⟨before, after ++ cyclic ++ second, by simp, by simp [hvsecond]⟩
      · obtain ⟨before, after, rfl, hafter⟩ := hs u v huv husecond hvsecond
        exact ⟨first ++ cyclic ++ before, after, by simp, hafter⟩

end Answer

/-- The answer before it is ordered. -/
def resolvedAt (id : MessageOccurrenceIdV1) (anchor : RetrievalAnchorId) : ResolvedOccurrence :=
  ⟨observedAt id anchor, id, false, false, ∅⟩

theorem orderEvolution_topological_correction :
    ([resolvedAt firstId firstAnchor, resolvedAt secondId secondAnchor].map
        (·.occurrence.anchorId)).Nodup ∧
      ∃ before after, (orderEvolution
          [resolvedAt firstId firstAnchor, resolvedAt secondId secondAnchor]
          [asserted .corrects firstAnchor secondAnchor]).map (·.occurrence.anchorId) =
        before ++ secondAnchor :: after ∧ firstAnchor ∈ after := by
  have ho : ∀ {u v}, Succeeds (fun a => a ∈ [resolvedAt firstId firstAnchor,
      resolvedAt secondId secondAnchor].map (·.occurrence.anchorId))
        [asserted .corrects firstAnchor secondAnchor] u v → secondAnchor = u ∧ firstAnchor = v := by
    rintro u v ⟨_, hmem, _, hu, hv, _⟩
    rw [mem_singleton.mp hmem] at hu hv; exact ⟨hu, hv⟩
  refine ⟨by decide, (orderEvolution_topological (by decide)).2 secondAnchor firstAnchor
    ⟨_, mem_singleton_self _, by decide⟩ (fun hc => ?_) fun hc => ?_⟩
  · obtain ⟨u, -, hu⟩ := TransGen.tail'_iff.mp hc; exact absurd (ho hu).2 (by decide)
  · obtain ⟨w, hw, -⟩ := TransGen.head'_iff.mp hc; exact absurd (ho hw).1 (by decide)

end TraceDecay.Resolution
