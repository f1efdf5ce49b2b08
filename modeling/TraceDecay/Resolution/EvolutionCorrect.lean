import TraceDecay.Lib.Folds
import TraceDecay.Resolution.Evolution

/-!
# Resolution.EvolutionCorrect

The graph of corrections and supersessions among the visible anchors: what holds while it is
drained (`Draining`), and that the anchors found on its cycles are those on a cycle of corrections
and supersessions (`mem_cycleMembers_iff`).
-/

namespace TraceDecay.Resolution

open Domain Folds Graph OrdMap Relation List

/-! ## Successors and degrees -/

/-- A correction or supersession of `a` by `b`, both visible. -/
def Succeeds (visible : RetrievalAnchorId → Prop) (assertions : List ResolutionAssertion)
    (a b : RetrievalAnchorId) : Prop :=
  ∃ assertion ∈ assertions, assertion.isSuccession = true ∧ assertion.objectAnchorId = a ∧
    assertion.subjectAnchorId = b ∧ visible a ∧ visible b

variable (descendants : Descendants)

theorem mem_of_insert (a b : RetrievalAnchorId)
    (u v : RetrievalAnchorId) :
    v ∈ Descendants.of (descendants.insert a (((descendants.find? a).getD .empty).insert b ())) u ↔
      v ∈ descendants.of u ∨ u = a ∧ v = b := by
  have hset : ∀ (s : OrdSet RetrievalAnchorId), v ∈ (s.insert b ()).keys ↔ v ∈ s.keys ∨ v = b := by
    intro s
    rw [OrdMap.mem_keys, OrdMap.mem_keys, find?_insert]
    by_cases hv : v = b <;> simp [hv]
  by_cases hu : u = a
  · subst hu
    simp only [Descendants.of, find?_insert, if_true, Option.map_some, Option.getD_some,
      hset, true_and]
    cases descendants.find? u with
    | none => simp [OrdMap.keys, OrdMap.empty]
    | some s => simp
  · simp [Descendants.of, hu]

theorem of_nodup (u : RetrievalAnchorId) : (descendants.of u).Nodup := by
  unfold Descendants.of
  cases descendants.find? u with
  | none => exact nodup_nil
  | some s => exact s.keys_nodup

/-- The edges between visible anchors, one for each successor. -/
def successionEdges (visible : List RetrievalAnchorId) (descendants : Descendants) :
    Edges RetrievalAnchorId :=
  visible.flatMap fun u => (descendants.of u).map fun v => (u, v)

variable {u v : RetrievalAnchorId}

theorem leads_successionEdges {visible : List RetrievalAnchorId} {descendants : Descendants} :
    Leads (successionEdges visible descendants) u v ↔ u ∈ visible ∧ v ∈ descendants.of u := by
  simp [Leads, successionEdges]

theorem outgoing_successionEdges {visible : List RetrievalAnchorId} (hn : visible.Nodup)
    (hu : u ∈ visible) :
    outgoing (successionEdges visible descendants) u = descendants.of u := by
  have ho : ∀ l : List RetrievalAnchorId, u ∉ l →
      outgoing (successionEdges l descendants) u = [] := by
    intro l hl
    refine eq_nil_iff_forall_not_mem.mpr fun v hv => hl ?_
    exact (leads_successionEdges.mp (mem_outgoing.mp hv)).1
  induction visible with
  | nil => cases hu
  | cons w visible ih =>
    obtain ⟨hw, hr⟩ := nodup_cons.mp hn
    have ha : outgoing (successionEdges (w :: visible) descendants) u =
        outgoing ((descendants.of w).map fun v => (w, v)) u ++
          outgoing (successionEdges visible descendants) u := by
      simp [outgoing, successionEdges]
    rw [ha]
    by_cases hwu : w = u
    · subst hwu
      rw [ho visible hw, append_nil]
      have hall : ((descendants.of w).map fun v => (w, v)).filter (fun e => e.1 = w) =
          (descendants.of w).map fun v => (w, v) := filter_eq_self.mpr (by simp)
      rw [outgoing, hall, List.map_map]; exact map_id _
    · rw [ih hr ((mem_cons.mp hu).resolve_left (Ne.symm hwu))]; simp [outgoing, hwu]

theorem indegree_successionEdges (visible : List RetrievalAnchorId) (v : RetrievalAnchorId) :
    indegree (successionEdges visible descendants) v =
      visible.countP fun u => v ∈ descendants.of u := by
  induction visible with
  | nil => rfl
  | cons u visible ih =>
    have hone : ((descendants.of u).map fun w => (u, w)).countP (fun e => e.2 = v) =
        if v ∈ descendants.of u then 1 else 0 := by
      rw [countP_map]
      have hc : (descendants.of u).countP ((fun e : RetrievalAnchorId × RetrievalAnchorId =>
          decide (e.2 = v)) ∘ fun w => (u, w)) = (descendants.of u).count v := by
        exact countP_congr fun w _ => by simp
      rw [hc, (of_nodup descendants u).count]
    rw [successionEdges, flatMap_cons, indegree, countP_append, hone, countP_cons, Nat.add_comm]
    exact congrArg₂ (· + ·) ih (by simp)

theorem countP_succ {l : List RetrievalAnchorId} {p q : RetrievalAnchorId → Bool}
    {a : RetrievalAnchorId} (hn : l.Nodup) (ha : a ∈ l) (hp : p a = false) (hq : q a = true)
    (ho : ∀ u, u ≠ a → q u = p u) : l.countP q = l.countP p + 1 := by
  rw [countP_eq_length_filter, countP_eq_length_filter, ← length_cons (a := a)]
  refine List.Perm.length_eq ((perm_ext_iff_of_nodup (hn.filter _) ?_).mpr fun u => ?_)
  · exact nodup_cons.mpr ⟨by simp [hp], hn.filter _⟩
  · by_cases hu : u = a
    · simp [hu, ha, hq]
    · simp [hu, ho u hu]

variable {visible : OrdMap RetrievalAnchorId ResolvedOccurrence}

/-- The degrees count the edges into the visible anchors. -/
def Counted (visible : OrdMap RetrievalAnchorId ResolvedOccurrence) (s : Succession) : Prop :=
  ∀ v, s.indegree.find? v = if visible.contains v then
    some (visible.keys.countP fun u => v ∈ s.descendants.of u) else none

theorem link_of_hidden {s : Succession} {a : ResolutionAssertion}
    (h : ¬ (visible.contains a.subjectAnchorId = true ∧ visible.contains a.objectAnchorId = true)) :
    s.link visible a = s := by
  unfold Succession.link
  rw [if_neg]; simpa using h

theorem link_of (s : Succession) (a : ResolutionAssertion) (u v : RetrievalAnchorId) :
    v ∈ (s.link visible a).descendants.of u ↔ v ∈ s.descendants.of u ∨
      a.objectAnchorId = u ∧ a.subjectAnchorId = v ∧ u ∈ visible.keys ∧ v ∈ visible.keys := by
  by_cases hb : visible.contains a.subjectAnchorId = true ∧ visible.contains a.objectAnchorId = true
  · have hd : (s.link visible a).descendants = s.descendants.insert a.objectAnchorId
        (((s.descendants.find? a.objectAnchorId).getD .empty).insert a.subjectAnchorId ()) := by
      simp only [Succession.link, hb, Bool.and_self, if_true]
      split <;> rfl
    rw [hd, mem_of_insert]
    refine or_congr_right ⟨?_, ?_⟩
    · rintro ⟨rfl, rfl⟩; exact ⟨rfl, rfl, mem_keys.mpr hb.2, mem_keys.mpr hb.1⟩
    · rintro ⟨rfl, rfl, -⟩; exact ⟨rfl, rfl⟩
  · rw [link_of_hidden hb]
    refine ⟨.inl, fun h => h.resolve_right ?_⟩
    rintro ⟨rfl, rfl, hu, hv⟩; exact hb ⟨mem_keys.mp hv, mem_keys.mp hu⟩

theorem contains_children (u v : RetrievalAnchorId) :
    ((descendants.find? u).getD .empty).contains v = true ↔ v ∈ descendants.of u := by
  unfold Descendants.of
  cases descendants.find? u with
  | none => simp [OrdMap.contains]
  | some s => exact mem_keys.symm

variable {s : Succession} {nodes : List RetrievalAnchorId} {x : ResolvedOccurrence}

theorem link_counted (h : Counted visible s) (a : ResolutionAssertion) :
    Counted visible (s.link visible a) := by
  intro v
  by_cases hb : visible.contains a.subjectAnchorId = true ∧ visible.contains a.objectAnchorId = true
  · obtain ⟨hs, ho⟩ := hb
    have hd : (s.link visible a).indegree.find? v = if v = a.subjectAnchorId ∧
        a.subjectAnchorId ∉ s.descendants.of a.objectAnchorId then
          some ((s.indegree.find? v).getD 0 + 1) else s.indegree.find? v := by
      by_cases hk : a.subjectAnchorId ∈ s.descendants.of a.objectAnchorId
      · simp [Succession.link, hs, ho, (contains_children ..).mpr hk, hk]
      · by_cases hv : v = a.subjectAnchorId <;>
          simp [Succession.link, hs, ho, mt (contains_children ..).mp hk, hk, find?_upsert, hv]
    rw [hd, h v]
    split_ifs with hn hv hv
    · obtain ⟨rfl, hk⟩ := hn
      have hlink := (link_of s a _ _).mpr (.inr ⟨rfl, rfl, mem_keys.mpr ho, mem_keys.mpr hs⟩)
      refine congrArg some (Eq.symm (countP_succ visible.keys_nodup (mem_keys.mpr ho)
        (decide_eq_false hk) (decide_eq_true hlink) fun u hu => ?_))
      refine decide_eq_decide.mpr ((link_of ..).trans ⟨fun h => h.resolve_right ?_, .inl⟩)
      exact fun h => hu h.1.symm
    · exact absurd (hn.1 ▸ hs) hv
    · -- the edge leads elsewhere, or is there already
      refine congrArg some (countP_congr fun u _ => ?_)
      simp only [decide_eq_true_eq, link_of]
      refine ⟨.inl, ?_⟩
      rintro (hu | ⟨rfl, rfl, -, -⟩)
      · exact hu
      · exact not_not.mp fun hk => hn ⟨rfl, hk⟩
    · rfl
  · rw [link_of_hidden hb]; exact h v

variable (visible) in
theorem links (assertions : List ResolutionAssertion) :
    (∀ u v, v ∈ (successionAmong visible assertions).descendants.of u ↔
      Succeeds (· ∈ visible.keys) assertions u v) ∧
        Counted visible (successionAmong visible assertions) := by
  refine ⟨fun u v => ?_, ?_⟩
  · refine (foldl_iff_exists (p := fun s : Succession => v ∈ s.descendants.of u)
      (fun s x => link_of s x u v) _ _).trans ?_
    have he : v ∉ Descendants.of .empty u := by simp [Descendants.of]
    simp only [he, false_or, mem_filter, Succeeds, and_assoc]
  · refine foldl_inv (I := Counted visible) (fun s x hs => link_counted hs x) ?_ _
    intro v
    have hz : (visible.keys.countP fun u => decide (v ∈ Descendants.of .empty u)) = 0 :=
      countP_eq_zero.mpr fun u _ => by simp [Descendants.of]
    rw [noEdges, find?_ofList_map, hz]; exact if_congr mem_keys rfl rfl

/-! ## Draining -/

def degreeOf (indegree : OrdMap RetrievalAnchorId Nat) (v : RetrievalAnchorId) : Nat :=
  (indegree.find? v).getD 0

theorem release_relax (children : List RetrievalAnchorId) (indegree : OrdMap RetrievalAnchorId Nat)
    (r : OrdSet RetrievalAnchorId) (hdom : ∀ c ∈ children, indegree.contains c = true) :
    let result := children.foldl release (indegree, r)
    let relaxed := relax (degreeOf indegree) children
    (∀ v, result.1.find? v = (indegree.find? v).map fun _ => relaxed.1 v) ∧
      ∀ v, v ∈ result.2.keys ↔ v ∈ r.keys ∨ v ∈ relaxed.2 := by
  induction children generalizing indegree r with
  | nil =>
    refine ⟨fun v => ?_, by simp [relax]⟩
    cases hv : indegree.find? v <;> simp [relax, degreeOf, hv]
  | cons c children ih =>
    obtain ⟨d, hd⟩ := Option.isSome_iff_exists.mp (hdom c mem_cons_self)
    have hd' : ∀ b ∈ children, (indegree.insert c (d - 1)).contains b = true := by
      intro b hb
      have := hdom b (mem_cons_of_mem _ hb)
      simp only [OrdMap.contains, find?_insert] at this ⊢
      split
      · rfl
      · exact this
    have hdegree : degreeOf (indegree.insert c (d - 1)) =
        Function.update (degreeOf indegree) c (d - 1) := by
      funext v
      by_cases hv : v = c <;> simp [degreeOf, hv]
    have hrelax : relax (degreeOf indegree) (c :: children) =
        let relaxed := relax (degreeOf (indegree.insert c (d - 1))) children
        (relaxed.1, if d - 1 = 0 then c :: relaxed.2 else relaxed.2) := by
      rw [hdegree]; simp [relax, degreeOf, hd]
    have hr : release (indegree, r) c = (indegree.insert c (d - 1),
        if d - 1 = 0 then r.insert c () else r) := by
      simp [release, hd]
    obtain ⟨hf, hready⟩ :=
      ih (indegree.insert c (d - 1)) (if d - 1 = 0 then r.insert c () else r) hd'
    refine ⟨fun v => ?_, fun v => ?_⟩
    · rw [foldl_cons, hr, hf v, hrelax, find?_insert]
      by_cases hv : v = c
      · simp [hv, hd]
      · simp [hv]
    · rw [foldl_cons, hr, hready v, hrelax]
      split
      · simp only [OrdMap.mem_keys, find?_insert, mem_cons]
        by_cases hv : v = c <;> simp [hv]
      · rfl

variable {descendants : Descendants}

/-- What holds while a graph of succession is drained. -/
structure Draining (visible : List RetrievalAnchorId) (descendants : Descendants)
    (indegree : OrdMap RetrievalAnchorId Nat) (ready : OrdSet RetrievalAnchorId)
    (removed : List RetrievalAnchorId) : Prop where
  closed : ∀ u v, v ∈ descendants.of u → v ∈ visible
  nodup : visible.Nodup
  domain : ∀ v ∈ visible, indegree.contains v = true
  peeling : Peeling (successionEdges visible descendants) visible removed ready.keys
    (degreeOf indegree)
  waiting : Waiting visible removed ready.keys (degreeOf indegree)

variable {indegree : OrdMap RetrievalAnchorId Nat}
  {remaining : OrdMap RetrievalAnchorId ResolvedOccurrence}

theorem Draining.step {visible removed : List RetrievalAnchorId}
    {waiting rest : OrdSet RetrievalAnchorId} {anchor : RetrievalAnchorId}
    (h : Draining visible descendants indegree waiting removed)
    (hpop : waiting.popFirst? = some (anchor, rest)) :
    let released := (descendants.of anchor).foldl release (indegree, rest)
    Draining visible descendants released.1 released.2 (anchor :: removed) := by
  obtain ⟨hclosed, hn, hdomain, hp, hw⟩ := h
  rw [popFirst?_eq_some hpop] at hp hw
  have ha : anchor ∈ visible := hp.mem anchor (by simp)
  have hs := hp.step fun a b hab => hclosed a b (leads_successionEdges.mp hab).2
  have hwaiting := hw.step hp
  rw [outgoing_successionEdges descendants hn ha] at hs hwaiting
  obtain ⟨hf, hr⟩ := release_relax (descendants.of anchor) indegree rest
    fun c hc => hdomain c (hclosed anchor c hc)
  have hd : degreeOf ((descendants.of anchor).foldl release (indegree, rest)).1 =
      (relax (degreeOf indegree) (descendants.of anchor)).1 := by
    funext v
    rw [degreeOf, hf v, relax_degree, degreeOf]
    cases indegree.find? v <;> simp
  refine ⟨hclosed, hn, fun v hv => ?_, ?_, ?_⟩
  · have := hdomain v hv
    simp only [OrdMap.contains] at this ⊢
    rw [hf v, Option.isSome_map]; exact this
  · rw [hd]
    refine hs.perm ((perm_ext_iff_of_nodup (keys_nodup _) (nodup_append'.mp hs.nodup).1).mpr ?_)
    intro v
    rw [hr v, mem_append]
  · rw [hd]
    intro v hv hz
    have hmem := hwaiting v hv hz
    rw [mem_append, mem_append] at hmem
    rw [mem_append, hr v]; exact hmem

/-! ## The members of cycles -/

/-- The nodes on a cycle of a relation stay on it when the relation is cut down to them. -/
theorem cycle_within {α : Type} {R S : α → α → Prop} (hs : ∀ a b, R a b → TransGen R b b → S a b)
    {v : α} (hv : TransGen R v v) : TransGen S v v := by
  have hpath : ∀ w, TransGen R v w → ReflTransGen R w v → TransGen S v w := by
    intro w hvw
    induction hvw with
    | single hvw => exact fun hwv => .single (hs _ _ hvw (.tail' hwv hvw))
    | @tail a w hva haw ih =>
      intro hwv
      have hc : TransGen R w w := .tail' (hwv.trans hva.to_reflTransGen) haw
      exact (ih (hwv.head haw)).tail (hs a w haw hc)
  exact hpath v hv .refl

theorem mem_cycleMembersAmong (hn : nodes.Nodup) : v ∈ cycleMembersAmong nodes descendants ↔
      v ∈ nodes ∧ TransGen (fun a b => b ∈ descendants.of a ∧ b ∈ nodes) v v := by
  have he : Scc.Edge (fun node => (descendants.of node).filter (· ∈ nodes)) =
      fun a b => b ∈ descendants.of a ∧ b ∈ nodes := by
    funext a b
    simp [Scc.Edge]
  rw [cycleMembersAmong, Scc.mem_cycleMembers _ _ hn, he]
  · intro a _ b hab; rw [he] at hab; exact hab.2
  · intro a ha; rw [he]; simp [ha]

/-- The linear pass finds the nodes with a way back to themselves inside the set, as the search
from every node does. -/
theorem cycleMembersAmong_eq_reachability (nodes : OrdSet RetrievalAnchorId)
    (descendants : Descendants) :
    (∀ v, v ∈ cycleMembersAmong nodes.keys descendants ↔
      TransGen (fun a b => a ∈ nodes.keys ∧ b ∈ descendants.of a ∧ b ∈ nodes.keys) v v) ∧
      cycleMembersAmong nodes.keys descendants =
        cycleMembersAmongReference nodes.keys descendants := by
  have hi : ∀ v, v ∈ cycleMembersAmong nodes.keys descendants ↔
      TransGen (fun a b => a ∈ nodes.keys ∧ b ∈ descendants.of a ∧ b ∈ nodes.keys) v v := by
    intro v
    rw [mem_cycleMembersAmong nodes.keys_nodup]
    constructor
    · rintro ⟨hv, hc⟩
      have hstay : ∀ {a b}, TransGen (fun a b => b ∈ descendants.of a ∧ b ∈ nodes.keys) a b →
          a ∈ nodes.keys →
            TransGen (fun a b => a ∈ nodes.keys ∧ b ∈ descendants.of a ∧ b ∈ nodes.keys) a b := by
        intro a b hab
        induction hab using TransGen.head_induction_on with
        | single hs => exact fun ha => .single ⟨ha, hs⟩
        | head hs _ ih => exact fun ha => .head ⟨ha, hs⟩ (ih hs.2)
      exact hstay hc hv
    · intro hc
      obtain ⟨u, -, -, -, hv⟩ := TransGen.tail'_iff.mp hc
      exact ⟨hv, TransGen.mono (fun a b hab => hab.2) v v hc⟩
  refine ⟨hi, Finset.ext fun v => ?_⟩
  have he : Leads (inducedEdges nodes.keys descendants) =
      fun a b => a ∈ nodes.keys ∧ b ∈ descendants.of a ∧ b ∈ nodes.keys := by
    funext a b
    simp [Leads, inducedEdges]
  rw [hi, cycleMembersAmongReference, mem_toFinset, mem_filter, nodeReachesSelf, returnsTo_iff, he]
  refine ⟨fun hc => ⟨?_, hc⟩, And.right⟩
  obtain ⟨u, -, -, -, hv⟩ := TransGen.tail'_iff.mp hc
  exact hv

/-! ## The answer -/

theorem mem_ready : v ∈ (ready indegree).keys ↔ indegree.find? v = some 0 := by
  rw [OrdMap.mem_keys, ready, OrdSet.ofList]
  refine contains_ofList.trans ?_
  simp only [List.map_map, mem_map, mem_filter, Prod.exists, Function.comp_apply,
    decide_eq_true_eq, mem_entries]
  constructor
  · rintro ⟨k, d, ⟨hk, rfl⟩, rfl⟩; exact hk
  · intro hv; exact ⟨v, 0, ⟨hv, rfl⟩, rfl⟩

variable {assertions : List ResolutionAssertion} (hlinks : ∀ u v, v ∈ descendants.of u ↔
  Succeeds (· ∈ visible.keys) assertions u v)
include hlinks

theorem closed_of_succeeds (u v : RetrievalAnchorId) (hv : v ∈ descendants.of u) :
    v ∈ visible.keys := by
  obtain ⟨_, _, _, _, _, _, hv⟩ := (hlinks u v).mp hv
  exact hv

theorem leads_iff_succeeds : Leads (successionEdges visible.keys descendants) u v ↔
      Succeeds (· ∈ visible.keys) assertions u v := by
  rw [leads_successionEdges, hlinks]
  refine ⟨And.right, fun h => ⟨?_, h⟩⟩
  obtain ⟨_, _, _, _, _, hu, _⟩ := h
  exact hu

omit hlinks

theorem draining_init
    (hc : ∀ u v, v ∈ s.descendants.of u → v ∈ visible.keys) (hcounted : Counted visible s) :
    Draining visible.keys s.descendants s.indegree (ready s.indegree) [] := by
  have hvisible : ∀ v ∈ visible.keys, s.indegree.find? v =
      some (Graph.indegree (successionEdges visible.keys s.descendants) v) := by
    intro v hv
    rw [hcounted v, indegree_successionEdges]; exact if_pos (mem_keys.mp hv)
  have hhidden : ∀ v, v ∉ visible.keys → s.indegree.find? v = none := by
    intro v hv
    rw [hcounted v]; exact if_neg fun h => hv (mem_keys.mpr h)
  have hd : degreeOf s.indegree = Graph.indegree (successionEdges visible.keys s.descendants) := by
    funext v
    by_cases hv : v ∈ visible.keys
    · rw [degreeOf, hvisible v hv, Option.getD_some]
    · rw [degreeOf, hhidden v hv, indegree_successionEdges, Option.getD_none]
      exact (countP_eq_zero.mpr fun u _ hu => hv (hc u v (by simpa using hu))).symm
  refine ⟨hc, visible.keys_nodup, fun v hv => ?_, ?_, fun v hv hz => ?_⟩
  · rw [OrdMap.contains, hvisible v hv]; rfl
  · rw [hd]
    refine (Peeling.init visible.keys_nodup).perm ?_
    refine (perm_ext_iff_of_nodup (keys_nodup _) (visible.keys_nodup.filter _)).mpr fun v => ?_
    rw [mem_ready, mem_filter, decide_eq_true_eq]
    by_cases hv : v ∈ visible.keys
    · simp [hv, hvisible v hv]
    · simp [hv, hhidden v hv]
  · rw [hd] at hz
    rw [append_nil, mem_ready, hvisible v hv, hz]

theorem of_find?_itemsByAnchor {resolved : List ResolvedOccurrence} {k : RetrievalAnchorId}
    (h : (itemsByAnchor resolved).find? k = some x) :
    x ∈ resolved ∧ x.occurrence.anchorId = k := by
  obtain ⟨_, hx, he⟩ := mem_map.mp (mem_of_find?_ofList h)
  cases he; exact ⟨hx, rfl⟩

/-- On a cycle of corrections and supersessions among the visible anchors. -/
def OnSuccessionCycle (visible : RetrievalAnchorId → Prop) (assertions : List ResolutionAssertion)
    (v : RetrievalAnchorId) : Prop :=
  TransGen (Succeeds visible assertions) v v

include hlinks in
theorem mem_cycleMembers_iff
    (hk : ∀ v, OnSuccessionCycle (· ∈ visible.keys) assertions v →
      remaining.find? v = visible.find? v) :
    v ∈ cycleMembersAmong remaining.keys descendants ↔
      OnSuccessionCycle (· ∈ visible.keys) assertions v := by
  have hr : ∀ a b, Succeeds (· ∈ visible.keys) assertions a b →
      OnSuccessionCycle (· ∈ visible.keys) assertions b → b ∈ remaining.keys := by
    rintro a b ⟨_, _, _, _, _, _, hb⟩ hc
    rw [OrdMap.mem_keys, hk b hc]; exact mem_keys.mp hb
  rw [mem_cycleMembersAmong remaining.keys_nodup]
  constructor
  · rintro ⟨-, hc⟩; exact TransGen.mono (fun a b hab => (hlinks a b).mp hab.1) v v hc
  · intro hc
    obtain ⟨u, -, huv⟩ := TransGen.tail'_iff.mp hc
    refine ⟨hr u v huv hc, cycle_within (fun a b hab hb => ?_) hc⟩
    exact ⟨(hlinks a b).mpr hab, hr a b hab hb⟩

theorem find?_blocked {members : Finset RetrievalAnchorId} (k : RetrievalAnchorId)
    (y : ResolvedOccurrence) :
    (OrdMap.ofList (remaining.entries.filter fun e => e.1 ∉ members)).find? k = some y ↔
      remaining.find? k = some y ∧ k ∉ members := by
  rw [find?_ofList, mem_filter, mem_entries, decide_eq_true_eq]
  exact (filter_sublist.map Prod.fst).nodup remaining.keys_nodup

end TraceDecay.Resolution
