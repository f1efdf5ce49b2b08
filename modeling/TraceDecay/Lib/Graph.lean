import Mathlib.Data.Set.Finite.Basic
import Mathlib.Order.WellFounded

/-!
# Lib.Graph

Directed graphs given by a list of edges, repeated edges counted. `peel` removes nodes that no
edge enters, one after the other, and `returnsTo` searches for a way back to a node, depth first.
A node on a cycle is never peeled off: one of the edges into it comes from the cycle
(`peel_of_cycle`). The search finds a way back exactly when there is a cycle (`returnsTo_iff`);
every turn takes an edge off those it can still push.
-/

namespace Graph

open Relation List

universe u
variable {κ : Type u} [DecidableEq κ]

abbrev Edges (κ : Type u) := List (κ × κ)

/-- The targets of the edges that leave a node, in edge order. -/
def outgoing (edges : Edges κ) (node : κ) : List κ :=
  (edges.filter fun e => e.1 = node).map Prod.snd

def indegree (edges : Edges κ) (node : κ) : Nat := edges.countP fun e => e.2 = node

/-- Take one edge into each target away; the targets left without one are pushed. -/
def relax (degree : κ → Nat) : List κ → (κ → Nat) × List κ
  | [] => (degree, [])
  | target :: targets =>
    let d := degree target - 1
    let (degree, pushed) := relax (Function.update degree target d) targets
    (degree, if d = 0 then target :: pushed else pushed)

/-- The remaining degrees and the number of nodes removed. -/
def peel (edges : Edges κ) : Nat → List κ → (κ → Nat) → Nat → (κ → Nat) × Nat
  | 0, _, degree, removed => (degree, removed)
  | _, [], degree, removed => (degree, removed)
  | fuel + 1, node :: queue, degree, removed =>
    let (degree, pushed) := relax degree (outgoing edges node)
    peel edges fuel (queue ++ pushed) degree (removed + 1)

/-- The search pops the last target pushed first. -/
def returnsTo (edges : Edges κ) (start : κ) : Nat → List κ → List κ → Bool
  | 0, _, _ => false
  | _, [], _ => false
  | fuel + 1, node :: stack, seen =>
    if node = start then true
    else if node ∈ seen then returnsTo edges start fuel stack seen
    else returnsTo edges start fuel ((outgoing edges node).reverse ++ stack) (node :: seen)

/-! ## Where a finite relation comes from -/

/-- Going back along a relation on a finite set ends where nothing leads to, or goes round. -/
theorem exists_origin {α : Type u} {R : α → α → Prop} {V : Finset α} (hV : ∀ a b, R a b → a ∈ V)
    (b : α) : ∃ a, ReflTransGen R a b ∧ ((∀ x, ¬ R x a) ∨ TransGen R a a) := by
  classical
  by_contra hnone
  push Not at hnone
  have hmem : ∀ a, ReflTransGen R a b → a ∈ insert b V := by
    intro a ha
    rcases ha.cases_head with rfl | ⟨c, hac, _⟩
    · exact Finset.mem_insert_self _ _
    · exact Finset.mem_insert_of_mem (hV _ _ hac)
  -- without a cycle among them the ancestors of `b` have a first one
  let before : {a // a ∈ insert b V} → {a // a ∈ insert b V} → Prop := fun x y =>
    ReflTransGen R y.1 b ∧ TransGen R x.1 y.1
  have : IsTrans _ before := ⟨fun x y z hxy hyz => ⟨hyz.1, hxy.2.trans hyz.2⟩⟩
  have : Std.Irrefl before := ⟨fun x hx => (hnone x.1 hx.1).2 hx.2⟩
  obtain ⟨m, hm, hf⟩ := (Finite.wellFounded_of_trans_of_irrefl before).has_min
    {x | ReflTransGen R x.1 b} ⟨⟨b, Finset.mem_insert_self _ _⟩, ReflTransGen.refl⟩
  obtain ⟨x, hx⟩ := (hnone m.1 hm).1
  exact hf ⟨x, hmem x (hm.head hx)⟩ (hm.head hx) ⟨hm, .single hx⟩

def Leads (edges : Edges κ) (a b : κ) : Prop := (a, b) ∈ edges

variable {edges : Edges κ}

theorem mem_outgoing {a b : κ} : b ∈ outgoing edges a ↔ Leads edges a b := by
  simp [outgoing, Leads]

variable {node : κ} {removed : List κ}

theorem countP_outside (p : κ × κ → Bool) (hn : node ∉ removed) :
    edges.countP (fun e => p e && e.1 ∉ removed) =
      edges.countP (fun e => p e && e.1 ∉ node :: removed) +
        edges.countP (fun e => p e && e.1 = node) := by
  induction edges with
  | nil => rfl
  | cons e edges ih =>
    simp only [countP_cons, ih]
    by_cases hp : p e = true
    · by_cases he : e.1 = node
      · simp [hp, he, hn]; omega
      · by_cases hr : e.1 ∈ removed <;> simp [hp, he, hr]
        omega
    · simp [hp]

/-! ## Peeling -/

/-- The edges into a node that come from nodes not removed. -/
def entering (edges : Edges κ) (removed : List κ) (v : κ) : Nat :=
  edges.countP fun e => e.2 = v && e.1 ∉ removed

theorem entering_nil (v : κ) : entering edges [] v = indegree edges v := by
  simp [entering, indegree]

theorem entering_cons (hn : node ∉ removed) (v : κ) : entering edges removed v =
      entering edges (node :: removed) v + (outgoing edges node).count v := by
  have hc : (outgoing edges node).count v =
      edges.countP fun e => decide (e.2 = v) && decide (e.1 = node) := by
    rw [outgoing, List.count, countP_map, countP_filter]; exact countP_congr fun e _ => by simp
  rw [hc]; exact countP_outside _ hn

variable {v u start : κ} {ts seen : List κ} {fuel : Nat}

theorem entering_pos (h : Leads edges u v) (hu : u ∉ removed) : 0 < entering edges removed v :=
  countP_pos_iff.mpr ⟨(u, v), h, by simp [hu]⟩

theorem relax_degree (degree : κ → Nat) (ts : List κ) (v : κ) :
    (relax degree ts).1 v = degree v - ts.count v := by
  induction ts generalizing degree with
  | nil => simp [relax]
  | cons t ts ih =>
    rw [relax, ih]
    by_cases hv : v = t
    · subst hv; simp only [Function.update_self, count_cons_self]; omega
    · rw [Function.update_of_ne hv, count_cons_of_ne (Ne.symm hv)]

variable {degree : κ → Nat}

theorem count_le_update {c : κ} (h : ∀ t, (c :: ts).count t ≤ degree t) (t : κ) :
    ts.count t ≤ Function.update degree c (degree c - 1) t := by
  have ht := h t
  by_cases htc : t = c
  · subst htc
    rw [count_cons_self] at ht
    rw [Function.update_self]; omega
  · rw [count_cons_of_ne (Ne.symm htc)] at ht; rwa [Function.update_of_ne htc]

theorem mem_relax (h : ∀ t, ts.count t ≤ degree t) {t : κ} :
    t ∈ (relax degree ts).2 ↔ t ∈ ts ∧ degree t = ts.count t := by
  induction ts generalizing degree with
  | nil => simp [relax]
  | cons c ts ih =>
    have hr := ih (count_le_update h)
    have hc := h c
    rw [count_cons_self] at hc
    simp only [relax]
    by_cases htc : t = c
    · subst htc
      rw [Function.update_self] at hr
      rw [count_cons_self]
      split_ifs with hl
      · simp only [mem_cons_self, true_and, true_iff]; omega
      · rw [hr]
        constructor
        · rintro ⟨-, heq⟩; exact ⟨mem_cons_self, by omega⟩
        · rintro ⟨-, heq⟩; exact ⟨count_pos_iff.mp (by omega), by omega⟩
    · rw [Function.update_of_ne htc] at hr
      rw [count_cons_of_ne (Ne.symm htc), mem_cons, or_iff_right htc, ← hr]
      split <;> simp [htc]

theorem relax_nodup (h : ∀ t, ts.count t ≤ degree t) : (relax degree ts).2.Nodup := by
  induction ts generalizing degree with
  | nil => exact nodup_nil
  | cons c ts ih =>
    have hr := count_le_update h
    simp only [relax]
    split_ifs with hz
    · refine nodup_cons.mpr ⟨fun hmem => ?_, ih hr⟩
      have hc := hr c
      rw [Function.update_self, hz] at hc
      have hpos := count_pos_iff.mpr ((mem_relax hr).mp hmem).1
      omega
    · exact ih hr

/-- What holds while nodes are peeled off. -/
@[mk_iff]
structure Peeling (edges : Edges κ) (nodes removed queue : List κ) (degree : κ → Nat) : Prop where
  degree_eq : ∀ v, degree v = entering edges removed v
  free : ∀ v ∈ queue ++ removed, degree v = 0
  nodup : (queue ++ removed).Nodup
  mem : ∀ v ∈ queue ++ removed, v ∈ nodes
  acyclic : ∀ v ∈ queue ++ removed, ¬ TransGen (Leads edges) v v

variable {nodes removed queue : List κ} {degree : κ → Nat}

theorem Peeling.entering_pos (h : ∀ v ∈ removed, ¬ TransGen (Leads edges) v v)
    (hv : TransGen (Leads edges) v v) : 0 < entering edges removed v := by
  obtain ⟨u, hvu, huv⟩ := TransGen.tail'_iff.mp hv
  exact Graph.entering_pos huv fun hu => h u hu (.head' huv hvu)

variable (h : Peeling edges nodes removed (node :: queue) degree)
include h

theorem Peeling.head_not_removed : node ∉ removed := by
  have hn := h.nodup
  rw [cons_append, nodup_cons] at hn; exact fun hmem => hn.1 (mem_append_right _ hmem)

theorem Peeling.count_outgoing_le (t : κ) : (outgoing edges node).count t ≤ degree t := by
  rw [h.degree_eq, entering_cons h.head_not_removed]; exact Nat.le_add_left _ _

theorem Peeling.step (hnodes : ∀ a b, Leads edges a b → b ∈ nodes) :
    Peeling edges nodes (node :: removed) (queue ++ (relax degree (outgoing edges node)).2)
      (relax degree (outgoing edges node)).1 := by
  have hnew := h.head_not_removed
  have hle := h.count_outgoing_le
  have hd : ∀ v, (relax degree (outgoing edges node)).1 v = entering edges (node :: removed) v := by
    intro v
    rw [relax_degree, h.degree_eq, entering_cons hnew]; omega
  -- the new queue and the removed nodes, old and new
  have hperm : (queue ++ (relax degree (outgoing edges node)).2 ++ (node :: removed)).Perm
      ((node :: queue ++ removed) ++ (relax degree (outgoing edges node)).2) := by
    refine perm_iff_count.mpr fun a => ?_
    simp only [count_append, count_cons]; omega
  have hs := fun v => (hperm.mem_iff (a := v)).trans mem_append
  have hp : ∀ v ∈ (relax degree (outgoing edges node)).2, v ∉ node :: queue ++ removed := by
    intro v hv hmem
    obtain ⟨hout, heq⟩ := (mem_relax hle).mp hv
    have := count_pos_iff.mpr hout
    have := h.free v hmem
    omega
  refine ⟨hd, ?_, ?_, ?_, ?_⟩
  · intro v hv
    rw [relax_degree]
    rcases (hs v).mp hv with hv | hv
    · rw [h.free v hv, Nat.zero_sub]
    · rw [((mem_relax hle).mp hv).2, Nat.sub_self]
  · refine hperm.nodup_iff.mpr (nodup_append'.mpr ⟨h.nodup, relax_nodup hle, ?_⟩)
    exact fun v hmem hv => hp v hv hmem
  · intro v hv
    rcases (hs v).mp hv with hv | hv
    · exact h.mem v hv
    · exact hnodes node v (mem_outgoing.mp ((mem_relax hle).mp hv).1)
  · intro v hv hc
    rcases (hs v).mp hv with hv | hv
    · exact h.acyclic v hv hc
    · have hpos : 0 < entering edges (node :: removed) v := Peeling.entering_pos
        (fun u hu => h.acyclic u (((sublist_append_right queue removed).cons_cons node).subset hu))
        hc
      rw [← hd, relax_degree, ((mem_relax hle).mp hv).2] at hpos; omega

omit h

theorem Peeling.perm {q' : List κ} (h : Peeling edges nodes removed queue degree)
    (hp : q'.Perm queue) : Peeling edges nodes removed q' degree := by
  simpa only [peeling_iff, (hp.append_right removed).mem_iff, (hp.append_right removed).nodup_iff]
    using h

theorem Peeling.init (hn : nodes.Nodup) :
    Peeling edges nodes [] (nodes.filter fun v => indegree edges v = 0) (indegree edges) := by
  have hmem : ∀ v ∈ (nodes.filter fun v => indegree edges v = 0) ++ [],
      v ∈ nodes ∧ indegree edges v = 0 := by
    intro v hv; simpa using hv
  refine ⟨fun v => (entering_nil v).symm, fun v hv => (hmem v hv).2, ?_,
    fun v hv => (hmem v hv).1, fun v hv hc => ?_⟩
  · rw [append_nil]; exact hn.filter _
  · have hpos : 0 < entering edges [] v := Peeling.entering_pos (by simp) hc
    rw [entering_nil, (hmem v hv).2] at hpos; exact lt_irrefl _ hpos

/-- What leads to a node that waits or is removed is removed. -/
theorem Peeling.removed_of_leads (h : Peeling edges nodes removed queue degree)
    (hv : v ∈ queue ++ removed) (huv : Leads edges u v) : u ∈ removed := by
  by_contra hu
  have hpos := Graph.entering_pos huv hu
  rw [← h.degree_eq, h.free v hv] at hpos; exact lt_irrefl _ hpos

/-- Every node without an edge into it waits or is removed. -/
def Waiting (nodes removed queue : List κ) (degree : κ → Nat) : Prop :=
  ∀ v ∈ nodes, degree v = 0 → v ∈ queue ++ removed

theorem Waiting.step (hw : Waiting nodes removed (node :: queue) degree)
    (h : Peeling edges nodes removed (node :: queue) degree) :
    Waiting nodes (node :: removed) (queue ++ (relax degree (outgoing edges node)).2)
      (relax degree (outgoing edges node)).1 := by
  have hle := h.count_outgoing_le
  intro v hv hz
  rw [relax_degree] at hz
  have hlev := hle v
  by_cases hold : degree v = 0
  · have := hw v hv hold
    grind
  · have hp : v ∈ (relax degree (outgoing edges node)).2 :=
      (mem_relax hle).mpr ⟨count_pos_iff.mp (by omega), by omega⟩
    simp [hp]

theorem Peeling.all_removed (h : Peeling edges nodes removed [] degree)
    (hw : Waiting nodes removed [] degree) (hnodes : ∀ a b, Leads edges a b → a ∈ nodes)
    (ha : ∀ v, ¬ TransGen (Leads edges) v v) (hv : v ∈ nodes) : v ∈ removed := by
  by_contra hl
  -- something left leads to everything left
  have hb : ∀ w ∈ nodes, w ∉ removed → ∃ u, Leads edges u w ∧ u ∉ removed := by
    intro w hw' hwith
    have hpos : 0 < degree w := Nat.pos_of_ne_zero fun hz => hwith (by simpa using hw w hw' hz)
    rw [h.degree_eq] at hpos
    obtain ⟨⟨u, x⟩, he, hx⟩ := countP_pos_iff.mp hpos
    simp only [Bool.and_eq_true, decide_eq_true_eq] at hx
    obtain ⟨rfl, hu⟩ := hx
    exact ⟨u, he, hu⟩
  obtain ⟨o, hov, ho⟩ := exists_origin (R := fun a b => Leads edges a b ∧ a ∉ removed)
    (V := nodes.toFinset) (fun a b hab => mem_toFinset.mpr (hnodes a b hab.1)) v
  rcases ho with hnone | hc
  · obtain ⟨hmem, hl'⟩ : o ∈ nodes ∧ o ∉ removed := by
      rcases hov.cases_head with rfl | ⟨c, hoc, -⟩
      · exact ⟨hv, hl⟩
      · exact ⟨hnodes o c hoc.1, hoc.2⟩
    obtain ⟨u, hu⟩ := hb o hmem hl'
    exact hnone u hu
  · exact ha o (TransGen.mono (fun a b hab => hab.1) o o hc)

/-! ### The order of removal -/

/-- Whatever leads to a node was removed before it; the last one removed comes first. -/
def Topological (edges : Edges κ) : List κ → Prop
  | [] => True
  | v :: rest => (∀ u, Leads edges u v → u ∈ rest) ∧ Topological edges rest

omit [DecidableEq κ] in
theorem Topological.before {l : List κ} (h : Topological edges l.reverse)
    (huv : Leads edges u v) (hv : v ∈ l) : ∃ b after, l = b ++ u :: after ∧ v ∈ after := by
  obtain ⟨front, back, rfl⟩ := append_of_mem hv
  have hs : ∀ late : List κ, Topological edges (late ++ v :: front.reverse) →
      u ∈ front.reverse := by
    intro late
    induction late with
    | nil => exact fun h => h.1 u huv
    | cons w late ih => exact fun h => ih h.2
  have hu : u ∈ front := by refine mem_reverse.mp (hs back.reverse ?_); simpa using h
  obtain ⟨b, mid, rfl⟩ := append_of_mem hu
  exact ⟨b, mid ++ v :: back, by simp, by simp⟩

theorem peel_peeling (hnodes : ∀ a b, Leads edges a b → b ∈ nodes) (fuel : Nat)
    (h : Peeling edges nodes removed queue degree) :
    ∃ r' q', Peeling edges nodes r' q' (peel edges fuel queue degree removed.length).1 ∧
      r'.length = (peel edges fuel queue degree removed.length).2 := by
  induction fuel generalizing removed queue degree with
  | zero => exact ⟨removed, queue, h, rfl⟩
  | succ fuel ih =>
    cases queue with
    | nil => exact ⟨removed, [], h, rfl⟩
    | cons node queue => exact ih (h.step hnodes)

/-- A node on a cycle keeps an edge into it and is not among those peeled off. -/
theorem peel_of_cycle (hnodes : ∀ a b, Leads edges a b → b ∈ nodes) (hn : nodes.Nodup) (fuel : Nat)
    (hv : TransGen (Leads edges) v v) :
    let peeled := peel edges fuel (nodes.filter fun v => indegree edges v = 0) (indegree edges) 0
    peeled.1 v ≠ 0 ∧ peeled.2 ≠ nodes.length := by
  obtain ⟨removed, queue, h, hl⟩ := peel_peeling hnodes fuel (Peeling.init hn)
  have hk : v ∉ removed := fun hmem => h.acyclic v (mem_append_right _ hmem) hv
  obtain ⟨u, -, huv⟩ := TransGen.tail'_iff.mp hv
  have hle : (v :: removed).length ≤ nodes.length := by
    refine (subperm_of_subset (nodup_cons.mpr ⟨hk, ?_⟩) ?_).length_le
    · exact (nodup_append'.mp h.nodup).2.1
    · exact forall_mem_cons.mpr ⟨hnodes u v huv, fun w hw => h.mem w (mem_append_right _ hw)⟩
  refine ⟨?_, ?_⟩
  · have hpos : 0 < entering edges removed v := Peeling.entering_pos
      (fun w hw => h.acyclic w (mem_append_right _ hw)) hv
    rw [← h.degree_eq] at hpos; exact Nat.ne_of_gt hpos
  · intro hall
    rw [length_cons, hl] at hle; exact absurd hle (by simp only [length_nil] at *; omega)

/-! ## The search for a way back -/

theorem returnsTo_sound {s : List κ} (hs : ∀ x ∈ s, TransGen (Leads edges) start x)
    (h : returnsTo edges start fuel s seen = true) : TransGen (Leads edges) start start := by
  induction fuel generalizing s seen with
  | zero => cases h
  | succ fuel ih =>
    cases s with
    | nil => cases h
    | cons node s =>
      have hn := hs node mem_cons_self
      have hr := fun x hx => hs x (mem_cons_of_mem _ hx)
      rw [returnsTo] at h
      split_ifs at h with hstart
      · exact hstart ▸ hn
      · exact ih hr h
      · refine ih (forall_mem_append.mpr ⟨fun x hx => ?_, hr⟩) h
        exact hn.tail (mem_outgoing.mp (mem_reverse.mp hx))

/-- The edges the search can still push. -/
def unexplored (edges : Edges κ) (seen : List κ) : Nat := edges.countP fun e => e.1 ∉ seen

theorem unexplored_cons (hn : node ∉ seen) :
    unexplored edges seen = unexplored edges (node :: seen) + (outgoing edges node).length := by
  have hout : (outgoing edges node).length = edges.countP fun e => true && decide (e.1 = node) := by
    rw [outgoing, length_map, ← countP_eq_length_filter]; simp
  have hs : edges.countP (fun e => true && e.1 ∉ seen) = _ := countP_outside _ hn
  rw [hout]; simpa [unexplored] using hs

/-- A search with turns enough that does not come back has seen all there is to reach. -/
theorem returnsTo_complete {s : List κ} (hstart : start ∈ seen)
    (hs : ∀ x ∈ seen, ∀ y, Leads edges x y → y ∈ s ∨ y ∈ seen ∧ y ≠ start)
    (hf : s.length + unexplored edges seen < fuel)
    (h : returnsTo edges start fuel s seen = false) : ¬ TransGen (Leads edges) start start := by
  induction fuel generalizing s seen with
  | zero => omega
  | succ fuel ih =>
    cases s with
    | nil =>
      have hr : ∀ y, TransGen (Leads edges) start y → y ∈ seen ∧ y ≠ start := by
        intro y hy
        induction hy with
        | single hxy => exact (hs _ hstart _ hxy).resolve_left not_mem_nil
        | tail _ hxy ih => exact (hs _ ih.1 _ hxy).resolve_left not_mem_nil
      exact fun hc => (hr start hc).2 rfl
    | cons node s =>
      rw [returnsTo] at h
      split at h
      · cases h
      rename_i hne
      split at h
      · rename_i hmem
        refine ih hstart (fun x hx y hxy => ?_) (by rw [length_cons] at hf; omega) h
        rcases hs x hx y hxy with hy | hy
        · rcases mem_cons.mp hy with rfl | hy
          · exact .inr ⟨hmem, hne⟩
          · exact .inl hy
        · exact .inr hy
      · rename_i hnew
        rw [unexplored_cons hnew, length_cons] at hf
        refine ih (mem_cons_of_mem _ hstart) (fun x hx y hxy => ?_) ?_ h
        · rcases mem_cons.mp hx with rfl | hx
          · exact .inl (mem_append_left _ (mem_reverse.mpr (mem_outgoing.mpr hxy)))
          · rcases hs x hx y hxy with hy | hy
            · rcases mem_cons.mp hy with rfl | hy
              · exact .inr ⟨mem_cons_self, hne⟩
              · exact .inl (mem_append_right _ hy)
            · exact .inr ⟨mem_cons_of_mem _ hy.1, hy.2⟩
        · rw [length_append, length_reverse]; omega

theorem returnsTo_iff :
    returnsTo edges start (edges.length + 1) (outgoing edges start).reverse [start] = true ↔
      TransGen (Leads edges) start start := by
  constructor
  · refine returnsTo_sound fun x hx => ?_; exact .single (mem_outgoing.mp (mem_reverse.mp hx))
  · intro hc
    by_contra hnone
    refine returnsTo_complete mem_cons_self (fun x hx y hxy => ?_) ?_ (Bool.eq_false_iff.mpr hnone) hc
    · rw [mem_singleton.mp hx] at hxy; exact .inl (mem_reverse.mpr (mem_outgoing.mpr hxy))
    · have hall : unexplored edges [] = edges.length := by simp [unexplored]
      have hf : unexplored edges [] = unexplored edges [start] + (outgoing edges start).length :=
        unexplored_cons not_mem_nil
      rw [length_reverse]; omega

end Graph
