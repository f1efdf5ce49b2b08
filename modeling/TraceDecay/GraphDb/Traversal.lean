import Mathlib.Data.List.Destutter
import TraceDecay.Lib.Folds
import TraceDecay.Lib.Sorting

/-!
# GraphDb.Traversal

The breadth-first traversal of a verified generation (`traverse_in` in `generation_runtime.rs` and
`LayeredReads::traverse` in `sealed_layer.rs`). Once the result limit is reached nothing more is
expanded, but what is already queued is still visited, so the limit holds exactly when no more
entities were found by then than it allows.
-/

namespace TraceDecay.GraphDb

open Sorting List

inductive GraphTraversalDirection where
  | outgoing
  | incoming
  | both

structure TraversalRequest (ν κ : Type) where
  start : ν
  relationKinds : List κ
  direction : GraphTraversalDirection
  (maxDepth maxVisits maxResults : Nat)

inductive GraphDbError where
  | budgetExhausted (limit : Nat)
  | invalid (message : String)
deriving DecidableEq

structure GraphRelation (ν ρ κ : Type) where
  identity : ρ
  kind : κ
  (source target : ν)

/-- An entity with its depth and the relation it was found by, visited or queued. -/
structure Visit (ν ρ : Type) where
  entity : ν
  depth : Nat
  viaRelation : Option ρ
deriving DecidableEq

/-- What a verified generation is read from. -/
inductive Reads (ν ρ κ : Type) where
  /-- One database, and the relations and entities that a projection of the snapshot names. -/
  | flat (entityExists : ν → Bool) (edges : List (GraphRelation ν ρ κ)) (relationNamed : ρ → Bool)
      (entityNamed : ν → Bool)
  /-- A delta over the visible relations of a base. -/
  | layered (entityVisible : ν → Bool) (delta base : List (GraphRelation ν ρ κ))
      (baseRelationVisible : ρ → Bool)

variable {ν ρ κ : Type} [LinearOrder ν] [LinearOrder ρ] [DecidableEq κ]

def GraphTraversalDirection.directions : GraphTraversalDirection → List Bool
  | .outgoing => [true]
  | .incoming => [false]
  | .both => [true, false]

def GraphRelation.neighbor (outgoing : Bool) (relation : GraphRelation ν ρ κ) : ν :=
  if outgoing then relation.target else relation.source

/-- The relations of the requested kinds that leave or enter the node. -/
def edgesFrom (request : TraversalRequest ν κ) (edges : List (GraphRelation ν ρ κ)) (node : ν)
    (outgoing : Bool) : List (GraphRelation ν ρ κ) :=
  edges.filter fun e => e.neighbor (!outgoing) = node ∧
    (request.relationKinds = [] ∨ e.kind ∈ request.relationKinds)

/-- `LayeredReads::directed` for one start. -/
def directed (request : TraversalRequest ν κ) (delta base : List (GraphRelation ν ρ κ))
    (baseRelationVisible : ρ → Bool) (node : ν) (outgoing : Bool) : List (GraphRelation ν ρ κ) :=
  let merged := edgesFrom request delta node outgoing ++
    (edgesFrom request base node outgoing).filter fun e => baseRelationVisible e.identity
  (sortBy (fun a b => compare a.identity b.identity) merged).destutter
    fun a b => a.identity ≠ b.identity

def Reads.directed (reads : Reads ν ρ κ) (request : TraversalRequest ν κ) (node : ν)
    (outgoing : Bool) : List (GraphRelation ν ρ κ) :=
  match reads with
  | .flat _ edges relationNamed entityNamed => (edgesFrom request edges node outgoing).filter
      fun e => relationNamed e.identity && entityNamed (e.neighbor outgoing)
  | .layered _ delta base visible => GraphDb.directed request delta base visible node outgoing

def Reads.adjacent (reads : Reads ν ρ κ) (request : TraversalRequest ν κ) (node : ν) :
    List (ρ × ν) :=
  let adjacent := request.direction.directions.flatMap fun outgoing =>
    (reads.directed request node outgoing).map fun e => (e.identity, e.neighbor outgoing)
  (sortBy (fun a b => (compare a.1 b.1).then (compare a.2 b.2)) adjacent).destutter (· ≠ ·)

def Reads.entityVisible : Reads ν ρ κ → ν → Bool
  | .flat entityExists .. => entityExists
  | .layered visible .. => visible

structure Walk (ν ρ : Type) where
  queue : List (Visit ν ρ)
  discovered : List ν
  visits : List (Visit ν ρ)

def Walk.discover (depth : Nat) (w : Walk ν ρ) (next : ρ × ν) : Walk ν ρ :=
  if next.2 ∈ w.discovered then w
  else { w with
    queue := w.queue ++ [⟨next.2, depth + 1, some next.1⟩], discovered := next.2 :: w.discovered }

variable (reads : Reads ν ρ κ) (request : TraversalRequest ν κ)

def Reads.expand (x : Visit ν ρ) (w : Walk ν ρ) : Walk ν ρ :=
  if request.maxDepth ≤ x.depth then w
  else (reads.adjacent request x.entity).foldl (Walk.discover x.depth) w

/-- The loop. What is left of `max_visits` bounds it. -/
def Reads.walk (reads : Reads ν ρ κ) (request : TraversalRequest ν κ) :
    Nat → Walk ν ρ → Except GraphDbError (List (Visit ν ρ))
  | _, ⟨[], _, visits⟩ => .ok visits
  | 0, _ => .error (.budgetExhausted request.maxVisits)
  | left + 1, ⟨x :: queue, discovered, visits⟩ =>
    let w := ⟨queue, discovered, visits ++ [x]⟩
    if request.maxResults ≤ visits.length + 1 then reads.walk request left w
    else reads.walk request left (reads.expand request x w)

def Walk.begin (start : ν) : Walk ν ρ := ⟨[⟨start, 0, none⟩], [start], []⟩

def Reads.traverse : Except GraphDbError (List (Visit ν ρ)) :=
  if request.maxVisits = 0 then .error (.budgetExhausted request.maxVisits)
  else if request.maxResults = 0 then .ok []
  else if !reads.entityVisible request.start then
    .error (.invalid "traversal start entity does not exist")
  else reads.walk request request.maxVisits (.begin request.start)

/-! ## The traversal with unlimited results -/

def Reads.turn (w : Walk ν ρ) : Walk ν ρ :=
  match w.queue with
  | [] => w
  | x :: queue => reads.expand request x ⟨queue, w.discovered, w.visits ++ [x]⟩

def Reads.after (n : Nat) : Walk ν ρ := (reads.turn request)^[n] (.begin request.start)

def Walk.found (w : Walk ν ρ) : List (Visit ν ρ) := w.visits ++ w.queue

/-- What is found before the visit that reaches the result limit. -/
def Reads.foundByLimit : List (Visit ν ρ) := (reads.after request (request.maxResults - 1)).found

/-- So many relations lead from the start to the entity. -/
def Reads.Reaches (reads : Reads ν ρ κ) (request : TraversalRequest ν κ) : Nat → ν → Prop
  | 0, entity => entity = request.start
  | k + 1, entity => ∃ node, reads.Reaches request k node ∧
      ∃ relation, (relation, entity) ∈ reads.adjacent request node

def Reads.WithinDepth (entity : ν) : Prop := ∃ k ≤ request.maxDepth, reads.Reaches request k entity

/-- The start and the ends of all relations. -/
def Reads.ends : List ν :=
  request.start :: (match reads with
    | .flat _ edges .. => edges
    | .layered _ delta base _ => delta ++ base).flatMap
      fun e : GraphRelation ν ρ κ => [e.source, e.target]

/-- The visits with unlimited results. Each is of another end, which bounds the turns. -/
def Reads.unlimited : List (Visit ν ρ) := (reads.after request (reads.ends request).length).visits

/-- A traversal that succeeds returns the first visits of the unlimited one, and one that fails for
the visit budget could not return as many. -/
def Reads.RespectsLimit : Prop :=
  (∀ visits, reads.traverse request = .ok visits →
      visits = (reads.unlimited request).take request.maxResults) ∧
    ∀ limit, reads.traverse request = .error (.budgetExhausted limit) →
      request.maxVisits < min request.maxResults (reads.unlimited request).length

variable (g : Reads ν ρ κ) (r : TraversalRequest ν κ) {w : Walk ν ρ} {x : Visit ν ρ}

theorem expand_extends (w : Walk ν ρ) :
    (g.expand r x w).visits = w.visits ∧ w.queue <+: (g.expand r x w).queue := by
  unfold Reads.expand
  split
  · exact ⟨rfl, prefix_rfl⟩
  refine Folds.foldl_inv (I := fun v : Walk ν ρ => v.visits = w.visits ∧ w.queue <+: v.queue)
    (fun v next h => ?_) ⟨rfl, prefix_rfl⟩ _
  unfold Walk.discover
  split
  · exact h
  · exact ⟨h.1, h.2.trans (prefix_append _ _)⟩

theorem turn_nil (h : w.queue = []) : g.turn r w = w := by
  simp [Reads.turn, h]

variable {q : List (Visit ν ρ)}

theorem turn_visits (h : w.queue = x :: q) : (g.turn r w).visits = w.visits ++ [x] := by
  simp [Reads.turn, h, expand_extends]

theorem turn_found (w : Walk ν ρ) : w.found <+: (g.turn r w).found := by
  cases h : w.queue with
  | nil => exact (turn_nil g r h).symm ▸ prefix_rfl
  | cons x q =>
    have hq : q <+: (g.turn r w).queue := by
      simpa [Reads.turn, h] using (expand_extends g r ⟨q, w.discovered, w.visits ++ [x]⟩).2
    rw [Walk.found, Walk.found, turn_visits g r h, h, append_cons]
    exact (prefix_append_right_inj _).mpr hq

theorem iterate_found (n : Nat) (w : Walk ν ρ) : w.found <+: ((g.turn r)^[n] w).found := by
  induction n generalizing w with
  | zero => exact prefix_rfl
  | succ n ih => exact (turn_found g r w).trans (ih _)

theorem after_visits (n : Nat) : (g.after r n).queue = [] ∨ (g.after r n).visits.length = n := by
  induction n with
  | zero => exact .inr rfl
  | succ n ih =>
    rw [Reads.after, Function.iterate_succ_apply', ← Reads.after]
    cases h : (g.after r n).queue with
    | nil => exact .inl (by rw [turn_nil g r h, h])
    | cons x q =>
      have hn := ih.resolve_left (by simp [h])
      exact .inr (by simp [turn_visits g r h, hn])

theorem walk_drains (left : Nat) (h : r.maxResults ≤ w.visits.length + 1) :
    g.walk r left w = if w.queue.length ≤ left then .ok w.found
      else .error (.budgetExhausted r.maxVisits) := by
  obtain ⟨q, discovered, visits⟩ := w
  induction q generalizing left visits with
  | nil => simp [Reads.walk, Walk.found]
  | cons x q ih =>
    cases left with
    | zero => simp [Reads.walk]
    | succ left =>
      simp only at h
      rw [Reads.walk, if_pos h, ih _ _ (by simp; omega)]; simp [Walk.found]

theorem walk_turn {left : Nat} (hq : w.queue = x :: q) (h : w.visits.length + 1 < r.maxResults) :
    g.walk r (left + 1) w = g.walk r left (g.turn r w) := by
  obtain ⟨_, discovered, visits⟩ := w
  simp only at hq h
  rw [hq, Reads.walk, if_neg (by omega)]; rfl

/-- The traversal finds what the first turns find, up to the one that reaches the limit. -/
theorem walk_eq (n left : Nat) (h : w.queue = [] ∨ w.visits.length + n + 1 = r.maxResults) :
    g.walk r left w =
      if ((g.turn r)^[n] w).found.length ≤ w.visits.length + left then
        .ok ((g.turn r)^[n] w).found
      else .error (.budgetExhausted r.maxVisits) := by
  induction n generalizing left w with
  | zero =>
    rcases h with h | h
    · obtain ⟨_, discovered, visits⟩ := w; cases h; simp [Reads.walk, Walk.found]
    · rw [walk_drains g r left (by omega)]; simp [Walk.found]
  | succ n ih =>
    rw [Function.iterate_succ_apply]
    cases hq : w.queue with
    | nil => rw [turn_nil g r hq]; exact ih left (.inl hq)
    | cons x q =>
      have hn := h.resolve_left (by simp [hq])
      cases left with
      | zero =>
        have hl := ((turn_found g r w).trans (iterate_found g r n _)).length_le
        rw [if_neg (by simp [Walk.found, hq] at hl ⊢; omega)]
        obtain ⟨_, discovered, visits⟩ := w
        cases hq; rfl
      | succ left =>
        have hv := congrArg length (turn_visits g r hq)
        rw [length_append, length_singleton] at hv
        rw [walk_turn g r hq (by omega), ih left (.inr (by omega)), hv, Nat.add_assoc, Nat.add_comm 1]

theorem foundByLimit_pos : 0 < (g.foundByLimit r).length :=
  Nat.lt_of_lt_of_le Nat.one_pos (iterate_found g r _ (.begin r.start)).length_le

/-! ## The entities within the depth -/

variable {g r}

theorem mem_ends {node : ν} {next : ρ × ν} (h : next ∈ g.adjacent r node) : next.2 ∈ g.ends r := by
  have hm := (destutter_sublist _ _).subset h
  rw [(sortBy_perm _ _).mem_iff, mem_flatMap] at hm
  obtain ⟨outgoing, -, hm⟩ := hm
  obtain ⟨e, he, rfl⟩ := mem_map.mp hm
  refine mem_cons_of_mem _ (mem_flatMap.mpr ⟨e, ?_, by unfold GraphRelation.neighbor; split <;> simp⟩)
  cases g with
  | flat => exact mem_of_mem_filter (mem_of_mem_filter he)
  | layered =>
    rcases mem_append.mp ((sortBy_perm _ _).mem_iff.mp ((destutter_sublist _ _).subset he)) with he
      | he
    · exact mem_append_left _ (mem_of_mem_filter he)
    · exact mem_append_right _ (mem_of_mem_filter (mem_of_mem_filter he))

theorem reaches_mem_ends {k : Nat} {entity : ν} (h : g.Reaches r k entity) : entity ∈ g.ends r := by
  cases k with
  | zero => cases h; exact mem_cons_self
  | succ k => obtain ⟨node, -, relation, hnext⟩ := h; exact mem_ends hnext

/-- What is found is within the depth, each entity once, and nearer ones before. -/
structure Spread (g : Reads ν ρ κ) (r : TraversalRequest ν κ) (w : Walk ν ρ) : Prop where
  nodup : (w.found.map (·.entity)).Nodup
  discovered : ∀ entity, entity ∈ w.discovered ↔ entity ∈ w.found.map (·.entity)
  within : ∀ x ∈ w.found, x.depth ≤ r.maxDepth ∧ g.Reaches r x.depth x.entity
  ascending : w.found.Pairwise fun x y => x.depth ≤ y.depth

theorem Spread.discover {d : Nat} {next : ρ × ν} (h : Spread g r w) (hd : d < r.maxDepth)
    (hb : ∀ y ∈ w.found, y.depth ≤ d + 1) (hn : g.Reaches r (d + 1) next.2) :
    Spread g r (w.discover d next) ∧ (∀ y ∈ (w.discover d next).found, y.depth ≤ d + 1) ∧
      ∀ entity, entity ∈ w.found.map (·.entity) ∨ entity = next.2 →
        entity ∈ (w.discover d next).found.map (·.entity) := by
  unfold Walk.discover
  split_ifs with hmem
  · refine ⟨h, hb, ?_⟩
    rintro entity (he | rfl)
    · exact he
    · exact (h.discovered _).mp hmem
  · rw [h.discovered] at hmem
    have hf : ∀ (y : Visit ν ρ) (l : List ν), (⟨w.queue ++ [y], l, w.visits⟩ : Walk ν ρ).found =
        w.found ++ [y] := fun y l => (append_assoc _ _ _).symm
    refine ⟨⟨?_, ?_, ?_, ?_⟩, ?_, ?_⟩ <;> simp only [hf]
    · rw [map_append, nodup_append]
      refine ⟨h.nodup, nodup_singleton _, fun a ha b hb heq => hmem ?_⟩
      have hb : b = next.2 := mem_singleton.mp hb
      exact hb ▸ heq ▸ ha
    · intro entity; simp [h.discovered, or_comm]
    · exact forall_mem_append.mpr ⟨h.within, forall_mem_singleton.mpr ⟨hd, hn⟩⟩
    · exact pairwise_append.mpr ⟨h.ascending, pairwise_singleton _ _, fun y hy z hz =>
        mem_singleton.mp hz ▸ hb y hy⟩
    · exact forall_mem_append.mpr ⟨hb, forall_mem_singleton.mpr le_rfl⟩
    · simp

theorem Spread.discoverAll {d : Nat} (h : Spread g r w) (hd : d < r.maxDepth)
    (hb : ∀ y ∈ w.found, y.depth ≤ d + 1) {l : List (ρ × ν)}
    (hl : ∀ next ∈ l, g.Reaches r (d + 1) next.2) :
    Spread g r (l.foldl (Walk.discover d) w) ∧
      (∀ y ∈ (l.foldl (Walk.discover d) w).found, y.depth ≤ d + 1) ∧
      ∀ entity, entity ∈ w.found.map (·.entity) ∨ entity ∈ l.map (·.2) →
        entity ∈ (l.foldl (Walk.discover d) w).found.map (·.entity) := by
  induction l generalizing w with
  | nil => exact ⟨h, hb, fun entity he => he.resolve_right (by simp)⟩
  | cons next l ih =>
    obtain ⟨hn, hl⟩ := forall_mem_cons.mp hl
    obtain ⟨h1, hb1, hm1⟩ := h.discover hd hb hn
    obtain ⟨h', hb', hm⟩ := ih h1 hb1 hl
    refine ⟨h', hb', fun entity he => hm entity ?_⟩
    rw [map_cons, mem_cons, ← or_assoc] at he
    exact he.imp_left (hm1 entity)

/-- The queue spans two depths, and what a visited entity leads to was found from there at the
latest. -/
structure Layered (g : Reads ν ρ κ) (r : TraversalRequest ν κ) (w : Walk ν ρ) : Prop
    extends Spread g r w where
  near : ∀ x ∈ w.queue.head?, ∀ y ∈ w.found, y.depth ≤ x.depth + 1
  closed : ∀ x ∈ w.visits, x.depth < r.maxDepth → ∀ next ∈ g.adjacent r x.entity,
    ∃ y ∈ w.found, y.entity = next.2 ∧ y.depth ≤ x.depth + 1

theorem Layered.expand (h : Layered g r w) (hq : w.queue = x :: q) :
    Spread g r (g.turn r w) ∧ (∀ y ∈ (g.turn r w).found, y.depth ≤ x.depth + 1) ∧
      (x.depth < r.maxDepth → ∀ next ∈ g.adjacent r x.entity,
        next.2 ∈ (g.turn r w).found.map (·.entity)) := by
  have hf : (⟨q, w.discovered, w.visits ++ [x]⟩ : Walk ν ρ).found = w.found := by
    simp [Walk.found, hq]
  have hs : Spread g r ⟨q, w.discovered, w.visits ++ [x]⟩ :=
    ⟨hf ▸ h.nodup, hf ▸ h.discovered, hf ▸ h.within, hf ▸ h.ascending⟩
  have hb : ∀ y ∈ (⟨q, w.discovered, w.visits ++ [x]⟩ : Walk ν ρ).found, y.depth ≤ x.depth + 1 :=
    hf ▸ h.near x (by simp [hq])
  simp only [Reads.turn, hq, Reads.expand]
  split_ifs with hd
  · exact ⟨hs, hb, fun hlt => absurd hd (by omega)⟩
  · have hx := (h.within x (by simp [Walk.found, hq])).2
    obtain ⟨h', hb', hm⟩ := hs.discoverAll (Nat.lt_of_not_le hd) hb (l := g.adjacent r x.entity)
      fun next hn => ⟨x.entity, hx, next.1, hn⟩
    exact ⟨h', hb', fun _ next hn => hm _ (.inr (mem_map_of_mem hn))⟩

theorem Layered.turn (h : Layered g r w) : Layered g r (g.turn r w) := by
  cases hq : w.queue with
  | nil => rwa [turn_nil g r hq]
  | cons x q =>
    obtain ⟨hs, hb, hall⟩ := h.expand hq
    have hv := turn_visits g r hq
    have hold := (turn_found g r w).subset
    refine { hs with near := fun x' hx' y hy => (hb y hy).trans ?_, closed :=
      fun x' hx' hd next hn => ?_ }
    · have hle := (pairwise_append.mp hs.ascending).2.2 x (by simp [hv]) x' (mem_of_mem_head? hx')
      omega
    · rw [hv] at hx'
      rcases mem_append.mp hx' with hx' | hx'
      · obtain ⟨y, hy, heq⟩ := h.closed x' hx' hd next hn; exact ⟨y, hold hy, heq⟩
      · obtain rfl := mem_singleton.mp hx'
        obtain ⟨y, hy, heq⟩ := mem_map.mp (hall hd next hn)
        exact ⟨y, hy, heq, hb y hy⟩

theorem layered_after (n : Nat) : Layered g r (g.after r n) := by
  induction n with
  | zero =>
    refine ⟨⟨?_, ?_, ?_, ?_⟩, ?_, ?_⟩ <;>
      simp [Reads.after, Walk.begin, Walk.found, Reads.Reaches]
  | succ n ih => rw [Reads.after, Function.iterate_succ_apply']; exact ih.turn

theorem after_ends_queue : (g.after r (g.ends r).length).queue = [] := by
  have h : Layered g r (g.after r (g.ends r).length) := layered_after _
  refine (after_visits g r _).elim id fun hv => ?_
  have hsub : (g.after r (g.ends r).length).found.map (·.entity) ⊆ g.ends r := by
    intro entity he
    obtain ⟨x, hx, rfl⟩ := mem_map.mp he
    exact reaches_mem_ends (h.within x hx).2
  have hle := (subperm_of_subset h.nodup hsub).length_le
  rw [length_map, Walk.found, length_append] at hle
  exact length_eq_zero_iff.mp (by omega)

theorem unlimited_eq : g.unlimited r = (g.after r (g.ends r).length).found := by
  rw [Walk.found, after_ends_queue, append_nil]; rfl

/-- What `k` relations lead to is visited at that depth at the latest. -/
theorem unlimited_near {k : Nat} {entity : ν} (hk : k ≤ r.maxDepth) (h : g.Reaches r k entity) :
    ∃ x ∈ g.unlimited r, x.entity = entity ∧ x.depth ≤ k := by
  induction k generalizing entity with
  | zero =>
    rw [unlimited_eq]
    exact ⟨_, (iterate_found g r _ (.begin r.start)).subset mem_cons_self, h.symm, le_rfl⟩
  | succ k ih =>
    obtain ⟨node, hnode, relation, hnext⟩ := h
    obtain ⟨x, hx, rfl, hd⟩ := ih (by omega) hnode
    obtain ⟨y, hy, heq, hle⟩ := (layered_after _).closed x hx (by omega) _ hnext
    exact ⟨y, unlimited_eq (g := g) ▸ hy, heq, by omega⟩

/-- The unlimited traversal visits the entities within the depth, each once. -/
theorem unlimited_visits : ((g.unlimited r).map (·.entity)).Nodup ∧
    ∀ entity, entity ∈ (g.unlimited r).map (·.entity) ↔ g.WithinDepth r entity := by
  have h : Layered g r (g.after r (g.ends r).length) := layered_after _
  refine ⟨unlimited_eq (g := g) ▸ h.nodup, fun entity => ⟨fun he => ?_, fun ⟨k, hk, he⟩ => ?_⟩⟩
  · obtain ⟨x, hx, rfl⟩ := mem_map.mp he; exact ⟨_, h.within x (unlimited_eq (g := g) ▸ hx)⟩
  · obtain ⟨x, hx, rfl, -⟩ := unlimited_near hk he; exact mem_map_of_mem hx

/-! ## The limit -/

theorem take_unlimited (hm : 0 < r.maxResults) :
    (g.unlimited r).take r.maxResults = (g.foundByLimit r).take r.maxResults := by
  have hdone : g.after r (r.maxResults + (g.ends r).length) = g.after r (g.ends r).length := by
    rw [Reads.after, Function.iterate_add_apply]
    exact Function.iterate_fixed (turn_nil g r after_ends_queue) _
  have hs : g.after r (g.ends r).length =
      (g.turn r)^[(g.ends r).length + 1] (g.after r (r.maxResults - 1)) := by
    rw [← hdone, Reads.after, Reads.after, ← Function.iterate_add_apply]; congr 1; omega
  rw [unlimited_eq, hs, Reads.foundByLimit]
  cases hq : (g.after r (r.maxResults - 1)).queue with
  | nil => rw [Function.iterate_fixed (turn_nil g r hq)]
  | cons x q =>
    have hv := (after_visits g r (r.maxResults - 1)).resolve_left (by simp [hq])
    obtain ⟨later, hl⟩ := iterate_found g r ((g.ends r).length + 1)
      (g.after r (r.maxResults - 1))
    rw [← hl, take_append_of_le_length]
    simp [Walk.found, hq]
    omega

theorem traverse_eq (hm : 0 < r.maxResults) (h : g.entityVisible r.start = true) :
    g.traverse r = if (g.foundByLimit r).length ≤ r.maxVisits then .ok (g.foundByLimit r)
      else .error (.budgetExhausted r.maxVisits) := by
  have hf := foundByLimit_pos g r
  unfold Reads.traverse
  split
  · rw [if_neg (by omega)]
  · rw [if_neg (by omega), if_neg (by simp [h]),
      walk_eq g r (r.maxResults - 1) _ (.inr (by simp [Walk.begin]; omega))]
    rw [show (Walk.begin r.start : Walk ν ρ).visits.length = 0 from rfl, Nat.zero_add]; rfl

/-- The unlimited traversal visits the entities within the depth, each once. The limit is respected
when no more entities than it allows are found before the visit that reaches it. -/
theorem respectsLimit_iff (hm : 0 < request.maxResults) :
    (((reads.unlimited request).map (·.entity)).Nodup ∧ ∀ entity,
      entity ∈ (reads.unlimited request).map (·.entity) ↔ reads.WithinDepth request entity) ∧
    (reads.RespectsLimit request ↔
      (reads.entityVisible request.start = true → request.maxVisits < request.maxResults ∨
        (reads.foundByLimit request).length ≤ request.maxResults)) := by
  refine ⟨unlimited_visits, ?_⟩
  have hf := foundByLimit_pos reads request
  have htake := take_unlimited (g := reads) hm
  have hlen := congrArg length htake
  rw [length_take, length_take] at hlen
  rw [Reads.RespectsLimit, htake, hlen]
  by_cases hstart : reads.entityVisible request.start = true
  · rw [traverse_eq hm hstart]
    constructor
    · rintro ⟨hok, herr⟩ -
      by_contra hc
      by_cases hl : (reads.foundByLimit request).length ≤ request.maxVisits
      · have := congrArg length (hok _ (if_pos hl)); rw [length_take] at this; omega
      · have := herr _ (if_neg hl); omega
    · intro h
      have := h hstart
      split
      · refine ⟨fun visits hv => ?_, nofun⟩
        rw [← Except.ok.inj hv, take_of_length_le (by omega)]
      · exact ⟨nofun, fun _ _ => by omega⟩
  · refine iff_of_true ?_ fun h => absurd h hstart
    unfold Reads.traverse
    split
    · exact ⟨nofun, fun _ _ => by omega⟩
    · rw [if_neg (by omega), if_pos (by simpa using hstart)]; exact ⟨nofun, nofun⟩

/-- Three entities for a limit of two: both neighbours of the start are queued before the first of
them reaches the limit. -/
theorem limit_exceeded : ¬ (Reads.flat (fun _ => true) [⟨7, (), 0, 1⟩, ⟨8, (), 0, 2⟩]
    (fun _ => true) fun _ => true : Reads Nat Nat Unit).RespectsLimit ⟨0, [], .outgoing, 1, 9, 2⟩ := by
  intro h
  have := h.1 [⟨0, 0, none⟩, ⟨1, 1, some 7⟩, ⟨2, 1, some 8⟩] (by decide +kernel)
  exact absurd (congrArg length this) (by decide +kernel)

theorem respectsLimit_chain : 0 < 2 ∧ (Reads.flat (fun _ => true)
    [⟨7, (), 0, 1⟩, ⟨8, (), 1, 2⟩] (fun _ => true) fun _ => true :
      Reads Nat Nat Unit).RespectsLimit ⟨0, [], .outgoing, 5, 9, 2⟩ :=
  ⟨by decide, (respectsLimit_iff _ _ (by decide)).2.mpr fun _ => .inr (by decide +kernel)⟩

end TraceDecay.GraphDb
