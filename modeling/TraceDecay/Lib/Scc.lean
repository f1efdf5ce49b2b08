import Mathlib.Algebra.Order.BigOperators.Group.Finset
import TraceDecay.Lib.OrdMap

/-!
# Lib.Scc

The strongly connected components of a finite graph by one depth first search with lowlinks, the
recursion held in an explicit stack of frames. `cycleMembers` is the set of nodes that lie in a
component of more than one node or have an edge to themselves, and these are the nodes on cycles.

The stack is cut at the nodes the search is in (`Layered`): above each of them lie nodes whose
successors were all looked at, from which the search came back (`Layer.back`). A lowlink is the
index of a node that can be reached, and no successor looked at so far lies lower. So when the
lowlink of a node is its own index, nothing leads from its layer to what is below, and the layer is
a component.
-/

namespace Scc

open Relation List

universe u
variable {κ : Type u}

section Search

variable [LinearOrder κ]

/-- A node the search is in, with the successors it has still to look at. -/
structure Frame (κ : Type u) where
  node : κ
  remaining : List κ

structure State (κ : Type u) [LinearOrder κ] where
  indexOf : OrdMap κ Nat := .empty
  lowlink : OrdMap κ Nat := .empty
  onStack : Finset κ := ∅
  /-- The last node pushed first. -/
  componentStack : List κ := []
  nextIndex : Nat := 0
  cyclic : Finset κ := ∅
  /-- The last frame pushed first. -/
  work : List (Frame κ) := []

variable (children : κ → List κ) (selfLoop : κ → Bool) (s : State κ) (node : κ)

def State.low : Nat := (s.lowlink.find? node).getD 0

def State.index : Nat := (s.indexOf.find? node).getD 0

/-- Number a node that was not seen before and put a frame for it on top. -/
def State.enter : State κ :=
  { s with
    indexOf := s.indexOf.insert node s.nextIndex
    lowlink := s.lowlink.insert node s.nextIndex
    nextIndex := s.nextIndex + 1
    componentStack := node :: s.componentStack
    onStack := insert node s.onStack
    work := ⟨node, children node⟩ :: s.work }

/-- The members above and including `node`, and what stays below. -/
def popComponent (node : κ) : List κ → List κ × List κ
  | [] => ([], [])
  | member :: rest =>
    if member = node then ([member], rest)
    else
      let (component, below) := popComponent node rest
      (member :: component, below)

/-- Take the component of a root off the stack. -/
def State.close : State κ :=
  let (component, below) := popComponent node s.componentStack
  let multi := 1 < component.length
  { s with
    componentStack := below
    onStack := s.onStack \ component.toFinset
    cyclic := s.cyclic ∪ (component.filter fun member => multi || selfLoop member).toFinset }

def State.lower (low : Nat) : State κ :=
  { s with lowlink := s.lowlink.insert node (min (s.low node) low) }

/-- Look at one successor of the node on top. -/
def State.descend (node child : κ) : State κ :=
  match s.indexOf.find? child with
  | some childIndex => if child ∈ s.onStack then s.lower node childIndex else s
  | none => s.enter children child

/-- Leave the node on top, whose successors are all looked at. -/
def State.leave (rest : List (Frame κ)) : State κ :=
  let nodeLow := s.low node
  let s := if nodeLow = s.index node then s.close selfLoop node else s
  let s := { s with work := rest }
  match rest with
  | parent :: _ => s.lower parent.node nodeLow
  | [] => s

def step : State κ :=
  match s.work with
  | [] => s
  | ⟨node, child :: remaining⟩ :: rest =>
    State.descend children { s with work := ⟨node, remaining⟩ :: rest } node child
  | ⟨node, []⟩ :: rest => s.leave selfLoop node rest

def run : Nat → State κ → State κ
  | 0, s => s
  | fuel + 1, s => if s.work.isEmpty then s else run fuel (step children selfLoop s)

/-- Search from a root that no earlier search has seen. -/
def searchFrom (fuel : Nat) (s : State κ) (root : κ) : State κ :=
  if s.indexOf.contains root then s else run children selfLoop fuel (s.enter children root)

/-- Every turn of the search looks at one successor or leaves one node. -/
def turns (nodes : List κ) : Nat := (nodes.map fun node => (children node).length + 1).sum

def cycleMembers (nodes : List κ) : Finset κ :=
  (nodes.foldl (searchFrom children selfLoop (turns children nodes)) {}).cyclic

end Search

section Layers

variable (children : κ → List κ)

def Edge (a b : κ) : Prop := b ∈ children a

abbrev Reach (a b : κ) : Prop := ReflTransGen (Edge children) a b

/-- An edge the search has looked at, from the node of a frame or from one of the nodes above. -/
def Looked (f : Frame κ) (black : List κ) (y z : κ) : Prop :=
  Edge children y z ∧ (y ∈ black ∨ y = f.node ∧ z ∉ f.remaining)

/-- The layer of a frame: `black` are the nodes above it that the search has left, `below` is the
stack under it. -/
structure Layer (seen : κ → Prop) (index low : κ → Nat) (f : Frame κ) (rest : List (Frame κ))
    (black below : List κ) : Prop where
  parent : ∀ p ∈ rest.head?, Edge children p.node f.node
  remaining : ∀ z ∈ f.remaining, Edge children f.node z
  seen : ∀ y z, Looked children f black y z → seen z
  back : ∀ y ∈ black, ∃ g ∈ (f :: rest).map Frame.node, Reach children y g
  low_le : low f.node ≤ index f.node
  low_sound : ∃ u ∈ black ++ f.node :: below, index u = low f.node ∧ Reach children f.node u
  low : ∀ y, ∀ z ∈ below, Looked children f black y z → low f.node ≤ index z

/-- The stack is cut into the layers of the frames. -/
def Layered (seen : κ → Prop) (index low : κ → Nat) : List (Frame κ) → List κ → Prop
  | [], stack => stack = []
  | f :: rest, stack => ∃ black below, stack = black ++ f.node :: below ∧
      Layered seen index low rest below ∧ Layer children seen index low f rest black below

end Layers

theorem mem_append_cons {a b : κ} {l l' : List κ} : a ∈ l ++ b :: l' ↔ a ∈ l ∨ a = b ∨ a ∈ l' := by
  rw [mem_append, mem_cons]

variable {node c v : κ} {more black below : List κ}

theorem mem_layer : v ∈ black ++ node :: below ↔ v ∈ black ++ [node] ∨ v ∈ below := by
  simp [or_assoc]

section Stack

variable {children : κ → List κ} {seen seen' : κ → Prop} {index index' low low' : κ → Nat}
  {f : Frame κ} {rest work : List (Frame κ)} {stack black below : List κ}

variable (h : Layered children seen index low work stack)
include h

theorem Layered.node_mem : ∀ g ∈ work.map Frame.node, g ∈ stack := by
  induction work generalizing stack with
  | nil => simp
  | cons f rest ih =>
    obtain ⟨black, below, rfl, hr, -⟩ := h
    exact forall_mem_cons.mpr
      ⟨by simp, fun g hg => mem_append_right _ (mem_cons_of_mem _ (ih hr g hg))⟩

theorem Layered.back : ∀ u ∈ stack, ∃ g ∈ work.map Frame.node, Reach children u g := by
  induction work generalizing stack with
  | nil => intro u hu; rw [show stack = [] from h] at hu; cases hu
  | cons f rest ih =>
    obtain ⟨black, below, rfl, hrest, hl⟩ := h
    intro u hu
    rcases mem_append_cons.mp hu with hu | rfl | hu
    · exact hl.back u hu
    · exact ⟨_, mem_cons_self, .refl⟩
    · obtain ⟨g, hg, hr⟩ := ih hrest u hu; exact ⟨g, mem_cons_of_mem _ hg, hr⟩

/-- Layers depend on what is seen, on the indices of the stack and on the lowlinks of the
frames. -/
theorem Layered.mono (hs : ∀ v, seen v → seen' v) (hi : ∀ v ∈ stack, index' v = index v)
    (hlow : ∀ g ∈ work.map Frame.node, low' g = low g) :
    Layered children seen' index' low' work stack := by
  induction work generalizing stack with
  | nil => exact h
  | cons f rest ih =>
    obtain ⟨black, below, rfl, hrest, hl⟩ := h
    have hn : low' f.node = low f.node := hlow _ mem_cons_self
    have hb : ∀ z ∈ below, index' z = index z := fun z hz => hi z (by simp [hz])
    refine ⟨black, below, rfl, ih hrest hb fun g hg => hlow g (mem_cons_of_mem _ hg), ?_⟩
    obtain ⟨u, hu, hindex, hreach⟩ := hl.low_sound
    exact
      { hl with
        seen := fun y z he => hs z (hl.seen y z he)
        low_le := by rw [hn, hi _ (by simp)]; exact hl.low_le
        low_sound := ⟨u, hu, by rw [hn, hi u hu, hindex], hreach⟩
        low := fun y z hz he => by rw [hn, hb z hz]; exact hl.low y z hz he }

theorem Layered.push (hp : ∀ p ∈ work.head?, Edge children p.node c) (hlow : low c = index c) :
    Layered children seen index low (⟨c, children c⟩ :: work) (c :: stack) := by
  have hnone : ∀ y z, ¬ Looked children ⟨c, children c⟩ [] y z := by
    rintro y z ⟨he, hy | ⟨rfl, hr⟩⟩
    · cases hy
    · exact hr he
  exact ⟨[], stack, rfl, h,
    { parent := hp
      remaining := fun _ hz => hz
      seen := fun y z he => absurd he (hnone y z)
      back := by simp
      low_le := le_of_eq hlow
      low_sound := ⟨c, by simp, hlow.symm, .refl⟩
      low := fun y z _ he => absurd he (hnone y z) }⟩

omit h

/-- The frame on top has looked at one successor more, and its lowlink accounts for it. -/
theorem Layered.look
    (h : Layered children seen index low (⟨node, c :: more⟩ :: rest) stack) (hc : seen c)
    (hle : low' node ≤ low node) (hstack : c ∈ stack → low' node ≤ index c)
    (hs : low' node = low node ∨ c ∈ stack ∧ low' node = index c)
    (hlow : ∀ g ∈ rest.map Frame.node, low' g = low g) :
    Layered children seen index low' (⟨node, more⟩ :: rest) stack := by
  obtain ⟨black, below, rfl, hrest, hl⟩ := h
  have hedge : Edge children node c := hl.remaining c mem_cons_self
  -- an edge that was looked at leads to `c` or was looked at before
  have hlooked : ∀ y z, Looked children ⟨node, more⟩ black y z →
      z = c ∨ Looked children ⟨node, c :: more⟩ black y z := by
    rintro y z ⟨he, hy | ⟨hy, hz⟩⟩
    · exact .inr ⟨he, .inl hy⟩
    by_cases hzc : z = c
    · exact .inl hzc
    · exact .inr ⟨he, .inr ⟨hy, fun hmem => (mem_cons.mp hmem).elim hzc hz⟩⟩
  have hsound : ∃ u ∈ black ++ node :: below, index u = low' node ∧ Reach children node u := by
    rcases hs with heq | ⟨hmem, heq⟩
    · rw [heq]; exact hl.low_sound
    · exact ⟨c, hmem, heq.symm, .single hedge⟩
  refine ⟨black, below, rfl, hrest.mono (fun _ hv => hv) (fun _ _ => rfl) hlow, ?_⟩
  exact
    { hl with
      remaining := fun z hz => hl.remaining z (mem_cons_of_mem _ hz)
      seen := fun y z he => by
        rcases hlooked y z he with rfl | he
        · exact hc
        · exact hl.seen y z he
      low_le := hle.trans hl.low_le
      low_sound := hsound
      low := fun y z hz he => by
        rcases hlooked y z he with rfl | he
        · exact hstack (by simp [hz])
        · exact hle.trans (hl.low y z hz he) }

/-- The indices fall from the top of the stack down. -/
def Falling (index : κ → Nat) (stack : List κ) : Prop := stack.Pairwise fun a b => index b < index a

theorem Falling.under (h : Falling index (black ++ node :: below)) :
    Falling index below ∧ ∀ z ∈ below, index z < index node :=
  have hc := pairwise_cons.mp (pairwise_append.mp h).2.1
  ⟨hc.2, hc.1⟩

theorem Falling.above (h : Falling index (black ++ node :: below)) :
    ∀ y ∈ black, ∀ z ∈ node :: below, index z < index y :=
  (pairwise_append.mp h).2.2

theorem Falling.apart (h : Falling index (black ++ node :: below)) (hv : v ∈ below) :
    v ∉ black ++ [node] := by
  intro hmem
  rcases mem_append.mp hmem with hmem | hmem
  · exact lt_irrefl _ (h.above v hmem v (mem_cons_of_mem _ hv))
  · rw [mem_singleton.mp hmem] at hv; exact lt_irrefl _ (h.under.2 node hv)

theorem Layered.index_lt (h : Layered children seen index low (f :: rest) stack)
    (hf : Falling index stack) : ∀ g ∈ rest.map Frame.node, index g < index f.node := by
  obtain ⟨black, below, rfl, hr, -⟩ := h
  exact fun g hg => hf.under.2 g (hr.node_mem g hg)

/-- A node whose lowlink is not its own index joins the layer of its parent. -/
theorem Layered.merge {p : Frame κ}
    (h : Layered children seen index low (⟨node, []⟩ :: p :: rest) stack) (hf : Falling index stack)
    (hne : low node ≠ index node) (hp : low' p.node = min (low p.node) (low node))
    (hlow : ∀ g ∈ rest.map Frame.node, low' g = low g) :
    Layered children seen index low' (p :: rest) stack := by
  obtain ⟨black, below, rfl, hb, hlayer⟩ := h
  obtain ⟨hbelow, hlt⟩ := hf.under
  -- the lowlink is the index of a node below, from which the search gets back
  obtain ⟨u, hu, hindex, hreach⟩ := hlayer.low_sound
  have hule : index u < index node := hindex ▸ lt_of_le_of_ne hlayer.low_le hne
  have hbelow : u ∈ below := by
    rcases mem_append_cons.mp hu with hu | rfl | hu
    · exact absurd (hf.above u hu node mem_cons_self) (not_lt_of_gt hule)
    · exact absurd hule (lt_irrefl _)
    · exact hu
  obtain ⟨g, hg, hug⟩ := hb.back u hbelow
  have hdown : Reach children node g := hreach.trans hug
  obtain ⟨blackP, belowP, rfl, hrest, hl⟩ := hb
  obtain ⟨uP, huP, hindexP, hreachP⟩ := hl.low_sound
  have hedge : Edge children p.node node := hlayer.parent p rfl
  have hlooked : ∀ y z, Looked children p (black ++ node :: blackP) y z →
      Looked children ⟨node, []⟩ black y z ∨ Looked children p blackP y z := by
    rintro y z ⟨he, hy | hy⟩
    · rcases mem_append_cons.mp hy with hy | rfl | hy
      · exact .inl ⟨he, .inl hy⟩
      · exact .inl ⟨he, .inr ⟨rfl, not_mem_nil⟩⟩
      · exact .inr ⟨he, .inl hy⟩
    · exact .inr ⟨he, .inr hy⟩
  refine ⟨black ++ node :: blackP, belowP, by simp,
    hrest.mono (fun _ hv => hv) (fun _ _ => rfl) hlow, ?_⟩
  exact
    { hl with
      seen := fun y z he => (hlooked y z he).elim (hlayer.seen y z) (hl.seen y z)
      back := fun y hy => by
        rcases mem_append_cons.mp hy with hy | rfl | hy
        · obtain ⟨g', hg', hyg⟩ := hlayer.back y hy
          rcases mem_cons.mp hg' with rfl | hg'
          · exact ⟨g, hg, hyg.trans hdown⟩
          · exact ⟨g', hg', hyg⟩
        · exact ⟨g, hg, hdown⟩
        · exact hl.back y hy
      low_le := by
        rw [hp]; exact (min_le_left _ _).trans hl.low_le
      low_sound := by
        rw [append_assoc]
        rcases min_choice (low p.node) (low node) with hmin | hmin
        · exact ⟨uP, mem_append_right _ (mem_cons_of_mem _ huP), by rw [hp, hmin, hindexP], hreachP⟩
        · exact ⟨u, mem_append_right _ (mem_cons_of_mem _ hbelow), by rw [hp, hmin, hindex],
            hreach.head hedge⟩
      low := fun y z hz he => by
        rw [hp]
        rcases hlooked y z he with he | he
        · exact (min_le_right _ _).trans (hlayer.low y z (by simp [hz]) he)
        · exact (min_le_left _ _).trans (hl.low y z hz he) }

/-! ## Components -/

variable {node : κ}

variable (hl : Layer children seen index low ⟨node, []⟩ rest black below)
  (hfalling : Falling index (black ++ node :: below)) (hr : low node = index node)
  (hf : ∀ v w, seen v → v ∉ black ++ node :: below → Edge children v w →
    seen w ∧ w ∉ black ++ node :: below)
include hl hfalling hr hf

/-- When the lowlink of a node it has looked all around is its own index, what its layer leads to
lies in the layer or is finished. -/
theorem Layer.closed {y z : κ} (hy : y ∈ black ++ [node]) (hreach : Reach children y z) :
    z ∈ black ++ [node] ∨ seen z ∧ z ∉ black ++ node :: below := by
  induction hreach with
  | refl => exact .inl hy
  | @tail b c _ hbc ih =>
    rcases ih with hb | ⟨hseen, hb⟩
    · have he : Looked children ⟨node, []⟩ black b c :=
        ⟨hbc, (mem_append.mp hb).imp_right fun hb => ⟨mem_singleton.mp hb, not_mem_nil⟩⟩
      by_cases hs : c ∈ black ++ node :: below
      · refine .inl ((mem_layer.mp hs).resolve_right fun hc => ?_)
        exact absurd (hfalling.under.2 c hc) (not_lt_of_ge (hr ▸ hl.low b c hc he))
      · exact .inr ⟨hl.seen b c he, hs⟩
    · exact .inr (hf b c hseen hb hbc)

variable (hrest : Layered children seen index low rest below)
include hrest

theorem Layer.to_root : ∀ y ∈ black ++ [node], Reach children y node := by
  intro y hy
  rcases mem_append.mp hy with hb | hy'
  · obtain ⟨g, hg, hyg⟩ := hl.back y hb
    rcases mem_cons.mp hg with rfl | hg
    · exact hyg
    · have hmem := hrest.node_mem g hg
      rcases hl.closed hfalling hr hf hy hyg with hg' | ⟨-, hg'⟩
      · exact absurd hg' (hfalling.apart hmem)
      · exact absurd (mem_layer.mpr (.inr hmem)) hg'
  · rw [mem_singleton.mp hy']

/-- The layer is a component: its nodes are on a cycle when there are several of them or the one
has an edge to itself. -/
theorem Layer.cyclic_iff (hup : (black ++ node :: below).Pairwise fun a b => Reach children b a)
    (hv : v ∈ black ++ [node]) :
    TransGen (Edge children) v v ↔ 1 < (black ++ [node]).length ∨ Edge children v v := by
  have hroot := hl.to_root hfalling hr hf hrest
  have hfrom : ∀ y ∈ black ++ [node], Reach children node y := by
    exact forall_mem_append.mpr
      ⟨fun y hy => (pairwise_append.mp hup).2.2 y hy node mem_cons_self,
        forall_mem_singleton.mpr .refl⟩
  constructor
  · intro hc
    by_cases hm : 1 < (black ++ [node]).length
    · exact .inl hm
    obtain ⟨z, hvz, hzv⟩ := TransGen.head'_iff.mp hc
    rcases hl.closed hfalling hr hf hv (.single hvz) with hz | ⟨hseen, hz⟩
    · -- the layer has one node only
      obtain rfl : black = [] := by
        rw [length_append, length_singleton] at hm; exact length_eq_zero_iff.mp (by omega)
      rw [nil_append, mem_singleton] at hv hz; exact .inr (by rw [hz, ← hv] at hvz; exact hvz)
    · -- what is finished does not lead back
      exfalso
      have hd : ∀ w, Reach children z w → seen w ∧ w ∉ black ++ node :: below := by
        intro w hzw
        induction hzw with
        | refl => exact ⟨hseen, hz⟩
        | tail _ hbc ih => exact hf _ _ ih.1 ih.2 hbc
      exact (hd v hzv).2 (mem_layer.mpr (.inl hv))
  · rintro (hm | hloop)
    · obtain ⟨w, hw, hne⟩ : ∃ w ∈ black ++ [node], w ≠ v := by
        rw [length_append, length_singleton] at hm
        obtain ⟨b, hb⟩ := exists_mem_of_length_pos (l := black) (by omega)
        have hne : b ≠ node := ne_of_apply_ne index (hfalling.above b hb node mem_cons_self).ne'
        by_cases hn : v = node
        · exact ⟨b, mem_append_left _ hb, hn ▸ hne⟩
        · exact ⟨node, by simp, Ne.symm hn⟩
      have hvw : Reach children v w := (hroot v hv).trans (hfrom w hw)
      have hwv : Reach children w v := (hroot w hw).trans (hfrom v hv)
      rcases reflTransGen_iff_eq_or_transGen.mp hvw with heq | ht
      · exact absurd heq hne
      · exact ht.trans_left hwv
    · exact .single hloop

end Stack

/-! ## The state of the search -/

variable [LinearOrder κ] {children : κ → List κ}

def State.seen (s : State κ) (v : κ) : Prop := s.indexOf.contains v = true

section Updates

variable (s : State κ) (c v : κ)

theorem enter_seen : (s.enter children c).seen v ↔ v = c ∨ s.seen v := by
  by_cases hv : v = c <;> simp [State.enter, State.seen, OrdMap.contains, hv]

theorem enter_index : (s.enter children c).index v = if v = c then s.nextIndex else s.index v := by
  by_cases hv : v = c <;> simp [State.enter, State.index, hv]

theorem enter_low : (s.enter children c).low v = if v = c then s.nextIndex else s.low v := by
  by_cases hv : v = c <;> simp [State.enter, State.low, hv]

theorem lower_low (b : Nat) : (s.lower c b).low v = if v = c then min (s.low c) b else s.low v := by
  by_cases hv : v = c <;> simp [State.lower, State.low, hv]

end Updates

/-- Seen, and the search has left its component. -/
def State.finished (s : State κ) (v : κ) : Prop := s.seen v ∧ v ∉ s.componentStack

/-- What holds between the turns of the search, whatever the frames are. -/
structure Core (children : κ → List κ) (nodes : List κ) (s : State κ) : Prop where
  seen_nodes : ∀ v, s.seen v → v ∈ nodes
  fresh : ∀ v, s.seen v → s.index v < s.nextIndex
  stack_seen : ∀ v ∈ s.componentStack, s.seen v
  onStack : ∀ v, v ∈ s.onStack ↔ v ∈ s.componentStack
  falling : Falling s.index s.componentStack
  upward : s.componentStack.Pairwise fun a b => Reach children b a
  finished : ∀ v w, s.finished v → Edge children v w → s.finished w
  cyclic : ∀ v, v ∈ s.cyclic ↔ s.finished v ∧ TransGen (Edge children) v v

/-- What holds between the turns of the search. -/
structure Inv (children : κ → List κ) (nodes : List κ) (s : State κ) : Prop
    extends Core children nodes s where
  layered : Layered children s.seen s.index s.low s.work s.componentStack

variable {nodes : List κ} {s : State κ}

variable (h : Core children nodes s)
include h

theorem Core.of_lower (node : κ) (b : Nat) : Core children nodes (s.lower node b) :=
  { h with }

theorem Core.of_work (work : List (Frame κ)) : Core children nodes { s with work } :=
  { h with }

variable {rest : List (Frame κ)}

omit h in
theorem Inv.reach_top (h : Inv children nodes s) {f : Frame κ}
    (hw : s.work = f :: rest) : ∀ u ∈ s.componentStack, Reach children u f.node := by
  intro u hu
  have hl := h.layered
  obtain ⟨g, hg, hug⟩ := hl.back u hu
  rw [hw] at hl hg
  obtain ⟨black, below, hs, hr, -⟩ := hl
  refine hug.trans ?_
  rcases mem_cons.mp hg with rfl | hg
  · exact .refl
  · have hup := h.upward
    rw [hs] at hup; exact (pairwise_cons.mp (pairwise_append.mp hup).2.1).1 g (hr.node_mem g hg)

theorem Core.ne_of_new (hnew : ¬ s.seen c) : ∀ v ∈ s.componentStack, v ≠ c := by
  rintro v hv rfl; exact hnew (h.stack_seen v hv)

theorem Core.enter (hc : c ∈ nodes) (hnew : ¬ s.seen c)
    (hr : ∀ u ∈ s.componentStack, Reach children u c) :
    Core children nodes (s.enter children c) := by
  have hs := h.ne_of_new hnew
  have hfin : ∀ v, (s.enter children c).finished v ↔ s.finished v := by
    intro v
    show (s.enter children c).seen v ∧ v ∉ c :: s.componentStack ↔ _
    rw [enter_seen, mem_cons, not_or]
    constructor
    · rintro ⟨rfl | hv, hne, hnot⟩
      · exact absurd rfl hne
      · exact ⟨hv, hnot⟩
    · rintro ⟨hv, hnot⟩; exact ⟨.inr hv, fun heq => hnew (heq ▸ hv), hnot⟩
  refine ⟨?_, ?_, ?_, ?_, ?_, ?_, ?_, ?_⟩
  · intro v hv
    rcases (enter_seen s c v).mp hv with rfl | hv
    · exact hc
    · exact h.seen_nodes v hv
  · intro v hv
    rw [enter_index]
    split_ifs with hne
    · exact Nat.lt_succ_self _
    · exact Nat.lt_succ_of_lt (h.fresh v (((enter_seen s c v).mp hv).resolve_left hne))
  · exact forall_mem_cons.mpr ⟨(enter_seen s c c).mpr (.inl rfl),
      fun v hv => (enter_seen s c v).mpr (.inr (h.stack_seen v hv))⟩
  · intro v
    show v ∈ insert c s.onStack ↔ v ∈ c :: s.componentStack
    rw [Finset.mem_insert, mem_cons, h.onStack]
  · refine pairwise_cons.mpr ⟨fun v hv => ?_, h.falling.imp_of_mem ?_⟩
    · rw [enter_index, enter_index, if_pos rfl, if_neg (hs v hv)]
      exact h.fresh v (h.stack_seen v hv)
    · intro a b ha hb hlt
      rw [enter_index, enter_index, if_neg (hs a ha), if_neg (hs b hb)]; exact hlt
  · exact pairwise_cons.mpr ⟨fun v hv => hr v hv, h.upward⟩
  · intro v w hv hvw; exact (hfin w).mpr (h.finished v w ((hfin v).mp hv) hvw)
  · intro v; rw [hfin]; exact h.cyclic v

theorem Layered.enter {work : List (Frame κ)}
    (hnew : ¬ s.seen c) (hl : Layered children s.seen s.index s.low work s.componentStack) :
    Layered children (s.enter children c).seen (s.enter children c).index
      (s.enter children c).low work s.componentStack := by
  have hs := h.ne_of_new hnew
  refine hl.mono (fun v hv => (enter_seen s c v).mpr (.inr hv)) ?_ ?_
  · intro v hv
    rw [enter_index, if_neg (hs v hv)]
  · intro g hg
    rw [enter_low, if_neg (hs g (hl.node_mem g hg))]

omit h

theorem Inv.enter_root (h : Inv children nodes s) (hw : s.work = []) (hc : c ∈ nodes)
    (hnew : ¬ s.seen c) : Inv children nodes (s.enter children c) := by
  have he : s.componentStack = [] := by
    have hl := h.layered
    rw [hw] at hl; exact hl
  refine ⟨h.toCore.enter hc hnew (by simp [he]), ?_⟩
  have hl := Layered.enter h.toCore hnew h.layered
  refine hl.push (by simp [hw]) ?_
  simp [enter_low, enter_index]

variable (hnodes : ∀ v ∈ nodes, ∀ w, Edge children v w → w ∈ nodes)

include hnodes in
theorem Inv.next (h : Inv children nodes s) (hw : s.work = ⟨node, c :: more⟩ :: rest) :
    Edge children node c ∧ c ∈ nodes := by
  have hl := h.layered
  rw [hw] at hl
  have hmem := hl.node_mem node mem_cons_self
  obtain ⟨_, _, _, _, hlayer⟩ := hl
  have he := hlayer.remaining c mem_cons_self
  exact ⟨he, hnodes node (h.seen_nodes node (h.stack_seen node hmem)) c he⟩

include hnodes in
theorem Inv.descend (h : Inv children nodes s) (hw : s.work = ⟨node, c :: more⟩ :: rest) :
    Inv children nodes (State.descend children { s with work := ⟨node, more⟩ :: rest } node c) := by
  have hl := h.layered
  rw [hw] at hl
  have htop := h.reach_top hw
  obtain ⟨he, hc⟩ := h.next hnodes hw
  have hcore := h.toCore.of_work (⟨node, more⟩ :: rest)
  have hother : ∀ g ∈ rest.map Frame.node, g ≠ node :=
    fun g hg => ne_of_apply_ne s.index (hl.index_lt h.falling g hg).ne
  unfold State.descend
  cases hf : s.indexOf.find? c with
  | none =>
    have hnew : ¬ s.seen c := by simp [State.seen, OrdMap.contains, hf]
    have hr : ∀ u ∈ s.componentStack, Reach children u c := fun u hu => (htop u hu).tail he
    refine ⟨hcore.enter hc hnew hr, ?_⟩
    have hs : c ∉ s.componentStack := fun hmem => hnew (h.stack_seen c hmem)
    have hentered := Layered.enter h.toCore hnew hl
    refine (hentered.look (c := c) ((enter_seen s c c).mpr (.inl rfl)) le_rfl
      (fun hc => absurd hc hs) (.inl rfl) fun _ _ => rfl).push ?_ ?_
    · intro p hp; cases hp; exact he
    · show (s.enter children c).low c = (s.enter children c).index c
      simp [enter_low, enter_index]
  | some childIndex =>
    have hseen : s.seen c := by simp [State.seen, OrdMap.contains, hf]
    have hi : s.index c = childIndex := by simp [State.index, hf]
    dsimp only
    split_ifs with hstack
    · have hs : c ∈ s.componentStack := (h.onStack c).mp hstack
      refine ⟨hcore.of_lower node childIndex, ?_⟩
      refine hl.look hseen ?_ ?_ ?_ ?_
      · rw [lower_low, if_pos rfl]; exact min_le_left _ _
      · intro _; rw [lower_low, if_pos rfl, hi]; exact min_le_right _ _
      · rw [lower_low, if_pos rfl, hi]; exact (min_choice _ _).imp id fun hmin => ⟨hs, hmin⟩
      · intro g hg; rw [lower_low, if_neg (hother g hg)]; rfl
    · have hs : c ∉ s.componentStack := fun hmem => hstack ((h.onStack c).mpr hmem)
      exact ⟨hcore, hl.look hseen le_rfl (fun hc => absurd hc hs) (.inl rfl) fun _ _ => rfl⟩

theorem popComponent_eq (h : node ∉ black) :
    popComponent node (black ++ node :: below) = (black ++ [node], below) := by
  induction black with
  | nil => simp [popComponent]
  | cons b black ih =>
    have hb : b ≠ node := fun heq => h (heq ▸ mem_cons_self)
    have hr := ih fun hmem => h (mem_cons_of_mem _ hmem)
    simp [popComponent, hb, hr]

variable {selfLoop : κ → Bool} (hself : ∀ v ∈ nodes, (selfLoop v = true ↔ Edge children v v))

include hself in
theorem Core.close (h : Core children nodes s) (hs : s.componentStack = black ++ node :: below)
    (hrest : Layered children s.seen s.index s.low rest below)
    (hl : Layer children s.seen s.index s.low ⟨node, []⟩ rest black below)
    (hr : s.low node = s.index node) :
    Core children nodes (s.close selfLoop node) ∧
      (s.close selfLoop node).componentStack = below := by
  have hf := h.falling
  have hup := h.upward
  have hfinished : ∀ v w, s.seen v → v ∉ black ++ node :: below → Edge children v w →
      s.seen w ∧ w ∉ black ++ node :: below := by
    intro v w hv hnot hvw
    have := h.finished v w ⟨hv, hs ▸ hnot⟩ hvw
    exact ⟨this.1, hs ▸ this.2⟩
  rw [hs] at hf hup
  have hn : node ∉ black := by intro hmem; exact lt_irrefl _ (hf.above node hmem node mem_cons_self)
  have hpop : popComponent node (black ++ node :: below) = (black ++ [node], below) :=
    popComponent_eq hn
  have hstack : ∀ v, v ∈ s.componentStack ↔ v ∈ black ++ [node] ∨ v ∈ below := by
    intro v
    rw [hs, mem_layer]
  have hc : (s.close selfLoop node).componentStack = below := by simp [State.close, hs, hpop]
  -- finished are the nodes that were, and the component
  have hfin : ∀ v, (s.close selfLoop node).finished v ↔ s.finished v ∨ v ∈ black ++ [node] := by
    intro v
    show s.seen v ∧ v ∉ (s.close selfLoop node).componentStack ↔ (s.seen v ∧ _) ∨ _
    rw [hc, hstack]
    constructor
    · rintro ⟨hv, hnot⟩
      by_cases hmem : v ∈ black ++ [node]
      · exact .inr hmem
      · exact .inl ⟨hv, fun h => h.elim hmem hnot⟩
    · rintro (⟨hv, hnot⟩ | hmem)
      · exact ⟨hv, fun h => hnot (.inr h)⟩
      · exact ⟨h.stack_seen v ((hstack v).mpr (.inl hmem)), fun h => hf.apart h hmem⟩
  refine ⟨⟨h.seen_nodes, h.fresh, ?_, ?_, ?_, ?_, ?_, ?_⟩, hc⟩
  · intro v hv; rw [hc] at hv; exact h.stack_seen v ((hstack v).mpr (.inr hv))
  · intro v
    have hleft : (s.close selfLoop node).onStack = s.onStack \ (black ++ [node]).toFinset := by
      simp [State.close, hs, hpop]
    rw [hleft, hc, Finset.mem_sdiff, h.onStack, hstack, mem_toFinset]
    constructor
    · rintro ⟨hmem | hmem, hnot⟩
      · exact absurd hmem hnot
      · exact hmem
    · intro hmem; exact ⟨.inr hmem, hf.apart hmem⟩
  · rw [hc]; exact hf.under.1
  · rw [hc]; exact (pairwise_cons.mp (pairwise_append.mp hup).2.1).2
  · intro v w hv hvw
    rw [hfin] at hv ⊢
    rcases hv with hv | hv
    · exact .inl (h.finished v w hv hvw)
    · rcases hl.closed hf hr hfinished hv (.single hvw) with hw | ⟨hw, hnot⟩
      · exact .inr hw
      · exact .inl ⟨hw, hs ▸ hnot⟩
  · intro v
    have hcyc : v ∈ (s.close selfLoop node).cyclic ↔
        v ∈ s.cyclic ∨ v ∈ black ++ [node] ∧ (1 < (black ++ [node]).length ∨ selfLoop v = true) := by
      simp [State.close, hs, hpop, or_and_right]
    rw [hcyc, hfin, h.cyclic, or_and_right]
    refine or_congr Iff.rfl (and_congr_right fun hmem => ?_)
    have hv : v ∈ nodes := h.seen_nodes v (h.stack_seen v ((hstack v).mpr (.inl hmem)))
    rw [hl.cyclic_iff hf hr hfinished hrest hup hmem, hself v hv]

include hself in
theorem Inv.leave (h : Inv children nodes s) (hw : s.work = ⟨node, []⟩ :: rest) :
    Inv children nodes (s.leave selfLoop node rest) := by
  have hl := h.layered
  rw [hw] at hl
  have hlt := hl.index_lt h.falling
  obtain ⟨black, below, hs, hr, hlayer⟩ := hl
  have hf := h.falling
  rw [hs] at hf
  unfold State.leave
  by_cases hroot : s.low node = s.index node
  · obtain ⟨hcore, hc⟩ := h.toCore.close hself hs hr hlayer hroot
    simp only [hroot, if_true]
    cases rest with
    | nil => exact ⟨hcore.of_work [], hc.trans hr⟩
    | cons p rest =>
      refine ⟨(hcore.of_work (p :: rest)).of_lower p.node _, ?_⟩
      rw [hc]
      refine hr.mono (fun _ hv => hv) (fun _ _ => rfl) fun g _ => ?_
      have hlow : s.low p.node ≤ s.index node := by
        obtain ⟨_, _, _, _, hloop⟩ := hr
        exact hloop.low_le.trans (le_of_lt (hlt p.node mem_cons_self))
      refine (lower_low _ _ _ _).trans ?_
      split_ifs with hg
      · rw [hg]; exact min_eq_left hlow
      · rfl
  · simp only [hroot, if_false]
    cases rest with
    | nil =>
      -- the lowlink of a root of the search is its own index
      exfalso
      obtain ⟨u, hu, hindex, -⟩ := hlayer.low_sound
      rw [show below = [] from hr] at hu hf
      rcases mem_append.mp hu with hu | hu
      · have := hf.above u hu node mem_cons_self
        exact absurd hlayer.low_le (not_le_of_gt (hindex ▸ this))
      · rw [mem_singleton.mp hu] at hindex; exact hroot hindex.symm
    | cons p rest =>
      refine ⟨(h.toCore.of_work (p :: rest)).of_lower p.node _, ?_⟩
      have hp : ∀ g ∈ rest.map Frame.node, g ≠ p.node :=
        fun g hg => ne_of_apply_ne s.index (hr.index_lt hf.under.1 g hg).ne
      have hl := h.layered
      rw [hw] at hl
      refine hl.merge h.falling hroot ?_ ?_
      · rw [lower_low, if_pos rfl]; rfl
      · intro g hg; rw [lower_low, if_neg (hp g hg)]; rfl

include hnodes hself in
theorem step_inv (h : Inv children nodes s) : Inv children nodes (step children selfLoop s) := by
  unfold step
  split
  · exact h
  · rename_i node child remaining rest hw; exact h.descend hnodes hw
  · rename_i node rest hw; exact h.leave hself hw

/-! ## The turns -/

/-- The turns a search has still to take. -/
def left (children : κ → List κ) (nodes : List κ) (s : State κ) : Nat :=
  (∑ v ∈ nodes.toFinset with ¬ s.indexOf.contains v, ((children v).length + 1)) +
    (s.work.map fun f => f.remaining.length + 1).sum

theorem left_enter (hc : c ∈ nodes) (hnew : ¬ s.seen c) :
    left children nodes (s.enter children c) = left children nodes s := by
  have hu : (nodes.toFinset.filter fun v => ¬ (s.enter children c).indexOf.contains v) =
      (nodes.toFinset.filter fun v => ¬ s.indexOf.contains v).erase c := by
    ext v
    have hs : (s.enter children c).indexOf.contains v = true ↔ v = c ∨ s.indexOf.contains v :=
      enter_seen s c v
    rw [Finset.mem_erase, Finset.mem_filter, Finset.mem_filter, hs, not_or, and_left_comm]
  have hmem : c ∈ nodes.toFinset.filter fun v => ¬ s.indexOf.contains v :=
    Finset.mem_filter.mpr ⟨mem_toFinset.mpr hc, hnew⟩
  rw [left, left, hu, ← Finset.add_sum_erase _ _ hmem]
  simp only [State.enter, map_cons, sum_cons]; omega

theorem leave_indexOf (s : State κ) (selfLoop : κ → Bool) (node : κ) (rest : List (Frame κ)) :
    (s.leave selfLoop node rest).indexOf = s.indexOf := by
  unfold State.leave
  by_cases hr : s.low node = s.index node <;> cases rest <;> simp [hr, State.close, State.lower]

theorem left_congr {s' : State κ} (hi : s'.indexOf = s.indexOf) (hw : s'.work = s.work) :
    left children nodes s' = left children nodes s := by
  rw [left, left, hi, hw]

include hnodes in
theorem left_step (h : Inv children nodes s) (hw : s.work ≠ []) :
    left children nodes (step children selfLoop s) + 1 = left children nodes s := by
  unfold step
  split
  · exact absurd ‹_› hw
  · rename_i node child remaining rest hf
    have ht : left children nodes { s with work := ⟨node, remaining⟩ :: rest } + 1 =
        left children nodes s := by
      simp only [left, hf, map_cons, sum_cons, length_cons]; omega
    rw [← ht]
    unfold State.descend
    split
    · split
      · exact congrArg (· + 1) (left_congr rfl rfl)
      · rfl
    rename_i hfind
    refine congrArg (· + 1) (left_enter (h.next hnodes hf).2 ?_)
    show ¬ (OrdMap.contains _ child = true)
    simp [OrdMap.contains, hfind]
  · rename_i node rest hf
    have ht : left children nodes { s with work := rest } + 1 = left children nodes s := by
      simp only [left, hf, map_cons, sum_cons, length_nil]; omega
    rw [← ht]; exact congrArg (· + 1) (left_congr (leave_indexOf ..) (by cases rest <;> rfl))

include hnodes hself in
theorem run_inv (h : Inv children nodes s) {fuel : Nat} (hf : left children nodes s ≤ fuel) :
    Inv children nodes (run children selfLoop fuel s) ∧
      (run children selfLoop fuel s).work = [] := by
  induction fuel generalizing s with
  | zero =>
    refine ⟨h, ?_⟩
    cases hw : s.work with
    | nil => exact hw
    | cons f rest => simp only [left, hw, map_cons, sum_cons] at hf; omega
  | succ fuel ih =>
    rw [run]
    split_ifs with he
    · exact ⟨h, isEmpty_iff.mp he⟩
    · have hl : left children nodes (step children selfLoop s) + 1 = _ :=
        left_step hnodes h (by simpa using he)
      exact ih (step_inv hnodes hself h) (by omega)

theorem step_seen (hv : s.seen v) : (step children selfLoop s).seen v := by
  unfold step
  split
  · exact hv
  · unfold State.descend
    split
    · split <;> exact hv
    · exact (enter_seen _ _ _).mpr (.inr hv)
  · rename_i node rest _
    unfold State.seen
    rw [leave_indexOf]; exact hv

theorem run_seen (fuel : Nat) (hv : s.seen v) : (run children selfLoop fuel s).seen v := by
  induction fuel generalizing s with
  | zero => exact hv
  | succ fuel ih =>
    rw [run]
    split
    · exact hv
    · exact ih (step_seen hv)

/-! ## The whole search -/

theorem init_inv : Inv children nodes ({} : State κ) := by
  have hnone : ∀ v, ¬ ({} : State κ).seen v := fun v hv => Bool.noConfusion hv
  exact
    { seen_nodes := fun v hv => absurd hv (hnone v)
      fresh := fun v hv => absurd hv (hnone v)
      stack_seen := by simp
      onStack := by simp
      falling := List.Pairwise.nil
      upward := List.Pairwise.nil
      finished := fun v _ hv => absurd hv.1 (hnone v)
      cyclic := fun v => ⟨by simp, fun hv => absurd hv.1.1 (hnone v)⟩
      layered := rfl }

variable (hn : nodes.Nodup)
include hnodes hself hn

theorem searchFrom_inv (h : Inv children nodes s) (hw : s.work = []) {root : κ} (hr : root ∈ nodes) :
    ∃ s', searchFrom children selfLoop (turns children nodes) s root = s' ∧
      Inv children nodes s' ∧ s'.work = [] ∧ ∀ v, v = root ∨ s.seen v → s'.seen v := by
  unfold searchFrom
  split_ifs with hseen
  · refine ⟨s, rfl, h, hw, ?_⟩
    rintro v (rfl | hv)
    · exact hseen
    · exact hv
  · have hf : left children nodes (s.enter children root) ≤ turns children nodes := by
      rw [left_enter hr hseen, left, hw, map_nil, sum_nil, Nat.add_zero, turns, ← sum_toFinset _ hn]
      exact Finset.sum_le_sum_of_subset (Finset.filter_subset _ _)
    obtain ⟨hinv, hd⟩ := run_inv hnodes hself (h.enter_root hw hr hseen) hf
    exact ⟨_, rfl, hinv, hd, fun v hv => run_seen _ ((enter_seen s root v).mpr hv)⟩

theorem mem_cycleMembers :
    v ∈ cycleMembers children selfLoop nodes ↔ v ∈ nodes ∧ TransGen (Edge children) v v := by
  -- the roots searched so far have been seen
  have hrun : ∀ r : List κ, r ⊆ nodes →
      ∃ s, r.foldl (searchFrom children selfLoop (turns children nodes)) {} = s ∧
        Inv children nodes s ∧ s.work = [] ∧ ∀ v ∈ r, s.seen v := by
    intro r hsub
    induction r using List.reverseRecOn with
    | nil => exact ⟨{}, rfl, init_inv, rfl, by simp⟩
    | append_singleton r root ih =>
      obtain ⟨hsub, hroot⟩ := append_subset.mp hsub
      obtain ⟨s, hr, hinv, hd, hs⟩ := ih hsub
      obtain ⟨_, rfl, hi', hd', hs'⟩ := searchFrom_inv hnodes hself hn hinv hd (hroot mem_cons_self)
      rw [foldl_concat, hr]
      exact ⟨_, rfl, hi', hd', forall_mem_append.mpr ⟨fun v hv => hs' v (.inr (hs v hv)),
        forall_mem_singleton.mpr (hs' root (.inl rfl))⟩⟩
  obtain ⟨_, hrun, hinv, hd, hs⟩ := hrun nodes (List.Subset.refl _)
  have he := hinv.layered
  rw [hd] at he
  rw [cycleMembers, hrun, hinv.cyclic]
  refine and_congr_left fun _ => ⟨fun hv => hinv.seen_nodes v hv.1, fun hv => ⟨hs v hv, ?_⟩⟩
  rw [show State.componentStack _ = [] from he]; exact not_mem_nil

end Scc
