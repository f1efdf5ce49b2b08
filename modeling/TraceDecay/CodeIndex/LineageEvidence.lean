import TraceDecay.CodeIndex.Lineage
import TraceDecay.Lib.Serving

/-!
# CodeIndex.LineageEvidence

What the evidence of a symbol names on its own (`named`): of the prior symbols that are not gone, the
only one with its identity, else the only one that fits its content, else the only one of its group.

`select_attested`: the resolver gives a symbol what its evidence names among what is not consumed.
`links_resolveAll`: its run serves the symbols one after another.
-/

namespace TraceDecay.CodeIndex

open List

section Sole

variable {α β : Type}

/-- The element of a list that has only one. -/
def sole : List α → Option α
  | [a] => some a
  | _ => none

theorem sole_eq_some {l : List α} {a : α} : sole l = some a ↔ l = [a] := by
  constructor
  · intro h
    rcases l with _ | ⟨b, _ | ⟨c, l⟩⟩
    · cases h
    · rw [Option.some.inj h]
    · cases h
  · rintro rfl; rfl

theorem sole_perm {l l' : List α} (h : l.Perm l') : sole l = sole l' := by
  refine Option.ext fun a => ?_
  rw [sole_eq_some, sole_eq_some]
  constructor
  · rintro rfl; exact singleton_perm.mp h |>.symm
  · rintro rfl; exact perm_singleton.mp h

theorem sole_map (f : α → β) (l : List α) : sole (l.map f) = (sole l).map f := by
  rcases l with _ | ⟨a, _ | ⟨b, l⟩⟩
  all_goals rfl

end Sole

/-- An ancestor, and what it is the ancestor by. -/
structure Attested where
  ancestor : LineageSymbolRecord
  kind : LineageKind
  method : LineageMethod

def Attested.key (a : Attested) : SymbolIdentityDigest := a.ancestor.identity

variable (symbol : LineageSymbolRecord) (l : List LineageSymbolRecord)

def ofName : List LineageSymbolRecord :=
  l.filter fun a => a.kind = symbol.kind && a.qualifiedName = symbol.qualifiedName

def ofFile : List LineageSymbolRecord :=
  l.filter fun a => a.kind = symbol.kind && a.fileIdentity = symbol.fileIdentity

/-- By its qualified name it has moved, else by its file it was renamed. -/
def namedByContent (content : List LineageSymbolRecord) : Option Attested :=
  if ofName symbol content = [] then
    (sole (ofFile symbol content)).map fun a => ⟨a, .renamed, .contentDigestMatch⟩
  else (sole (ofName symbol content)).map fun a => ⟨a, .moved, .contentDigestMatch⟩

/-- The group has as many symbols as before, and one of them is left. -/
def namedByStructure (groupSize : Nat) (group left : List LineageSymbolRecord) : Option Attested :=
  if group ≠ [] ∧ group.length ≠ groupSize then none
  else (sole left).map fun a => ⟨a, .structuralContinuity, .qualifiedStructureMatch⟩

def ofIdentity : List LineageSymbolRecord := l.filter fun a => decide (a.identity = symbol.identity)

def ofContent : List LineageSymbolRecord :=
  l.filter fun a => decide (a.contentDigest = symbol.contentDigest)

def ofGroup : List LineageSymbolRecord := l.filter fun a => decide (a.groupKey = symbol.groupKey)

/-- What the evidence of a symbol names among the prior symbols when those of `gone` are not
there. -/
def named (priors : List LineageSymbolRecord) (groupSize : Nat) (symbol : LineageSymbolRecord)
    (gone : List SymbolIdentityDigest) : Option Attested :=
  match sole (ofIdentity symbol (remaining priors gone)) with
  | some a =>
    some ⟨a, if a.contentDigest = symbol.contentDigest then .unchanged else .structuralContinuity,
      .exactIdentityTuple⟩
  | none =>
    if ofContent symbol (remaining priors gone) = [] then
      namedByStructure groupSize (ofGroup symbol priors) (ofGroup symbol (remaining priors gone))
    else namedByContent symbol (ofContent symbol (remaining priors gone))

variable {priors : List LineageSymbolRecord} {n : Nat}

theorem named_congr (s : LineageSymbolRecord) {X Y : List SymbolIdentityDigest}
    (h : ∀ k, k ∈ X ↔ k ∈ Y) : named priors n s X = named priors n s Y := by
  have hl : remaining priors X = remaining priors Y := by simp only [remaining, h]
  rw [named, named, hl]

theorem mem_of_sole_filter {α : Type} {l : List α} {p : α → Bool} {a : α}
    (h : sole (l.filter p) = some a) : a ∈ l ∧ p a = true := by
  rw [sole_eq_some] at h; exact mem_filter.mp (h ▸ mem_singleton_self a)

theorem mem_left_of_named {s : LineageSymbolRecord} {X : List SymbolIdentityDigest}
    {a : Attested} (h : named priors n s X = some a) : a.ancestor ∈ remaining priors X := by
  unfold named at h
  split at h
  · rename_i b hb; cases h; exact (mem_of_sole_filter hb).1
  split at h
  · unfold namedByStructure at h
    split at h
    · cases h
    · obtain ⟨b, hb, rfl⟩ := Option.map_eq_some_iff.mp h; exact (mem_of_sole_filter hb).1
  · unfold namedByContent at h
    split at h
    all_goals
      obtain ⟨b, hb, rfl⟩ := Option.map_eq_some_iff.mp h
      exact (mem_filter.mp (mem_of_sole_filter hb).1).1

theorem ofIdentity_length_le (s : LineageSymbolRecord) (X : List SymbolIdentityDigest)
    (hids : (priors.map (·.identity)).Nodup) : (ofIdentity s (remaining priors X)).length ≤ 1 := by
  have hn := hids.sublist (filter_sublist.map _ : ((remaining priors X).map (·.identity)).Sublist _)
  have hc := nodup_iff_count_le_one.mp hn s.identity
  rwa [List.count, countP_map, countP_eq_length_filter] at hc

theorem named_of_identity (hids : (priors.map (·.identity)).Nodup)
    {s p : LineageSymbolRecord} (hp : p ∈ priors) (hid : p.identity = s.identity) :
    named priors n s [] = some ⟨p,
      if p.contentDigest = s.contentDigest then .unchanged else .structuralContinuity,
      .exactIdentityTuple⟩ := by
  have hmem : p ∈ ofIdentity s (remaining priors []) :=
    mem_filter.mpr ⟨mem_filter.mpr ⟨hp, rfl⟩, decide_eq_true hid⟩
  have hle := ofIdentity_length_le s [] hids
  unfold named
  generalize ofIdentity s (remaining priors []) = l at hmem hle ⊢
  rcases l with _ | ⟨a, _ | ⟨b, l⟩⟩
  · cases hmem
  · rw [mem_singleton.mp hmem]; rfl
  · exact absurd hle (by simp)

/-! ## The evidence under other occurrences -/

def LineageSymbolRecord.rename (f : SymbolOccurrenceId → SymbolOccurrenceId)
    (s : LineageSymbolRecord) : LineageSymbolRecord :=
  { s with occurrence := f s.occurrence }

def Attested.rename (f : SymbolOccurrenceId → SymbolOccurrenceId) (a : Attested) : Attested :=
  { a with ancestor := a.ancestor.rename f }

section Rename

variable {f g : SymbolOccurrenceId → SymbolOccurrenceId} {priors priors' : List LineageSymbolRecord}
  (h : priors'.Perm (priors.map (·.rename f)))
include h

theorem filter_rename (p : LineageSymbolRecord → Bool) (hp : ∀ a, p (a.rename f) = p a) :
    (priors'.filter p).Perm ((priors.filter p).map (·.rename f)) := by
  have hf := h.filter p
  rw [filter_map, show p ∘ (·.rename f) = p from funext hp] at hf; exact hf

theorem sole_rename : sole priors' = (sole priors).map (·.rename f) := by
  rw [sole_perm h, sole_map]

theorem eq_nil_rename : priors' = [] ↔ priors = [] := by
  rw [← length_eq_zero_iff, h.length_eq, length_map, length_eq_zero_iff]

theorem namedByContent_rename (s : LineageSymbolRecord) :
    namedByContent (s.rename g) priors' = (namedByContent s priors).map (·.rename f) := by
  have hn : (ofName (s.rename g) priors').Perm ((ofName s priors).map (·.rename f)) :=
    filter_rename h _ fun _ => rfl
  have hf : (ofFile (s.rename g) priors').Perm ((ofFile s priors).map (·.rename f)) :=
    filter_rename h _ fun _ => rfl
  unfold namedByContent
  rw [if_congr (eq_nil_rename hn) rfl rfl, sole_rename hn, sole_rename hf]
  split
  all_goals
    rw [Option.map_map, Option.map_map]; rfl

theorem namedByStructure_rename {left l' : List LineageSymbolRecord}
    (hlt : l'.Perm (left.map (·.rename f))) :
    namedByStructure n priors' l' = (namedByStructure n priors left).map (·.rename f) := by
  unfold namedByStructure
  have hl : priors'.length = priors.length := by rw [h.length_eq, length_map]
  rw [hl, if_congr (and_congr (not_congr (eq_nil_rename h)) Iff.rfl) rfl rfl, sole_rename hlt]
  split
  · rfl
  · rw [Option.map_map, Option.map_map]; rfl

theorem named_rename (s : LineageSymbolRecord) (X : List SymbolIdentityDigest) :
    named priors' n (s.rename g) X = (named priors n s X).map (·.rename f) := by
  have hl : (remaining priors' X).Perm ((remaining priors X).map (·.rename f)) :=
    filter_rename h _ fun _ => rfl
  have hexact : (ofIdentity (s.rename g) (remaining priors' X)).Perm
      ((ofIdentity s (remaining priors X)).map (·.rename f)) :=
    filter_rename hl _ fun _ => rfl
  have hc : (ofContent (s.rename g) (remaining priors' X)).Perm
      ((ofContent s (remaining priors X)).map (·.rename f)) :=
    filter_rename hl _ fun _ => rfl
  have hg : ∀ {l l' : List LineageSymbolRecord}, l'.Perm (l.map (·.rename f)) →
      (ofGroup (s.rename g) l').Perm ((ofGroup s l).map (·.rename f)) :=
    fun h => filter_rename h _ fun _ => rfl
  unfold named
  rw [sole_rename hexact, if_congr (eq_nil_rename hc) rfl rfl]
  cases sole (ofIdentity s (remaining priors X)) with
  | some a => rfl
  | none =>
    simp only [Option.map_none]
    split
    · exact namedByStructure_rename (hg h) (hg hl)
    · exact namedByContent_rename hc s

end Rename

/-! ## The resolver goes by the evidence -/

def Selection.attested : Selection → Option Attested
  | .chosen ancestor kind method _ _ => some ⟨ancestor, kind, method⟩
  | .abstained .. => none
  | .unresolved => none

def currentGroupSize (current : GenerationSymbolIndex) (symbol : LineageSymbolRecord) : Nat :=
  (current.symbols.filter fun s => decide (s.groupKey = symbol.groupKey)).length

variable {sha256 : EvidenceInput → String} {prior current : GenerationSymbolIndex}

variable (s : LineageSymbolRecord)

theorem selectByContent_attested (content : List LineageSymbolRecord) :
    (selectByContent s content).attested = namedByContent s content := by
  unfold selectByContent namedByContent
  rw [← ofName, ← ofFile]
  rcases ofName s content with _ | ⟨a, _ | ⟨b, names⟩⟩
  · rcases ofFile s content with _ | ⟨a, _ | ⟨b, files⟩⟩
    all_goals rfl
  · rfl
  · rfl

theorem selectByStructure_attested (X : List SymbolIdentityDigest) :
    (selectByStructure prior current s X).attested =
      namedByStructure (currentGroupSize current s) (ofGroup s prior.symbols)
        (ofGroup s (remaining prior.symbols X)) := by
  have hl : ofGroup s (remaining prior.symbols X) =
      remaining (ofGroup s prior.symbols) X := filter_comm ..
  rw [hl]
  unfold selectByStructure namedByStructure
  rw [← ofGroup, ← currentGroupSize]
  by_cases h : ofGroup s prior.symbols ≠ [] ∧
      (ofGroup s prior.symbols).length ≠ currentGroupSize current s
  · rw [if_pos h, if_pos h]; rfl
  · rw [if_neg h, if_neg h]
    rcases remaining (ofGroup s prior.symbols) X with _ | ⟨a, _ | ⟨b, left⟩⟩
    all_goals rfl

theorem select_attested (X : List SymbolIdentityDigest) : (select prior current s X).attested =
      named prior.symbols (currentGroupSize current s) s X := by
  have hl := ofIdentity_length_le s X prior.identities
  unfold select named
  rw [← ofIdentity, ← ofContent]
  generalize ofIdentity s (remaining prior.symbols X) = l at hl ⊢
  rcases l with _ | ⟨a, _ | ⟨b, l⟩⟩
  · rw [show sole ([] : List LineageSymbolRecord) = none from rfl]
    rcases ofContent s (remaining prior.symbols X) with _ | ⟨a, l⟩
    · exact selectByStructure_attested s X
    · exact selectByContent_attested s _
  · rfl
  · exact absurd hl (by simp)

def evidenceNames (prior current : GenerationSymbolIndex) (symbol : LineageSymbolRecord)
    (gone : List SymbolIdentityDigest) : Option Attested :=
  named prior.symbols (currentGroupSize current symbol) symbol gone

theorem evidenceNames_lawful : Serving.Lawful (evidenceNames prior current) Attested.key where
  congr symbol _ _ h := named_congr symbol h
  fresh h := by
    have hmem := (mem_filter.mp (mem_left_of_named h)).2
    rwa [Bool.not_eq_true', decide_eq_false_iff_not] at hmem

/-- What a candidate that does not abstain says. -/
structure Link where
  (current prior : SymbolOccurrenceId)
  kind : LineageKind
  method : LineageMethod
deriving DecidableEq

def SymbolLineageCandidate.link (c : SymbolLineageCandidate) : Option Link :=
  if c.abstention = none then some ⟨c.currentOccurrence, c.priorOccurrence, c.kind, c.method⟩
  else none

def links (candidates : List SymbolLineageCandidate) : List Link :=
  candidates.filterMap SymbolLineageCandidate.link

def Attested.link (symbol : LineageSymbolRecord) (a : Attested) : Link :=
  ⟨symbol.occurrence, a.ancestor.occurrence, a.kind, a.method⟩

variable {c : SymbolLineageCandidate}

theorem abstain_some {s : LineageSymbolRecord} {cs : List LineageSymbolRecord} {r : String}
    (h : abstain sha256 prior current s cs r n = some c) :
    c.currentOccurrence = s.occurrence ∧ c.link = none := by
  unfold abstain at h
  split at h
  · cases h
  · cases h; exact ⟨rfl, rfl⟩

/-- One symbol: its candidate says what its evidence names, and that is consumed. -/
theorem resolveOne_spec (sha256 : EvidenceInput → String) (prior current : GenerationSymbolIndex)
    (s : LineageSymbolRecord) (X : List SymbolIdentityDigest) :
    ((resolveOne sha256 prior current s X).1.bind (·.link) =
      (evidenceNames prior current s X).map (·.link s)) ∧
    (resolveOne sha256 prior current s X).2 =
      ((evidenceNames prior current s X).map Attested.key).toList ++ X ∧
    ∀ c, (resolveOne sha256 prior current s X).1 = some c → c.currentOccurrence = s.occurrence := by
  rw [evidenceNames, ← select_attested]
  unfold resolveOne
  cases select prior current s X with
  | chosen ancestor kind method confidence alternatives => refine ⟨rfl, rfl, ?_⟩; rintro c ⟨⟩; rfl
  | abstained candidates reason count =>
    refine ⟨?_, rfl, fun c hc => (abstain_some hc).1⟩
    change (abstain sha256 prior current s candidates reason count).bind _ = none
    cases h : abstain sha256 prior current s candidates reason count with
    | none => rfl
    | some c => exact (abstain_some h).2
  | unresolved => exact ⟨rfl, rfl, fun c hc => by cases hc⟩

def servedLink (e : LineageSymbolRecord × Option Attested) : Option Link := e.2.map (·.link e.1)

theorem links_resolveAll (l : List LineageSymbolRecord) : ∀ X : List SymbolIdentityDigest,
    links (resolveAll sha256 prior current l X) =
      (Serving.serve (evidenceNames prior current) Attested.key l X).filterMap servedLink := by
  induction l with
  | nil => exact fun _ => rfl
  | cons symbol l ih =>
    intro X
    obtain ⟨hl, hc, -⟩ := resolveOne_spec sha256 prior current symbol X
    rw [resolveAll, links, filterMap_append, ← links, ← links, ih, hc, Serving.serve,
      filterMap_cons]
    simp only [servedLink, ← hl]
    cases (resolveOne sha256 prior current symbol X).1 with
    | none => rfl
    | some c =>
      simp only [links, Option.toList_some, filterMap_cons, filterMap_nil, Option.bind_some]
      cases c.link with
      | none => rfl
      | some _ => rfl

theorem mem_resolveAll {l : List LineageSymbolRecord} :
    ∀ {X : List SymbolIdentityDigest}, c ∈ resolveAll sha256 prior current l X →
      ∃ e ∈ Serving.serve (evidenceNames prior current) Attested.key l X,
        c.currentOccurrence = e.1.occurrence ∧ c.link = servedLink e := by
  induction l with
  | nil => exact fun h => absurd h not_mem_nil
  | cons symbol l ih =>
    intro X h
    obtain ⟨hl, hcand, hkept⟩ := resolveOne_spec sha256 prior current symbol X
    rw [resolveAll, hcand] at h
    rcases mem_append.mp h with h | h
    · rw [Option.mem_toList] at h
      refine ⟨_, mem_cons_self, hkept c h, ?_⟩
      rw [h, Option.bind_some] at hl; exact hl
    · obtain ⟨e, he, hc⟩ := ih h; exact ⟨e, mem_cons_of_mem _ he, hc⟩

end TraceDecay.CodeIndex
