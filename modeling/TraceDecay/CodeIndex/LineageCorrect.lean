import Mathlib.Logic.Equiv.Fintype
import TraceDecay.Lib.Stable
import TraceDecay.CodeIndex.LineageEvidence

/-!
# CodeIndex.LineageCorrect

What lineage says of two generations should not depend on how their occurrences are named: exact
identity comes first, no ancestor is given twice, and other occurrences give the same links under
other names (`FirstChoice`).

The symbols are served in the order of their occurrences, so that is so exactly when no symbol's
evidence is touched by what the evidence of the others names (`first_choice_iff_undisturbed`).
-/

namespace TraceDecay.CodeIndex

open List Sorting

/-! ## Indexes under other occurrences -/

variable {index : GenerationSymbolIndex} {l : List LineageSymbolRecord}
  {g : SymbolOccurrenceId → SymbolOccurrenceId}

theorem new_eq_ok {generationId : String}
    (h : GenerationSymbolIndex.new generationId l = .ok index) :
    index.symbols.Perm l ∧ index.generationId = generationId := by
  unfold GenerationSymbolIndex.new at h
  simp only at h
  split at h
  · split at h
    · cases h; exact ⟨sortBy_perm _ l, rfl⟩
    · cases h
  · cases h

theorem GenerationSymbolIndex.occurrences_nodup (index : GenerationSymbolIndex) :
    (index.symbols.map (·.occurrence)).Nodup := by
  rw [List.Nodup, pairwise_map]; exact index.sorted.imp fun hlt => ne_of_lt hlt

theorem GenerationSymbolIndex.eq_of_occurrence_eq {a b : LineageSymbolRecord}
    (ha : a ∈ index.symbols) (hb : b ∈ index.symbols) (h : a.occurrence = b.occurrence) : a = b :=
  inj_on_of_nodup_map index.occurrences_nodup ha hb h

theorem new_of_perm
    (h : l.Perm index.symbols) : GenerationSymbolIndex.new index.generationId l = .ok index := by
  have hs : sortBy (fun a b => compare a.occurrence b.occurrence) l = index.symbols :=
    (sortBy_eq_of_perm (fun _ _ => compare_ne_gt) h fun _ ha _ hb =>
      index.eq_of_occurrence_eq (h.subset ha) (h.subset hb)).trans
      (sortBy_of_sorted (index.sorted.imp fun hlt => compare_ne_gt.mpr hlt.le))
  unfold GenerationSymbolIndex.new; simp only [hs, index.sorted, index.identities, dif_pos]

/-- Distinct names can be exchanged for others. -/
theorem exists_injective_map_eq {α : Type} {l l' : List α} (hl : l.Nodup) (hl' : l'.Nodup)
    (hlen : l.length = l'.length) : ∃ g : α → α, Function.Injective g ∧ l.map g = l' := by
  obtain ⟨σ, hσ⟩ := Equiv.Perm.exists_extending_pair l.get (fun i => l'.get (i.cast hlen))
    (nodup_iff_injective_get.mp hl)
    ((nodup_iff_injective_get.mp hl').comp (Fin.cast_injective hlen))
  refine ⟨σ, σ.injective, ext_get (by rw [length_map, hlen]) fun n h h' => ?_⟩
  rw [length_map] at h
  have hget := hσ ⟨n, h⟩
  simpa using hget

variable (index : GenerationSymbolIndex)

def Reindexed (g : SymbolOccurrenceId → SymbolOccurrenceId)
    (l : List LineageSymbolRecord) : Prop :=
  ∃ i', GenerationSymbolIndex.new index.generationId (index.symbols.map (·.rename g)) = .ok i' ∧
    i'.symbols = l.map (·.rename g)

theorem reindexed_of_ascending (h : l.Perm index.symbols)
    (hsorted : l.Pairwise fun a b => g a.occurrence < g b.occurrence) : Reindexed index g l := by
  have hs' : (l.map (·.rename g)).Pairwise fun a b => a.occurrence < b.occurrence :=
    pairwise_map.mpr hsorted
  have hidentities : ((l.map (·.rename g)).map (·.identity)).Nodup := by
    rw [map_map]; exact (h.map _).nodup_iff.mpr index.identities
  let i' : GenerationSymbolIndex := ⟨index.generationId, _, hs', hidentities⟩
  have hp : (index.symbols.map (·.rename g)).Perm i'.symbols := h.symm.map _
  exact ⟨i', new_of_perm hp, rfl⟩

theorem exists_renamed_order (h : l.Perm index.symbols) :
    ∃ g, Function.Injective g ∧ Reindexed index g l := by
  obtain ⟨g, hg, hmap⟩ := exists_injective_map_eq (l := l.map (·.occurrence))
    ((h.map _).nodup_iff.mpr index.occurrences_nodup) index.occurrences_nodup
    (h.map _).length_eq
  refine ⟨g, hg, reindexed_of_ascending index h ?_⟩
  have ho : (index.symbols.map (·.occurrence)).Pairwise (· < ·) := pairwise_map.mpr index.sorted
  rwa [← hmap, map_map, pairwise_map] at ho

theorem exists_renamed (hg : Function.Injective g) :
    ∃ l, l.Perm index.symbols ∧ Reindexed index g l := by
  let cmp := fun a b : LineageSymbolRecord => compare (g a.occurrence) (g b.occurrence)
  have hp : (sortBy cmp index.symbols).Perm index.symbols := sortBy_perm ..
  have hle : OrdersBy cmp fun a => g a.occurrence := fun _ _ => compare_ne_gt
  have hn : ((sortBy cmp index.symbols).map (·.occurrence)).Nodup :=
    (hp.map _).nodup_iff.mpr index.occurrences_nodup
  have hne : (sortBy cmp index.symbols).Pairwise fun a b => a.occurrence ≠ b.occurrence :=
    pairwise_map.mp hn
  refine ⟨_, hp, reindexed_of_ascending index hp ?_⟩
  refine ((sortBy_sorted hle index.symbols).and hne).imp fun h => ?_
  exact lt_of_le_of_ne h.1 fun heq => h.2 (hg heq)

/-! ## The links under other occurrences -/

def Link.rename (f g : SymbolOccurrenceId → SymbolOccurrenceId) (link : Link) : Link :=
  { link with current := g link.current, prior := f link.prior }

section

variable {f : SymbolOccurrenceId → SymbolOccurrenceId} {prior p' current c' : GenerationSymbolIndex}
  (hp : p'.symbols.Perm (prior.symbols.map (·.rename f)))
  (hc : c'.symbols.Perm (current.symbols.map (·.rename g)))
include hp hc

theorem evidenceNames_rename (symbol : LineageSymbolRecord) (X : List SymbolIdentityDigest) :
    evidenceNames p' c' (symbol.rename g) X =
      (evidenceNames prior current symbol X).map (·.rename f) := by
  have hs : currentGroupSize c' (symbol.rename g) = currentGroupSize current symbol := by
    have hg : (c'.symbols.filter fun s => decide (s.groupKey = (symbol.rename g).groupKey)).Perm
        ((current.symbols.filter fun s => decide (s.groupKey = symbol.groupKey)).map
          (·.rename g)) := filter_rename hc _ fun _ => rfl
    rw [currentGroupSize, hg.length_eq, length_map, currentGroupSize]
  rw [evidenceNames, hs, evidenceNames]; exact named_rename hp symbol X

theorem links_rename (sha256 : EvidenceInput → String) (l : List LineageSymbolRecord) :
    links (resolveAll sha256 p' c' (l.map (·.rename g)) []) =
      ((Serving.serve (evidenceNames prior current) Attested.key l []).filterMap servedLink).map
        (·.rename f g) := by
  rw [links_resolveAll, Serving.serve_map (q := fun a : Attested => a.rename f)
    (evidenceNames_rename hp hc) (fun _ => rfl), filterMap_map, map_filterMap]
  refine filterMap_congr fun e _ => ?_
  simp only [Function.comp_apply, servedLink, Option.map_map]; rfl

end

/-! ## First choice -/

/-- What the candidates owe to the evidence: an exact identity is followed, no prior symbol is
given twice, and other occurrences give the same links under other names. -/
structure FirstChoice (sha256 : EvidenceInput → String) (prior current : GenerationSymbolIndex)
    (candidates : List SymbolLineageCandidate) : Prop where
  exact : ∀ s ∈ current.symbols, ∀ p ∈ prior.symbols, p.identity = s.identity →
    (∃ c ∈ candidates, c.currentOccurrence = s.occurrence) ∧
    ∀ c ∈ candidates, c.currentOccurrence = s.occurrence → c.link = some
      ⟨s.occurrence, p.occurrence,
        if p.contentDigest = s.contentDigest then .unchanged else .structuralContinuity,
        .exactIdentityTuple⟩
  once : (links candidates).Pairwise fun a b => a.prior ≠ b.prior
  renamed : ∀ f g : SymbolOccurrenceId → SymbolOccurrenceId, Function.Injective f →
    Function.Injective g → ∃ prior' current' candidates',
      GenerationSymbolIndex.new prior.generationId (prior.symbols.map (·.rename f)) = .ok prior' ∧
      GenerationSymbolIndex.new current.generationId (current.symbols.map (·.rename g)) =
        .ok current' ∧
      resolve sha256 prior' current' = .ok candidates' ∧
      (links candidates').Perm ((links candidates).map (·.rename f g))

section FirstChoice

variable {sha256 : EvidenceInput → String} {prior current : GenerationSymbolIndex}

theorem resolve_of_ne (h : prior.generationId ≠ current.generationId) :
    resolve sha256 prior current = .ok (resolveAll sha256 prior current current.symbols []) :=
  if_neg h

variable {s : LineageSymbolRecord} {a : Attested}

theorem ancestor_mem {X : List SymbolIdentityDigest}
    (h : evidenceNames prior current s X = some a) : a.ancestor ∈ prior.symbols :=
  (mem_filter.mp (mem_left_of_named h)).1

theorem mem_serve {e : LineageSymbolRecord × Option Attested} : ∀ {X : List SymbolIdentityDigest},
      e ∈ Serving.serve (evidenceNames prior current) Attested.key l X →
      e.1 ∈ l ∧ ∃ Y, e.2 = evidenceNames prior current e.1 Y := by
  induction l with
  | nil => exact fun h => absurd h not_mem_nil
  | cons s l ih =>
    intro X h
    rcases mem_cons.mp h with rfl | h
    · exact ⟨mem_cons_self, X, rfl⟩
    · exact ⟨mem_cons_of_mem _ (ih h).1, (ih h).2⟩

theorem links_once (sha256 : EvidenceInput → String) (prior current : GenerationSymbolIndex)
    (l : List LineageSymbolRecord) :
    (links (resolveAll sha256 prior current l [])).Pairwise fun a b => a.prior ≠ b.prior := by
  rw [links_resolveAll, pairwise_filterMap]
  refine (Serving.serve_pairwise evidenceNames_lawful).2.imp_of_mem ?_
  intro e e' he he' hk link hl l' hl' heq
  obtain ⟨a, ha, rfl⟩ := Option.map_eq_some_iff.mp hl
  obtain ⟨a', ha', rfl⟩ := Option.map_eq_some_iff.mp hl'
  obtain ⟨-, Y, hY⟩ := mem_serve he
  obtain ⟨-, Y', hY'⟩ := mem_serve he'
  have hsame : a.ancestor = a'.ancestor :=
    prior.eq_of_occurrence_eq (ancestor_mem (hY.symm.trans ha)) (ancestor_mem (hY'.symm.trans ha'))
      heq
  exact hk a a' ha ha' (congrArg LineageSymbolRecord.identity hsame)

theorem firstChoice_of_undisturbed (hgen : prior.generationId ≠ current.generationId)
    (h : Serving.Undisturbed (evidenceNames prior current) Attested.key current.symbols) :
    FirstChoice sha256 prior current (resolveAll sha256 prior current current.symbols []) := by
  have hn : current.symbols.Nodup := List.Nodup.of_map _ current.identities
  have hserve : ∀ l, l.Perm current.symbols →
      Serving.serve (evidenceNames prior current) Attested.key l [] =
        l.map fun s => (s, evidenceNames prior current s []) := fun l hl =>
    h.serve (hl.nodup_iff.mpr hn) hl.subset fun _ hk => absurd hk not_mem_nil
  refine ⟨fun s hs p hp hid => ?_, links_once .., fun f g hf hg => ?_⟩
  · have hnd := named_of_identity prior.identities (n := currentGroupSize current s) hp hid
    have hlink : servedLink (s, evidenceNames prior current s []) = some ⟨s.occurrence, p.occurrence,
          if p.contentDigest = s.contentDigest then .unchanged else .structuralContinuity,
          .exactIdentityTuple⟩ := by
      rw [servedLink, evidenceNames, hnd]; rfl
    constructor
    · have hmem : Link.mk s.occurrence p.occurrence
          (if p.contentDigest = s.contentDigest then .unchanged else .structuralContinuity)
          .exactIdentityTuple ∈ links (resolveAll sha256 prior current current.symbols []) := by
        rw [links_resolveAll, hserve _ (.refl _)]
        exact mem_filterMap.mpr ⟨_, mem_map.mpr ⟨s, hs, rfl⟩, hlink⟩
      obtain ⟨c, hc, hcand⟩ := mem_filterMap.mp hmem
      refine ⟨c, hc, ?_⟩
      unfold SymbolLineageCandidate.link at hcand
      split at hcand
      · exact congrArg Link.current (Option.some.inj hcand)
      · cases hcand
    · intro c hc ho
      obtain ⟨e, he, hkept, hcand⟩ := mem_resolveAll hc
      rw [hserve _ (.refl _)] at he
      obtain ⟨s', hs', rfl⟩ := mem_map.mp he
      have hsame : s' = s := current.eq_of_occurrence_eq hs' hs (hkept.symm.trans ho)
      rw [hcand, hsame, hlink]
  · obtain ⟨priors, hsyms, prior', hnew, hp'⟩ := exists_renamed prior hf
    obtain ⟨l, hl, current', hn', hc'⟩ := exists_renamed current hg
    have hg' : prior'.generationId ≠ current'.generationId := by
      rwa [(new_eq_ok hnew).2, (new_eq_ok hn').2]
    refine ⟨prior', current', _, hnew, hn', resolve_of_ne hg', ?_⟩
    have hlinks := links_rename (new_eq_ok hnew).1 (new_eq_ok hn').1 sha256 l
    rw [hc', hlinks, links_resolveAll, hserve l hl,
      hserve _ (.refl _)]; exact ((hl.map _).filterMap _).map _

def servedLinks (prior current : GenerationSymbolIndex) (l : List LineageSymbolRecord) : List Link :=
  (Serving.serve (evidenceNames prior current) Attested.key l []).filterMap servedLink

theorem mem_serve_of_link {l' : List LineageSymbolRecord}
    (hl : l ⊆ current.symbols) (hl' : l' ⊆ current.symbols)
    (hls : servedLinks prior current l ⊆ servedLinks prior current l')
    (h : (s, some a) ∈ Serving.serve (evidenceNames prior current) Attested.key l []) :
    (s, some a) ∈ Serving.serve (evidenceNames prior current) Attested.key l' [] := by
  obtain ⟨e, he, hlink⟩ := mem_filterMap.mp (hls (mem_filterMap.mpr ⟨_, h, rfl⟩))
  obtain ⟨a', ha', heq⟩ := Option.map_eq_some_iff.mp hlink
  obtain ⟨hs, Y, hY⟩ := mem_serve h
  obtain ⟨hs', Y', hY'⟩ := mem_serve he
  simp only [Attested.link, Link.mk.injEq] at heq
  obtain ⟨hc, hp, hk, hm⟩ := heq
  have hsame : e.1 = s := current.eq_of_occurrence_eq (hl' hs') (hl hs) hc
  have ha : a'.ancestor = a.ancestor := prior.eq_of_occurrence_eq
    (ancestor_mem (hY'.symm.trans ha')) (ancestor_mem hY.symm) hp
  have hg : a' = a := by
    cases a
    cases a'
    simp only at ha hk hm
    rw [ha, hk, hm]
  have heq : e = (s, some a) := Prod.ext hsame (ha'.trans (congrArg some hg))
  exact heq ▸ he

theorem undisturbed_of_firstChoice (hgen : prior.generationId ≠ current.generationId)
    (h : FirstChoice sha256 prior current (resolveAll sha256 prior current current.symbols [])) :
    Serving.Undisturbed (evidenceNames prior current) Attested.key current.symbols := by
  have hn : current.symbols.Nodup := List.Nodup.of_map _ current.identities
  -- an order of the symbols is that of other names, and those keep the links
  have hls : ∀ l, l.Perm current.symbols →
      (servedLinks prior current l).Perm (servedLinks prior current current.symbols) := by
    intro l hl
    obtain ⟨g, hg, index, hi, hsyms⟩ := exists_renamed_order current hl
    obtain ⟨prior', current', candidates, hnew, hn', hr, hp⟩ :=
      h.renamed id g Function.injective_id hg
    cases hn'.symm.trans hi
    have hg' : prior'.generationId ≠ index.generationId := by
      rwa [(new_eq_ok hnew).2, (new_eq_ok hi).2]
    rw [resolve_of_ne hg'] at hr
    cases hr
    rw [hsyms, links_rename (new_eq_ok hnew).1 (new_eq_ok hi).1 sha256 l, links_resolveAll] at hp
    have hinj : Function.Injective (Link.rename id g) := by
      intro a b hab
      cases a
      cases b
      simp only [Link.rename, Link.mk.injEq] at hab ⊢; exact ⟨hg hab.1, hab.2⟩
    exact (map_perm_map_iff hinj).mp hp
  refine (Serving.serve_eq_iff_undisturbed evidenceNames_lawful hn).mp
    (Serving.exists_given hn fun l hl e he => ?_)
  obtain ⟨s, _ | a⟩ := e
  · -- a symbol that is given nothing here is given nothing there
    have hs := (mem_serve he).1
    obtain ⟨o, ho⟩ := Serving.exists_served (evidenceNames prior current) Attested.key
      (hl.subset hs) []
    cases o with
    | none => exact ho
    | some a =>
      have hmem := mem_serve_of_link (fun _ h => h) hl.subset (hls l hl).symm.subset ho
      cases Serving.serve_unique (hl.nodup_iff.mpr hn) he hmem rfl
  · exact mem_serve_of_link hl.subset (fun _ h => h) (hls l hl).subset he

/-- Exact identity has first choice, no ancestor is given twice and the links do not depend on the
names of the occurrences exactly when no symbol's evidence is touched by what that of the others
names. -/
theorem first_choice_iff_undisturbed (sha256 : EvidenceInput → String)
    (prior current : GenerationSymbolIndex) (hgen : prior.generationId ≠ current.generationId) :
    (∃ candidates, resolve sha256 prior current = .ok candidates ∧
      FirstChoice sha256 prior current candidates) ↔
    Serving.Undisturbed (evidenceNames prior current) Attested.key current.symbols := by
  constructor
  · rintro ⟨candidates, hr, h⟩
    rw [resolve_of_ne hgen] at hr
    cases hr; exact undisturbed_of_firstChoice hgen h
  · exact fun h => ⟨_, resolve_of_ne hgen, firstChoice_of_undisturbed hgen h⟩

end FirstChoice

/-! ## A function that is copied in its file -/

def parseRecord : LineageSymbolRecord where
  occurrence := "parse@1"
  identity := "lib.rs/parse/0"
  qualifiedName := "parse"
  kind := "function"
  fileIdentity := "lib.rs"
  contentDigest := "body"

def beforeCopy : GenerationSymbolIndex where
  generationId := "generation-1"
  symbols := [parseRecord]
  sorted := pairwise_singleton _ _
  identities := nodup_singleton _

/-- The function is still there, and a copy of it has an earlier occurrence. -/
def afterCopy : GenerationSymbolIndex where
  generationId := "generation-2"
  symbols := [{ parseRecord with
      occurrence := "decode@2", identity := "lib.rs/decode/0", qualifiedName := "decode" },
    { parseRecord with occurrence := "parse@2" }]
  sorted := by decide
  identities := by decide

theorem first_choice_iff_undisturbed_copy : beforeCopy.generationId ≠ afterCopy.generationId ∧
    ((∃ candidates, resolve (fun _ => "digest") beforeCopy afterCopy = .ok candidates ∧
      FirstChoice (fun _ => "digest") beforeCopy afterCopy candidates) ↔
    Serving.Undisturbed (evidenceNames beforeCopy afterCopy) Attested.key afterCopy.symbols) :=
  ⟨by decide, first_choice_iff_undisturbed _ _ _ (by decide)⟩

/-- The copy takes the ancestor, and the function itself has none. -/
theorem copy_takes_ancestor :
    links (resolveAll (fun _ => "digest") beforeCopy afterCopy afterCopy.symbols []) =
      [⟨"decode@2", "parse@1", .renamed, .contentDigestMatch⟩] ∧
    ¬∃ candidates, resolve (fun _ => "digest") beforeCopy afterCopy = .ok candidates ∧
      FirstChoice (fun _ => "digest") beforeCopy afterCopy candidates := by
  refine ⟨by decide +kernel, ?_⟩
  rintro ⟨candidates, hr, h⟩
  cases hr
  obtain ⟨⟨c, hc, ho⟩, -⟩ := h.exact { parseRecord with occurrence := "parse@2" }
    (by decide) parseRecord (by decide) rfl
  have hnone : ∀ c ∈ resolveAll (fun _ => "digest") beforeCopy afterCopy afterCopy.symbols [],
      c.currentOccurrence ≠ "parse@2" := by decide +kernel
  exact hnone c hc ho

end TraceDecay.CodeIndex
