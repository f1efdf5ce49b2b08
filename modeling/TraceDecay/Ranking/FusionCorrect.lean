import TraceDecay.Ranking.Fusion

/-!
# Ranking.FusionCorrect

Rank fusion depends on the set of rows only. What `prepareCandidates` returns is described by
conditions that speak of membership in the input and nothing else (`PreparedBy`), they determine it,
and it returns exactly when every stable id has metadata that all its rows agree on (`Consistent`).
-/

namespace TraceDecay.Ranking

open Domain Sorting Fallible
open List hiding dedup

variable {rows rows' pre : List RankingCandidate} {id : String}

/-- The slot holds the one value that the rows of an id supply for a field. -/
@[mk_iff]
structure Filled (rows : List RankingCandidate) (id : String)
    (field : RankingCandidate → Option String) (slot : Option String) : Prop where
  supplied : ∀ c ∈ rows, c.stableId = id → ∀ v, field c = some v → slot = some v
  present : ∀ v, slot = some v → ∃ c ∈ rows, c.stableId = id ∧ field c = some v

/-- The metadata that all rows of an id agree on. -/
@[mk_iff]
structure IsMerged (rows : List RankingCandidate) (id : String) (m : MergedMetadata) : Prop where
  nonempty : ∃ c ∈ rows, c.stableId = id
  stableId : m.stableId = id
  anchorId : ∀ c ∈ rows, c.stableId = id → m.anchorId = c.anchorId
  knowledge : ∀ c ∈ rows, c.stableId = id → m.knowledgeAtMicros = c.knowledgeAtMicros
  source : ∀ c ∈ rows, c.stableId = id → m.source = c.source
  logicalMessage : Filled rows id (·.logicalMessage) m.logicalMessage
  turn : Filled rows id (·.turn) m.turn
  session : Filled rows id (·.session) m.session
  evidenceRole : Filled rows id (·.evidenceRole) m.evidenceRole

def Consistent (rows : List RankingCandidate) : Prop := ∀ c ∈ rows, ∃ m, IsMerged rows c.stableId m

variable {field : RankingCandidate → Option String} {m : MergedMetadata} {c : RankingCandidate}
  {metadata : MetadataById}

theorem Filled.unique {s t : Option String}
    (hs : Filled rows id field s) (ht : Filled rows id field t) : s = t := by
  cases s with
  | some v => obtain ⟨c, hc, hid, hv⟩ := hs.present v rfl; exact (ht.supplied c hc hid v hv).symm
  | none =>
    cases t with
    | none => rfl
    | some v => obtain ⟨c, hc, hid, hv⟩ := ht.present v rfl; exact hs.supplied c hc hid v hv

variable {n : MergedMetadata} {slot : Option String} {e : UniqueEntry}

theorem IsMerged.unique (hm : IsMerged rows id m) (hn : IsMerged rows id n) : m = n := by
  obtain ⟨c, hc, hid⟩ := hm.nonempty
  have ha := (hm.anchorId c hc hid).trans (hn.anchorId c hc hid).symm
  have hk := (hm.knowledge c hc hid).trans (hn.knowledge c hc hid).symm
  have hsource := (hm.source c hc hid).trans (hn.source c hc hid).symm
  have hmessage := hm.logicalMessage.unique hn.logicalMessage
  have ht := hm.turn.unique hn.turn
  have hs := hm.session.unique hn.session
  have hr := hm.evidenceRole.unique hn.evidenceRole
  have hstable := hm.stableId.trans hn.stableId.symm
  cases m
  cases n; simp_all

/-! ## Merging the metadata -/

theorem forall_concat {P : RankingCandidate → Prop} (h : ∀ d ∈ pre, P d) (hc : P c) :
    ∀ d ∈ pre ++ [c], P d := forall_mem_append.mpr ⟨h, forall_mem_singleton.mpr hc⟩

theorem Filled.or (h : Filled pre id field slot) (hc : c.stableId = id)
    (ha : optionConflicts slot (field c) = false) :
    Filled (pre ++ [c]) id field (slot.or (field c)) := by
  constructor
  · intro d hd hid v hv
    rcases mem_append.mp hd with hd | hd
    · rw [h.supplied d hd hid v hv, Option.some_or]
    · rw [mem_singleton.mp hd] at hv
      cases slot with
      | none => exact hv
      | some w => rw [hv] at ha; simpa [optionConflicts] using ha
  · intro v hv
    cases slot with
    | none => exact ⟨c, by simp, hc, hv⟩
    | some w =>
      obtain ⟨d, hd, hid, hdv⟩ := h.present w rfl
      exact ⟨d, mem_append_left _ hd, hid, hdv.trans hv⟩

theorem Filled.single (c : RankingCandidate) (field : RankingCandidate → Option String)
    (hpre : ∀ d ∈ pre, d.stableId ≠ c.stableId) :
    Filled (pre ++ [c]) c.stableId field (field c) := by
  constructor
  · exact forall_concat (fun d hd hid => absurd hid (hpre d hd)) fun _ _ hv => hv
  · intro v hv; exact ⟨c, by simp, rfl, hv⟩

theorem IsMerged.frame (h : IsMerged pre id m) (hc : c.stableId ≠ id) :
    IsMerged (pre ++ [c]) id m := by
  simpa [isMerged_iff, filled_iff, or_and_right, exists_or, or_imp, forall_and, hc] using h

theorem IsMerged.fill (h : IsMerged pre c.stableId m)
    (hagree : mergedMetadataConflicts m c = false) :
    IsMerged (pre ++ [c]) c.stableId (m.fill c) := by
  simp only [mergedMetadataConflicts, Bool.or_eq_false_iff, decide_eq_false_iff_not, ne_eq, not_not,
    and_assoc] at hagree
  obtain ⟨ha, hk, hsource, hm, ht, hs, hr⟩ := hagree
  exact ⟨⟨c, by simp, rfl⟩, h.stableId, forall_concat h.anchorId fun _ => ha,
    forall_concat h.knowledge fun _ => hk, forall_concat h.source fun _ => hsource,
    h.logicalMessage.or rfl hm, h.turn.or rfl ht, h.session.or rfl hs, h.evidenceRole.or rfl hr⟩

theorem IsMerged.first (c : RankingCandidate) (hpre : ∀ d ∈ pre, d.stableId ≠ c.stableId) :
    IsMerged (pre ++ [c]) c.stableId (.first c) := by
  have ho : ∀ {P : RankingCandidate → Prop}, P c →
      ∀ d ∈ pre ++ [c], d.stableId = c.stableId → P d :=
    fun hPc => forall_concat (fun d hd hid => absurd hid (hpre d hd)) fun _ => hPc
  exact ⟨⟨c, by simp, rfl⟩, rfl, ho rfl, ho rfl, ho rfl, .single c _ hpre,
    .single c _ hpre, .single c _ hpre, .single c _ hpre⟩

abbrev MergedBy (pre : List RankingCandidate) (metadata : MetadataById) : Prop :=
  metadata.Groups (·.stableId) IsMerged pre

theorem MergedBy.step {metadata' : MetadataById} (h : MergedBy pre metadata)
    (hs : mergeRow metadata c = .ok metadata') : MergedBy (pre ++ [c]) metadata' := by
  unfold mergeRow at hs
  obtain ⟨hf, hnone⟩ | ⟨existing, hf, hm⟩ := h c.stableId
  · simp only [hf] at hs
    cases hs; exact h.insert .frame (.first c hnone)
  · simp only [hf] at hs
    split at hs
    · cases hs
    · rename_i hagree; cases hs; exact h.insert .frame (hm.fill (by simpa using hagree))

theorem IsMerged.agree (hm : IsMerged pre c.stableId m) (hn : IsMerged rows c.stableId n)
    (hsub : ∀ d ∈ pre, d ∈ rows) (hc : c ∈ rows) : mergedMetadataConflicts m c = false := by
  obtain ⟨d, hd, hid⟩ := hm.nonempty
  have hslot : ∀ {field : RankingCandidate → Option String} {s t : Option String},
      Filled pre c.stableId field s → Filled rows c.stableId field t →
      optionConflicts s (field c) = false := by
    intro field s t hs ht
    cases s with
    | none => rfl
    | some v =>
      cases hv : field c with
      | none => rfl
      | some w =>
        obtain ⟨e, he, heid, hev⟩ := hs.present v rfl
        have hvw : v = w := Option.some.inj
          ((ht.supplied e (hsub e he) heid v hev).symm.trans (ht.supplied c hc rfl w hv))
        simp [optionConflicts, hvw]
  have ha : m.anchorId = c.anchorId := (hm.anchorId d hd hid).trans
      ((hn.anchorId d (hsub d hd) hid).symm.trans (hn.anchorId c hc rfl))
  have hk : m.knowledgeAtMicros = c.knowledgeAtMicros := (hm.knowledge d hd hid).trans
      ((hn.knowledge d (hsub d hd) hid).symm.trans (hn.knowledge c hc rfl))
  have hsource : m.source = c.source :=
    (hm.source d hd hid).trans ((hn.source d (hsub d hd) hid).symm.trans (hn.source c hc rfl))
  simp [mergedMetadataConflicts, ha, hk, hsource,
    hslot hm.logicalMessage hn.logicalMessage, hslot hm.turn hn.turn, hslot hm.session hn.session,
    hslot hm.evidenceRole hn.evidenceRole]

theorem mergeRows_ok (h : Consistent rows) :
    ∃ metadata, rows.foldlM mergeRow .empty = .ok metadata ∧ MergedBy rows metadata := by
  refine foldlM_ok .nil ?_
  intro pre c metadata hpre hm
  have hc : c ∈ rows := hpre.subset (by simp)
  have hsub : ∀ d ∈ pre, d ∈ rows := fun d hd => hpre.subset (mem_append_left _ hd)
  obtain ⟨n, hn⟩ := h c hc
  obtain ⟨metadata', hs⟩ : ∃ metadata', mergeRow metadata c = .ok metadata' := by
    unfold mergeRow
    obtain ⟨hf, -⟩ | ⟨existing, hf, hat⟩ := hm c.stableId
    · exact ⟨_, by rw [hf]⟩
    · exact ⟨_, by simp only [hf, hat.agree hn hsub hc]; rfl⟩
  exact ⟨metadata', hs, hm.step hs⟩

theorem consistent_of_mergeRows (h : rows.foldlM mergeRow .empty = .ok metadata) :
    Consistent rows := by
  intro c hc
  have hm : MergedBy rows metadata := foldlM_induct .nil (fun _ _ _ _ _ hm hs => hm.step hs) h
  obtain ⟨m, -, hm⟩ := hm.of_mem hc
  exact ⟨m, hm⟩

/-! ## Collapsing the records -/

@[mk_iff]
structure IsCollapsed (rows : List RankingCandidate) (key : RecordKey) (e : UniqueEntry) :
    Prop where
  source : ∀ c ∈ rows, recordKey c = key → c.source = e.bestSource
  attained : ∃ c ∈ rows, recordKey c = key ∧ c.rawScore = e.bestRawScore
  best : ∀ c ∈ rows, recordKey c = key → c.rawScore ≤ e.bestRawScore
  ranges : ∀ r, r ∈ e.exactRanges ↔ ∃ c ∈ rows, recordKey c = key ∧ r ∈ c.exactRanges

theorem IsCollapsed.frame {key : RecordKey} (h : IsCollapsed pre key e) (hc : recordKey c ≠ key) :
    IsCollapsed (pre ++ [c]) key e := by
  simpa [isCollapsed_iff, or_and_right, exists_or, or_imp, forall_and, hc] using h

theorem IsCollapsed.append {e' : UniqueEntry} (h : IsCollapsed pre (recordKey c) e)
    (hs : e.bestSource = c.source) (hs' : e'.bestSource = c.source)
    (hb : e'.bestRawScore = max e.bestRawScore c.rawScore)
    (hranges : e'.exactRanges = e.exactRanges ++ c.exactRanges) :
    IsCollapsed (pre ++ [c]) (recordKey c) e' := by
  refine ⟨?_, ?_, ?_, ?_⟩
  · refine forall_concat (fun d hd hkey => ?_) fun _ => hs'.symm
    rw [h.source d hd hkey, hs, hs']
  · rw [hb]
    rcases le_total e.bestRawScore c.rawScore with hle | hle
    · exact ⟨c, by simp, rfl, (max_eq_right hle).symm⟩
    · obtain ⟨d, hd, hkey, hraw⟩ := h.attained
      exact ⟨d, mem_append_left _ hd, hkey, hraw.trans (max_eq_left hle).symm⟩
  · rw [hb]
    exact forall_concat (fun d hd hkey => le_trans (h.best d hd hkey) (le_max_left _ _))
      fun _ => le_max_right _ _
  · intro r
    rw [hranges, mem_append, h.ranges r]
    constructor
    · rintro (⟨d, hd, hkey, hr⟩ | hr)
      · exact ⟨d, mem_append_left _ hd, hkey, hr⟩
      · exact ⟨c, by simp, rfl, hr⟩
    · rintro ⟨d, hd, hkey, hr⟩
      rcases mem_append.mp hd with hd | hd
      · exact .inl ⟨d, hd, hkey, hr⟩
      · rw [mem_singleton.mp hd] at hr; exact .inr hr

theorem IsCollapsed.single (c : RankingCandidate) (hpre : ∀ d ∈ pre, recordKey d ≠ recordKey c) :
    IsCollapsed (pre ++ [c]) (recordKey c) ⟨c.rawScore, c.source, c.exactRanges⟩ := by
  have ho : ∀ {P : RankingCandidate → Prop}, P c →
      ∀ d ∈ pre ++ [c], recordKey d = recordKey c → P d :=
    fun hPc => forall_concat (fun d hd hkey => absurd hkey (hpre d hd)) fun _ => hPc
  refine ⟨ho rfl, ⟨c, by simp, rfl, rfl⟩, ho le_rfl, fun r => ⟨fun hr => ?_, ?_⟩⟩
  · exact ⟨c, by simp, rfl, hr⟩
  · rintro ⟨d, hd, hkey, hr⟩
    exact ho (P := fun d => r ∈ d.exactRanges → r ∈ c.exactRanges) id d hd hkey hr

abbrev CollapsedBy (pre : List RankingCandidate) (unique : UniqueByRecord) : Prop :=
  unique.Groups recordKey IsCollapsed pre

theorem CollapsedBy.step {u unique' : UniqueByRecord} (h : CollapsedBy pre u)
    (hs : collapseRow u c = .ok unique') : CollapsedBy (pre ++ [c]) unique' := by
  unfold collapseRow at hs
  obtain ⟨hf, hnone⟩ | ⟨existing, hf, hat⟩ := h (recordKey c)
  · simp only [hf] at hs
    cases hs; exact h.insert .frame (.single c hnone)
  · simp only [hf] at hs
    split at hs
    · cases hs
    rename_i hsource
    replace hsource : existing.bestSource = c.source := by simpa using hsource
    cases hs
    refine h.insert .frame (hat.append hsource ?_ ?_ ?_)
    · split
      · rfl
      · exact hsource
    · split
      · rename_i hgt; exact (max_eq_right (le_of_lt hgt)).symm
      · rename_i hle; exact (max_eq_left (le_of_not_gt hle)).symm
    · split <;> rfl

theorem stableId_eq_of_recordKey_eq {d : RankingCandidate} (h : recordKey c = recordKey d) :
    c.stableId = d.stableId := congrArg (fun key => (ofLex key).1) h

theorem collapseRows_ok (h : Consistent rows) :
    ∃ unique, rows.foldlM collapseRow .empty = .ok unique ∧ CollapsedBy rows unique := by
  refine foldlM_ok .nil ?_
  intro pre c unique hpre hu
  have hc : c ∈ rows := hpre.subset (by simp)
  have hsub : ∀ d ∈ pre, d ∈ rows := fun d hd => hpre.subset (mem_append_left _ hd)
  obtain ⟨m, hm⟩ := h c hc
  obtain ⟨unique', hs⟩ : ∃ unique', collapseRow unique c = .ok unique' := by
    unfold collapseRow
    obtain ⟨hf, -⟩ | ⟨existing, hf, hat⟩ := hu (recordKey c)
    · exact ⟨_, by rw [hf]⟩
    · -- a row of the record has the id's source, as this one has
      obtain ⟨d, hd, hkey, -⟩ := hat.attained
      have hsource : existing.bestSource = c.source := by
        rw [← hat.source d hd hkey, ← hm.source c hc rfl,
          hm.source d (hsub d hd) (stableId_eq_of_recordKey_eq hkey)]
      exact ⟨_, by simp only [hf]; exact if_neg (by simp [hsource])⟩
  exact ⟨unique', hs, hu.step hs⟩

/-! ## The prepared rows -/

def PreparedCandidate.key (p : PreparedCandidate) : RecordKey :=
  toLex (p.stableId, toLex (p.channel, p.retrieverRecordId))

def rangeBounds (r : ByteRangeV1) : Nat ×ₗ Nat := toLex (r.start, r.stop)

theorem rangeBounds_injective : Function.Injective rangeBounds := by
  rintro ⟨a, b, hab⟩ ⟨c, d, hcd⟩ h
  obtain ⟨rfl, rfl⟩ := Prod.mk.inj (toLex.injective h)
  rfl

theorem compareRanges_ordersBy : OrdersBy compareRanges rangeBounds := by
  intro a b
  rw [compareRanges, compare_then_ne_gt, compare_ne_gt, rangeBounds, rangeBounds,
    Prod.Lex.toLex_le_toLex]

@[mk_iff]
structure IsPrepared (rows : List RankingCandidate) (p : PreparedCandidate) : Prop where
  attained : ∃ c ∈ rows, recordKey c = p.key ∧ c.rawScore = p.rawScore
  best : ∀ c ∈ rows, recordKey c = p.key → c.rawScore ≤ p.rawScore
  sorted : p.exactRanges.Pairwise fun a b => rangeBounds a < rangeBounds b
  ranges : ∀ r, r ∈ p.exactRanges ↔ ∃ c ∈ rows, recordKey c = p.key ∧ r ∈ c.exactRanges
  metadata : IsMerged rows p.stableId p.metadata

@[mk_iff]
structure PreparedBy (rows : List RankingCandidate) (prepared : List PreparedCandidate) :
    Prop where
  sorted : prepared.Pairwise fun a b => a.key < b.key
  complete : ∀ c ∈ rows, ∃ p ∈ prepared, p.key = recordKey c
  entry : ∀ p ∈ prepared, IsPrepared rows p

theorem IsPrepared.unique {p q : PreparedCandidate} (hp : IsPrepared rows p)
    (hq : IsPrepared rows q) (hkey : p.key = q.key) : p = q := by
  have hraw : p.rawScore = q.rawScore := by
    obtain ⟨c, hc, hck, hcr⟩ := hp.attained
    obtain ⟨d, hd, hdk, hdr⟩ := hq.attained
    refine le_antisymm ?_ ?_
    · rw [← hcr]; exact hq.best c hc (hck.trans hkey)
    · rw [← hdr]; exact hp.best d hd (hdk.trans hkey.symm)
  have hranges : p.exactRanges = q.exactRanges :=
    eq_of_sorted_of_mem_iff hp.sorted hq.sorted fun r => by rw [hp.ranges, hq.ranges, hkey]
  obtain ⟨hid, hr⟩ := Prod.mk.inj (toLex.injective hkey)
  obtain ⟨hchannel, hrecord⟩ := Prod.mk.inj (toLex.injective hr)
  have hm : p.metadata = q.metadata := hp.metadata.unique (hid ▸ hq.metadata)
  cases p
  cases q; simp_all

theorem PreparedBy.unique {l l' : List PreparedCandidate} (h : PreparedBy rows l)
    (h' : PreparedBy rows l') : l = l' := by
  have hsub : ∀ {l l' : List PreparedCandidate}, PreparedBy rows l → PreparedBy rows l' →
      ∀ p ∈ l, p ∈ l' := by
    intro l l' h h' p hp
    obtain ⟨c, hc, hck, -⟩ := (h.entry p hp).attained
    obtain ⟨q, hq, hqk⟩ := h'.complete c hc
    rwa [(h.entry p hp).unique (h'.entry q hq) (hck.symm.trans hqk.symm)]
  exact eq_of_sorted_of_mem_iff h.sorted h'.sorted fun p => ⟨hsub h h' p, hsub h' h p⟩

theorem prepareEntry_prepared (hmerged : MergedBy rows metadata)
    {key : RecordKey} (he : IsCollapsed rows key e) :
    ∃ p, prepareEntry metadata (key, e) = .ok p ∧ p.key = key ∧ IsPrepared rows p := by
  obtain ⟨c, hc, rfl, hraw⟩ := he.attained
  obtain ⟨m, hf, hm⟩ := hmerged.of_mem hc
  refine ⟨⟨c.stableId, c.channel, c.retrieverRecordId, e.bestRawScore,
    dedup (sortBy compareRanges e.exactRanges), m⟩, ?_, rfl, ?_⟩
  · simp only [prepareEntry, recordKey, ofLex_toLex, hf]
  · refine ⟨⟨c, hc, rfl, hraw⟩, he.best, ?_, ?_, hm⟩
    · exact dedup_sorted rangeBounds_injective (sortBy_sorted compareRanges_ordersBy _)
    · intro r; rw [Sorting.mem_dedup, (sortBy_perm _ _).mem_iff]; exact he.ranges r

theorem prepareCandidates_of_consistent (h : Consistent rows) :
    ∃ prepared, prepareCandidates rows = .ok prepared ∧ PreparedBy rows prepared := by
  obtain ⟨metadata, hm, hmerged⟩ := mergeRows_ok h
  obtain ⟨unique, hu, hcollapsed⟩ := collapseRows_ok h
  have hentry : ∀ e ∈ unique.entries, ∃ p, prepareEntry metadata e = .ok p ∧ p.key = e.1 ∧
      IsPrepared rows p := by
    rintro ⟨key, e⟩ he
    have hf := OrdMap.mem_entries.mp he
    obtain ⟨hnone, -⟩ | ⟨e', hf', hat⟩ := hcollapsed key
    · cases hnone.symm.trans hf
    · cases hf'.symm.trans hf; exact prepareEntry_prepared hmerged hat
  obtain ⟨prepared, hall⟩ := exists_forall₂ hentry
  have hk : prepared.map (·.key) = unique.keys := by
    have heq : List.Forall₂ Eq (prepared.map (·.key)) unique.keys :=
      forall₂_map_left_iff.mpr (forall₂_map_right_iff.mpr (hall.imp fun _ _ hp => hp.2.1).flip)
    rwa [forall₂_eq_eq_eq] at heq
  refine ⟨prepared, ?_, ?_, ?_, ?_⟩
  · rw [prepareCandidates, hm, ok_bind, hu, ok_bind]
    exact mapM_eq_ok.mpr (hall.imp fun _ _ hp => hp.1)
  · exact pairwise_map.mp (hk ▸ unique.keys_sorted)
  · intro c hc
    obtain ⟨e, hf, -⟩ := hcollapsed.of_mem hc
    have hmem : recordKey c ∈ prepared.map (·.key) := by rw [hk, OrdMap.mem_keys, hf]; rfl
    obtain ⟨p, hp, hkey⟩ := mem_map.mp hmem
    exact ⟨p, hp, hkey⟩
  · intro p hp; obtain ⟨e, -, -, -, hprepared⟩ := exists_of_mem_right hall hp; exact hprepared

theorem consistent_of_prepareCandidates {p : List PreparedCandidate}
    (h : prepareCandidates rows = .ok p) : Consistent rows :=
  have ⟨_, hm, _⟩ := bind_eq_ok.mp h
  consistent_of_mergeRows hm

/-! ## The set of rows -/

section
variable (hset : ∀ c, c ∈ rows ↔ c ∈ rows')
include hset

theorem consistent_of_same_rows : Consistent rows ↔ Consistent rows' := by
  simp only [Consistent, isMerged_iff, filled_iff, hset]

variable {prepared : List PreparedCandidate}

theorem preparedBy_of_same_rows : PreparedBy rows prepared ↔ PreparedBy rows' prepared := by
  simp only [preparedBy_iff, isPrepared_iff, isMerged_iff, filled_iff, hset]

theorem prepareCandidates_of_same_rows
    (h : prepareCandidates rows = .ok prepared) : prepareCandidates rows' = .ok prepared := by
  have hc := consistent_of_prepareCandidates h
  obtain ⟨p, hp, hids⟩ := prepareCandidates_of_consistent hc
  obtain ⟨p', hp', hby'⟩ := prepareCandidates_of_consistent ((consistent_of_same_rows hset).mp hc)
  obtain rfl : p = prepared := Except.ok.inj (hp.symm.trans h)
  rw [hp', ((preparedBy_of_same_rows hset).mp hids).unique hby']

end

/-- Rank fusion is a function of the set of evidence rows. -/
theorem rankCandidates_of_same_rows (rows rows' : List RankingCandidate)
    (hset : ∀ c, c ∈ rows ↔ c ∈ rows') (limits : DiversityLimits) (ranked : List RankedCandidate) :
    rankCandidates rows limits = .ok ranked ↔ rankCandidates rows' limits = .ok ranked := by
  have hone : ∀ {rows rows' : List RankingCandidate}, (∀ c, c ∈ rows ↔ c ∈ rows') →
      rankCandidates rows limits = .ok ranked → rankCandidates rows' limits = .ok ranked := by
    intro rows rows' hset h
    obtain ⟨prepared, hp, hr⟩ := bind_eq_ok.mp h
    exact bind_eq_ok.mpr ⟨prepared, prepareCandidates_of_same_rows hset hp, hr⟩
  exact ⟨hone hset, hone fun c => (hset c).symm⟩

def anchorX : RetrievalAnchorId := ⟨"x", by decide⟩

def anchorY : RetrievalAnchorId := ⟨"y", by decide⟩

def lexicalRow (stableId : String) (anchorId : RetrievalAnchorId) (rawScore : Int) :
    RankingCandidate :=
  ⟨stableId, anchorId, stableId, .lexical, rawScore, 0, none, none, none, some "store", none, []⟩

def loneRanked : RankedCandidate :=
  ⟨"a1", anchorX, 1999999, 0, none, none, none, some "store", none,
    [⟨.lexical, some "store", "a1", 0, 3, 1999999, []⟩]⟩

theorem rankCandidates_of_repeated_row :
    rankCandidates [lexicalRow "a1" anchorX 3, lexicalRow "a1" anchorX 3]
      ⟨8, 8, 8, 8, 8⟩ = .ok [loneRanked] :=
  (rankCandidates_of_same_rows [lexicalRow "a1" anchorX 3] _ (by simp) _ _).mp (by decide)

end TraceDecay.Ranking
