import Mathlib.Data.List.TakeWhile
import TraceDecay.Lcm.Compression

/-!
# Lcm.Coverage

What compression passes cover. The sources of the summaries are the conversational messages up to
the frontier, each once and in order. No boundary splits a complete tool transaction, as long as no
such transaction is followed by policy messages and then another tool message, and none was open
when a pass ran.
-/

namespace TraceDecay.Lcm

open List
open Session (lastStoreId)

/-! ## Tool transactions -/

/-- A call message and exactly the results of its calls. -/
def Complete (unit : List LcmRawMessage) : Prop :=
  ∃ message results, unit = message :: results ∧ (∀ result ∈ results, isTool result = true) ∧
    transactionLen message results = some (results.length + 1)

/-- No tool message comes first. -/
def NoToolFirst (messages : List LcmRawMessage) : Prop :=
  ∀ first ∈ messages.head?, isTool first = false

instance (messages : List LcmRawMessage) : Decidable (NoToolFirst messages) :=
  inferInstanceAs (Decidable (∀ first ∈ messages.head?, isTool first = false))

variable {rest messages backlog unit after before : List LcmRawMessage} {s : Session}

theorem takeWhile_tools {results : List LcmRawMessage} (h : ∀ r ∈ results, isTool r = true)
    (hr : NoToolFirst rest) : (results ++ rest).takeWhile isTool = results := by
  rw [takeWhile_append_of_pos h]
  cases rest with
  | nil => simp
  | cons first rest => simp [hr first (by simp)]

variable {m : LcmRawMessage} {len b : Nat} {last : Int} {f : Option Int}

theorem transactionLen_eq_some (h : transactionLen m rest = some len) :
    m.role = "assistant" ∧ len = (rest.takeWhile isTool).length + 1 := by
  unfold transactionLen at h
  split at h
  · cases h
  split at h
  · cases h
  · rename_i hr
    simp only [not_or, not_not] at hr
    simp only at h
    split at h
    · exact ⟨hr.1, (Option.some.inj h).symm⟩
    · cases h

theorem transactionLen_results {results : List LcmRawMessage} (ht : ∀ r ∈ results, isTool r = true)
    (ha : NoToolFirst after) : transactionLen m (results ++ after) = transactionLen m results := by
  unfold transactionLen
  rw [takeWhile_tools ht ha, takeWhile_eq_self_iff.mpr ht]

theorem Complete.noToolFirst (h : Complete unit) (after : List LcmRawMessage) :
    NoToolFirst (unit ++ after) := by
  obtain ⟨m, results, rfl, -, hlen⟩ := h
  simp [NoToolFirst, isTool, (transactionLen_eq_some hlen).1]

theorem Complete.ne_nil (h : Complete unit) : unit ≠ [] := by
  obtain ⟨message, results, rfl, -⟩ := h
  exact cons_ne_nil _ _

theorem exists_transaction (ha : NoToolFirst after)
    (h : transactionLen m (rest ++ after) = some len) : ∃ results others, rest = results ++ others ∧
      len = results.length + 1 ∧ Complete (m :: results) ∧ NoToolFirst (others ++ after) := by
  have hs : NoToolFirst (rest.dropWhile isTool ++ after) := by
    have hd := head?_dropWhile_not isTool rest
    cases hc : rest.dropWhile isTool with
    | nil => exact ha
    | cons first others => simpa [NoToolFirst, hc] using hd
  have ht : ∀ r ∈ rest.takeWhile isTool, isTool r = true := fun r hr => mem_takeWhile_imp hr
  rw [← takeWhile_append_dropWhile (p := isTool) (l := rest), append_assoc,
    transactionLen_results ht hs] at h
  obtain ⟨-, hlen⟩ := transactionLen_eq_some h
  rw [takeWhile_eq_self_iff.mpr ht] at hlen
  exact ⟨_, _, takeWhile_append_dropWhile.symm, hlen, ⟨m, _, rfl, ht, hlen ▸ h⟩, hs⟩

/-- A boundary inside a transaction stands before one of its results. -/
def Inside (messages : List LcmRawMessage) (boundary : Nat) : Prop :=
  ∃ before unit after, messages = before ++ unit ++ after ∧ Complete unit ∧ NoToolFirst after ∧
    before.length < boundary ∧ boundary < before.length + unit.length

theorem Inside.tool (h : Inside messages b) : ∃ m ∈ messages[b]?, isTool m = true := by
  obtain ⟨before, unit, after, rfl, ⟨m, results, rfl, ht, -⟩, -, hlow, hh⟩ := h
  rw [length_cons] at hh
  have hi : (before ++ (m :: results) ++ after)[b]? = results[b - before.length - 1]? := by
    rw [append_assoc, getElem?_append_right (by omega), getElem?_append_left (by simp; omega)]
    obtain ⟨k, hk⟩ : ∃ k, b - before.length = k + 1 := ⟨b - before.length - 1, by omega⟩
    rw [hk, getElem?_cons_succ, Nat.add_sub_cancel]
  have hlt : b - before.length - 1 < results.length := by omega
  refine ⟨results[b - before.length - 1], ?_, ht _ (getElem_mem hlt)⟩
  rw [hi, getElem?_eq_getElem hlt]; rfl

theorem mem_transactionRangesFrom {i : Nat} {range : Nat × Nat} :
    range ∈ transactionRangesFrom i messages ↔
      ∃ before unit after, messages = before ++ unit ++ after ∧ Complete unit ∧ NoToolFirst after ∧
        range = (i + before.length, i + before.length + unit.length) := by
  induction messages generalizing i with
  | nil =>
    constructor
    · intro h; cases h
    · rintro ⟨before, unit, after, hs, ⟨message, results, rfl, -, -⟩, -, -⟩; simp at hs
  | cons message rest ih =>
    rw [transactionRangesFrom, mem_append, ih]
    constructor
    · rintro (h | ⟨before, unit, after, rfl, hu, ha, rfl⟩)
      · obtain ⟨len, hlen, rfl⟩ := Option.map_eq_some_iff.mp (Option.mem_toList.mp h)
        rw [← append_nil rest] at hlen
        obtain ⟨results, others, rfl, rfl, hu, ha⟩ :=
          exists_transaction (by simp [NoToolFirst]) hlen
        exact ⟨[], message :: results, others, rfl, hu, append_nil others ▸ ha, by simp⟩
      · refine ⟨message :: before, unit, after, rfl, hu, ha, ?_⟩
        simp only [length_cons, Prod.mk.injEq]; omega
    · rintro ⟨before, unit, after, hs, hu, ha, rfl⟩
      cases before with
      | nil =>
        obtain ⟨message', results, rfl, ht, hlen⟩ := hu
        simp only [nil_append, cons_append, List.cons.injEq] at hs
        obtain ⟨rfl, rfl⟩ := hs
        left
        refine Option.mem_toList.mpr (Option.map_eq_some_iff.mpr ⟨results.length + 1, ?_, rfl⟩)
        rw [transactionLen_results ht ha, hlen]
      | cons f before =>
        simp only [cons_append, List.cons.injEq] at hs
        refine .inr ⟨before, unit, after, hs.2, hu, ha, ?_⟩
        simp only [length_cons, Prod.mk.injEq]; omega

theorem inside_iff : Inside messages b ↔ ∃ r ∈ transactionRanges messages, r.1 < b ∧ b < r.2 := by
  simp only [transactionRanges, mem_transactionRangesFrom, Nat.zero_add]
  constructor
  · rintro ⟨before, unit, after, hs, hu, ha, hlow, hh⟩
    exact ⟨_, ⟨before, unit, after, hs, hu, ha, rfl⟩, hlow, hh⟩
  · rintro ⟨r, ⟨before, unit, after, hs, hu, ha, rfl⟩, hlow, hh⟩
    exact ⟨before, unit, after, hs, hu, ha, hlow, hh⟩

/-- Moving a boundary back to the start of the range around it ends outside all ranges, if no start
is inside another range. -/
theorem foldl_boundary {rs : List (Nat × Nat)}
    (hs : ∀ r ∈ rs, ∀ r' ∈ rs, ¬ (r'.1 < r.1 ∧ r.1 < r'.2)) (start : Nat) :
    ∃ b, rs.foldl (fun b range => if range.1 < b ∧ b < range.2 then range.1 else b) start = b ∧
      b ≤ start ∧ ∀ r ∈ rs, ¬ (r.1 < b ∧ b < r.2) := by
  induction rs using List.reverseRecOn with
  | nil => exact ⟨start, rfl, Nat.le_refl _, by simp⟩
  | append_singleton rs range ih =>
    obtain ⟨b, hf, hle, hout⟩ := ih fun r hr r' hr' =>
      hs r (mem_append_left _ hr) r' (mem_append_left _ hr')
    rw [foldl_concat, hf]
    split_ifs with hin
    · exact ⟨_, rfl, hin.1.le.trans hle, hs range mem_concat_self⟩
    · exact ⟨_, rfl, hle, forall_mem_append.mpr ⟨hout, forall_mem_singleton.mpr hin⟩⟩

theorem not_inside_length (h : NoToolFirst after) : ¬ Inside (before ++ after) before.length := by
  intro hi
  obtain ⟨tool, ht, hr⟩ := hi.tool
  rw [getElem?_append_right (Nat.le_refl _), Nat.sub_self, ← head?_eq_getElem?] at ht
  cases hr.symm.trans (h tool ht)

theorem start_not_inside {r : Nat × Nat}
    (h : r ∈ transactionRanges messages) : ¬ Inside messages r.1 := by
  obtain ⟨before, unit, after, rfl, hu, -, rfl⟩ := mem_transactionRangesFrom.mp h
  rw [Nat.zero_add, append_assoc]; exact not_inside_length (hu.noToolFirst after)

theorem atomicBoundary_spec (messages : List LcmRawMessage) (requested : Nat) :
    atomicBoundary messages requested ≤ messages.length ∧
      ¬ Inside messages (atomicBoundary messages requested) := by
  have hs : ∀ r ∈ transactionRanges messages, ∀ r' ∈ transactionRanges messages,
      ¬ (r'.1 < r.1 ∧ r.1 < r'.2) := fun r hr r' hr' hin =>
    start_not_inside hr (inside_iff.mpr ⟨r', hr', hin⟩)
  obtain ⟨b, hf, hle, hout⟩ := foldl_boundary hs (min requested messages.length)
  unfold atomicBoundary
  rw [hf]
  refine ⟨hle.trans (Nat.min_le_right _ _), fun hi => ?_⟩
  obtain ⟨r, hr, hin⟩ := inside_iff.mp hi
  exact hout r hr hin

theorem firstAtomicUnitLen_spec (h : messages ≠ []) :
    0 < firstAtomicUnitLen messages ∧ ¬ Inside messages (firstAtomicUnitLen messages) := by
  have hl : 0 < messages.length := length_pos_iff.mpr h
  unfold firstAtomicUnitLen
  cases hf : (transactionRanges messages).find? (fun range => range.1 = 0) with
  | none =>
    simp only [Option.map_none, Option.getD_none]
    refine ⟨by omega, fun hi => ?_⟩
    obtain ⟨r, hr, hlow, -⟩ := inside_iff.mp hi
    have hz : r.1 = 0 := by omega
    simpa [hz] using find?_eq_none.mp hf r hr
  | some range =>
    have hz : range.1 = 0 := by simpa using find?_some hf
    obtain ⟨before, unit, after, rfl, hu, ha, rfl⟩ :=
      mem_transactionRangesFrom.mp (mem_of_find?_eq_some hf)
    obtain rfl : before = [] := length_eq_zero_iff.mp (by simpa using hz)
    simp only [Option.map_some, Option.getD_some, length_nil, Nat.add_zero, Nat.zero_add,
      nil_append]
    rw [Nat.min_eq_left (by simp)]; exact ⟨length_pos_iff.mpr hu.ne_nil, not_inside_length ha⟩

variable (l : CompressionLimits)

theorem chunkLen_spec (h : backlog ≠ []) :
    0 < chunkLen l backlog ∧ ¬ Inside backlog (chunkLen l backlog) := by
  unfold chunkLen progressLeafChunkLen
  simp only
  split
  · exact firstAtomicUnitLen_spec h
  rename_i hlen
  simp only [not_and, not_not] at hlen
  refine ⟨Nat.pos_of_ne_zero fun hz => h (hlen hz), ?_⟩
  unfold boundedLeafChunkLen
  rw [if_neg h]
  split
  · intro hi; obtain ⟨tool, ht, -⟩ := hi.tool; simp at ht
  · exact (atomicBoundary_spec _ _).2

/-! ## Chunks -/

abbrev Ordered (messages : List LcmRawMessage) : Prop :=
  messages.Pairwise fun a b => a.storeId < b.storeId

/-- A cut after the store id `last` leaves messages of the unit on both sides. -/
def Splits (last : Int) (unit : List LcmRawMessage) : Prop :=
  (∃ message ∈ unit, message.storeId ≤ last) ∧ ∃ message ∈ unit, last < message.storeId

instance (last : Int) (unit : List LcmRawMessage) : Decidable (Splits last unit) :=
  inferInstanceAs (Decidable (_ ∧ _))

theorem not_splits_iff : ¬ Splits last unit ↔
      (∀ m ∈ unit, m.storeId ≤ last) ∨ ∀ m ∈ unit, last < m.storeId := by
  constructor
  · intro h
    by_contra hnot
    push Not at hnot
    obtain ⟨⟨above, ha, hlt⟩, below, hb, hle⟩ := hnot
    exact h ⟨⟨below, hb, hle⟩, above, ha, hlt⟩
  · rintro (h | h) ⟨⟨below, hb, hle⟩, above, ha, hlt⟩
    · exact absurd (h above ha) (not_le.mpr hlt)
    · exact absurd (h below hb) (not_lt.mpr hle)

theorem mem_lastStoreId (h : last ∈ lastStoreId messages) : ∃ m ∈ messages, m.storeId = last := by
  obtain ⟨m, hm, hl⟩ := Option.map_eq_some_iff.mp h
  exact ⟨m, mem_of_getLast? hm, hl⟩

theorem le_lastStoreId (ho : Ordered messages)
    (h : last ∈ lastStoreId messages) : ∀ m ∈ messages, m.storeId ≤ last := by
  obtain ⟨final, hf, rfl⟩ := Option.map_eq_some_iff.mp h
  obtain ⟨start, rfl⟩ := getLast?_eq_some_iff.mp hf
  exact forall_mem_append.mpr ⟨fun m hm => ((pairwise_append.mp ho).2.2 m hm final (by simp)).le,
    forall_mem_singleton.mpr le_rfl⟩

theorem lastStoreId_append (a b : List LcmRawMessage) :
    lastStoreId (a ++ b) = (lastStoreId b).or (lastStoreId a) := by
  unfold lastStoreId
  rw [getLast?_append]
  cases b.getLast? <;> rfl

theorem createdSummaries_succ (p : Nat) (h : backlog ≠ []) : createdSummaries l (p + 1) backlog =
      backlog.take (chunkLen l backlog) ::
        createdSummaries l p (backlog.drop (chunkLen l backlog)) := by
  cases backlog with
  | nil => exact absurd rfl h
  | cons message rest => rfl

theorem createdSummaries_flatten (p : Nat) (backlog : List LcmRawMessage) :
    (createdSummaries l p backlog).flatten <+: backlog ∧ [] ∉ createdSummaries l p backlog := by
  induction p generalizing backlog with
  | zero => simp [createdSummaries]
  | succ p ih =>
    by_cases hb : backlog = []
    · simp [hb, createdSummaries]
    obtain ⟨hpre, hn⟩ := ih (backlog.drop (chunkLen l backlog))
    rw [createdSummaries_succ l p hb, flatten_cons, mem_cons, not_or]
    refine ⟨?_, fun hnil => ?_, hn⟩
    · conv_rhs => rw [← take_append_drop (chunkLen l backlog) backlog]
      exact (prefix_append_right_inj _).mpr hpre
    · rcases take_eq_nil_iff.mp hnil.symm with hz | hnil
      · exact absurd hz (chunkLen_spec l hb).1.ne'
      · exact hb hnil

theorem mem_of_mem_created {l : CompressionLimits} {p : Nat} {c : List LcmRawMessage}
    (h : c ∈ createdSummaries l p backlog) : c ⊆ backlog := fun _ hm =>
  (createdSummaries_flatten l p backlog).1.subset (mem_flatten.mpr ⟨c, h, hm⟩)

theorem outside_of_not_inside (hu : Complete unit) (ha : NoToolFirst after)
    (h : ¬ Inside (before ++ unit ++ after) len) :
    len ≤ before.length ∨ (before ++ unit).length ≤ len := by
  by_contra hnot
  push Not at hnot
  exact h ⟨before, unit, after, rfl, hu, ha, hnot.1, by simpa using hnot.2⟩

theorem drop_before (h : len ≤ before.length) :
    (before ++ unit ++ after).drop len = before.drop len ++ unit ++ after := by
  rw [append_assoc, drop_append_of_le_length h, append_assoc]

theorem createdSummaries_unsplit (p : Nat) (ho : Ordered (before ++ unit ++ after))
    (hu : Complete unit) (ha : NoToolFirst after) :
    ∀ c ∈ createdSummaries l p (before ++ unit ++ after),
      ∀ last ∈ lastStoreId c, ¬ Splits last unit := by
  induction p generalizing before with
  | zero => simp [createdSummaries]
  | succ p ih =>
    have hne : before ++ unit ++ after ≠ [] := by simp [hu.ne_nil]
    obtain ⟨hb, hcross⟩ := pairwise_append.mp ho
    have hbefore := (pairwise_append.mp hb).2.2
    rw [createdSummaries_succ l p hne]
    have hcut := outside_of_not_inside hu ha (chunkLen_spec l hne).2
    generalize chunkLen l (before ++ unit ++ after) = len at hcut
    intro c hc last hl
    rcases hcut with hs | hlong
    · -- the chunk ends before the transaction, which is in the rest
      rcases mem_cons.mp hc with rfl | hlater
      · rw [append_assoc, take_append_of_le_length hs] at hl
        obtain ⟨message, hmem, rfl⟩ := mem_lastStoreId hl
        exact not_splits_iff.mpr (.inr fun m hm => hbefore message (mem_of_mem_take hmem) m hm)
      · rw [drop_before hs] at hlater
        refine ih ?_ c hlater last hl
        rw [← drop_before hs]; exact ho.drop
    · -- the chunk takes the whole transaction
      refine not_splits_iff.mpr (.inl fun m hm => ?_)
      rcases mem_cons.mp hc with rfl | hlater
      · refine le_lastStoreId ho.take hl m ?_; rw [take_append, take_of_length_le hlong]; simp [hm]
      · obtain ⟨message, hmem, rfl⟩ := mem_lastStoreId hl
        have hr := mem_of_mem_created hlater hmem
        rw [drop_append, drop_of_length_le hlong, nil_append] at hr
        exact (hcross.2 m (mem_append_right _ hm) message (mem_of_mem_drop hr)).le

/-! ## Coverage -/

/-- A message that passes summarise. -/
def conversational (message : LcmRawMessage) : Bool := !isPolicyAnchorRole message.role

/-- What runs keep: the sources are the first conversational messages and the frontier is the last
of them. -/
structure Covering (s : Session) : Prop where
  ordered : Ordered s.history
  sources : s.summaries.flatten <+: s.history.filter conversational
  frontier : s.frontier = lastStoreId s.summaries.flatten
  nonempty : [] ∉ s.summaries

theorem unsummarized_eq_filter (ho : Ordered messages) : unsummarized messages f =
      messages.filter fun m => f.getD 0 < m.storeId := by
  unfold unsummarized
  induction messages with
  | nil => rfl
  | cons first rest ih =>
    obtain ⟨hf, ho⟩ := pairwise_cons.mp ho
    by_cases hle : first.storeId ≤ f.getD 0
    · rw [dropWhile_cons_of_pos (by simpa using hle), filter_cons_of_neg (by simpa using hle),
        ih ho]
    · rw [dropWhile_cons_of_neg (by simpa using hle), eq_comm, filter_eq_self]
      simpa using ⟨not_le.mp hle, fun m hm => (not_le.mp hle).trans (hf m hm)⟩

theorem lt_of_mem_unsummarized (ho : Ordered messages) :
    ∀ m ∈ unsummarized messages f, f.getD 0 < m.storeId := by
  rw [unsummarized_eq_filter ho]; exact fun m hm => of_decide_eq_true (mem_filter.mp hm).2

theorem Covering.separates (h : Covering s) (hpos : ∀ m ∈ s.history, 0 < m.storeId) :
    (∀ m ∈ s.summaries.flatten, m.storeId ≤ s.frontier.getD 0) ∧ s.history.filter conversational =
        s.summaries.flatten ++ (unsummarized s.history s.frontier).filter conversational := by
  obtain ⟨rest, hr⟩ := h.sources
  have hc : Ordered (s.history.filter conversational) := h.ordered.filter _
  rw [← hr] at hc
  have hlow : ∀ m ∈ s.summaries.flatten, m.storeId ≤ s.frontier.getD 0 := by
    intro m hm
    have hs := (pairwise_append.mp hc).1
    rw [h.frontier]
    cases hl : lastStoreId s.summaries.flatten with
    | none =>
      rw [lastStoreId, Option.map_eq_none_iff, getLast?_eq_none_iff] at hl
      rw [hl] at hm; cases hm
    | some last => exact le_lastStoreId hs hl m hm
  have hh : ∀ m ∈ rest, s.frontier.getD 0 < m.storeId := by
    intro m hm
    rw [h.frontier]
    cases hl : lastStoreId s.summaries.flatten with
    | none =>
      have hmem : m ∈ s.history.filter conversational := by rw [← hr]; exact mem_append_right _ hm
      exact hpos m (mem_of_mem_filter hmem)
    | some last =>
      obtain ⟨source, hsource, rfl⟩ := mem_lastStoreId hl
      exact (pairwise_append.mp hc).2.2 source hsource m hm
  refine ⟨hlow, ?_⟩
  rw [unsummarized_eq_filter h.ordered, filter_filter]
  simp only [Bool.and_comm (conversational _)]
  rw [← filter_filter, ← hr, filter_append, filter_eq_nil_iff.mpr (by simpa using hlow),
    filter_eq_self.mpr (by simpa using hh), nil_append]

theorem summaries_compress (s : Session) : (s.compress l).summaries = s.summaries ++
    createdSummaries l (if l.forcedOverflowRecovery then maxForcedCatchupPasses else 1)
      (compressionWindow s.history s.frontier l).backlog := by
  simp [Session.summaries, Session.compress]

theorem Covering.compress (h : Covering s) (hpos : ∀ m ∈ s.history, 0 < m.storeId)
    (l : CompressionLimits) : Covering (s.compress l) := by
  obtain ⟨-, hsplit⟩ := h.separates hpos
  have hc : (createdSummaries l _ (compressionWindow s.history s.frontier l).backlog).flatten <+:
      _ ∧ _ :=
    createdSummaries_flatten l (if l.forcedOverflowRecovery then maxForcedCatchupPasses else 1) _
  have hb : (compressionWindow s.history s.frontier l).backlog <+:
      (unsummarized s.history s.frontier).filter conversational :=
    (List.take_prefix _ _).filter _
  refine ⟨h.ordered, ?_, ?_, ?_⟩
  · rw [summaries_compress, flatten_append]
    change _ <+: s.history.filter conversational
    rw [hsplit]; exact (prefix_append_right_inj _).mpr (hc.1.trans hb)
  · rw [summaries_compress, flatten_append, lastStoreId_append, ← h.frontier]; rfl
  · rw [summaries_compress, mem_append, not_or]; exact ⟨h.nonempty, hc.2⟩

theorem covering_of_compressed (h : Compressed s)
    (hpos : ∀ m ∈ s.history, 0 < m.storeId) : Covering s := by
  induction h with
  | empty => exact ⟨.nil, nil_prefix, rfl, by simp [Session.summaries, Session.empty]⟩
  | append messages _ ho ih =>
    have hc := ih fun m hm => hpos m (mem_append_left _ hm)
    refine ⟨ho, hc.sources.trans ?_, hc.frontier, hc.nonempty⟩
    rw [filter_append]; exact prefix_append _ _
  | pass limits _ ih => exact (ih hpos).compress hpos limits

theorem chunk_ends {c : List (List LcmRawMessage)} {low : Int} (hn : [] ∉ c)
    (ho : Ordered c.flatten) (hlow : ∀ message ∈ c.flatten, low < message.storeId) :
    ∃ ends : List Int, c.map lastStoreId = ends.map some ∧
      (low :: ends).Pairwise (· < ·) ∧ lastStoreId c.flatten = ends.getLast? := by
  induction c generalizing low with
  | nil => exact ⟨[], rfl, by simp, rfl⟩
  | cons chunk c ih =>
    simp only [mem_cons, not_or] at hn
    rw [flatten_cons] at ho hlow ⊢
    obtain ⟨hchunk, hr, hcross⟩ := pairwise_append.mp ho
    obtain ⟨last, hl⟩ : ∃ last, lastStoreId chunk = some last :=
      ⟨_, congrArg _ (getLast?_eq_some_getLast (Ne.symm hn.1))⟩
    obtain ⟨message, hmem, hid⟩ := mem_lastStoreId hl
    obtain ⟨ends, he, hp, hf⟩ := ih hn.2 hr fun m hm => hid ▸ hcross message hmem m hm
    have hlt : low < last := hid ▸ hlow message (mem_append_left _ hmem)
    refine ⟨last :: ends, by rw [map_cons, map_cons, hl, he], ?_, ?_⟩
    · exact pairwise_cons.mpr
        ⟨forall_mem_cons.mpr ⟨hlt, fun b hb => hlt.trans ((pairwise_cons.mp hp).1 b hb)⟩, hp⟩
    · rw [lastStoreId_append, hf, hl, getLast?_cons]
      cases ends.getLast? <;> rfl

/-- The summaries have disjoint sources, which are the conversational messages up to the frontier
in store order, and each summary advanced the frontier. -/
structure Covered (s : Session) : Prop where
  disjoint : s.summaries.Pairwise List.Disjoint
  sources : s.summaries.flatten = s.history.filter fun message =>
    (s.frontier.any fun frontier => message.storeId ≤ frontier) && conversational message
  advances : ∃ ends : List Int, s.summaries.map lastStoreId = ends.map some ∧
    (0 :: ends).Pairwise (· < ·) ∧ s.frontier = ends.getLast?

theorem Covering.covered (h : Covering s) (hpos : ∀ m ∈ s.history, 0 < m.storeId) : Covered s := by
  have ho : Ordered s.summaries.flatten := (h.ordered.filter _).sublist h.sources.sublist
  obtain ⟨hlow, hs⟩ := h.separates hpos
  refine ⟨?_, ?_, ?_⟩
  · refine (pairwise_flatten.mp ho).2.imp fun hc m hl hr => ?_; exact lt_irrefl _ (hc m hl m hr)
  · conv_rhs => rw [← filter_filter, hs, filter_append]
    cases hf : s.frontier with
    | none =>
      have hnil := h.frontier
      rw [hf, eq_comm, lastStoreId, Option.map_eq_none_iff, getLast?_eq_none_iff] at hnil
      simp [hnil]
    | some frontier =>
      have hh : ∀ m ∈ unsummarized s.history s.frontier, s.frontier.getD 0 < m.storeId :=
        lt_of_mem_unsummarized h.ordered
      rw [hf] at hlow hh
      rw [filter_eq_self.mpr (by simpa using hlow), filter_eq_nil_iff.mpr, append_nil]
      intro m hm; simpa using hh m (mem_of_mem_filter hm)
  · rw [h.frontier]
    refine chunk_ends h.nonempty ho fun m hm => ?_
    exact hpos m (mem_of_mem_filter (h.sources.subset hm))

/-! ## Transactions -/

/-- No chunk of any pass and no fresh tail begins or ends inside the unit. -/
structure Unsplit (s : Session) (unit : List LcmRawMessage) : Prop where
  chunks : ∀ chunk ∈ s.summaries, ∀ last ∈ lastStoreId chunk, ¬ Splits last unit
  tails : ∀ pass ∈ s.passes, ∀ first ∈ pass.tailStart, ¬ Splits (first - 1) unit

theorem Covered.frontier_mem (h : Covered s) {f : Int} (hf : s.frontier = some f) :
    ∃ chunk ∈ s.summaries, f ∈ lastStoreId chunk := by
  obtain ⟨ends, he, -, hl⟩ := h.advances
  have hmem : some f ∈ s.summaries.map lastStoreId :=
    he ▸ mem_map_of_mem (mem_of_getLast? (hl.symm.trans hf))
  exact mem_map.mp hmem

theorem NoToolFirst.of_prefix {part w : List LcmRawMessage} (h : NoToolFirst w)
    (hp : part <+: w) : NoToolFirst part := by
  intro f hf
  obtain ⟨rest, rfl⟩ := hp
  refine h f ?_
  rw [head?_append, hf]; rfl

theorem Complete.filter_eq (h : Complete unit) : unit.filter conversational = unit := by
  obtain ⟨message, results, rfl, ht, hlen⟩ := h
  refine filter_eq_self.mpr (forall_mem_cons.mpr ⟨?_, fun m hm => ?_⟩)
  · simp [conversational, isPolicyAnchorRole, (transactionLen_eq_some hlen).1]
  · have : m.role = "tool" := by simpa [isTool] using ht m hm
    simp [conversational, isPolicyAnchorRole, this]

/-- No chunk ends, and no fresh tail starts, inside the unit. -/
def Keeps (unit : List LcmRawMessage) (chunks : List (List LcmRawMessage))
    (tail : List LcmRawMessage) : Prop :=
  (∀ c ∈ chunks, ∀ last ∈ lastStoreId c, ¬ Splits last unit) ∧
    ∀ f ∈ tail.head?, ¬ Splits (f.storeId - 1) unit

section Transaction
variable (ho : Ordered (before ++ unit ++ after)) (hu : Complete unit) (ha : NoToolFirst after)
  (hn : NoToolFirst (after.filter conversational))
include ho hu ha hn

theorem pass_unsplit (p len : Nat) (hlen : len = backlogLen (before ++ unit ++ after) l) :
    Keeps unit (createdSummaries l p (((before ++ unit ++ after).take len).filter conversational))
      ((before ++ unit ++ after).drop len) := by
  obtain ⟨hstart, hr, hc⟩ := pairwise_append.mp ho
  have hbefore := (pairwise_append.mp hstart).2.2
  have hout : ¬ Inside (before ++ unit ++ after) len := hlen ▸ (atomicBoundary_spec _ _).2
  rcases outside_of_not_inside hu ha hout with hs | hl
  · -- the whole transaction is in the fresh tail
    have ht : (before ++ unit ++ after).take len = before.take len := by
      rw [append_assoc, take_append_of_le_length hs]
    constructor
    · intro c hchunk last hlast
      obtain ⟨message, hmessage, rfl⟩ := mem_lastStoreId hlast
      have hmem := mem_of_mem_filter (mem_of_mem_created hchunk hmessage)
      rw [ht] at hmem
      exact not_splits_iff.mpr (.inr fun m hm => hbefore message (mem_of_mem_take hmem) m hm)
    · intro f hf
      refine not_splits_iff.mpr (.inr fun m hm => ?_)
      have htail : Ordered ((before ++ unit ++ after).drop len) := ho.drop
      obtain ⟨rest, hr⟩ := head?_eq_some_iff.mp hf
      have hmem : m ∈ (before ++ unit ++ after).drop len := by rw [drop_before hs]; simp [hm]
      rw [hr] at hmem htail
      rcases mem_cons.mp hmem with rfl | hmem
      · omega
      · have := (pairwise_cons.mp htail).1 m hmem; omega
  · -- the whole transaction is in the backlog
    have ht : ((before ++ unit ++ after).take len).filter conversational =
        before.filter conversational ++ unit ++
          (after.take (len - (before ++ unit).length)).filter conversational := by
      rw [take_append, take_of_length_le hl, filter_append, filter_append, hu.filter_eq]
    have hb : Ordered (((before ++ unit ++ after).take len).filter conversational) :=
      ho.take.filter _
    constructor
    · rw [ht] at hb ⊢
      exact createdSummaries_unsplit l p hb hu (hn.of_prefix ((List.take_prefix _ _).filter _))
    · intro f hf
      refine not_splits_iff.mpr (.inl fun m hm => ?_)
      rw [drop_append, drop_of_length_le hl, nil_append] at hf
      have := hc m (mem_append_right _ hm) f (mem_of_mem_drop (mem_of_mem_head? hf))
      omega

variable (hpos : ∀ m ∈ before ++ unit ++ after, 0 < m.storeId)
  (hpre : s.history <+: before ++ unit ++ after)
include hpos hpre

theorem unsplit_compress (hs : Covering s)
    (hclear : s.history.length ≤ before.length ∨ (before ++ unit).length ≤ s.history.length)
    (h : Unsplit s unit) : Unsplit (s.compress l) unit := by
  obtain ⟨hstart, -, hcross⟩ := pairwise_append.mp ho
  have hbefore := (pairwise_append.mp hstart).2.2
  let passes := if l.forcedOverflowRecovery then maxForcedCatchupPasses else 1
  let window := compressionWindow s.history s.frontier l
  have hnew : Keeps unit (createdSummaries l passes window.backlog) window.freshTail := by
    -- the chunks end, and the fresh tail starts, among the messages past the frontier
    have hout : (∀ message ∈ unsummarized s.history s.frontier,
        (∀ m ∈ unit, m.storeId < message.storeId) ∨ ∀ m ∈ unit, message.storeId < m.storeId) →
        Keeps unit (createdSummaries l passes window.backlog) window.freshTail := by
      refine fun h => ⟨fun c hc last hlast => ?_, fun f hf => ?_⟩
      · obtain ⟨message, hmem, rfl⟩ := mem_lastStoreId hlast
        have hmem := mem_of_mem_take (mem_of_mem_filter (mem_of_mem_created hc hmem))
        exact not_splits_iff.mpr ((h message hmem).imp_left fun hall m hm => (hall m hm).le)
      · refine not_splits_iff.mpr ((h f (mem_of_mem_drop (mem_of_mem_head? hf))).imp
          (fun hall m hm => ?_) fun hall m hm => ?_)
        · have := hall m hm; omega
        · have := hall m hm; omega
    rcases hclear with he | hle
    · -- nothing of the transaction is there yet
      have hb : s.history <+: before := by
        refine prefix_of_prefix_length_le hpre ?_ he
        rw [append_assoc]; exact prefix_append _ _
      exact hout fun message hmem => .inr fun m hm =>
        hbefore message (hb.subset ((dropWhile_sublist _).subset hmem)) m hm
    · obtain ⟨later, hlater⟩ : before ++ unit <+: s.history :=
        prefix_of_prefix_length_le (prefix_append _ _) hpre hle
      have hl : later <+: after := by
        rw [← hlater] at hpre; exact (prefix_append_right_inj _).mp hpre
      have hfrontier : ¬ Splits (s.frontier.getD 0) unit := by
        cases hcase : s.frontier with
        | none => exact not_splits_iff.mpr (.inr fun m hm => hpos m (by simp [hm]))
        | some frontier =>
          obtain ⟨c, hc, hlast⟩ :=
            (hs.covered fun m hm => hpos m (hpre.subset hm)).frontier_mem hcase
          exact h.chunks c hc frontier hlast
      have hpast : ∀ message ∈ unsummarized s.history s.frontier,
          s.frontier.getD 0 < message.storeId := lt_of_mem_unsummarized hs.ordered
      rcases not_splits_iff.mp hfrontier with hd | hahead
      · -- the transaction was summarised before
        exact hout fun message hmem => .inl fun m hm => (hd m hm).trans_lt (hpast message hmem)
      have hsplit : unsummarized s.history s.frontier =
          (before.filter fun message => s.frontier.getD 0 < message.storeId) ++ unit ++ later := by
        have hkept : unit.filter (fun message => s.frontier.getD 0 < message.storeId) = unit :=
          filter_eq_self.mpr (by simpa using hahead)
        have hlaterAhead : later.filter (fun message => s.frontier.getD 0 < message.storeId) =
          later := by
          refine filter_eq_self.mpr fun message hmem => ?_
          obtain ⟨m, hm⟩ := exists_mem_of_ne_nil unit hu.ne_nil
          have hlt :=
            (hahead m hm).trans (hcross m (mem_append_right _ hm) message (hl.subset hmem))
          simpa using hlt
        rw [unsummarized_eq_filter hs.ordered, ← hlater, filter_append, filter_append,
          hkept, hlaterAhead]
      have ho : Ordered (unsummarized s.history s.frontier) :=
        hs.ordered.sublist (dropWhile_sublist _)
      rw [hsplit] at ho
      have hp := pass_unsplit l ho hu (ha.of_prefix hl) (hn.of_prefix (hl.filter _)) passes _ rfl
      rw [← hsplit] at hp; exact hp
  constructor
  · rw [summaries_compress]; exact forall_mem_append.mpr ⟨h.chunks, hnew.1⟩
  · refine forall_mem_append.mpr ⟨h.tails, forall_mem_singleton.mpr fun f hf => ?_⟩
    obtain ⟨message, hmem, rfl⟩ := Option.map_eq_some_iff.mp hf
    exact hnew.2 message hmem

theorem unsplit_of_compressed (h : Compressed s) (hc : ∀ pass ∈ s.passes,
      pass.history.length ≤ before.length ∨ (before ++ unit).length ≤ pass.history.length) :
    Unsplit s unit := by
  induction h with
  | empty => exact ⟨by simp [Session.summaries, Session.empty], by simp [Session.empty]⟩
  | append messages _ _ ih =>
    obtain ⟨hchunks, ht⟩ := ih ((prefix_append _ _).trans hpre) hc
    exact ⟨hchunks, ht⟩
  | @pass s limits hs ih =>
    have hcovering := covering_of_compressed hs fun m hm => hpos m (hpre.subset hm)
    refine unsplit_compress limits ho hu ha hn hpos hpre hcovering ?_
      (ih hpre fun pass hp => hc pass (mem_append_left _ hp))
    exact hc _ (mem_append_right _ (mem_singleton_self _))

end Transaction

/-- Every run with positive store ids covers its history once. A complete transaction is split
nowhere if no tool message follows it after policy messages only, and no pass ran while the history
ended inside it. -/
theorem compression_covers_once {s : Session} (h : Compressed s)
    (hpos : ∀ message ∈ s.history, 0 < message.storeId) :
    Covered s ∧ ∀ before unit after, s.history = before ++ unit ++ after → Complete unit →
      NoToolFirst after → NoToolFirst (after.filter conversational) →
      (∀ pass ∈ s.passes,
        pass.history.length ≤ before.length ∨ (before ++ unit).length ≤ pass.history.length) →
      Unsplit s unit := by
  have hc := covering_of_compressed h hpos
  refine ⟨hc.covered hpos, ?_⟩
  intro before unit after hs hu ha hn hclear
  have ho := hc.ordered
  rw [hs] at ho hpos; exact unsplit_of_compressed ho hu ha hn hpos (hs ▸ prefix_refl _) h hclear

def replayed (storeId : Int) (role : String) (entries : List (String × Json.Tree)) :
    LcmRawMessage :=
  ⟨storeId, role, [], some (.object [("lcm_active_replay", .bool true),
    ("active_replay", .object entries)])⟩

def toolCall (storeId : Int) : LcmRawMessage :=
  replayed storeId "assistant" [("tool_calls", .array [.object [("id", .string ['c'])]])]

def toolResult (storeId : Int) : LcmRawMessage :=
  replayed storeId "tool" [("tool_call_id", .string ['c'])]

/-- No fresh tail and chunks of one message. -/
def singleMessages : CompressionLimits where
  freshTailCount := some 0
  currentTokens := none
  thresholdTokens := none
  leafChunkTokens := none
  dynamicLeafChunkEnabled := none
  dynamicLeafChunkMax := none
  maxSourceMessages := some 1
  forcedOverflowRecovery := false

/-- One pass over a call, its result and a question. -/
theorem compression_covers_once_call :
    Compressed ((Session.mk [toolCall 1, toolResult 2, ⟨3, "user", [], none⟩] none []).compress
      singleMessages) ∧
    Unsplit ((Session.mk [toolCall 1, toolResult 2, ⟨3, "user", [], none⟩] none []).compress
      singleMessages) [toolCall 1, toolResult 2] := by
  have hrun : Compressed ((Session.mk [toolCall 1, toolResult 2, ⟨3, "user", [], none⟩] none
      []).compress singleMessages) :=
    .pass _ (.append [toolCall 1, toolResult 2, ⟨3, "user", [], none⟩] .empty (by decide))
  refine ⟨hrun, (compression_covers_once hrun (by decide +kernel)).2 []
    [toolCall 1, toolResult 2] [⟨3, "user", [], none⟩] rfl ⟨_, _, rfl, by decide, by decide +kernel⟩
    (by decide +kernel) (by decide +kernel) (by decide +kernel)⟩

/-- A stray result after a policy message hides the transaction from the chunks, and so does a
result that comes after a pass. -/
theorem complete_transactions_split :
    (∃ s, Compressed s ∧ (∀ message ∈ s.history, 0 < message.storeId) ∧
      s.history = [toolCall 1, toolResult 2] ++ [⟨3, "system", [], none⟩, toolResult 4] ∧
      Complete [toolCall 1, toolResult 2] ∧ NoToolFirst [⟨3, "system", [], none⟩, toolResult 4] ∧
      ¬ Unsplit s [toolCall 1, toolResult 2]) ∧
    ∃ s, Compressed s ∧ (∀ message ∈ s.history, 0 < message.storeId) ∧
      s.history = [toolCall 1, toolResult 2] ∧ Complete [toolCall 1, toolResult 2] ∧
      ¬ Unsplit s [toolCall 1, toolResult 2] := by
  have hc : Complete [toolCall 1, toolResult 2] := ⟨_, _, rfl, by decide, by decide +kernel⟩
  constructor
  · refine ⟨_, .pass singleMessages (.append [toolCall 1, toolResult 2, ⟨3, "system", [], none⟩,
      toolResult 4] .empty (by decide)), by decide +kernel, rfl, hc, by decide +kernel, ?_⟩
    exact fun h => absurd h.chunks (by decide +kernel)
  · refine ⟨_, .append [toolResult 2] (.pass singleMessages (.append [toolCall 1] .empty
      (by decide))) (by decide +kernel), by decide +kernel, rfl, hc, ?_⟩
    exact fun h => absurd h.chunks (by decide +kernel)

end TraceDecay.Lcm
