import TraceDecay.Lib.Fallible
import TraceDecay.Lib.Folds
import TraceDecay.WriterLedger.Commit

/-!
# WriterLedger.Correct

Every sequence of submissions, each one transaction that is kept only when it commits. The kept
receipts of a shard incarnation are numbered without gaps under epochs that never fall, no request
that the ledger answers for is kept twice, and such a request is answered with its receipt until a
later epoch has committed; a fresh request under a current epoch commits
(`ledger_commits_each_request_once`).

One lemma says what a commit does (`commits_of_committed`); one invariant ties the tables to the
kept receipts (`Accounted`).
-/

namespace TraceDecay.WriterLedger

open Fallible List
open StoreOperationMetadata (binding)
open ReplayAuthority (forPayload)

variable {effects : EffectTables} {isMutable : String → Bool}

/-! ## Histories -/

structure Call (effects : EffectTables) where
  metadata : StoreOperationMetadata
  scope : RuntimeTransactionScope
  payload : RepositoryWritePayload effects

abbrev Kept (effects : EffectTables) := Call effects × StoreCommitReceipt

def transact (isMutable : String → Bool) (st : Ledger effects × List (Kept effects))
    (c : Call effects) : Ledger effects × List (Kept effects) :=
  match recordRuntimeCommit isMutable st.1 c.metadata c.scope c.payload with
  | .ok (.committed receipt, l) => (l, st.2 ++ [(c, receipt)])
  | _ => st

def Ledger.new (start : effects.State) : Ledger effects := ⟨.empty, .empty, start⟩

def run (isMutable : String → Bool) (start : effects.State) (calls : List (Call effects)) :
    Ledger effects × List (Kept effects) :=
  calls.foldl (transact isMutable) (.new start, [])

def Call.history (c : Call effects) : HistoryKey :=
  historyKey c.metadata.shardId c.metadata.incarnation

def Call.key (c : Call effects) : HistoryKey ×ₗ RequestKey :=
  idempotencyKey c.metadata.binding c.metadata.idempotency.key

def Call.answeredByLedger (c : Call effects) : Bool := decide (forPayload c.payload = .ledger)

def keptOf (history : HistoryKey) (kept : List (Kept effects)) : List (Kept effects) :=
  kept.filter fun k => decide (k.1.history = history)

/-- No call of the same shard incarnation was kept under a later epoch. -/
def Latest (kept : List (Kept effects)) (c : Call effects) : Prop :=
  ∀ k ∈ kept, k.1.history = c.history → k.1.metadata.authorityEpoch ≤ c.metadata.authorityEpoch

/-- The receipt of the next commit in the call's shard incarnation. -/
def nextReceipt (kept : List (Kept effects)) (c : Call effects) : StoreCommitReceipt :=
  commitReceipt c.metadata ((keptOf c.history kept).length + 1)

/-- A call that passes the checks of its contract, under an epoch that is not superseded and a key
that was not kept, with room for its sequence, and whose effects are accepted. -/
structure Fresh (isMutable : String → Bool) (st : Ledger effects × List (Kept effects))
    (c : Call effects) : Prop where
  admitted : checkSubmission isMutable c.metadata c.scope = .ok ()
  latest : Latest st.2 c
  unkept : c.answeredByLedger = true → ∀ k ∈ st.2, k.1.answeredByLedger = true → k.1.key ≠ c.key
  room : (keptOf c.history st.2).length < sqliteMax
  accepted : ∃ state, recordEffects st.1 c.metadata c.scope (nextReceipt st.2 c) c.payload = .ok state

/-! ## What a commit does -/

theorem binding_eq_of_key_eq {c c' : Call effects} (h : c.key = c'.key) :
    c.history = c'.history ∧ c.metadata.authorityEpoch = c'.metadata.authorityEpoch := by
  have hp := Prod.ext_iff.mp (toLex_inj.mp h)
  have hr := Prod.ext_iff.mp (toLex_inj.mp hp.2)
  exact ⟨hp.1, Subtype.ext hr.1⟩

theorem history_inj {shardId shardId' : String} {incarnation incarnation' : PositiveU64}
    (h : historyKey shardId incarnation = historyKey shardId' incarnation') :
    shardId = shardId' ∧ incarnation = incarnation' := by
  have hp := Prod.ext_iff.mp (toLex_inj.mp h)
  exact ⟨hp.1, Subtype.ext hp.2⟩

variable {m : StoreOperationMetadata} {scope : RuntimeTransactionScope}

theorem checkSubmission_eq_ok (h : checkSubmission isMutable m scope = .ok ()) :
    isMutable m.shardId = true ∧ scope.compatibility = ⟨m.binding, m.durability, m.priority⟩ := by
  obtain ⟨-, -, h⟩ := bind_eq_ok.mp h
  obtain ⟨⟨⟩, hvalid, -⟩ := bind_eq_ok.mp h
  rw [mapError_eq_ok] at hvalid
  obtain ⟨⟨⟩, hmutable, hvalid⟩ := bind_eq_ok.mp hvalid
  obtain ⟨-, -, hadmits⟩ := bind_eq_ok.mp hvalid
  simp only [RuntimeBatchCompatibility.admits, ite_error_eq_ok, ne_eq, not_not] at hadmits
  obtain ⟨hshard, hincarnation, hepoch, hdurability, hpriority, -⟩ := hadmits
  rw [RuntimeBatchCompatibility.validate, hshard] at hmutable
  refine ⟨by_contra fun hf => by simp [hf] at hmutable, ?_⟩
  obtain ⟨transactionId, ⟨⟨shardId, incarnation, epoch⟩, durability, priority⟩, openedAt⟩ := scope
  simp only at hshard hincarnation hepoch hdurability hpriority
  rw [hshard, hincarnation, hepoch, hdurability, hpriority]; rfl

/-- What it took to commit a call, and what is in the tables after. -/
structure Commits (isMutable : String → Bool) (l : Ledger effects) (c : Call effects)
    (r : StoreCommitReceipt) (l' : Ledger effects) : Prop where
  admitted : checkSubmission isMutable c.metadata c.scope = .ok ()
  fresh : c.answeredByLedger = true → l.idempotency.find? c.key = none
  sequence : ∃ previous,
    loadCheckpoint isMutable l c.metadata.shardId c.metadata.incarnation = .ok previous ∧
      nextSequence previous c.metadata = .ok r.commitSequence
  receipt : r = commitReceipt c.metadata r.commitSequence
  checkpoints : l'.checkpoints = l.checkpoints.insert c.history
    (checkpointRow c.metadata c.scope ⟨c.metadata.shardId, c.metadata.incarnation,
      c.metadata.authorityEpoch, r.commitSequence⟩ r)
  written : c.answeredByLedger = true →
    l'.idempotency.find? c.key = some (idempotencyRow c.metadata c.scope r)
  others : ∀ key, (c.answeredByLedger = true → key ≠ c.key) →
    l'.idempotency.find? key = l.idempotency.find? key ∨
      l'.idempotency.find? key = none ∧ (ofLex key).1 = c.history ∧
        (ofLex (ofLex key).2).1 < c.metadata.authorityEpoch.1

theorem find?_foldl_erase {κ ν : Type} [LinearOrder κ] (keys : List κ) (m : OrdMap κ ν) (k : κ) :
    (keys.foldl OrdMap.erase m).find? k = if k ∈ keys then none else m.find? k := by
  induction keys generalizing m with
  | nil => rfl
  | cons first keys ih =>
    rw [foldl_cons, ih, OrdMap.find?_erase]
    by_cases hk : k ∈ keys
    · rw [if_pos hk, if_pos (mem_cons_of_mem _ hk)]
    · by_cases hf : k = first
      · rw [if_neg hk, if_pos hf, if_pos (mem_cons.mpr (.inl hf))]
      · rw [if_neg hk, if_neg hf, if_neg (by simp [hk, hf])]

variable {l : Ledger effects}

theorem find?_pruneSuperseded {next : NextCheckpoint} (key : HistoryKey ×ₗ RequestKey) :
    (pruneSuperseded l m next).idempotency.find? key = l.idempotency.find? key ∨
      (pruneSuperseded l m next).idempotency.find? key = none ∧
        (ofLex key).1 = historyKey m.shardId m.incarnation ∧
          (ofLex (ofLex key).2).1 < next.watermark.authorityEpoch.1 := by
  rw [pruneSuperseded, find?_foldl_erase]
  split
  · rename_i hmem
    have hmem := mem_filter.mp (mem_of_mem_take hmem)
    simp only [Bool.and_eq_true, decide_eq_true_eq] at hmem; exact .inr ⟨rfl, hmem.2⟩
  · exact .inl rfl

variable {c : Call effects}

theorem loadIdempotency_none (h : l.idempotency.find? c.key = none) :
    loadIdempotency isMutable l c.metadata.binding c.metadata.idempotency.key = .ok none := by
  rw [loadIdempotency, ← Call.key, h]

theorem disposition_eq_ok {answer : LedgerDisposition}
    (h : disposition isMutable l c.metadata c.scope = .ok answer) :
    (answer = .new ∧ l.idempotency.find? c.key = none) ∨
      (∃ r, answer = .replay r) ∨ ∃ r, answer = .conflict r := by
  obtain ⟨found, hfound, ha⟩ := bind_eq_ok.mp h
  cases hrow : l.idempotency.find? c.key with
  | none =>
    rw [loadIdempotency_none hrow] at hfound
    cases hfound
    cases ha; exact .inl ⟨rfl, rfl⟩
  | some row =>
    rw [loadIdempotency, ← Call.key, hrow] at hfound
    obtain ⟨-, hfound⟩ := ite_error_eq_ok.mp hfound
    cases hfound
    simp only [IdempotencyRecord.answer] at ha
    split at ha
    · cases ha; exact .inr (.inr ⟨_, rfl⟩)
    · obtain ⟨-, ha⟩ := ite_error_eq_ok.mp ha
      obtain ⟨-, ha⟩ := ite_error_eq_ok.mp ha
      split at ha
      · cases ha
      · cases ha; exact .inr (.inl ⟨_, rfl⟩)

variable {r : StoreCommitReceipt}

theorem persistCheckpoint_eq_ok {l p : Ledger effects} {next : NextCheckpoint}
    (h : persistCheckpoint l m scope next r = .ok p) :
    p.idempotency = l.idempotency ∧
      p.checkpoints = l.checkpoints.insert (historyKey m.shardId m.incarnation)
        (checkpointRow m scope next.watermark r) := by
  obtain ⟨-, -, h⟩ := bind_eq_ok.mp h
  split at h
  · cases h; exact ⟨rfl, rfl⟩
  · cases h

theorem recordRequest_eq_ok {p q : Ledger effects}
    (h : recordRequest p c.metadata c.scope r (forPayload c.payload) = .ok q) :
    q.checkpoints = p.checkpoints ∧ ∀ key, q.idempotency.find? key =
      if c.answeredByLedger = true ∧ key = c.key then some (idempotencyRow c.metadata c.scope r)
      else p.idempotency.find? key := by
  cases hpayload : forPayload c.payload with
  | repository => rw [hpayload] at h; cases h; simp [Call.answeredByLedger, hpayload]
  | ledger =>
    rw [hpayload] at h
    obtain ⟨-, -, h⟩ := bind_eq_ok.mp h
    obtain ⟨-, h⟩ := ite_error_eq_ok.mp h
    cases h
    refine ⟨rfl, fun key => ?_⟩
    simp [Call.answeredByLedger, hpayload, Call.key]

variable {l l' : Ledger effects}

theorem commits_of_commitNew (hadmitted : checkSubmission isMutable c.metadata c.scope = .ok ())
    (hfresh : c.answeredByLedger = true → l.idempotency.find? c.key = none)
    (h : commitNew isMutable l c.metadata c.scope c.payload = .ok (.committed r, l')) :
    Commits isMutable l c r l' := by
  obtain ⟨next, hnext, h⟩ := bind_eq_ok.mp h
  simp only [bind_eq_ok] at h
  obtain ⟨persisted, hpersisted, recorded, hrecorded, state, -, h⟩ := h
  cases h
  obtain ⟨previous, hprevious, hnext⟩ := bind_eq_ok.mp hnext
  obtain ⟨sequence, hsequence, hnext⟩ := bind_eq_ok.mp hnext
  cases hnext
  obtain ⟨hrows, hcheckpoints⟩ := persistCheckpoint_eq_ok hpersisted
  obtain ⟨hsame, hfind⟩ := recordRequest_eq_ok hrecorded
  refine ⟨hadmitted, hfresh, ⟨previous, hprevious, hsequence⟩, rfl, ?_, ?_, ?_⟩
  · exact hsame.trans hcheckpoints
  · intro hl; exact (hfind c.key).trans (if_pos ⟨hl, rfl⟩)
  · intro key hne
    rw [hfind key, if_neg fun hkey => hne hkey.1 hkey.2, ← hrows]
    exact find?_pruneSuperseded key

theorem commits_of_committed
    (h : recordRuntimeCommit isMutable l c.metadata c.scope c.payload = .ok (.committed r, l')) :
    Commits isMutable l c r l' := by
  obtain ⟨⟨⟩, hadmitted, h⟩ := bind_eq_ok.mp h
  obtain ⟨answer, hanswer, h⟩ := bind_eq_ok.mp h
  cases hpayload : forPayload c.payload with
  | repository =>
    rw [answerFromLedger, hpayload] at hanswer
    cases hanswer
    refine commits_of_commitNew hadmitted (fun hl => ?_) h
    exact absurd hl (by simp [Call.answeredByLedger, hpayload])
  | ledger =>
    rw [answerFromLedger, hpayload] at hanswer
    rcases disposition_eq_ok hanswer with ⟨rfl, hfresh⟩ | ⟨_, rfl⟩ | ⟨_, rfl⟩
    · exact commits_of_commitNew hadmitted (fun _ => hfresh) h
    · cases h
    · cases h

/-! ## The tables account for what was kept -/

/-- The checkpoint row that a kept call left. -/
def Kept.checkpoint (k : Kept effects) : CheckpointRow :=
  checkpointRow k.1.metadata k.1.scope ⟨k.1.metadata.shardId, k.1.metadata.incarnation,
    k.1.metadata.authorityEpoch, k.2.commitSequence⟩ k.2

def Kept.row (k : Kept effects) : IdempotencyRow := idempotencyRow k.1.metadata k.1.scope k.2

structure Accounted (isMutable : String → Bool) (l : Ledger effects) (kept : List (Kept effects)) :
    Prop where
  admitted : ∀ k ∈ kept, checkSubmission isMutable k.1.metadata k.1.scope = .ok ()
  receipts : ∀ k ∈ kept, k.2 = commitReceipt k.1.metadata k.2.commitSequence
  numbered : ∀ history, (keptOf history kept).map (·.2.commitSequence) =
    List.range' 1 (keptOf history kept).length
  epochs : ∀ history, (keptOf history kept).Pairwise
    fun k k' => k.1.metadata.authorityEpoch ≤ k'.1.metadata.authorityEpoch
  checkpoint : ∀ history, l.checkpoints.find? history =
    (keptOf history kept).getLast?.map Kept.checkpoint
  rows : ∀ k ∈ kept, k.1.answeredByLedger = true → Latest kept k.1 →
    l.idempotency.find? k.1.key = some k.row
  origin : ∀ key, (∀ k ∈ kept, k.1.answeredByLedger = true → k.1.key ≠ key) →
    l.idempotency.find? key = none
  once : ((kept.filter (·.1.answeredByLedger)).map (·.1.key)).Nodup

variable (start : effects.State)

theorem Accounted.new : Accounted isMutable (.new start) [] where
  admitted := by simp
  receipts := by simp
  numbered _ := rfl
  epochs _ := .nil
  checkpoint _ := rfl
  rows := by simp
  origin _ _ := rfl
  once := .nil

theorem keptOf_concat (history : HistoryKey) (kept : List (Kept effects)) (k : Kept effects) :
    keptOf history (kept ++ [k]) =
      if k.1.history = history then keptOf history kept ++ [k] else keptOf history kept := by
  split_ifs with h
  · simp [h, keptOf]
  · simp [h, keptOf]

variable {k : Kept effects}

@[simp]
theorem mem_keptOf {history : HistoryKey} {kept : List (Kept effects)} :
    k ∈ keptOf history kept ↔ k ∈ kept ∧ k.1.history = history := by
  simp [keptOf]

section Read

variable {l : Ledger effects} {kept : List (Kept effects)} (h : Accounted isMutable l kept)
include h

theorem Accounted.commitSequence_ne_zero (hk : k ∈ kept) : k.2.commitSequence ≠ 0 := by
  have hmem : k ∈ keptOf k.1.history kept := mem_keptOf.mpr ⟨hk, rfl⟩
  have hseq := mem_map_of_mem (f := fun k : Kept effects => k.2.commitSequence) hmem
  rw [h.numbered, mem_range'_1] at hseq; omega

theorem Accounted.commitSequence_last {history : HistoryKey}
    (hlast : (keptOf history kept).getLast? = some k) :
    k.2.commitSequence = (keptOf history kept).length := by
  obtain ⟨front, hfront⟩ := getLast?_eq_some_iff.mp hlast
  have hn := h.numbered history
  rw [hfront, map_append, length_append, length_singleton, range'_concat] at hn
  have hs := (append_inj' hn rfl).2
  rw [hfront, length_append, length_singleton]
  simp only [map_singleton, cons.injEq, and_true] at hs; omega

theorem Accounted.latest_iff (c : Call effects) : Latest kept c ↔
    ∀ k ∈ (keptOf c.history kept).getLast?,
      k.1.metadata.authorityEpoch ≤ c.metadata.authorityEpoch := by
  constructor
  · intro hlatest k hk
    obtain ⟨hk, hh⟩ := mem_keptOf.mp (mem_of_getLast? hk)
    exact hlatest k hk hh
  · intro hlast d hd hh
    have hmem := mem_keptOf.mpr ⟨hd, hh⟩
    have hsorted := h.epochs c.history
    rcases eq_nil_or_concat (keptOf c.history kept) with hnil | ⟨front, k, hfront⟩
    · rw [hnil] at hmem; cases hmem
    · have hk := hlast k (by rw [hfront, concat_eq_append]; exact getLast?_concat)
      rw [hfront, concat_eq_append] at hmem hsorted
      rcases mem_append.mp hmem with hmem | hmem
      · exact ((pairwise_append.mp hsorted).2.2 d hmem k mem_cons_self).trans hk
      · rw [mem_singleton.mp hmem]; exact hk

theorem Accounted.loadCheckpoint (shardId : String) (incarnation : PositiveU64) :
    loadCheckpoint isMutable l shardId incarnation =
      .ok ((keptOf (historyKey shardId incarnation) kept).getLast?.map
        (·.checkpoint.watermark)) := by
  have hfind := h.checkpoint (historyKey shardId incarnation)
  cases hlast : (keptOf (historyKey shardId incarnation) kept).getLast? with
  | none => rw [WriterLedger.loadCheckpoint, hfind, hlast]; rfl
  | some k =>
    obtain ⟨hk, hh⟩ := mem_keptOf.mp (mem_of_getLast? hlast)
    obtain ⟨hshard, hincarnation⟩ := history_inj hh
    obtain ⟨hmutable, hscope⟩ := checkSubmission_eq_ok (h.admitted k hk)
    have hreceipt := h.receipts k hk
    have hsequence := h.commitSequence_ne_zero hk
    have hepoch : k.checkpoint.authorityEpoch ≠ 0 := (k.1.metadata.authorityEpoch.2.1).ne'
    have hbinding : k.checkpoint.transactionScope.compatibility.binding = k.1.metadata.binding :=
      congrArg (·.binding) hscope
    have hcoherent : k.checkpoint.coherent shardId incarnation = true := by
      have hid : k.2.operationId = k.1.metadata.operationId := congrArg (·.operationId) hreceipt
      have hs : k.2.shardId = k.1.metadata.shardId := congrArg (·.shardId) hreceipt
      have hi : k.2.incarnation = k.1.metadata.incarnation := congrArg (·.incarnation) hreceipt
      have he : k.2.authorityEpoch = k.1.metadata.authorityEpoch :=
        congrArg (·.authorityEpoch) hreceipt
      simp [CheckpointRow.coherent, Kept.checkpoint, checkpointRow, hshard, hincarnation,
        hsequence, hid, hs, hi, he, hscope, binding]
    rw [WriterLedger.loadCheckpoint, hfind, hlast, Option.map_some]
    simp only [hepoch, hcoherent, hbinding, binding, hmutable, if_false, if_true, Bool.true_eq_false,
      show k.checkpoint.commitSequence ≠ 0 from hsequence,
      show k.checkpoint.originalReceipt.commitSequence ≠ 0 from hsequence]
    rfl

theorem Accounted.nextSequence_eq_ok (c : Call effects) (sequence : Nat) :
    nextSequence ((keptOf c.history kept).getLast?.map (·.checkpoint.watermark)) c.metadata =
        .ok sequence ↔
      Latest kept c ∧ sequence = (keptOf c.history kept).length + 1 ∧ sequence ≤ u64Max := by
  rw [h.latest_iff]
  cases hlast : (keptOf c.history kept).getLast? with
  | none =>
    rw [getLast?_eq_none_iff.mp hlast]
    simp only [Option.map_none, nextSequence, Except.ok.injEq]
    constructor
    · rintro rfl; exact ⟨by simp, rfl, by unfold u64Max; omega⟩
    · rintro ⟨-, rfl, -⟩; rfl
  | some k =>
    rw [Option.map_some, nextSequence, ite_error_eq_ok, ite_error_eq_ok,
      ← h.commitSequence_last hlast]
    simp only [Option.mem_some_iff, forall_eq', Except.ok.injEq]
    constructor
    · rintro ⟨hle, hmax, rfl⟩; exact ⟨not_lt.mp hle, rfl, not_lt.mp hmax⟩
    · rintro ⟨hle, rfl, hmax⟩; exact ⟨not_lt.mpr hle, not_lt.mpr hmax, rfl⟩

end Read

section Step

variable {l l' : Ledger effects} {kept : List (Kept effects)} {c : Call effects}
  {r : StoreCommitReceipt} (h : Accounted isMutable l kept) (hc : Commits isMutable l c r l')
include h hc

theorem Accounted.sequence :
    r.commitSequence = (keptOf c.history kept).length + 1 ∧ Latest kept c := by
  obtain ⟨previous, hprevious, hnext⟩ := hc.sequence
  rw [h.loadCheckpoint] at hprevious
  cases hprevious
  obtain ⟨hlatest, hsequence, -⟩ := (h.nextSequence_eq_ok c _).mp hnext
  exact ⟨hsequence, hlatest⟩

theorem Accounted.fresh_key (hl : c.answeredByLedger = true) (hk : k ∈ kept)
    (hk' : k.1.answeredByLedger = true) : k.1.key ≠ c.key := by
  intro hkey
  obtain ⟨hh, he⟩ := binding_eq_of_key_eq hkey
  have hlatest : Latest kept k.1 := by
    intro d hd hsame
    rw [he]; exact (h.sequence hc).2 d hd (hsame.trans hh)
  have hrow := h.rows k hk hk' hlatest
  rw [hkey, hc.fresh hl] at hrow; cases hrow

theorem Accounted.commit : Accounted isMutable l' (kept ++ [(c, r)]) := by
  obtain ⟨hsequence, hlatest⟩ := h.sequence hc
  refine ⟨forall_mem_append.mpr ⟨h.admitted, forall_mem_singleton.mpr hc.admitted⟩,
    forall_mem_append.mpr ⟨h.receipts, forall_mem_singleton.mpr hc.receipt⟩, ?_, ?_, ?_, ?_, ?_, ?_⟩
  · intro history
    rw [keptOf_concat]
    split_ifs with hh
    · subst hh
      rw [map_append, h.numbered, length_append, length_singleton, range'_concat, map_singleton,
        hsequence]
      simp [Nat.add_comm]
    · exact h.numbered history
  · intro history
    rw [keptOf_concat]
    split_ifs with hh
    · subst hh
      refine pairwise_append.mpr ⟨h.epochs _, pairwise_singleton _ _, ?_⟩
      intro k hk k' hk'
      rw [mem_singleton.mp hk']
      obtain ⟨hk, hh⟩ := mem_keptOf.mp hk
      exact hlatest k hk hh
    · exact h.epochs history
  · intro history
    rw [keptOf_concat, hc.checkpoints, OrdMap.find?_insert]
    by_cases hh : c.history = history
    · rw [if_pos hh.symm, if_pos hh, getLast?_append]; rfl
    · rw [if_neg fun heq => hh heq.symm, if_neg hh, h.checkpoint]
  · intro k hk hl hk'
    rcases mem_append.mp hk with hk | hk
    · rw [← h.rows k hk hl fun d hd hsame => hk' d (mem_append_left _ hd) hsame]
      refine (hc.others k.1.key fun ha => h.fresh_key hc ha hk hl).resolve_right ?_
      -- A later epoch of the same history would have superseded the row.
      rintro ⟨-, hh, he⟩; exact absurd (hk' (c, r) (by simp) hh.symm) (not_le.mpr he)
    · rw [mem_singleton.mp hk] at hl ⊢; exact hc.written hl
  · intro key hkey
    obtain ⟨hold, hnew⟩ := forall_mem_append.mp hkey
    rcases hc.others key fun ha => (forall_mem_singleton.mp hnew ha).symm with hsame | ⟨hnone, -⟩
    · rw [hsame]; exact h.origin key hold
    · exact hnone
  · rw [filter_append, map_append]
    cases ha : c.answeredByLedger with
    | false => simpa [ha] using h.once
    | true =>
      simp only [filter_cons, ha, if_true, filter_nil, map_cons, map_nil]
      refine nodup_append.mpr ⟨h.once, nodup_singleton _, ?_⟩
      intro key hkey key' hkey' heq
      obtain ⟨k, hk, rfl⟩ := mem_map.mp hkey
      obtain ⟨hk, hl⟩ := mem_filter.mp hk
      exact h.fresh_key hc ha hk hl (heq.trans (mem_singleton.mp hkey'))

end Step

theorem Accounted.transact {st : Ledger effects × List (Kept effects)}
    (h : Accounted isMutable st.1 st.2) (c : Call effects) :
    Accounted isMutable (transact isMutable st c).1 (transact isMutable st c).2 := by
  rw [WriterLedger.transact]
  split
  · rename_i r l' hc; exact h.commit (commits_of_committed hc)
  · exact h

theorem Accounted.run (calls : List (Call effects)) :
    Accounted isMutable (run isMutable start calls).1 (run isMutable start calls).2 :=
  Folds.foldl_inv (I := fun st : Ledger effects × List (Kept effects) =>
    Accounted isMutable st.1 st.2) (fun _ c h => h.transact c) (Accounted.new start) calls

/-- After any run, the checkpoint read is never corrupt: it is that of the last kept call. -/
theorem loadCheckpoint_run (calls : List (Call effects)) (shardId : String)
    (incarnation : PositiveU64) :
    let st := run isMutable start calls
    loadCheckpoint isMutable st.1 shardId incarnation =
      .ok ((keptOf (historyKey shardId incarnation) st.2).getLast?.map
        (·.checkpoint.watermark)) :=
  (Accounted.run start calls).loadCheckpoint shardId incarnation

/-! ## Fresh calls -/

theorem answerFromLedger_of_none
    (hnone : c.answeredByLedger = true → l.idempotency.find? c.key = none) :
    answerFromLedger isMutable l c.metadata c.scope c.payload = .ok .new := by
  unfold answerFromLedger
  split
  · rename_i hpayload
    rw [disposition, loadIdempotency_none (hnone (by simp [Call.answeredByLedger, hpayload]))]; rfl
  · rfl

theorem recordRequest_of_none (hnone : c.answeredByLedger = true → l.idempotency.find? c.key = none)
    (hroom : r.commitSequence ≤ sqliteMax) :
    ∃ q, recordRequest l c.metadata c.scope r (forPayload c.payload) = .ok q ∧
      q.effects = l.effects := by
  cases hpayload : forPayload c.payload with
  | repository => exact ⟨l, rfl, rfl⟩
  | ledger =>
    have hnone := hnone (by simp [Call.answeredByLedger, hpayload])
    rw [recordRequest, insertIdempotency, sqliteU64, if_neg (by omega), ok_bind, ← Call.key,
      OrdMap.contains, hnone]
    exact ⟨_, rfl, rfl⟩

theorem unchangedSince_checkpoint (last : Option (Kept effects)) :
    unchangedSince (last.map Kept.checkpoint) (last.map (·.checkpoint.watermark)) = true := by
  cases last <;> simp [unchangedSince, Kept.checkpoint, checkpointRow]

theorem persistCheckpoint_of_unchanged {s : RuntimeTransactionScope} {n : NextCheckpoint}
    (hroom : n.watermark.commitSequence ≤ sqliteMax)
    (hsame : unchangedSince (l.checkpoints.find? (historyKey m.shardId m.incarnation)) n.previous) :
    ∃ persisted, persistCheckpoint l m s n r = .ok persisted ∧
      persisted.idempotency = l.idempotency ∧ persisted.effects = l.effects := by
  rw [persistCheckpoint, sqliteU64, if_neg (by omega), ok_bind, if_pos hsame]
  exact ⟨_, rfl, rfl, rfl⟩

theorem recordEffects_congr {payload : RepositoryWritePayload effects}
    (h : l'.effects = l.effects) :
    recordEffects l' m scope r payload = recordEffects l m scope r payload := by
  cases payload <;> simp only [recordEffects, h]

theorem find?_pruned_of_none {l persisted : Ledger effects} {n : NextCheckpoint}
    {key : HistoryKey ×ₗ RequestKey} (hrows : persisted.idempotency = l.idempotency)
    (hnone : l.idempotency.find? key = none) :
    (pruneSuperseded persisted m n).idempotency.find? key = none := by
  rcases find?_pruneSuperseded key with hsame | ⟨hpruned, -⟩
  · rw [hsame, hrows]; exact hnone
  · exact hpruned

theorem Accounted.committed {kept : List (Kept effects)} (h : Accounted isMutable l kept)
    (hfresh : Fresh isMutable (l, kept) c) :
    ∃ l', recordRuntimeCommit isMutable l c.metadata c.scope c.payload =
      .ok (.committed (nextReceipt kept c), l') := by
  obtain ⟨hadmitted, hlatest, hunkept, hroom, state, haccepted⟩ := hfresh
  simp only at hlatest hunkept hroom haccepted
  have hnone : c.answeredByLedger = true → l.idempotency.find? c.key = none :=
    fun hl => h.origin c.key (hunkept hl)
  let last := (keptOf c.history kept).getLast?
  let next : NextCheckpoint := ⟨last.map (·.checkpoint.watermark), c.metadata.shardId,
    c.metadata.incarnation, c.metadata.authorityEpoch, (keptOf c.history kept).length + 1⟩
  have hnext : nextCheckpoint isMutable l c.metadata = .ok next := by
    have hsequence := (h.nextSequence_eq_ok c _).mpr
      ⟨hlatest, rfl, by unfold u64Max; unfold sqliteMax at hroom; omega⟩
    rw [nextCheckpoint, h.loadCheckpoint, ok_bind, ← Call.history, hsequence]; rfl
  obtain ⟨persisted, hpersisted, hrows, hkept⟩ := persistCheckpoint_of_unchanged (l := l)
    (m := c.metadata) (s := c.scope) (r := nextReceipt kept c) (n := next) hroom
    (by rw [h.checkpoint]; exact unchangedSince_checkpoint last)
  obtain ⟨recorded, hrecorded, heffects⟩ := recordRequest_of_none (c := c) (r := nextReceipt kept c)
    (fun hl => find?_pruned_of_none (m := c.metadata) (n := next) hrows (hnone hl)) hroom
  refine ⟨{ recorded with effects := state }, ?_⟩
  rw [recordRuntimeCommit, hadmitted, ok_bind, answerFromLedger_of_none hnone, ok_bind]
  simp only [commitNew, hnext, ok_bind]
  rw [show next.receipt c.metadata = nextReceipt kept c from rfl, hpersisted, ok_bind, hrecorded,
    ok_bind, recordEffects_congr (heffects.trans hkept), haccepted]; rfl

/-! ## Resubmission -/

/-- A call under the key of an earlier one that passes the checks of its contract. -/
structure Resubmits (isMutable : String → Bool) (again c : Call effects) : Prop where
  admitted : checkSubmission isMutable again.metadata again.scope = .ok ()
  answeredByLedger : again.answeredByLedger = true
  binding : again.metadata.binding = c.metadata.binding
  key : again.metadata.idempotency.key = c.metadata.idempotency.key

abbrev Kept.record (k : Kept effects) : IdempotencyRecord :=
  rebuildRecord k.1.metadata.binding k.1.metadata.idempotency.key k.row

section Resubmitted

variable {l : Ledger effects} {k : Kept effects} {again : Call effects}

theorem record_receipt (hreceipt : k.2 = commitReceipt k.1.metadata k.2.commitSequence) :
    k.record.receipt = k.2 := by
  conv_rhs => rw [hreceipt]
  have hcommitted : k.2.committedAt = k.1.metadata.admittedAt := congrArg (·.committedAt) hreceipt
  simp only [rebuildRecord, Kept.row, idempotencyRow, commitReceipt, hcommitted, binding]

theorem recordRuntimeCommit_of_answer
    (hadmitted : checkSubmission isMutable k.1.metadata k.1.scope = .ok ())
    (hsequence : k.2.commitSequence ≠ 0) (hrow : l.idempotency.find? k.1.key = some k.row)
    (hagain : Resubmits isMutable again k.1) {answer : LedgerDisposition} (hnew : answer ≠ .new)
    (hanswer : k.record.answer again.metadata again.scope = .ok answer) :
    recordRuntimeCommit isMutable l again.metadata again.scope again.payload = .ok (answer, l) := by
  have hpayload : forPayload again.payload = .ledger := of_decide_eq_true hagain.answeredByLedger
  have hmutable : isMutable k.1.metadata.binding.shardId = true := (checkSubmission_eq_ok hadmitted).1
  have hload : loadIdempotency isMutable l again.metadata.binding again.metadata.idempotency.key =
      .ok (some k.record) := by
    rw [loadIdempotency, hagain.binding, hagain.key, ← Call.key, hrow]
    simp [show k.row.commitSequence ≠ 0 from hsequence, hmutable]
  rw [recordRuntimeCommit, hagain.admitted, ok_bind, answerFromLedger, hpayload]
  simp only [disposition, hload, ok_bind, hanswer]

theorem validateReplayFor_kept (hreceipt : k.2 = commitReceipt k.1.metadata k.2.commitSequence)
    (hsequence : k.2.commitSequence ≠ 0)
    (hbinding : again.metadata.binding = k.1.metadata.binding)
    (hidempotency : again.metadata.idempotency = k.1.metadata.idempotency) :
    k.2.validateReplayFor again.metadata = .ok () := by
  rw [binding, binding, StoreRuntimeBinding.mk.injEq] at hbinding
  have hid : k.2.idempotency = again.metadata.idempotency :=
    (congrArg (·.idempotency) hreceipt).trans hidempotency.symm
  have hshard : k.2.shardId = again.metadata.shardId :=
    (congrArg (·.shardId) hreceipt).trans hbinding.1.symm
  have hincarnation : k.2.incarnation = again.metadata.incarnation :=
    (congrArg (·.incarnation) hreceipt).trans hbinding.2.1.symm
  have hepoch : k.2.authorityEpoch = again.metadata.authorityEpoch :=
    (congrArg (·.authorityEpoch) hreceipt).trans hbinding.2.2.symm
  rw [StoreCommitReceipt.validateReplayFor, StoreCommitReceipt.validate, if_neg hsequence, ok_bind,
    StoreCommitReceipt.bindsReplay, hid, hshard, hincarnation, hepoch]
  simp only [ne_eq, not_true_eq_false, if_false]

theorem answer_kept (hadmitted : checkSubmission isMutable k.1.metadata k.1.scope = .ok ())
    (hreceipt : k.2 = commitReceipt k.1.metadata k.2.commitSequence)
    (hsequence : k.2.commitSequence ≠ 0) (hagain : Resubmits isMutable again k.1) :
    (again.metadata.idempotency.commandDigest = k.1.metadata.idempotency.commandDigest →
      again.metadata.durability = k.1.metadata.durability →
      again.scope.compatibility = k.1.scope.compatibility →
      k.record.answer again.metadata again.scope = .ok (.replay k.2)) ∧
    (again.metadata.idempotency.commandDigest ≠ k.1.metadata.idempotency.commandDigest →
      k.record.answer again.metadata again.scope = .ok (.conflict k.2)) := by
  obtain ⟨-, hscope⟩ := checkSubmission_eq_ok hadmitted
  refine ⟨fun hdigest hdurability hcompatibility => ?_, fun hdigest => ?_⟩
  · have hidempotency : again.metadata.idempotency = k.1.metadata.idempotency := by
      rw [← (show (⟨_, _⟩ : IdempotencyIdentity) = k.1.metadata.idempotency from rfl), ← hdigest,
        ← hagain.key]
    have hbatch : (⟨k.1.metadata.binding, k.1.metadata.durability,
        k.1.scope.compatibility.priority⟩ : RuntimeBatchCompatibility) =
        again.scope.compatibility := by
      rw [hcompatibility, hscope]
    rw [IdempotencyRecord.answer, record_receipt hreceipt,
      validateReplayFor_kept hreceipt hsequence hagain.binding hidempotency]
    simp only [rebuildRecord, Kept.row, idempotencyRow, hdigest, hdurability, hbatch, ne_eq,
      not_true_eq_false, if_false]
  · rw [IdempotencyRecord.answer, if_pos fun heq => hdigest heq.symm, record_receipt hreceipt]

end Resubmitted

/-- Whatever is submitted, in whatever order: the kept receipts of a shard incarnation are numbered
from 1 without gaps under epochs that do not fall; no two kept requests that the ledger answers for
have the same shard, incarnation, epoch and key; until a later epoch commits, a kept request is
answered with its own receipt, or with a conflict that names it; and a fresh call is kept next. -/
theorem ledger_commits_each_request_once (isMutable : String → Bool) (start : effects.State)
    (calls : List (Call effects)) :
    (∀ shardId incarnation,
      (keptOf (historyKey shardId incarnation) (run isMutable start calls).2).map
          (·.2.commitSequence) =
        List.range' 1 (keptOf (historyKey shardId incarnation) (run isMutable start calls).2).length ∧
      (keptOf (historyKey shardId incarnation) (run isMutable start calls).2).Pairwise
        fun k k' => k.2.authorityEpoch ≤ k'.2.authorityEpoch) ∧
    (((run isMutable start calls).2.filter (·.1.answeredByLedger)).map (·.1.key)).Nodup ∧
    (∀ k ∈ (run isMutable start calls).2, k.1.answeredByLedger = true →
      Latest (run isMutable start calls).2 k.1 → ∀ again, Resubmits isMutable again k.1 →
      (again.metadata.idempotency.commandDigest = k.1.metadata.idempotency.commandDigest →
        again.metadata.durability = k.1.metadata.durability →
        again.scope.compatibility = k.1.scope.compatibility →
        recordRuntimeCommit isMutable (run isMutable start calls).1 again.metadata again.scope
          again.payload = .ok (.replay k.2, (run isMutable start calls).1)) ∧
      (again.metadata.idempotency.commandDigest ≠ k.1.metadata.idempotency.commandDigest →
        recordRuntimeCommit isMutable (run isMutable start calls).1 again.metadata again.scope
          again.payload = .ok (.conflict k.2, (run isMutable start calls).1))) ∧
    ∀ call, Fresh isMutable (run isMutable start calls) call →
      (run isMutable start (calls ++ [call])).2 =
        (run isMutable start calls).2 ++ [(call, nextReceipt (run isMutable start calls).2 call)] := by
  have h : Accounted isMutable (run isMutable start calls).1 (run isMutable start calls).2 :=
    Accounted.run start calls
  refine ⟨fun shardId incarnation => ⟨h.numbered _, ?_⟩, h.once, ?_, ?_⟩
  · refine (h.epochs _).imp_of_mem fun {k k'} hk hk' hle => ?_
    have hepoch : ∀ d ∈ (run isMutable start calls).2,
        d.2.authorityEpoch = d.1.metadata.authorityEpoch :=
      fun d hd => congrArg (·.authorityEpoch) (h.receipts d hd)
    rw [hepoch k (mem_keptOf.mp hk).1, hepoch k' (mem_keptOf.mp hk').1]; exact hle
  · intro k hk hl hlatest again hagain
    have hsequence := h.commitSequence_ne_zero hk
    obtain ⟨hreplay, hconflict⟩ :=
      answer_kept (h.admitted k hk) (h.receipts k hk) hsequence hagain
    have hanswer := @recordRuntimeCommit_of_answer _ _ _ _ _ (h.admitted k hk) hsequence
      (h.rows k hk hl hlatest) hagain
    exact ⟨fun hdigest hdurability hscope => hanswer nofun (hreplay hdigest hdurability hscope),
      fun hdigest => hanswer nofun (hconflict hdigest)⟩
  · intro call hfresh
    obtain ⟨l', hcommitted⟩ := h.committed hfresh
    rw [run, foldl_append, ← run]
    simp only [foldl_cons, foldl_nil, transact, hcommitted]

def plainEffects : EffectTables :=
  ⟨Unit, Unit, Unit, fun s _ _ _ _ => .ok s, fun s _ _ _ => .ok s, fun s _ _ _ => .ok s⟩

/-- A fact written under a key, an epoch and a digest. -/
def factCall (key : String) (epoch : PositiveU64) (digest : String) : Call plainEffects where
  metadata := ⟨"operation", "profile", ⟨1, by decide⟩, epoch, ⟨key, digest⟩, .full, .foreground, 64, 5⟩
  scope := ⟨"transaction", ⟨⟨"profile", ⟨1, by decide⟩, epoch⟩, .full, .foreground⟩, 4⟩
  payload := .fact

/-- The second call is a resubmission, the third a conflict and the last one stale. -/
def factCalls : List (Call plainEffects) :=
  [factCall "a" ⟨1, by decide⟩ "x", factCall "a" ⟨1, by decide⟩ "x", factCall "a" ⟨1, by decide⟩ "y",
    factCall "a" ⟨2, by decide⟩ "x", factCall "b" ⟨1, by decide⟩ "x"]

theorem ledger_commits_each_request_once_facts :
    (run (fun _ => true) () (factCalls ++ [factCall "b" ⟨2, by decide⟩ "x"])).2.map
        (fun k => (k.1.metadata.idempotency.key, k.2.authorityEpoch.1, k.2.commitSequence)) =
      [("a", 1, 1), ("a", 2, 2), ("b", 2, 3)] := by
  rw [(ledger_commits_each_request_once _ () factCalls).2.2.2 _
    ⟨by decide +kernel, ?_, fun _ => ?_, by decide +kernel, (), rfl⟩]
  · decide +kernel
  · unfold Latest; decide +kernel
  · decide +kernel

end TraceDecay.WriterLedger
