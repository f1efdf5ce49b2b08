import TraceDecay.Admission.Memory

/-!
# Admission.Opening

A spool that opens healthy keeps its accounts, whatever the files of its directory held
(`open_kept`).
-/

namespace TraceDecay.Admission

open Stateful Fallible List

variable {sha256 : Bytes → FixedBytes 32} {bounds : SpoolBounds}

/-! ## Scanning -/

variable {p : ParsedHeader} {header : Bytes} {r : SpoolRecord} {scan : ScanResult} {c : Nat}

theorem parseHeader_eq_ok (h : parseHeader header bounds = .ok p) :
    p.sourceLen ≤ bounds.maxSourceBytes ∧ p.payloadLen ≤ bounds.maxRecordBytes ∧
      p.framedLen = frameHeaderBytes + p.sourceLen + p.payloadLen + checksumBytes := by
  simp only [parseHeader, ite_error_eq_ok, not_or, not_lt] at h
  obtain ⟨-, -, hl, -, ⟨⟩⟩ := h
  exact ⟨hl.1, hl.2, rfl⟩

theorem length_slice {α : Type} (l : List α) (i n : Nat) :
    (slice l i n).length = min n (l.length - i) := by
  rw [slice, length_take, length_drop]

theorem sourceBytes_of_bytes {bytes : Bytes} {s : String}
    (h : sourceOfBytes bytes = some s) : sourceBytes s = bytes := by
  obtain ⟨cs, hcs, rfl⟩ := Option.map_eq_some_iff.mp h
  rw [sourceBytes, String.toList_ofList, Utf8.encode_of_decode hcs]

theorem readRecord_eq_some {rest : Bytes} {o : Nat} (hp : parseHeader header bounds = .ok p)
    (hl : p.framedLen ≤ rest.length)
    (h : readRecord sha256 p rest o = some r) (hz : p.seq ≠ 0)
    (hmax : p.seq ≠ u64Max) : r.seq = p.seq ∧ Sized bounds r := by
  obtain ⟨hs, hpayload, hf⟩ := parseHeader_eq_ok hp
  unfold readRecord at h
  simp only at h
  split at h
  · cases h
  obtain ⟨source, hd, rfl⟩ := Option.map_eq_some_iff.mp h
  have hb := congrArg List.length (sourceBytes_of_bytes hd)
  rw [length_slice] at hb
  have hpay := length_slice rest (frameHeaderBytes + p.sourceLen) p.payloadLen
  refine ⟨rfl, hz, hmax, ?_, ?_, ?_⟩
  · simp only; omega
  · simp only; omega
  · simp only [framedLenOf]; omega

structure ScanOk (bounds : SpoolBounds) (records : List SpoolRecord) : Prop where
  ordered : records.Pairwise fun a b => a.seq < b.seq
  sized : ∀ r ∈ records, Sized bounds r

variable {quarantine : TerminalQuarantine} {records : List SpoolRecord} {spoolMeta : SpoolMetaV1}

theorem ScanOk.concat (h : ScanOk bounds records) (hsized : Sized bounds r)
    (hf : followsSeq quarantine (records.getLast?.map (·.seq)) r.seq = true) :
    ScanOk bounds (records ++ [r]) := by
  refine ⟨pairwise_append.mpr ⟨h.ordered, pairwise_singleton _ _, ?_⟩, ?_⟩
  · intro a ha b hb
    obtain rfl := mem_singleton.mp hb
    obtain rfl | ⟨init, last, rfl⟩ := eq_nil_or_concat' records
    · cases ha
    rw [getLast?_concat, Option.map_some, followsSeq, Bool.and_eq_true, decide_eq_true_eq] at hf
    -- `a` is the last record or before it
    rcases mem_append.mp ha with ha | ha
    · exact ((pairwise_append.mp h.ordered).2.2 a ha last (mem_singleton_self _)).trans hf.1
    · rw [mem_singleton.mp ha]; exact hf.1
  · exact forall_mem_append.mpr ⟨h.sized, forall_mem_singleton.mpr hsized⟩

theorem scanFrames_ok {f : Nat} :
    ∀ (fuel : Nat) {rest : Bytes} {o : Nat} {records : List SpoolRecord}, ScanOk bounds records →
      scanFrames sha256 bounds quarantine f fuel rest o records = .ok scan →
      ScanOk bounds scan.records := by
  intro fuel
  induction fuel with
  | zero => intro rest o records hscan h; cases h; exact hscan
  | succ fuel ih =>
    intro rest o records hscan h
    rw [scanFrames] at h
    split at h
    · cases h; exact hscan
    split at h
    · cases h; exact hscan
    split at h
    · cases h; exact hscan
    · cases h
    rename_i parsed hp
    split at h
    · cases h; exact hscan
    rename_i hl
    split at h
    · cases h
    split at h
    · cases h; exact hscan
    rename_i hseq
    split at h
    · cases h; exact hscan
    rename_i r hr
    simp only [not_or] at hseq
    obtain ⟨hlast, hs⟩ := readRecord_eq_some hp (by omega) hr hseq.1 hseq.2.1
    have hf : followsSeq quarantine (records.getLast?.map (·.seq)) r.seq = true := by
      rw [hlast]; simpa using hseq.2.2
    exact ih (hscan.concat hs hf) h

theorem scanRecords_ok {file : Option Bytes}
    (h : scanRecords sha256 file bounds quarantine = .ok scan) : ScanOk bounds scan.records := by
  cases file with
  | none => cases h; exact ⟨.nil, by simp⟩
  | some bytes => obtain ⟨-, h⟩ := ite_error_eq_ok.mp h; exact scanFrames_ok _ ⟨.nil, by simp⟩ h

/-! ## Recovering -/

def live (quarantine : TerminalQuarantine) (committedThrough : Nat) (r : SpoolRecord) : Bool :=
  decide (committedThrough < r.seq) && !quarantine.contains r.seq

structure Recovered (bounds : SpoolBounds) (quarantine : TerminalQuarantine)
    (committedThrough : Nat) (records : List SpoolRecord) (r : PendingRecovery) : Prop where
  pending : r.pending = records.filter (live quarantine committedThrough)
  bytes : r.pendingBytes = (r.pending.map (·.framedLen)).sum
  usage : r.pendingBySource.Counts r.pending
  within : Within bounds r.pending

theorem recoverRecord_recovered {r r' : PendingRecovery} {x : SpoolRecord}
    (h : Recovered bounds quarantine c records r)
    (hr' : recoverRecord quarantine c bounds r x = .ok r') :
    Recovered bounds quarantine c (records ++ [x]) r' ∧
      r'.recoveredNextSeq = r.recoveredNextSeq := by
  unfold recoverRecord at hr'
  by_cases hskip : x.seq ≤ c ∨ quarantine.contains x.seq = true
  · rw [if_pos hskip] at hr'
    cases hr'
    have hd : live quarantine c x = false := by
      rcases hskip with hle | hq
      · simp [live, hle]
      · simp [live, hq]
    refine ⟨⟨?_, h.bytes, h.usage, h.within⟩, rfl⟩
    rw [filter_append, filter_singleton, hd, h.pending]; simp
  · rw [if_neg hskip] at hr'
    simp only [ite_error_eq_ok] at hr'
    obtain ⟨hr, hb, hcount, hs, ⟨⟩⟩ := hr'
    have hlive : live quarantine c x = true := by
      rw [not_or] at hskip
      simp [live, hskip.2]
      omega
    have hc := h.usage.add x
    have ha := hc x.source
    rw [usageOf_append, usageOf_cons, usageOf_nil, if_pos rfl] at ha
    rw [ha] at hcount hs
    refine ⟨⟨?_, ?_, hc, ?_⟩, rfl⟩
    · rw [filter_append, filter_singleton, hlive, h.pending]; simp
    · simp [h.bytes]
    · refine within_concat h.within (by omega) ?_ ?_ ?_
      · rw [← h.bytes]; omega
      · simp only at hcount; omega
      · simp only at hs; omega

theorem foldlM_recovered {recovered : Option Nat} {r : PendingRecovery}
    (h : records.foldlM (recoverRecord quarantine c bounds)
      ⟨[], 0, OrdMap.empty, recovered⟩ = .ok r) :
    Recovered bounds quarantine c records r ∧ r.recoveredNextSeq = recovered := by
  refine foldlM_induct (P := fun seen r =>
    Recovered bounds quarantine c seen r ∧ r.recoveredNextSeq = recovered) ?_ ?_ h
  · exact ⟨⟨rfl, rfl, SourceUsage.counts_empty, Nat.zero_le _, Nat.zero_le _, fun _ => Nat.zero_le _,
      fun _ => Nat.zero_le _⟩, rfl⟩
  · intro seen x r r' _ hr hr'
    obtain ⟨hrec, hn⟩ := recoverRecord_recovered hr.1 hr'
    exact ⟨hrec, hn.trans hr.2⟩

theorem mem_highest (hr : r ∈ records) (ha : c < r.seq) :
    ∃ highest, highestUnresolved records quarantine c = some highest ∧ r.seq ≤ highest := by
  have hmem : r.seq ∈ (records.map (·.seq) ++ quarantine.entries.keys).filter (c < ·) := by
    refine mem_filter.mpr ⟨mem_append_left _ (mem_map_of_mem hr), ?_⟩
    simpa using ha
  cases hmax : highestUnresolved records quarantine c with
  | none => rw [highestUnresolved, max?_eq_none_iff] at hmax; rw [hmax] at hmem; cases hmem
  | some highest => exact ⟨highest, rfl, (max?_eq_some_iff.mp hmax).2 _ hmem⟩

theorem recoverNextSeq_above {read : Option Nat} (hh : spoolMeta.integrity = .healthy)
    (h : recoverNextSeq records quarantine spoolMeta = .ok read) (hr : r ∈ records)
    (ha : spoolMeta.committedThrough < r.seq) : r.seq < read.getD spoolMeta.nextSeq := by
  obtain ⟨highest, hhigh, hle⟩ := mem_highest hr ha
  unfold recoverNextSeq at h
  rw [if_neg (by simp [hh]), hhigh] at h
  simp only at h
  split at h
  · obtain ⟨-, h⟩ := ite_error_eq_ok.mp h; cases h; exact Nat.lt_succ_of_le hle
  · split at h
    · rename_i hn
      cases h
      rw [Option.getD_none, ← hn]; exact Nat.lt_succ_of_le hle
    · cases h

theorem recoverNextSeq_watermark {r : Option Nat}
    (hw : spoolMeta.committedThrough < spoolMeta.nextSeq)
    (h : recoverNextSeq records quarantine spoolMeta = .ok r) :
    spoolMeta.committedThrough < r.getD spoolMeta.nextSeq := by
  unfold recoverNextSeq at h
  split at h
  · cases h; exact hw
  split at h
  · rename_i highest hh
    have ha : spoolMeta.committedThrough < highest := by
      have hmem := (max?_eq_some_iff.mp hh).1
      simpa using (mem_filter.mp hmem).2
    split at h
    · obtain ⟨-, h⟩ := ite_error_eq_ok.mp h; cases h; exact ha.trans (Nat.lt_succ_self _)
    · split at h
      · cases h; exact hw
      · cases h
  · split at h
    · cases h; exact hw
    · cases h

theorem recoverPending_eq_ok {r : PendingRecovery}
    (h : recoverPending sha256 records quarantine spoolMeta bounds = .ok r) :
    Recovered bounds quarantine spoolMeta.committedThrough records r ∧
      recoverNextSeq records quarantine spoolMeta = .ok r.recoveredNextSeq := by
  simp only [recoverPending, Fallible.bind_eq_ok, throw_eq, ite_error_eq_ok] at h
  obtain ⟨⟨⟩, -, ⟨⟩, -, recovered, hn, -, ⟨⟩, -, h⟩ := h
  obtain ⟨hrec, hsame⟩ := foldlM_recovered h
  exact ⟨hrec, hsame ▸ hn⟩

/-! ## Opening -/

theorem settleTail_eq_ok {s : SpoolMetaV1} {t : Nat}
    {w w' : World} (h : settleTail scan spoolMeta w = .ok (s, t) w') :
    s.committedThrough = spoolMeta.committedThrough ∧ s.nextSeq = spoolMeta.nextSeq := by
  unfold settleTail at h
  cases hi : scan.integrity with
  | healthy =>
    simp only [hi] at h
    split at h
    · obtain ⟨⟨⟩, w1, -, h⟩ := Stateful.bind_eq_ok.mp h; cases h; exact ⟨rfl, rfl⟩
    · cases h; exact ⟨rfl, rfl⟩
  | corrupted atOffset =>
    simp only [hi] at h
    obtain ⟨⟨⟩, w1, -, h⟩ := Stateful.bind_eq_ok.mp h
    cases h; exact ⟨rfl, rfl⟩

theorem judgeTail_records (file : Option Bytes) (scan : ScanResult) (spoolMeta : SpoolMetaV1)
    (quarantine : TerminalQuarantine) :
    (judgeTail sha256 file scan spoolMeta quarantine bounds).records = scan.records := by
  unfold judgeTail
  split <;> rfl

theorem validateMeta_watermark (h : validateMeta spoolMeta bounds = .ok ()) :
    spoolMeta.committedThrough < spoolMeta.nextSeq := by
  simp only [validateMeta, validateMetaWatermarks, Fallible.bind_eq_ok, throw_eq,
    ite_error_eq_ok] at h
  obtain ⟨-, ⟨⟩, ⟨h, -⟩, -⟩ := h
  omega

theorem open_kept {w w' : World} {spool : HostAdmissionSpool} {rt : SpoolOpenReport}
    (h : HostAdmissionSpool.open sha256 bounds w = .ok (spool, rt) w')
    (hh : rt.integrity = .healthy) : Kept spool ∧ spool.bounds = bounds := by
  simp only [HostAdmissionSpool.open, Stateful.bind_eq_ok, lift_eq_ok, Prod.exists] at h
  obtain ⟨⟨⟩, w0, ⟨hb, -⟩, start, w1, -, ⟨⟩, w2, ⟨hm, -⟩, found, w3, -, scanned, w4, ⟨hscan, -⟩,
    quarantine, cut, w5, -, settled, truncated, w6, hsettle, clearIntent, w7, -, recovery, w8,
      ⟨hrecover, -⟩,
    ⟨⟩, w9, -, done, w10, -, h⟩ := h
  cases h
  have hs := scanRecords_ok hscan
  obtain ⟨hrec, hn⟩ := recoverPending_eq_ok hrecover
  obtain ⟨hc, hseq⟩ := settleTail_eq_ok hsettle
  have hw : settled.committedThrough < settled.nextSeq := by
    rw [hc, hseq]; exact validateMeta_watermark hm
  have hh : settled.integrity = .healthy := hh
  rw [judgeTail_records] at hrec hn
  have hsub : recovery.pending.Sublist scanned.records := hrec.pending ▸ filter_sublist
  have ha : ∀ r ∈ recovery.pending, settled.committedThrough < r.seq := by
    intro r hr
    rw [hrec.pending] at hr
    have hl := (mem_filter.mp hr).2
    rw [live, Bool.and_eq_true, decide_eq_true_eq] at hl; exact hl.1
  exact ⟨⟨validBounds_of_ok hb, hs.ordered.sublist hsub,
    fun r hr => hs.sized r (hsub.subset hr), recoverNextSeq_watermark hw hn, ha,
    fun r hr => recoverNextSeq_above hh hn (hsub.subset hr) (ha r hr), hrec.bytes,
    hrec.usage, hrec.within⟩, rfl⟩

end TraceDecay.Admission
