import Mathlib.Algebra.Order.BigOperators.Group.List
import TraceDecay.Admission.Spool

/-!
# Admission.Accounts

What a spool keeps in memory. Its accounts are those of its pending records, which stay within the
bounds (`Kept`); a compaction changes nothing of them but the offsets (`Moves`). Nothing here
depends on which writes fail.
-/

namespace TraceDecay.Admission

open Fallible List

/-! ## Records and their frames -/

structure ValidBounds (bounds : SpoolBounds) : Prop where
  record : bounds.maxRecordBytes ≤ u32Max
  source : bounds.maxSourceBytes ≤ u16Max

variable {bounds : SpoolBounds} {l : List SpoolRecord}

theorem validBounds_of_ok (h : validateBounds bounds = .ok ()) : ValidBounds bounds := by
  unfold validateBounds at h
  split at h
  · cases h
  · rename_i hc; exact ⟨by omega, by omega⟩

def framedLenOf (source : String) (payload : Bytes) : Nat :=
  frameHeaderBytes + (sourceBytes source).length + payload.length + checksumBytes

/-- A record that can be framed within the bounds, with the length of its frame. -/
structure Sized (bounds : SpoolBounds) (r : SpoolRecord) : Prop where
  seq_ne_zero : r.seq ≠ 0
  seq_ne_max : r.seq ≠ u64Max
  source : (sourceBytes r.source).length ≤ bounds.maxSourceBytes
  payload : r.payload.length ≤ bounds.maxRecordBytes
  framed : r.framedLen = framedLenOf r.source r.payload

variable (r : SpoolRecord)

def SpoolRecord.stripped : SpoolRecord := { r with fileOffset := 0 }

variable {r : SpoolRecord}

theorem sized_stripped : Sized bounds r.stripped ↔ Sized bounds r :=
  ⟨fun h => { h with }, fun h => { h with }⟩

section Frames

variable (sha256 : Bytes → FixedBytes 32)

def SpoolRecord.frame (r : SpoolRecord) : Bytes :=
  frameBody r.seq (sourceBytes r.source) r.payload ++
    (sha256 (frameBody r.seq (sourceBytes r.source) r.payload)).bytes

theorem length_frameHeader (seq s p : Nat) : (frameHeader seq s p).length = frameHeaderBytes := by
  simp [frameHeader, frameMagic, frameHeaderBytes]

theorem length_frameBody (seq : Nat) (s p : Bytes) :
    (frameBody seq s p).length = frameHeaderBytes + s.length + p.length := by
  simp [frameBody, length_frameHeader, Nat.add_assoc]

theorem length_frame (r : SpoolRecord) :
    (r.frame sha256).length = framedLenOf r.source r.payload := by
  rw [SpoolRecord.frame, length_append, length_frameBody, FixedBytes.length_eq, framedLenOf,
    checksumBytes]

theorem encodeFrame_of_sized (hb : ValidBounds bounds) (h : Sized bounds r) :
    r.encodeFrame sha256 = .ok (r.frame sha256) := by
  have hs := h.source
  have hp := h.payload
  have hsource := hb.source
  have hrecord := hb.record
  rw [SpoolRecord.encodeFrame, encodeFrame, if_neg (not_or.mpr ⟨h.seq_ne_zero, h.seq_ne_max⟩),
    if_neg (by omega), if_neg (by omega)]
  rfl

theorem mapM_encodeFrame (hb : ValidBounds bounds) (h : ∀ r ∈ l, Sized bounds r) :
    l.mapM (SpoolRecord.encodeFrame sha256) = .ok (l.map (SpoolRecord.frame sha256)) := by
  refine mapM_eq_ok.mpr (forall₂_map_right_iff.mpr (forall₂_same.mpr fun r hr => ?_))
  exact encodeFrame_of_sized sha256 hb (h r hr)

theorem rebuilt_stripped (h : ∀ r ∈ l, r.framedLen = framedLenOf r.source r.payload) (o : Nat) :
    (rebuilt o (l.zip (l.map (SpoolRecord.frame sha256)))).map SpoolRecord.stripped =
      l.map SpoolRecord.stripped := by
  induction l generalizing o with
  | nil => rfl
  | cons r l ih =>
    rw [map_cons, zip_cons_cons, rebuilt, map_cons, map_cons,
      ih fun r hr => h r (mem_cons_of_mem _ hr)]
    congr 1
    simp only [SpoolRecord.stripped, length_frame, ← h r mem_cons_self]

end Frames

/-! ## Accounts -/

/-- Records and framed bytes of one source among `l`. -/
def usageOf (source : String) (l : List SpoolRecord) : Nat × Nat :=
  ((l.filter fun r => r.source = source).length,
    ((l.filter fun r => r.source = source).map (·.framedLen)).sum)

variable (s : String)

theorem usageOf_nil : usageOf s [] = (0, 0) := rfl

theorem usageOf_cons (r : SpoolRecord) (l : List SpoolRecord) : usageOf s (r :: l) =
      if r.source = s then ((usageOf s l).1 + 1, (usageOf s l).2 + r.framedLen)
      else usageOf s l := by
  by_cases h : r.source = s
  · simp [usageOf, h, Nat.add_comm]
  · simp [usageOf, h]

theorem usageOf_append (l l' : List SpoolRecord) : usageOf s (l ++ l') =
      ((usageOf s l).1 + (usageOf s l').1, (usageOf s l).2 + (usageOf s l').2) := by
  simp [usageOf]

variable {l' : List SpoolRecord} {u : SourceUsage}

theorem usageOf_perm (h : l.Perm l') (s : String) : usageOf s l = usageOf s l' := by
  have hf := h.filter fun r => r.source = s
  simp only [usageOf, hf.length_eq, (hf.map fun r => r.framedLen).sum_eq]

theorem usageOf_stripped (l : List SpoolRecord) :
    usageOf s (l.map SpoolRecord.stripped) = usageOf s l := by
  induction l with
  | nil => rfl
  | cons r l ih => rw [map_cons, usageOf_cons, usageOf_cons, ih]; rfl

def SourceUsage.Counts (usage : SourceUsage) (l : List SpoolRecord) : Prop :=
  ∀ source, usage.of source = usageOf source l

theorem SourceUsage.counts_empty : SourceUsage.Counts OrdMap.empty [] := fun _ => rfl

theorem SourceUsage.Counts.add (h : u.Counts l) (r : SpoolRecord) :
    (u.add r.source r.framedLen).Counts (l ++ [r]) := by
  intro s
  have hold := h s
  rw [SourceUsage.of] at hold
  rw [usageOf_append, SourceUsage.of, SourceUsage.add, OrdMap.find?_upsert, usageOf_cons,
    usageOf_nil]
  by_cases hs : s = r.source
  · subst hs; rw [if_pos rfl, if_pos rfl, Option.getD_some, hold]; simp
  · rw [if_neg hs, if_neg fun heq => hs heq.symm, hold]; rfl

theorem SourceUsage.Counts.perm (h : u.Counts l) (hp : l.Perm l') : u.Counts l' :=
  fun s => (h s).trans (usageOf_perm hp s)

theorem SourceUsage.Counts.release (h : u.Counts (r :: l)) :
    (HostAdmissionSpool.sourceUsageRelease u r.source r.framedLen).Counts l := by
  have hr := h r.source
  rw [usageOf_cons, if_pos rfl, SourceUsage.of] at hr
  unfold HostAdmissionSpool.sourceUsageRelease
  cases hf : u.find? r.source with
  | none => rw [hf] at hr; cases hr
  | some entry =>
    rw [hf, Option.getD_some] at hr
    subst hr
    intro s
    by_cases hs : s = r.source
    · subst hs
      simp only [Nat.add_sub_cancel]
      split_ifs with hz
      · -- no record of the source is left, so neither are bytes
        have hnil : (l.filter fun r' => r'.source = r.source) = [] := eq_nil_of_length_eq_zero hz
        rw [SourceUsage.of, OrdMap.find?_erase, if_pos rfl, Option.getD_none, usageOf, hnil]; rfl
      · rw [SourceUsage.of, OrdMap.find?_insert, if_pos rfl, Option.getD_some]
    · have ho := h s
      rw [usageOf_cons, if_neg fun heq => hs heq.symm, SourceUsage.of] at ho
      simp only
      split
      · rw [SourceUsage.of, OrdMap.find?_erase, if_neg hs, ho]
      · rw [SourceUsage.of, OrdMap.find?_insert, if_neg hs, ho]

/-- The records fit the bounds, in all and by source. -/
@[mk_iff]
structure Within (bounds : SpoolBounds) (l : List SpoolRecord) : Prop where
  records : l.length ≤ bounds.maxRecords
  bytes : (l.map (·.framedLen)).sum ≤ bounds.maxSpoolBytes
  sourceRecords : ∀ source, (usageOf source l).1 ≤ bounds.maxRecordsPerSource
  sourceBytes : ∀ source, (usageOf source l).2 ≤ bounds.maxSpoolBytesPerSource

theorem Within.sublist (h : Within bounds l) (hl : l'.Sublist l) : Within bounds l' := by
  have hf := fun s : String => hl.filter fun r => r.source = s
  refine ⟨hl.length_le.trans h.records,
    ((hl.map _).sum_le_sum fun _ _ => Nat.zero_le _).trans h.bytes,
    fun s => (hf s).length_le.trans (h.sourceRecords s),
    fun s => (((hf s).map _).sum_le_sum fun _ _ => Nat.zero_le _).trans (h.sourceBytes s)⟩

theorem within_stripped : Within bounds (l.map SpoolRecord.stripped) ↔ Within bounds l := by
  have hb : ((l.map SpoolRecord.stripped).map (·.framedLen)).sum = (l.map (·.framedLen)).sum := by
    rw [map_map]; rfl
  simp only [within_iff, length_map, hb, usageOf_stripped]

structure Kept (s : HostAdmissionSpool) : Prop where
  valid : ValidBounds s.bounds
  ordered : s.pending.Pairwise fun a b => a.seq < b.seq
  sized : ∀ r ∈ s.pending, Sized s.bounds r
  watermark : s.spoolMeta.committedThrough < s.spoolMeta.nextSeq
  above : ∀ r ∈ s.pending, s.spoolMeta.committedThrough < r.seq
  below : ∀ r ∈ s.pending, r.seq < s.spoolMeta.nextSeq
  bytes : s.pendingBytes = (s.pending.map (·.framedLen)).sum
  usage : s.pendingBySource.Counts s.pending
  within : Within s.bounds s.pending

end TraceDecay.Admission
