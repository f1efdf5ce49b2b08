import TraceDecay.Canonical.Serializer
import TraceDecay.Canonical.ValueCorrect

/-!
# Canonical.SerializerCorrect

The streaming serializer writes what is written of the JSON value that is built of the same data,
and fails where none is built. `Streams m r` says this of a part of it: the text it writes, or its
error, is `r`. `Gathers m r` says it of the entries of an object.

The serializer sorts the entries and passes over those that come again; the builder's map lets the
last entry of a key win (`LastWins`), and both come to the same text (`objectText_collect`).
-/

namespace TraceDecay.Canonical

open List Sorting
open ObjectWriter (finish new pushEntry serializeKey writeEntries)

open Stateful (Ends bind_of_error bind_of_ok)

/-! ## Parts of the serializer -/

variable {bytes : Str} {m : EStateM CanonicalError (ObjectWriter × ObjectBufferPool) Unit}
  {r : Except CanonicalError (List (Str × Str))} {value : SerializeM OwnedString Unit}

section Streams

variable {S : Type} [CanonicalSink S]

/-- The program writes the text of `r`, or fails with its error. -/
def Streams (m : SerializeM S Unit) (r : Except CanonicalError Str) : Prop :=
  ∀ (sink : S) (pool : ObjectBufferPool), Ends (m (sink, pool))
    (fun _ st => ∃ bytes, r = .ok bytes ∧ Written sink bytes st.1) fun e _ => r = .error e

theorem streams_emit {f : S → S} (h : ∀ s, Written s bytes (f s)) :
    Streams (emit f) (.ok bytes) := fun sink _ => ⟨bytes, rfl, h sink⟩

theorem streams_writeText (chunk : Str) : Streams (writeText chunk : SerializeM S Unit) (.ok chunk) :=
  streams_emit fun s => written_write s chunk

theorem streams_pure : Streams (pure () : SerializeM S Unit) (.ok []) :=
  fun sink _ => ⟨[], rfl, .refl sink⟩

theorem streams_throw (e : CanonicalError) : Streams (throw e : SerializeM S Unit) (.error e) :=
  fun _ _ => rfl

variable {m : SerializeM S Unit} {r : Except CanonicalError Str} {m' : SerializeM S Unit}

theorem Streams.seq {r' : Except CanonicalError Str} (h : Streams m r)
    (h' : Streams m' r') : Streams (do m; m') (do let a ← r; let b ← r'; return a ++ b) := by
  intro sink pool
  obtain ⟨_, ⟨sink', pool'⟩, hrun, a, rfl, ha⟩ | ⟨e, st, hrun, rfl⟩ := (h sink pool).cases
  · rw [bind_of_ok hrun]
    refine (h' sink' pool').mono ?_ ?_
    · rintro _ st ⟨b, rfl, hb⟩; exact ⟨a ++ b, rfl, ha.trans hb⟩
    · rintro e st rfl; rfl
  · rw [bind_of_error hrun]; rfl

theorem Streams.after {a : Str} (h : Streams m r) (hb : Streams m' (.ok a)) :
    Streams (do m'; m) (r.map fun bytes => a ++ bytes) := by
  have hseq := hb.seq h
  cases r with
  | error e => exact hseq
  | ok bytes => exact hseq

theorem Streams.before {b : Str} (h : Streams m r) (ha : Streams m' (.ok b)) :
    Streams (do m; m') (r.map fun bytes => bytes ++ b) := by
  have hseq := h.seq ha
  cases r with
  | error e => exact hseq
  | ok bytes => exact hseq

theorem Streams.run_ok (h : Streams m (.ok bytes)) (sink : S) (pool : ObjectBufferPool) :
    ∃ sink' pool', m (sink, pool) = .ok () (sink', pool') ∧ Written sink bytes sink' := by
  obtain ⟨_, st, hm, _, ⟨⟩, hw⟩ | ⟨e, st, -, ⟨⟩⟩ := (h sink pool).cases
  exact ⟨st.1, st.2, hm, hw⟩

theorem Streams.run_error {e : CanonicalError} (h : Streams m (.error e)) (sink : S)
    (pool : ObjectBufferPool) : ∃ sink' pool', m (sink, pool) = .error e (sink', pool') := by
  obtain ⟨_, st, -, _, ⟨⟩, -⟩ | ⟨e, st, hm, ⟨⟩⟩ := (h sink pool).cases
  exact ⟨st.1, st.2, hm⟩

theorem streams_separate (first : Bool) :
    Streams (separate first : SerializeM S Unit) (.ok (if first then [] else text ",")) := by
  unfold separate
  split
  · exact streams_pure
  · exact streams_writeText _

end Streams

/-! ## The entries of an object -/

def valueAt (values : Str) (range : Range) : Str := slice values range.start range.stop

namespace ObjectWriter

def rendered (writer : ObjectWriter) : List (Str × Str) :=
  writer.entries.items.map fun e => (e.1, valueAt writer.values.bytes e.2)

def Sound (writer : ObjectWriter) : Prop :=
  ∀ e ∈ writer.entries.items, e.2.stop ≤ writer.values.bytes.length

end ObjectWriter

/-- The program adds the entries of `r`, or fails with its error. -/
def Gathers (m : EStateM CanonicalError (ObjectWriter × ObjectBufferPool) Unit)
    (r : Except CanonicalError (List (Str × Str))) : Prop :=
  ∀ (writer : ObjectWriter) (pool : ObjectBufferPool), writer.Sound → Ends (m (writer, pool))
    (fun _ st => ∃ entries, r = .ok entries ∧ st.1.Sound ∧
      st.1.rendered = writer.rendered ++ entries)
    fun e _ => r = .error e

theorem gathers_pure : Gathers (pure ()) (.ok []) :=
  fun _ _ hs => ⟨[], rfl, hs, (append_nil _).symm⟩

theorem Gathers.seq {m' : EStateM CanonicalError (ObjectWriter × ObjectBufferPool) Unit}
    {r' : Except CanonicalError (List (Str × Str))} (h : Gathers m r) (h' : Gathers m' r') :
    Gathers (do m; m') (do let a ← r; let b ← r'; return a ++ b) := by
  intro w pool hs
  obtain ⟨_, ⟨writer', pool'⟩, hrun, a, rfl, hs', ha⟩ | ⟨e, st, hrun, rfl⟩ := (h w pool hs).cases
  · rw [bind_of_ok hrun]
    refine (h' writer' pool' hs').mono ?_ ?_
    · rintro _ st ⟨b, rfl, hs'', hb⟩
      refine ⟨a ++ b, rfl, hs'', ?_⟩
      rw [hb, ha, append_assoc]
    · rintro e st rfl; rfl
  · rw [bind_of_error hrun]; rfl

theorem Written.owned_eq {s s' : OwnedString} (h : Written s bytes s') :
    s'.bytes = s.bytes ++ bytes := by
  refine h.induct (P := fun a t => t.bytes = s.bytes ++ a) (append_nil _).symm ?_
  intro a t chunk ht
  change t.bytes ++ chunk = _
  rw [ht, append_assoc]

theorem slice_append {value more : Str} {start stop : Nat} (h : stop ≤ value.length) :
    slice (value ++ more) start stop = slice value start stop := by
  rw [slice, take_append_of_le_length h, slice]

theorem gathers_pushEntry {r : Except CanonicalError Str} (key : Str) (h : Streams value r) :
    Gathers (pushEntry key value) (r.map fun bytes => [(key, bytes)]) := by
  intro w pool hs
  obtain ⟨_, ⟨values, pool'⟩, hrun, bytes, rfl, hw⟩ | ⟨e, st, hrun, rfl⟩ := (h w.values pool).cases
  swap
  · simp only [pushEntry, hrun]; rfl
  · simp only [pushEntry, hrun]
    have heq : values.bytes = w.values.bytes ++ bytes := hw.owned_eq
    have hl : values.bytes.length = w.values.bytes.length + bytes.length := by
      rw [heq, length_append]
    refine ⟨[(key, bytes)], rfl, ?_, ?_⟩
    · refine forall_mem_append.mpr ⟨fun e he => ?_, forall_mem_singleton.mpr le_rfl⟩
      change e.2.stop ≤ values.bytes.length
      have hle := hs e he
      omega
    · have hold : w.entries.items.map (fun e => (e.1, valueAt values.bytes e.2)) = w.rendered := by
        refine map_congr_left fun e he => ?_
        rw [valueAt, heq, slice_append (hs e he), valueAt]
      have hnew : valueAt values.bytes ⟨w.values.bytes.length, values.bytes.length⟩ = bytes := by
        rw [valueAt, slice_length, heq, drop_left]
      change (w.entries.items ++ [(key, _)]).map
        (fun e : Str × Range => (e.1, valueAt values.bytes e.2)) = _
      rw [map_append, hold, map_singleton, hnew]

theorem gathers_entry {r : Except CanonicalError Str} (key : Data) (h : Streams value r) :
    Gathers (do serializeKey key; ObjectWriter.serializeValue value)
      (do let k ← mapKey key; let bytes ← r; return [(k, bytes)]) := by
  intro w pool hs
  cases hkey : mapKey key with
  | error e =>
    have hrun : serializeKey key (w, pool) = .error e (w, pool) := by
      rw [serializeKey, hkey]
    rw [bind_of_error hrun]; rfl
  | ok k =>
    have hrun : serializeKey key (w, pool) = .ok () ({ w with pendingKey := some k }, pool) := by
      rw [serializeKey, hkey]
    rw [bind_of_ok hrun]
    refine (gathers_pushEntry k h { w with pendingKey := none } pool hs).mono ?_ ?_
    · rintro _ st ⟨entries, heq, hs', hr⟩
      cases r with
      | error e => cases heq
      | ok bytes => cases heq; exact ⟨_, rfl, hs', hr⟩
    · intro e st he
      cases r with
      | error e' => exact he
      | ok bytes => cases he

/-! ## Writing an object -/

section Finish

variable {S : Type} [CanonicalSink S]

theorem lasts_map_value {β γ : Type} (f : β → γ) (l : List (Str × β)) :
    lasts entryOrder (l.map fun e => (e.1, f e.2)) =
      (lasts entryOrder l).map fun e => (e.1, f e.2) :=
  lasts_map (fun _ => rfl) l

theorem writeEntries_written (values : Str) (items : List (Str × Range)) :
    ∀ (wrote : Bool) (s : S), Written s (commas (!wrote) ((lasts entryOrder items).map fun e =>
        member e.1 (valueAt values e.2)))
      (writeEntries values wrote items s) := by
  have he : ∀ (e : Str × Range) (wrote : Bool) (s : S), Written s
      ((if !wrote then [] else text ",") ++ member e.1 (valueAt values e.2))
      (ObjectWriter.writeEntry values e.1 e.2 (if wrote then write s (text ",") else s)) := by
    intro e wrote s
    refine Written.trans ?_ (((writeJsonString_written e.1 _).write (text ":")).write _)
    cases wrote with
    | false => exact .refl s
    | true => exact written_write s _
  induction items with
  | nil => exact fun _ s => .refl s
  | cons e items ih =>
    intro wrote s
    obtain ⟨key, range⟩ := e
    rw [writeEntries]
    cases items with
    | nil =>
      simp only [head?_nil, Option.map_none, reduceCtorEq, if_false, lasts,
        map_cons, map_nil, commas, writeEntries, append_nil]
      exact he (key, range) wrote s
    | cons next items =>
      simp only [head?_cons, Option.map_some, Option.some.injEq]
      by_cases hkey : next.1 = key
      · have hl : lasts entryOrder ((key, range) :: next :: items) =
            lasts entryOrder (next :: items) := if_pos (congrArg keyOrder hkey)
        rw [if_pos hkey, hl]; exact ih wrote s
      · have hl : lasts entryOrder ((key, range) :: next :: items) =
            (key, range) :: lasts entryOrder (next :: items) :=
          if_neg fun h => hkey (keyOrder_injective h)
        rw [if_neg hkey, hl, map_cons, commas]; exact (he (key, range) wrote s).trans (ih true _)

def entriesText (entries : List (Str × Str)) : Str :=
  commas true ((lasts entryOrder (sortBy entryCmp entries)).map fun e => member e.1 e.2)

theorem finish_written (w : ObjectWriter) (first last : Str) (sink : S) (pool : ObjectBufferPool) :
    Written sink (first ++ entriesText w.rendered ++ last) (w.finish first last sink pool).1 := by
  unfold finish
  simp only [sorted_entries]
  have hw := writeEntries_written w.values.bytes
    (sortBy entryCmp w.entries.items) false (write sink first)
  have ht : entriesText w.rendered = commas true ((lasts entryOrder
      (sortBy entryCmp w.entries.items)).map fun e => member e.1 (valueAt w.values.bytes e.2)) := by
    rw [entriesText, ObjectWriter.rendered, sortBy_map_value, lasts_map_value, map_map]; rfl
  rw [ht]; exact ((written_write sink first).trans hw).write last

theorem new_rendered (pool : ObjectBufferPool) (len : Nat) :
    (new pool len).1.Sound ∧ (new pool len).1.rendered = [] := by
  have hi : (new pool len).1.entries.items = [] := by
    have ha : pool.acquire.1.2.items = [] := by
      unfold ObjectBufferPool.acquire
      split
      · rfl
      · rename_i cleared; exact (cleared _ mem_cons_self).2
    unfold new
    simp only
    split
    · exact ha
    · exact ha
  constructor
  · intro e he; rw [hi] at he; cases he
  · rw [ObjectWriter.rendered, hi]; rfl

theorem streams_writeObject (len : Nat) (first last : Str) (h : Gathers m r) :
    Streams (writeObject len first last m : SerializeM S Unit)
      (r.map fun entries => first ++ entriesText entries ++ last) := by
  intro sink pool
  obtain ⟨hs, hr⟩ := new_rendered pool len
  obtain ⟨_, st, hrun, entries, rfl, -, he⟩ | ⟨e, st, hrun, rfl⟩ := (h _ (new pool len).2 hs).cases
  · rw [hr, nil_append] at he
    simp only [writeObject, hrun]
    refine ⟨_, rfl, ?_⟩
    rw [← he]; exact finish_written st.1 first last sink st.2
  · simp only [writeObject, hrun]; rfl

end Finish

/-! ## The map of the builder -/

/-- The sort keeps the entries of one key in their order, so the last of them is the last there
was. -/
theorem mem_lasts_sortBy {e : Str × Value} (l : List (Str × Value)) :
    e ∈ lasts entryOrder (sortBy entryCmp l) ↔
      (l.filter fun a => decide (a.1 = e.1)).getLast? = some e := by
  have hf : (fun a : Str × Value => decide (entryOrder a = entryOrder e)) =
      fun a => decide (a.1 = e.1) :=
    funext fun a => decide_eq_decide.mpr keyOrder_injective.eq_iff
  rw [mem_lasts (sortBy_sorted entries_ordersBy l), filter_sortBy entries_ordersBy, hf]

/-- Entries are inserted one after another, and the last one of a key wins. -/
structure LastWins (collect : List (Str × Value) → List (Str × Value)) : Prop where
  distinct : ∀ l, ((collect l).map (·.1)).Nodup
  mem_iff : ∀ l e, e ∈ collect l ↔ (l.filter fun a => decide (a.1 = e.1)).getLast? = some e

variable {collect : List (Str × Value) → List (Str × Value)}

variable (h : LastWins collect)
include h

theorem lasts_sortBy_eq (l : List (Str × Value)) : lasts entryOrder (sortBy entryCmp l) =
      sortBy entryCmp (collect l) := by
  have hsorted := sortBy_sorted entries_ordersBy l
  have hd : (sortBy entryCmp (collect l)).Pairwise fun a b => a.1 ≠ b.1 := by
    have hp := (sortBy_perm entryCmp (collect l)).map (·.1)
    exact pairwise_map.mp (hp.nodup_iff.mpr (h.distinct l))
  refine eq_of_sorted_of_mem_iff (lasts_sorted hsorted) ?_ ?_
  · refine ((sortBy_sorted entries_ordersBy (collect l)).and hd).imp fun hab => ?_
    exact lt_of_le_of_ne hab.1 fun heq => hab.2 (keyOrder_injective heq)
  · intro e; rw [mem_lasts_sortBy, (sortBy_perm _ (collect l)).mem_iff, h.mem_iff]

/-- What the serializer writes of the entries is the text of the object that is built. -/
theorem objectText_collect (l : List (Str × Value)) :
    text "\x7b" ++ entriesText (renderEntries l) ++ text "\x7d" = render (.object (collect l)) := by
  rw [render, objectText, entriesText, renderEntries_eq, renderEntries_eq, sortBy_map_value,
    lasts_map_value, lasts_sortBy_eq h, sortBy_map_value]

theorem collect_singleton (e : Str × Value) : collect [e] = [e] := by
  have hmem : ∀ a, a ∈ collect [e] ↔ a = e := by
    intro a
    rw [h.mem_iff]
    by_cases ha : e.1 = a.1
    · simp [ha, eq_comm]
    · have hne : a ≠ e := fun heq => ha (heq ▸ rfl); simp [ha, hne]
  have hn : (collect [e]).Nodup := List.Nodup.of_map _ (h.distinct [e])
  have hp : (collect [e]).Perm [e] := (perm_ext_iff_of_nodup hn (nodup_singleton e)).mpr fun a => by
      rw [hmem, mem_singleton]
  exact perm_singleton.mp hp

theorem render_singleton (key : Str) (v : Value) : render (.object (collect [(key, v)])) =
      text "\x7b" ++ quoted key ++ text ":" ++ render v ++ text "\x7d" := by
  rw [collect_singleton h, render, objectText, renderEntries, renderEntries]
  change text "\x7b" ++ (([] ++ member key (render v)) ++ []) ++ text "\x7d" = _
  simp only [member, nil_append, append_nil, append_assoc]

end TraceDecay.Canonical
