import TraceDecay.Canonical.SerializerCorrect

/-!
# Canonical.Streaming

Streaming canonical JSON and writing the JSON value that is built of the data come to the same, for
all data: `streams_serialize` by induction over the data, `streaming_eq_materialised` for every sink
and every state of the pool.
-/

namespace TraceDecay.Canonical

open List

/-! ## Numbers and keys -/

theorem toInt_ofI64 (value : Int64) : (Number.ofI64 value).toInt = value.toInt := by
  unfold Number.ofI64
  split
  · rfl
  rename_i h
  have hn : 0 ≤ value.toInt := by rw [Int64.lt_iff_toInt_lt] at h; exact Int.not_lt.mp h
  have hb : value.toInt = value.toUInt64.toBitVec.toInt := rfl
  rw [hb, BitVec.toInt_eq_toNat_cond] at hn ⊢
  split_ifs with hh
  · rfl
  · omega

theorem keyOfI64_eq (value : Int64) : keyOfI64 value = decimal value.toInt :=
  (writeI64_written value ([] : List UInt8)).bytes_eq

theorem keyOfU64_eq (value : UInt64) : keyOfU64 value = decimal value.toNat :=
  (writeU64_written value ([] : List UInt8)).bytes_eq

theorem mapKey_eq (key : Data) : mapKey key = toKey key := by
  fun_induction mapKey key with
  | case2 value => rw [keyOfI64_eq, Int8.toInt_toInt64, toKey]
  | case3 value => rw [keyOfI64_eq, Int16.toInt_toInt64, toKey]
  | case4 value => rw [keyOfI64_eq, Int32.toInt_toInt64, toKey]
  | case5 value => rw [keyOfI64_eq, toKey]
  | case7 value => rw [keyOfU64_eq, UInt8.toNat_toUInt64, toKey]
  | case8 value => rw [keyOfU64_eq, UInt16.toNat_toUInt64, toKey]
  | case9 value => rw [keyOfU64_eq, UInt32.toNat_toUInt64, toKey]
  | case10 value => rw [keyOfU64_eq, toKey]
  | case20 value ih => rw [ih, toKey]
  | _ => rfl

/-! ## All data -/

section Serialize

variable {token : Str → List (Str × Data) → Except CanonicalError Value}
  {collect : List (Str × Value) → List (Str × Value)} {S : Type} [CanonicalSink S]

theorem streams_writeI64 (value : Int64) : Streams (emit (writeI64 value) : SerializeM S Unit)
      (.ok (render (.number (.ofI64 value)))) := by
  rw [render, toInt_ofI64]; exact streams_emit (writeI64_written value)

theorem streams_writeU64 (value : UInt64) :
    Streams (emit (writeU64 value) : SerializeM S Unit) (.ok (render (.number (.posInt value)))) := by
  exact streams_emit (writeU64_written value)

theorem streams_serializeI128 (value : BitVec 128) :
    Streams (serializeI128 value : SerializeM S Unit)
      (((numberOf value.toInt).map Value.number).map render) := by
  unfold serializeI128 numberOf
  split_ifs
  · exact streams_writeU64 _
  · exact streams_writeI64 _
  · exact streams_throw _

theorem streams_serializeU128 (value : BitVec 128) :
    Streams (serializeU128 value : SerializeM S Unit)
      (((numberOf value.toNat).map Value.number).map render) := by
  have hnot : ¬value.toNat < 2 ^ 64 → ¬(-(2 ^ 63) ≤ (value.toNat : Int) ∧
      (value.toNat : Int) < 2 ^ 63) := by omega
  unfold serializeU128 numberOf
  by_cases h : value.toNat < 2 ^ 64
  · rw [if_pos h, if_pos (by omega), Int.toNat_natCast]; exact streams_writeU64 _
  · rw [if_neg h, if_neg (by omega), if_neg (hnot h)]; exact streams_throw _

theorem streams_bytes (value : List UInt8) :
    Streams (emit (writeItems true (value.map fun byte => writeU64 byte.toUInt64)) :
        SerializeM S Unit)
      (.ok (commas true (renderAll (value.map fun byte => .number (.posInt byte.toUInt64))))) := by
  rw [renderAll_eq, map_map]
  refine streams_emit (writeItems_written value (fun byte _ s => ?_) true)
  exact writeU64_written _ s

theorem streams_writeDelegated (name : Str) (fields : List (Str × Data)) :
    Streams (writeDelegated token name fields : SerializeM S Unit)
      ((token name fields).map render) := by
  intro sink pool
  unfold writeDelegated
  cases h : token name fields with
  | error e => exact rfl
  | ok v => exact ⟨_, rfl, writeCanonical_written v sink⟩

variable {m : SerializeM S Unit} {r : Except CanonicalError Value}

theorem Streams.array {r : Except CanonicalError (List Value)}
    (h : Streams m (r.map fun values => commas true (renderAll values))) :
    Streams (do writeText (text "["); m; writeText (text "]"))
      ((do return Value.array (← r)).map render) := by
  have hw := (h.before (streams_writeText (text "]"))).after (streams_writeText (text "["))
  cases r with
  | error e => exact hw
  | ok values => exact hw

variable (hc : LastWins collect)
include hc

theorem Streams.variant (variant : Str)
    (h : Streams m (r.map fun v => text ":" ++ render v ++ text "\x7d")) :
    Streams (do writeText (text "\x7b"); emit (writeJsonString variant); m)
      ((do let v ← r; return Value.object (collect [(variant, v)])).map render) := by
  have hw := (h.after (streams_emit (writeJsonString_written variant))).after
    (streams_writeText (text "\x7b"))
  cases r with
  | error e => exact hw
  | ok v =>
    change Streams _ (.ok (render (.object (collect [(variant, v)]))))
    have heq : render (.object (collect [(variant, v)])) =
        text "\x7b" ++ (quoted variant ++ (text ":" ++ render v ++ text "\x7d")) := by
      rw [render_singleton hc]; simp only [append_assoc]
    rw [heq]; exact hw

theorem Streams.newtypeVariant (variant : Str) (h : Streams m (r.map render)) : Streams (do
        writeText (text "\x7b")
        emit (writeJsonString variant)
        writeText (text ":")
        m
        writeText (text "\x7d"))
      ((do let v ← r; return Value.object (collect [(variant, v)])).map render) := by
  refine Streams.variant hc variant ?_
  have hv := (h.before (streams_writeText (text "\x7d"))).after (streams_writeText (text ":"))
  cases r with
  | error e => exact hv
  | ok v => exact hv

theorem Streams.tupleVariant (variant : Str) {r : Except CanonicalError (List Value)}
    (h : Streams m (r.map fun values => commas true (renderAll values))) :
    Streams (do
        writeText (text "\x7b")
        emit (writeJsonString variant)
        writeText (text ":[")
        m
        writeText (text "]\x7d"))
      ((do let values ← r; return Value.object (collect [(variant, .array values)])).map
        render) := by
  have hi := (h.before (streams_writeText (text "]\x7d"))).after (streams_writeText (text ":["))
  cases r with
  | error e => exact Streams.variant hc variant (r := .error e) hi
  | ok values =>
    refine Streams.variant hc variant (r := .ok (.array values)) ?_
    have heq : text ":" ++ render (.array values) ++ text "\x7d" =
        text ":[" ++ (commas true (renderAll values) ++ text "]\x7d") := by
      rw [render, show text ":[" = text ":" ++ text "[" from rfl,
        show text "]\x7d" = text "]" ++ text "\x7d" from rfl]
      simp only [append_assoc]
    rw [Except.map, heq]; exact hi

omit hc in
theorem Streams.items {m' : SerializeM S Unit}
    {r' : Except CanonicalError (List Value)} (first : Bool) (h : Streams m (r.map render))
    (h' : Streams m' (r'.map fun values => commas false (renderAll values))) :
    Streams (do separate first; m; m')
      ((do let v ← r; let values ← r'; return v :: values).map fun values =>
        commas first (renderAll values)) := by
  have hi := (h.seq h').after (streams_separate first)
  cases r with
  | error e => exact hi
  | ok v =>
    cases r' with
    | error e => exact hi
    | ok values =>
      change Streams _ (.ok (commas first (renderAll (v :: values))))
      rw [renderAll, commas, append_assoc]; exact hi

variable {m' : EStateM CanonicalError (ObjectWriter × ObjectBufferPool) Unit}
  {r' : Except CanonicalError (List (Str × Value))}

theorem Gathers.object (len : Nat) (h : Gathers m' (r'.map renderEntries)) :
    Streams (writeObject len (text "\x7b") (text "\x7d") m' : SerializeM S Unit)
      ((do return Value.object (collect (← r'))).map render) := by
  have ho := streams_writeObject (S := S) len (text "\x7b") (text "\x7d") h
  cases r' with
  | error e => exact ho
  | ok entries =>
    change Streams _ (.ok (render (.object (collect entries))))
    rw [← objectText_collect hc]; exact ho

/-- The braces of a struct variant are there before and after the writer's own. -/
theorem Gathers.structVariant (variant : Str) (len : Nat)
    (h : Gathers m' (r'.map renderEntries)) :
    Streams (do
        writeText (text "\x7b")
        emit (writeJsonString variant)
        writeText (text ":\x7b")
        writeObject len (text "") (text "\x7d\x7d") m' : SerializeM S Unit)
      ((do
        let entries ← r'
        return Value.object (collect [(variant, .object (collect entries))])).map render) := by
  have ho := (streams_writeObject (S := S) len (text "") (text "\x7d\x7d") h).after
    (streams_writeText (text ":\x7b"))
  cases r' with
  | error e => exact Streams.variant hc variant (r := .error e) ho
  | ok entries =>
    refine Streams.variant hc variant (r := .ok (.object (collect entries))) ?_
    have heq : text ":" ++ render (.object (collect entries)) ++ text "\x7d" =
        text ":\x7b" ++ (text "" ++ entriesText (renderEntries entries) ++ text "\x7d\x7d") := by
      rw [← objectText_collect hc, show text ":\x7b" = text ":" ++ text "\x7b" from rfl,
        show text "\x7d\x7d" = text "\x7d" ++ text "\x7d" from rfl, show text "" = [] from rfl]
      simp only [append_assoc, nil_append]
    rw [Except.map, heq]; exact ho

omit hc

theorem Gathers.entries {m : SerializeM OwnedString Unit} (key : Data)
    (h : Streams m (r.map render)) (h' : Gathers m' (r'.map renderEntries)) :
    Gathers (do ObjectWriter.serializeKey key; ObjectWriter.serializeValue m; m')
      ((do let k ← toKey key; let v ← r; let entries ← r'; return (k, v) :: entries).map
        renderEntries) := by
  have he := (gathers_entry key h).seq h'
  rw [bind_assoc, mapKey_eq] at he
  cases hkey : toKey key with
  | error e => rw [hkey] at he; exact he
  | ok k =>
    rw [hkey] at he
    cases r with
    | error e => exact he
    | ok v =>
      cases r' with
      | error e => exact he
      | ok rest => exact he

theorem Gathers.fields {m : SerializeM OwnedString Unit} (key : Str)
    (h : Streams m (r.map render)) (h' : Gathers m' (r'.map renderEntries)) :
    Gathers (do ObjectWriter.pushEntry key m; m')
      ((do let v ← r; let entries ← r'; return (key, v) :: entries).map renderEntries) := by
  have hf := (gathers_pushEntry key h).seq h'
  cases r with
  | error e => exact hf
  | ok v =>
    cases r' with
    | error e => exact hf
    | ok rest => exact hf

mutual

theorem streams_serialize (hc : LastWins collect) (d : Data) {S : Type} [CanonicalSink S] :
    Streams (serialize token d : SerializeM S Unit) ((toValue token collect d).map render) := by
  cases d <;> rw [serialize, toValue]
  case bool | none | unit | unitStruct => exact streams_writeText _
  case i8 | i16 | i32 | i64 => exact streams_writeI64 _
  case i128 value => exact streams_serializeI128 value
  case u8 | u16 | u32 | u64 => exact streams_writeU64 _
  case u128 value => exact streams_serializeU128 value
  case char | str | unitVariant => exact streams_emit (writeJsonString_written _)
  case bytes value => exact Streams.array (r := .ok _) (streams_bytes value)
  case some value => exact streams_serialize hc value
  case newtypeStruct value => exact streams_serialize hc value
  case newtypeVariant variant value => exact (streams_serialize hc value).newtypeVariant hc variant
  case seq items => exact (streams_serializeItems hc items true).array
  case tuple items => exact (streams_serializeItems hc items true).array
  case tupleStruct items => exact (streams_serializeItems hc items true).array
  case tupleVariant variant items =>
    exact (streams_serializeItems hc items true).tupleVariant hc variant
  case map len entries => exact (gathers_serializeEntries hc entries).object hc _
  case struct name len fields =>
    split
    · exact streams_writeDelegated name fields
    · exact (gathers_serializeFields hc fields).object hc _
  case structVariant variant len fields =>
    exact (gathers_serializeFields hc fields).structVariant hc variant len

theorem streams_serializeItems (hc : LastWins collect) :
    (items : List Data) → (first : Bool) → {S : Type} → [CanonicalSink S] →
      Streams (serializeItems token items first : SerializeM S Unit)
        ((toValues token collect items).map fun values => commas first (renderAll values))
  | [], first, _, _ => by
    rw [serializeItems, toValues]; exact streams_pure
  | item :: items, first, _, _ => by
    rw [serializeItems, toValues]
    exact (streams_serialize hc item).items first
      (streams_serializeItems hc items false)

theorem gathers_serializeEntries (hc : LastWins collect) : (entries : List (Data × Data)) →
    Gathers (serializeEntries token entries) ((toEntries token collect entries).map renderEntries)
  | [] => by
    rw [serializeEntries, toEntries]; exact gathers_pure
  | (key, value) :: entries => by
    rw [serializeEntries, toEntries]
    exact Gathers.entries key (streams_serialize hc value) (gathers_serializeEntries hc entries)

theorem gathers_serializeFields (hc : LastWins collect) : (fields : List (Str × Data)) →
    Gathers (serializeFields token fields) ((toFields token collect fields).map renderEntries)
  | [] => by
    rw [serializeFields, toFields]; exact gathers_pure
  | (key, value) :: fields => by
    rw [serializeFields, toFields]
    exact Gathers.fields key (streams_serialize hc value) (gathers_serializeFields hc fields)

end

end Serialize

/-! ## The outcome -/

def SameBytes {S : Type} [CanonicalSink S] (sink sink1 sink2 : S) : Prop :=
  ∃ bytes, Written sink bytes sink1 ∧ Written sink bytes sink2

/-- Streaming succeeds exactly where a value is built, and then writes what is written of the value:
to any sink, through a buffered sink to any inner one, and whatever is in the pool. -/
theorem streaming_eq_materialised (token : Str → List (Str × Data) → Except CanonicalError Value)
    (collect : List (Str × Value) → List (Str × Value)) (hcollect : LastWins collect)
    (data : Data) :
    (∀ v, toValue token collect data = .ok v →
      (∀ (S : Type) [CanonicalSink S] (sink : S) (pool : ObjectBufferPool),
        ∃ sink' pool', serializeCanonical token data sink pool = .ok () (sink', pool') ∧
          SameBytes sink sink' (writeCanonical v sink)) ∧
      (∀ (S : Type) [CanonicalSink S] (inner : S) (buffer : Str) (pool : ObjectBufferPool),
        ∃ sink' pool', serializeCanonical token data (BufferedSink.withBuffer inner buffer) pool =
            .ok () (sink', pool') ∧
          SameBytes inner sink'.finishReuse.1 (writeCanonical v inner))) ∧
    ∀ e, toValue token collect data = .error e →
      ∀ (S : Type) [CanonicalSink S] (sink : S) (pool : ObjectBufferPool),
        ∃ sink' pool', serializeCanonical token data sink pool = .error e (sink', pool') := by
  refine ⟨fun v hv => ⟨?_, ?_⟩, ?_⟩
  · intro S _ sink pool
    have h : Streams (serialize token data : SerializeM S Unit) _ := streams_serialize hcollect data
    rw [hv] at h
    obtain ⟨sink', pool', hrun, hw⟩ := Streams.run_ok h sink pool
    exact ⟨sink', pool', hrun, render v, hw, writeCanonical_written v sink⟩
  · intro S _ inner buffer pool
    have h : Streams (serialize token data : SerializeM (BufferedSink S) Unit) _ :=
      streams_serialize hcollect data
    rw [hv] at h
    obtain ⟨sink', pool', hrun, hw⟩ := Streams.run_ok h (.withBuffer inner buffer) pool
    exact ⟨sink', pool', hrun, render v, written_buffered hw, writeCanonical_written v inner⟩
  · intro e he S _ sink pool
    have h : Streams (serialize token data : SerializeM S Unit) _ := streams_serialize hcollect data
    rw [he] at h; exact Streams.run_error h sink pool

/-! ## A map with a repeated key -/

/-- A map that keeps its keys in order. -/
def sortedMap (l : List (Str × Value)) : List (Str × Value) :=
  Sorting.lasts entryOrder (Sorting.sortBy entryCmp l)

theorem sortedMap_lastWins : LastWins sortedMap := by
  refine ⟨fun l => ?_, fun l _ => mem_lasts_sortBy l⟩
  have hsorted := Sorting.sortBy_sorted entries_ordersBy l
  refine pairwise_map.mpr ((Sorting.lasts_sorted hsorted).imp fun hlt heq => ?_)
  exact absurd (congrArg keyOrder heq) (ne_of_lt hlt)

def repeatedKeys : Data := .map none
  [(.str (text "b"), .u8 1), (.str (text "a"), .seq [.unit]), (.str (text "b"), .bool true)]

def noToken : Str → List (Str × Data) → Except CanonicalError Value := fun _ _ => .ok .null

theorem streaming_eq_materialised_repeated_keys :
    LastWins sortedMap ∧ ∃ v, toValue noToken sortedMap repeatedKeys = .ok v ∧
      ∃ sink' pool', serializeCanonical noToken repeatedKeys ([] : List UInt8) .empty =
        .ok () (sink', pool') ∧ SameBytes [] sink' (writeCanonical v []) :=
  ⟨sortedMap_lastWins, _, rfl,
    ((streaming_eq_materialised noToken sortedMap sortedMap_lastWins repeatedKeys).1 _ rfl).1
      (List UInt8) [] .empty⟩

end TraceDecay.Canonical
