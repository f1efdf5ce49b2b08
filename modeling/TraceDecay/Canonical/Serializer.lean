import TraceDecay.Canonical.Data
import TraceDecay.Lib.Stateful

/-!
# Canonical.Serializer

The streaming serializer. Scalars, arrays and wrappers with one key go straight to the sink. The
entries of an object are rendered into one buffer, side by side, and written in the order of their
keys when the object ends; of entries with one key the last is written.

The buffers come from a pool and go back to it cleared. An object that fails keeps them.
-/

namespace TraceDecay.Canonical

def pooledValuesCapacityLimit : Nat := 1024 * 1024

def pooledEntriesCapacityLimit : Nat := 4 * 1024

def pooledBufferLimit : Nat := 8

/-- How a vector grows that is to hold `needed` elements. -/
def growTo (least needed capacity : Nat) : Nat :=
  if needed ≤ capacity then capacity else max (max (2 * capacity) needed) least

structure OwnedString where
  bytes : Str
  capacity : Nat

def OwnedString.reserve (s : OwnedString) (additional : Nat) : OwnedString :=
  { s with capacity := growTo 8 (s.bytes.length + additional) s.capacity }

instance : CanonicalSink OwnedString where
  write s chunk := { s.reserve chunk.length with bytes := s.bytes ++ chunk }

structure Range where
  (start stop : Nat)

structure ObjectEntries where
  items : List (Str × Range)
  capacity : Nat

def ObjectEntries.reserve (entries : ObjectEntries) (additional : Nat) : ObjectEntries :=
  { entries with capacity := growTo 4 (entries.items.length + additional) entries.capacity }

def ObjectEntries.push (entries : ObjectEntries) (entry : Str × Range) : ObjectEntries :=
  { entries.reserve 1 with items := entries.items ++ [entry] }

/-- The buffers in the pool are cleared. -/
structure ObjectBufferPool where
  buffers : List (OwnedString × ObjectEntries)
  cleared : ∀ b ∈ buffers, b.1.bytes = [] ∧ b.2.items = []

namespace ObjectBufferPool

def empty : ObjectBufferPool := ⟨[], fun _ h => absurd h List.not_mem_nil⟩

/-- The buffer that was put there last, or a new one. -/
def acquire (pool : ObjectBufferPool) : (OwnedString × ObjectEntries) × ObjectBufferPool :=
  match pool with
  | ⟨[], _⟩ => ((⟨[], 0⟩, ⟨[], 0⟩), empty)
  | ⟨buffer :: buffers, cleared⟩ =>
    (buffer, ⟨buffers, fun b h => cleared b (List.mem_cons_of_mem _ h)⟩)

def release (pool : ObjectBufferPool) (values : OwnedString) (entries : ObjectEntries) :
    ObjectBufferPool :=
  if pool.buffers.length ≥ pooledBufferLimit ∨ values.capacity > pooledValuesCapacityLimit ∨
      entries.capacity > pooledEntriesCapacityLimit then pool
  else
    { buffers := ({ values with bytes := [] }, { entries with items := [] }) :: pool.buffers
      cleared := List.forall_mem_cons.mpr ⟨⟨rfl, rfl⟩, pool.cleared⟩ }

end ObjectBufferPool

/-! ## Keys -/

def keyOfI64 (value : Int64) : Str := writeI64 value ([] : List UInt8)

def keyOfU64 (value : UInt64) : Str := writeU64 value ([] : List UInt8)

/-- The key of a map entry; only what is a string in JSON may be one. -/
def mapKey : Data → Except CanonicalError Str
  | .bool value => .ok (text (if value then "true" else "false"))
  | .i8 value => .ok (keyOfI64 value.toInt64)
  | .i16 value => .ok (keyOfI64 value.toInt64)
  | .i32 value => .ok (keyOfI64 value.toInt64)
  | .i64 value => .ok (keyOfI64 value)
  | .i128 value => .ok (decimal value.toInt)
  | .u8 value => .ok (keyOfU64 value.toUInt64)
  | .u16 value => .ok (keyOfU64 value.toUInt64)
  | .u32 value => .ok (keyOfU64 value.toUInt64)
  | .u64 value => .ok (keyOfU64 value)
  | .u128 value => .ok (decimal value.toNat)
  | .char value => .ok (Utf8.encode [value])
  | .str value => .ok value
  | .bytes _ => .error keyMustBeAString
  | .none => .error keyMustBeAString
  | .some _ => .error keyMustBeAString
  | .unit => .error keyMustBeAString
  | .unitStruct => .error keyMustBeAString
  | .unitVariant variant => .ok variant
  | .newtypeStruct value => mapKey value
  | .newtypeVariant .. => .error keyMustBeAString
  | .seq _ => .error keyMustBeAString
  | .tuple _ => .error keyMustBeAString
  | .tupleStruct _ => .error keyMustBeAString
  | .tupleVariant .. => .error keyMustBeAString
  | .map .. => .error keyMustBeAString
  | .struct .. => .error keyMustBeAString
  | .structVariant .. => .error keyMustBeAString

/-! ## Objects -/

structure ObjectWriter where
  values : OwnedString
  entries : ObjectEntries
  pendingKey : Option Str

namespace ObjectWriter

def new (pool : ObjectBufferPool) (len : Nat) : ObjectWriter × ObjectBufferPool :=
  let ((values, entries), pool) := pool.acquire
  let values := if values.capacity = 0 then values.reserve (len * 32) else values
  let entries := if entries.capacity < len then entries.reserve len else entries
  (⟨values, entries, none⟩, pool)

/-- The value is rendered behind the others, and the entry tells where it is. -/
def pushEntry (key : Str) (value : EStateM CanonicalError (OwnedString × ObjectBufferPool) Unit) :
    EStateM CanonicalError (ObjectWriter × ObjectBufferPool) Unit := fun (writer, pool) =>
  match value (writer.values, pool) with
  | .ok () (values, pool) =>
    let range := ⟨writer.values.bytes.length, values.bytes.length⟩
    .ok () ({ writer with values := values, entries := writer.entries.push (key, range) }, pool)
  | .error e (values, pool) => .error e ({ writer with values := values }, pool)

def serializeKey (key : Data) : EStateM CanonicalError (ObjectWriter × ObjectBufferPool) Unit :=
  fun (writer, pool) =>
    match mapKey key with
    | .ok key => .ok () ({ writer with pendingKey := some key }, pool)
    | .error e => .error e (writer, pool)

def serializeValue (value : EStateM CanonicalError (OwnedString × ObjectBufferPool) Unit) :
    EStateM CanonicalError (ObjectWriter × ObjectBufferPool) Unit := fun (writer, pool) =>
  match writer.pendingKey with
  | some key => pushEntry key value ({ writer with pendingKey := none }, pool)
  | none => .error "serialize_value called before serialize_key" (writer, pool)

variable {S : Type} [CanonicalSink S]

def writeEntry (values : Str) (key : Str) (range : Range) (sink : S) : S :=
  write (write (writeJsonString key sink) (text ":")) (slice values range.start range.stop)

/-- Each entry whose key the next one has too is passed over. -/
def writeEntries (values : Str) : (wroteEntry : Bool) → List (Str × Range) → S → S
  | _, [], sink => sink
  | wroteEntry, (key, range) :: rest, sink =>
    if rest.head?.map (·.1) = some key then writeEntries values wroteEntry rest sink
    else
      let sink := if wroteEntry then write sink (text ",") else sink
      writeEntries values true rest (writeEntry values key range sink)

def finish (writer : ObjectWriter) (first last : Str) (sink : S) (pool : ObjectBufferPool) :
    S × ObjectBufferPool :=
  let items := writer.entries.items
  let items := if keysAreCanonicallyOrdered (items.map (·.1)) then items
    else Sorting.sortBy entryCmp items
  let sink := writeEntries writer.values.bytes false items (write sink first)
  (write sink last, pool.release writer.values { writer.entries with items := items })

end ObjectWriter

/-! ## The serializer -/

variable (token : Str → List (Str × Data) → Except CanonicalError Value)

abbrev SerializeM (S : Type) (α : Type) := EStateM CanonicalError (S × ObjectBufferPool) α

section Sink

variable {S : Type} [CanonicalSink S]

def emit (f : S → S) : SerializeM S Unit := fun (sink, pool) => .ok () (f sink, pool)

def writeText (chunk : Str) : SerializeM S Unit := emit fun sink => write sink chunk

/-- A comma before each element but the first. -/
def separate (first : Bool) : SerializeM S Unit := if first then pure () else writeText (text ",")

/-- An object: its entries go to a writer that comes from the pool. -/
def writeObject (len : Nat) (first last : Str)
    (entries : EStateM CanonicalError (ObjectWriter × ObjectBufferPool) Unit) : SerializeM S Unit :=
  fun (sink, pool) =>
    match entries (ObjectWriter.new pool len) with
    | .ok () (writer, pool) => .ok () (writer.finish first last sink pool)
    | .error e (_, pool) => .error e (sink, pool)

/-- `i128` is narrowed to `u64`, then to `i64`, and else refused. -/
def serializeI128 (value : BitVec 128) : SerializeM S Unit :=
  if 0 ≤ value.toInt ∧ value.toInt < 2 ^ 64 then emit (writeU64 (UInt64.ofNat value.toInt.toNat))
  else if -(2 ^ 63) ≤ value.toInt ∧ value.toInt < 2 ^ 63 then
    emit (writeI64 (Int64.ofInt value.toInt))
  else throw numberOutOfRange

def serializeU128 (value : BitVec 128) : SerializeM S Unit :=
  if value.toNat < 2 ^ 64 then emit (writeU64 (UInt64.ofNat value.toNat))
  else throw numberOutOfRange

/-- A struct that only the builder of values knows is built as a value first. -/
def writeDelegated (name : Str) (fields : List (Str × Data)) : SerializeM S Unit := do
  let value ← Stateful.lift (token name fields)
  emit (writeCanonical value)

end Sink

mutual

def serialize : Data → {S : Type} → [CanonicalSink S] → SerializeM S Unit
  | .bool value, _, _ => writeText (text (if value then "true" else "false"))
  | .i8 value, _, _ => emit (writeI64 value.toInt64)
  | .i16 value, _, _ => emit (writeI64 value.toInt64)
  | .i32 value, _, _ => emit (writeI64 value.toInt64)
  | .i64 value, _, _ => emit (writeI64 value)
  | .i128 value, _, _ => serializeI128 value
  | .u8 value, _, _ => emit (writeU64 value.toUInt64)
  | .u16 value, _, _ => emit (writeU64 value.toUInt64)
  | .u32 value, _, _ => emit (writeU64 value.toUInt64)
  | .u64 value, _, _ => emit (writeU64 value)
  | .u128 value, _, _ => serializeU128 value
  | .char value, _, _ => emit (writeJsonString (Utf8.encode [value]))
  | .str value, _, _ => emit (writeJsonString value)
  | .bytes value, _, _ => do
    writeText (text "[")
    emit (writeItems true (value.map fun byte => writeU64 byte.toUInt64))
    writeText (text "]")
  | .none, _, _ => writeText (text "null")
  | .some value, _, _ => serialize value
  | .unit, _, _ => writeText (text "null")
  | .unitStruct, _, _ => writeText (text "null")
  | .unitVariant variant, _, _ => emit (writeJsonString variant)
  | .newtypeStruct value, _, _ => serialize value
  | .newtypeVariant variant value, _, _ => do
    writeText (text "\x7b")
    emit (writeJsonString variant)
    writeText (text ":")
    serialize value
    writeText (text "\x7d")
  | .seq items, _, _ => do
    writeText (text "[")
    serializeItems items true
    writeText (text "]")
  | .tuple items, _, _ => do
    writeText (text "[")
    serializeItems items true
    writeText (text "]")
  | .tupleStruct items, _, _ => do
    writeText (text "[")
    serializeItems items true
    writeText (text "]")
  | .tupleVariant variant items, _, _ => do
    writeText (text "\x7b")
    emit (writeJsonString variant)
    writeText (text ":[")
    serializeItems items true
    writeText (text "]\x7d")
  | .map len entries, _, _ =>
    writeObject (len.getD 0) (text "\x7b") (text "\x7d") (serializeEntries entries)
  | .struct name len fields, _, _ =>
    if serdeJsonPrivateTokenPrefix <+: name then writeDelegated token name fields
    else writeObject len (text "\x7b") (text "\x7d") (serializeFields fields)
  | .structVariant variant len fields, _, _ => do
    writeText (text "\x7b")
    emit (writeJsonString variant)
    writeText (text ":\x7b")
    writeObject len (text "") (text "\x7d\x7d") (serializeFields fields)

def serializeItems : List Data → (first : Bool) → {S : Type} → [CanonicalSink S] → SerializeM S Unit
  | [], _, _, _ => pure ()
  | item :: items, first, _, _ => do
    separate first
    serialize item
    serializeItems items false

def serializeEntries : List (Data × Data) →
    EStateM CanonicalError (ObjectWriter × ObjectBufferPool) Unit
  | [] => pure ()
  | (key, value) :: entries => do
    ObjectWriter.serializeKey key
    ObjectWriter.serializeValue (serialize value)
    serializeEntries entries

def serializeFields : List (Str × Data) →
    EStateM CanonicalError (ObjectWriter × ObjectBufferPool) Unit
  | [] => pure ()
  | (key, value) :: fields => do
    ObjectWriter.pushEntry key (serialize value)
    serializeFields fields

end

/-- The outcome, what became of the sink, and the pool as it is put back. -/
def serializeCanonical {S : Type} [CanonicalSink S] (value : Data) (sink : S)
    (pool : ObjectBufferPool) : EStateM.Result CanonicalError (S × ObjectBufferPool) Unit :=
  serialize token value (sink, pool)

end TraceDecay.Canonical
