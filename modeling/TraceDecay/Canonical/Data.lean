import Mathlib.Data.Nat.Digits.Defs
import TraceDecay.Canonical.Sink
import TraceDecay.Lib.Sorting

/-!
# Canonical.Data

JSON values and how they are written in canonical form, with the keys of objects in the order of
their bytes and no whitespace; the values that a serializer is given (without floats), and the JSON
value that is built of them.

How the builder keeps the entries of an object is left to its map: `collect` makes of the entries
that are inserted those that the map goes through. What it makes of the structs with a private name
(`token`) is its own affair as well.
-/

namespace TraceDecay.Canonical

inductive Number where
  | posInt (n : UInt64)
  | negInt (n : Int64) (h : n < 0)

namespace Number

def ofI64 (value : Int64) : Number :=
  if h : value < 0 then .negInt value h else .posInt value.toUInt64

def asU64 : Number → Option UInt64
  | posInt n => some n
  | negInt .. => none

def asI64 : Number → Option Int64
  | posInt n => if n.toNat < 0x8000000000000000 then some n.toInt64 else none
  | negInt n _ => some n

end Number

/-- The entries of an object are in the order in which its map goes through them. -/
inductive Value where
  | null
  | bool (value : Bool)
  | number (value : Number)
  | string (value : Str)
  | array (values : List Value)
  | object (values : List (Str × Value))

def strCmp (a b : Str) : Ordering :=
  if a.map UInt8.toNat < b.map UInt8.toNat then .lt else if a = b then .eq else .gt

def entryCmp {β : Type} (a b : Str × β) : Ordering := strCmp a.1 b.1

/-- No key is after the next one. -/
def keysAreCanonicallyOrdered : List Str → Bool
  | [] => true
  | [_] => true
  | previous :: key :: keys =>
    decide (strCmp previous key ≠ .gt) && keysAreCanonicallyOrdered (key :: keys)

variable {S : Type} [CanonicalSink S]

/-- Numbers that are not integers have no place here, so there is no third case. -/
def writeJsonNumber (number : Number) (output : S) : S :=
  match number.asU64 with
  | some value => writeU64 value output
  | none =>
    match number.asI64.filter (· < 0) with
    | some value => writeU64 (unsignedAbs value) (write output (text "-"))
    | none => output

def writeItems : Bool → List (S → S) → S → S
  | _, [], output => output
  | first, item :: items, output =>
    writeItems false items (item (if first then output else write output (text ",")))

def writeMember (key : Str) (value : S → S) (output : S) : S :=
  value (write (writeJsonString key output) (text ":"))

mutual

def writeCanonical : Value → S → S
  | .null, output => write output (text "null")
  | .bool value, output => write output (text (if value then "true" else "false"))
  | .number value, output => writeJsonNumber value output
  | .string value, output => writeJsonString value output
  | .array values, output =>
    write (writeItems true (valueWriters values) (write output (text "["))) (text "]")
  | .object values, output =>
    let members := memberWriters values
    let entries := if keysAreCanonicallyOrdered (members.map (·.1)) then members
      else Sorting.sortBy entryCmp members
    write (writeItems true (entries.map fun entry => writeMember entry.1 entry.2)
      (write output (text "\x7b"))) (text "\x7d")

def valueWriters : List Value → List (S → S)
  | [] => []
  | value :: values => writeCanonical value :: valueWriters values

def memberWriters : List (Str × Value) → List (Str × (S → S))
  | [] => []
  | (key, value) :: values => (key, writeCanonical value) :: memberWriters values

end

/-- The data model; the lengths of maps and structs are hints. -/
inductive Data where
  | bool (value : Bool)
  | i8 (value : Int8)
  | i16 (value : Int16)
  | i32 (value : Int32)
  | i64 (value : Int64)
  | i128 (value : BitVec 128)
  | u8 (value : UInt8)
  | u16 (value : UInt16)
  | u32 (value : UInt32)
  | u64 (value : UInt64)
  | u128 (value : BitVec 128)
  | char (value : Char)
  | str (value : Str)
  | bytes (value : List UInt8)
  | none
  | some (value : Data)
  | unit
  | unitStruct
  | unitVariant (variant : Str)
  | newtypeStruct (value : Data)
  | newtypeVariant (variant : Str) (value : Data)
  | seq (items : List Data)
  | tuple (items : List Data)
  | tupleStruct (items : List Data)
  | tupleVariant (variant : Str) (items : List Data)
  | map (len : Option Nat) (entries : List (Data × Data))
  | struct (name : Str) (len : Nat) (fields : List (Str × Data))
  | structVariant (variant : Str) (len : Nat) (fields : List (Str × Data))

abbrev CanonicalError := String

def keyMustBeAString : CanonicalError := "key must be a string"

def numberOutOfRange : CanonicalError := "number out of range"

def serdeJsonPrivateTokenPrefix : Str := text "$serde_json::private::"

/-! ## Building a value -/

def decimalNat (n : Nat) : Str :=
  if n = 0 then [0x30] else (Nat.digits 10 n).reverse.map fun d => UInt8.ofNat (0x30 + d)

def decimal (n : Int) : Str := if n < 0 then text "-" ++ decimalNat n.natAbs else decimalNat n.natAbs

def toKey : Data → Except CanonicalError Str
  | .bool value => .ok (text (if value then "true" else "false"))
  | .i8 value => .ok (decimal value.toInt)
  | .i16 value => .ok (decimal value.toInt)
  | .i32 value => .ok (decimal value.toInt)
  | .i64 value => .ok (decimal value.toInt)
  | .i128 value => .ok (decimal value.toInt)
  | .u8 value => .ok (decimal value.toNat)
  | .u16 value => .ok (decimal value.toNat)
  | .u32 value => .ok (decimal value.toNat)
  | .u64 value => .ok (decimal value.toNat)
  | .u128 value => .ok (decimal value.toNat)
  | .char value => .ok (Utf8.encode [value])
  | .str value => .ok value
  | .unitVariant variant => .ok variant
  | .newtypeStruct value => toKey value
  | _ => .error keyMustBeAString

/-- A 128-bit number that is no `u64` and no `i64` is refused. -/
def numberOf (n : Int) : Except CanonicalError Number :=
  if 0 ≤ n ∧ n < 2 ^ 64 then .ok (.posInt (UInt64.ofNat n.toNat))
  else if -(2 ^ 63) ≤ n ∧ n < 2 ^ 63 then .ok (.ofI64 (Int64.ofInt n))
  else .error numberOutOfRange

variable (token : Str → List (Str × Data) → Except CanonicalError Value)
  (collect : List (Str × Value) → List (Str × Value))

mutual

def toValue : Data → Except CanonicalError Value
  | .bool value => .ok (.bool value)
  | .i8 value => .ok (.number (.ofI64 value.toInt64))
  | .i16 value => .ok (.number (.ofI64 value.toInt64))
  | .i32 value => .ok (.number (.ofI64 value.toInt64))
  | .i64 value => .ok (.number (.ofI64 value))
  | .i128 value => (numberOf value.toInt).map .number
  | .u8 value => .ok (.number (.posInt value.toUInt64))
  | .u16 value => .ok (.number (.posInt value.toUInt64))
  | .u32 value => .ok (.number (.posInt value.toUInt64))
  | .u64 value => .ok (.number (.posInt value))
  | .u128 value => (numberOf value.toNat).map .number
  | .char value => .ok (.string (Utf8.encode [value]))
  | .str value => .ok (.string value)
  | .bytes value => .ok (.array (value.map fun byte => .number (.posInt byte.toUInt64)))
  | .none => .ok .null
  | .some value => toValue value
  | .unit => .ok .null
  | .unitStruct => .ok .null
  | .unitVariant variant => .ok (.string variant)
  | .newtypeStruct value => toValue value
  | .newtypeVariant variant value => do
    let value ← toValue value
    return .object (collect [(variant, value)])
  | .seq items => do return .array (← toValues items)
  | .tuple items => do return .array (← toValues items)
  | .tupleStruct items => do return .array (← toValues items)
  | .tupleVariant variant items => do
    let values ← toValues items
    return .object (collect [(variant, .array values)])
  | .map _ entries => do return .object (collect (← toEntries entries))
  | .struct name _ fields =>
    if serdeJsonPrivateTokenPrefix <+: name then token name fields
    else do return .object (collect (← toFields fields))
  | .structVariant variant _ fields => do
    let entries ← toFields fields
    return .object (collect [(variant, .object (collect entries))])

def toValues : List Data → Except CanonicalError (List Value)
  | [] => .ok []
  | item :: items => do
    let value ← toValue item
    let values ← toValues items
    return value :: values

def toEntries : List (Data × Data) → Except CanonicalError (List (Str × Value))
  | [] => .ok []
  | (key, value) :: entries => do
    let key ← toKey key
    let value ← toValue value
    let entries ← toEntries entries
    return (key, value) :: entries

def toFields : List (Str × Data) → Except CanonicalError (List (Str × Value))
  | [] => .ok []
  | (key, value) :: fields => do
    let value ← toValue value
    let entries ← toFields fields
    return (key, value) :: entries

end

end TraceDecay.Canonical
