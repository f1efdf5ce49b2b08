/-!
# Lib.Json

Compact JSON text: values are rendered with no whitespace, fields in the order given. Strings are
escaped as a compact writer escapes them: the quote, the backslash and the control characters.
-/

namespace Json

abbrev Text := List Char

def null : Text := "null".toList

def bool (b : Bool) : Text := if b then "true".toList else "false".toList

def number (n : Int) : Text := (toString n).toList

def hexDigit (n : Nat) : Char := "0123456789abcdef".toList.getD n '0'

def escapeChar (c : Char) : Text :=
  if c = '\x22' then ['\\', '\x22']
  else if c = '\\' then ['\\', '\\']
  else if c = '\x08' then ['\\', 'b']
  else if c = '\x0C' then ['\\', 'f']
  else if c = '\n' then ['\\', 'n']
  else if c = '\x0D' then ['\\', 'r']
  else if c = '\t' then ['\\', 't']
  else if c.toNat < 0x20 then
    ['\\', 'u', '0', '0', hexDigit (c.toNat / 16), hexDigit (c.toNat % 16)]
  else [c]

def string (s : List Char) : Text := '\x22' :: s.flatMap escapeChar ++ ['\x22']

def join : List Text → Text
  | [] => []
  | [item] => item
  | item :: next :: more => item ++ ',' :: join (next :: more)

def array (items : List Text) : Text := '[' :: join items ++ [']']

def field (name : String) (value : Text) : Text := string name.toList ++ ':' :: value

def object (fields : List (String × Text)) : Text :=
  '\x7b' :: join (fields.map fun (name, value) => field name value) ++ ['\x7d']

/-! ## Values -/

/-- A value, with its numbers as they are written. -/
inductive Tree where
  | null
  | bool (value : Bool)
  | number (value : Text)
  | string (value : List Char)
  | array (items : List Tree)
  | object (entries : List (String × Tree))

namespace Tree

mutual

def render : Tree → Text
  | null => Json.null
  | bool value => Json.bool value
  | number value => value
  | string value => Json.string value
  | array items => Json.array (renderItems items)
  | object entries => Json.object (renderEntries entries)

def renderItems : List Tree → List Text
  | [] => []
  | item :: items => render item :: renderItems items

def renderEntries : List (String × Tree) → List (String × Text)
  | [] => []
  | (key, value) :: entries => (key, render value) :: renderEntries entries

end

def get (key : String) : Tree → Option Tree
  | object entries => entries.lookup key
  | _ => none

def asStr : Tree → Option (List Char)
  | string value => some value
  | _ => none

def asArray : Tree → Option (List Tree)
  | array items => some items
  | _ => none

def remove (key : String) : Tree → Tree
  | object entries => object (entries.filter fun entry => entry.1 != key)
  | value => value

def set (value : Tree) (key : String) (member : Tree) : Tree :=
  match value with
  | object entries => object ((key, member) :: entries.filter fun entry => entry.1 != key)
  | value => value

variable {key key' : String}

theorem lookup_filter_of_ne (h : key' ≠ key) (e : List (String × Tree)) :
    (e.filter fun entry => entry.1 != key).lookup key' = e.lookup key' := by
  induction e with
  | nil => rfl
  | cons entry e ih =>
    obtain ⟨name, member⟩ := entry
    by_cases hn : name = key
    · have hne : (key' == name) = false := by simpa [hn] using h
      simp [hn, List.lookup_cons, ih, beq_eq_false_iff_ne.mpr h]
    · cases hkey : key' == name <;> simp [hn, List.lookup_cons, hkey, ih]

@[simp] theorem get_remove_of_ne (h : key' ≠ key) (v : Tree) :
    (v.remove key).get key' = v.get key' := by
  cases v with
  | object entries => exact lookup_filter_of_ne h entries
  | _ => rfl

theorem get_remove_self (key : String) (v : Tree) : (v.remove key).get key = none := by
  cases v with
  | object entries =>
    exact List.lookup_eq_none_iff.mpr fun entry h => bne_comm.trans (List.mem_filter.mp h).2
  | _ => rfl

@[simp] theorem get_set_of_ne (h : key' ≠ key) (m v : Tree) :
    (v.set key m).get key' = v.get key' := by
  cases v with
  | object entries =>
    have hne : (key' == key) = false := beq_eq_false_iff_ne.mpr h
    simp only [set, get, List.lookup_cons, hne]; exact lookup_filter_of_ne h entries
  | _ => rfl

end Tree

theorem join_cons {item : Text} {items : List Text} (h : items ≠ []) :
    join (item :: items) = item ++ ',' :: join items := by
  cases items with
  | nil => exact absurd rfl h
  | cons next more => rfl

theorem join_concat {i : List Text} {item : Text} (h : i ≠ []) :
    join (i ++ [item]) = join i ++ ',' :: item := by
  induction i with
  | nil => exact absurd rfl h
  | cons f i ih =>
    cases i with
    | nil => rfl
    | cons next more =>
      have hs : join (f :: next :: more) = f ++ ',' :: join (next :: more) := rfl
      rw [List.cons_append, join_cons (by simp), ih (by simp), hs, List.append_assoc]; rfl

end Json
