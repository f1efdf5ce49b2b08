import TraceDecay.Lib.Utf8

/-!
# Lib.TextCode

Data written as text. Bytes are written as hex, two lowercase digits a byte; reading takes either
case, so that a byte string has several spellings and only the one `Hex.encode` writes is canonical.

A `TextCode` reads back what it wrote whatever text follows it, and codes are put together. Numbers
end with a separator; a list is preceded by its length.
-/

namespace Hex

def digit (n : Nat) : Char := "0123456789abcdef".toList.getD n '0'

def digitValue (c : Char) : Option Nat :=
  if '0' ≤ c ∧ c ≤ '9' then some (c.toNat - '0'.toNat)
  else if 'a' ≤ c ∧ c ≤ 'f' then some (c.toNat - 'a'.toNat + 10)
  else if 'A' ≤ c ∧ c ≤ 'F' then some (c.toNat - 'A'.toNat + 10)
  else none

/-- The two digits one byte is written as, high half first. -/
def pair (b : UInt8) : List Char := [digit (b.toNat / 16), digit (b.toNat % 16)]

def encode (bytes : List UInt8) : List Char := bytes.flatMap pair

def decode : List Char → Option (List UInt8)
  | [] => some []
  | [_] => none
  | high :: low :: rest => do
    let h ← digitValue high
    let l ← digitValue low
    let bytes ← decode rest
    some (UInt8.ofNat (16 * h + l) :: bytes)

theorem digitValue_digit : ∀ n < 16, digitValue (digit n) = some n := by decide

theorem encode_cons (b : UInt8) (bytes : List UInt8) :
    encode (b :: bytes) = digit (b.toNat / 16) :: digit (b.toNat % 16) :: encode bytes := rfl

@[simp] theorem decode_encode (bytes : List UInt8) : decode (encode bytes) = some bytes := by
  induction bytes with
  | nil => rfl
  | cons b bytes ih =>
    have hh : b.toNat / 16 < 16 := by have := b.toNat_lt; omega
    have hlow : b.toNat % 16 < 16 := Nat.mod_lt _ (by omega)
    have hb : 16 * (b.toNat / 16) + b.toNat % 16 = b.toNat := Nat.div_add_mod _ 16
    simp only [encode_cons, decode, digitValue_digit _ hh, digitValue_digit _ hlow, ih,
      Option.bind_eq_bind, Option.bind_some, hb, UInt8.ofNat_toNat]

theorem length_encode (bs : List UInt8) : (encode bs).length = 2 * bs.length := by
  simp [encode, List.length_flatMap, pair, Nat.mul_comm]

theorem mem_encode {c : Char} {bs : List UInt8} (h : c ∈ encode bs) : ∃ n < 16, c = digit n := by
  obtain ⟨b, _, hc⟩ := List.mem_flatMap.mp h
  have hb := b.toNat_lt
  simp only [pair, List.mem_cons, List.not_mem_nil, or_false] at hc
  rcases hc with rfl | rfl
  · exact ⟨_, by omega, rfl⟩
  · exact ⟨_, by omega, rfl⟩

theorem not_mem_encode {c : Char} (hc : digitValue c = none) (bytes : List UInt8) :
    c ∉ encode bytes := by
  intro h
  obtain ⟨n, hn, rfl⟩ := mem_encode h
  rw [digitValue_digit n hn] at hc; cases hc

theorem length_utf8_encode (bs : List UInt8) :
    (Utf8.encode (encode bs)).length = 2 * bs.length := by
  have hd : ∀ n < 16, (String.utf8EncodeChar (digit n)).length = 1 := by decide
  induction bs with
  | nil => rfl
  | cons b bs ih =>
    have hb := b.toNat_lt
    simp only [encode_cons, Utf8.encode_cons, List.length_append, hd (b.toNat / 16) (by omega),
      hd (b.toNat % 16) (by omega), ih, List.length_cons]
    omega

end Hex

universe u v

structure TextCode (α : Type u) where
  write : α → List Char
  read : List Char → Option (α × List Char)
  read_write : ∀ a rest, read (write a ++ rest) = some (a, rest)

namespace TextCode

variable {α : Type u} {β : Type v}

def nat : TextCode Nat where
  write n := Nat.toDigits 10 n ++ [';']
  read text :=
    some (Nat.ofDigitChars 10 (text.takeWhile Char.isDigit) 0, (text.dropWhile Char.isDigit).tail)
  read_write n rest := by
    have hdigits : ∀ c ∈ Nat.toDigits 10 n, c.isDigit = true := fun c hc =>
      Nat.isDigit_of_mem_toDigits (by omega) (by omega) hc
    have hstop : Char.isDigit ';' = false := by decide
    rw [List.append_assoc, List.takeWhile_append_of_pos hdigits,
      List.dropWhile_append_of_pos hdigits]
    simp [hstop]

def char : TextCode Char where
  write c := [c]
  read text := text.head?.map fun c => (c, text.tail)
  read_write _ _ := rfl

def pair (a : TextCode α) (b : TextCode β) : TextCode (α × β) where
  write p := a.write p.1 ++ b.write p.2
  read text := (a.read text).bind fun p => (b.read p.2).map fun q => ((p.1, q.1), q.2)
  read_write p rest := by
    simp [a.read_write, b.read_write]

/-- Code values as the values of another type that they can be recovered from. -/
def via (f : α → β) (g : β → Option α) (h : ∀ a, g (f a) = some a) (code : TextCode β) :
    TextCode α where
  write a := code.write (f a)
  read text := (code.read text).bind fun p => (g p.1).map fun a => (a, p.2)
  read_write a rest := by
    simp [code.read_write, h]

/-- Read a given number of values. -/
def readMany (read : List Char → Option (α × List Char)) :
    Nat → List Char → Option (List α × List Char)
  | 0, text => some ([], text)
  | n + 1, text =>
    (read text).bind fun p => (readMany read n p.2).map fun q => (p.1 :: q.1, q.2)

variable (code : TextCode α)

theorem readMany_write (l : List α) (rest : List Char) :
    readMany code.read l.length (l.flatMap code.write ++ rest) = some (l, rest) := by
  induction l with
  | nil => rfl
  | cons a l ih => simp [readMany, code.read_write, ih]

def list : TextCode (List α) where
  write l := nat.write l.length ++ l.flatMap code.write
  read text := (nat.read text).bind fun p => readMany code.read p.1 p.2
  read_write l rest := by
    rw [List.append_assoc, nat.read_write]; exact readMany_write code l rest

def option : TextCode (Option α) :=
  code.list.via Option.toList (fun l => some l.head?) (by rintro (_ | a) <;> rfl)

def string : TextCode String :=
  char.list.via String.toList (fun l => some (String.ofList l)) (by simp)

def int : TextCode Int :=
  (nat.pair nat).via (fun z => (z.toNat, (-z).toNat)) (fun p => some (p.1 - p.2)) (by
    intro z
    simp only [Option.some.injEq]
    omega)

end TextCode
