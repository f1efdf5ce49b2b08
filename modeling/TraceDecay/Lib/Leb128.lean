import Mathlib.Data.Nat.Bitwise
import Mathlib.Tactic.Ring

/-!
# Lib.Leb128

Canonical LEB128 of 64-bit numbers: seven bits a byte, the lowest first, the high bit set on every
byte but the last, and no last byte of zero behind another. `take` reads one number off the front
of a byte string; the ways it can fail are named by the caller.

* `take_encode`: what was written is read back, whatever follows it.
* `take_eq_ok`: what is read is what the writer writes for it.
-/

namespace Leb128

/-- One byte a turn, at most `n` turns before the last. -/
def encodeFrom : Nat → Nat → List UInt8
  | 0, value => [UInt8.ofNat value]
  | n + 1, value =>
    if 0x80 ≤ value then UInt8.ofNat (value % 0x80 + 0x80) :: encodeFrom n (value / 0x80)
    else [UInt8.ofNat value]

/-- A 64-bit number takes at most ten bytes. -/
def encode (value : Nat) : List UInt8 := encodeFrom 9 value

/-- What a reader reports of bytes that are no number. -/
structure Faults (ε : Type) where
  (truncated tooLong overflow padded : ε)

/-- The bytes from `ordinal` on, with `value` read off those before. -/
def takeFrom {ε : Type} (faults : Faults ε) (ordinal value : Nat) :
    List UInt8 → Except ε (Nat × List UInt8)
  | [] => .error faults.truncated
  | byte :: rest =>
    let payload := byte.toNat % 0x80
    if 9 < ordinal then .error faults.tooLong
    else if ordinal = 9 ∧ 1 < payload then .error faults.overflow
    else
      let value := value ||| payload <<< (7 * ordinal)
      if byte.toNat < 0x80 then
        if 0 < ordinal ∧ byte = 0 then .error faults.padded else .ok (value, rest)
      else takeFrom faults (ordinal + 1) value rest

def take {ε : Type} (faults : Faults ε) (bytes : List UInt8) : Except ε (Nat × List UInt8) :=
  takeFrom faults 0 0 bytes

variable {ε : Type} {faults : Faults ε}

/-- The bound on what the bytes from `ordinal` on may hold. -/
def room (ordinal : Nat) : Nat := 2 ^ (64 - 7 * ordinal)

variable {ordinal value : Nat}

theorem room_succ (h : ordinal < 9) : room ordinal = room (ordinal + 1) * 0x80 := by
  unfold room
  rw [show 64 - 7 * ordinal = 64 - 7 * (ordinal + 1) + 7 by omega, Nat.pow_add]

theorem room_nine : room 9 = 2 := rfl

theorem or_shiftLeft (h : value < 2 ^ (7 * ordinal)) (payload : Nat) :
    value ||| payload <<< (7 * ordinal) = value + payload * 2 ^ (7 * ordinal) := by
  rw [Nat.lor_comm, ← Nat.shiftLeft_add_eq_or_of_lt h, Nat.shiftLeft_eq, Nat.add_comm]

theorem or_shiftLeft_lt {p : Nat} (h : value < 2 ^ (7 * ordinal)) (hp : p < 0x80) :
    value + p * 2 ^ (7 * ordinal) < 2 ^ (7 * (ordinal + 1)) := by
  have hpow : 2 ^ (7 * (ordinal + 1)) = 0x80 * 2 ^ (7 * ordinal) := by ring
  have hle : p * 2 ^ (7 * ordinal) ≤ 0x7F * 2 ^ (7 * ordinal) := Nat.mul_le_mul_right _ (by omega)
  omega

theorem shift_split (acc low high ordinal : Nat) :
    acc + low * 2 ^ (7 * ordinal) + high * 2 ^ (7 * (ordinal + 1)) =
      acc + (low + 0x80 * high) * 2 ^ (7 * ordinal) := by
  ring

variable {acc : Nat} {byte : UInt8} {n : Nat}

theorem takeFrom_more (hacc : acc < 2 ^ (7 * ordinal)) (ho : ordinal < 9)
    (hb : 0x80 ≤ byte.toNat) (rest : List UInt8) :
    takeFrom faults ordinal acc (byte :: rest) =
      takeFrom faults (ordinal + 1) (acc + byte.toNat % 0x80 * 2 ^ (7 * ordinal)) rest := by
  rw [takeFrom]
  rw [if_neg (by omega), if_neg (by omega), if_neg (by omega), or_shiftLeft hacc]

theorem takeFrom_ofNat (hacc : acc < 2 ^ (7 * ordinal)) (ho : ordinal ≤ 9) (hs : value < 0x80)
    (hl : ordinal = 9 → value ≤ 1) (hpos : 0 < ordinal → 0 < value) (rest : List UInt8) :
    takeFrom faults ordinal acc (UInt8.ofNat value :: rest) =
      .ok (acc + value * 2 ^ (7 * ordinal), rest) := by
  have hb : (UInt8.ofNat value).toNat = value := by simp only [UInt8.toNat_ofNat']; omega
  have hz : 0 < ordinal → UInt8.ofNat value ≠ 0 := fun h hz =>
    (hpos h).ne' (hb ▸ congrArg UInt8.toNat hz)
  simp only [takeFrom, hb, Nat.mod_eq_of_lt hs]
  rw [if_neg (by omega), if_neg (by omega), if_pos hs, if_neg fun h => hz h.1 h.2, or_shiftLeft hacc]

theorem takeFrom_encodeFrom (hn : ordinal + n = 9) (hacc : acc < 2 ^ (7 * ordinal))
    (hv : value < room ordinal) (hpos : 0 < ordinal → 0 < value) (rest : List UInt8) :
    takeFrom faults ordinal acc (encodeFrom n value ++ rest) =
      .ok (acc + value * 2 ^ (7 * ordinal), rest) := by
  induction n generalizing ordinal acc value with
  | zero =>
    obtain rfl : ordinal = 9 := by omega
    rw [room_nine] at hv; exact takeFrom_ofNat hacc (by omega) (by omega) (by omega) hpos rest
  | succ n ih =>
    rw [encodeFrom]
    split
    · next hl =>
      have hb : (UInt8.ofNat (value % 0x80 + 0x80)).toNat = value % 0x80 + 0x80 := by
        simp only [UInt8.toNat_ofNat']; omega
      have hh : value / 0x80 < room (ordinal + 1) := by rw [room_succ (by omega)] at hv; omega
      have ha' := or_shiftLeft_lt hacc (Nat.mod_lt value (by decide : 0 < 0x80))
      rw [List.cons_append, takeFrom_more hacc (by omega) (by omega), hb,
        show (value % 0x80 + 0x80) % 0x80 = value % 0x80 by omega,
        ih (by omega) ha' hh (by omega), shift_split, Nat.mod_add_div]
    · exact takeFrom_ofNat hacc (by omega) (by omega) (by omega) hpos rest

theorem encodeFrom_small (h : value < 0x80) : encodeFrom n value = [UInt8.ofNat value] := by
  cases n with
  | zero => rfl
  | succ n => exact if_neg (by omega)

theorem takeFrom_eq_ok {b rest : List UInt8} {r : Nat} (hacc : acc < 2 ^ (7 * ordinal))
    (ho : ordinal ≤ 9) (h : takeFrom faults ordinal acc b = .ok (r, rest)) :
    ∃ value, r = acc + value * 2 ^ (7 * ordinal) ∧ value < room ordinal ∧
      (0 < ordinal → 0 < value) ∧ b = encodeFrom (9 - ordinal) value ++ rest := by
  induction b generalizing ordinal acc with
  | nil => cases h
  | cons byte b ih =>
    have hbyte := UInt8.toNat_lt byte
    by_cases hs : byte.toNat < 0x80
    · -- the last byte: it is the number left to write
      have hp : byte.toNat % 0x80 = byte.toNat := Nat.mod_eq_of_lt hs
      simp only [takeFrom, hp] at h
      rw [if_neg (by omega)] at h
      split at h
      · cases h
      next hlast =>
      split at h
      · cases h
      next hpad =>
      cases h
      refine ⟨byte.toNat, or_shiftLeft hacc _, ?_, ?_, ?_⟩
      · by_cases hn : ordinal = 9
        · subst hn; rw [room_nine]; omega
        · have hroom : 0 < room (ordinal + 1) := Nat.two_pow_pos _; rw [room_succ (by omega)]; omega
      · intro hpos; refine Nat.pos_of_ne_zero fun hz => hpad ⟨hpos, ?_⟩; exact UInt8.toNat_inj.mp hz
      · rw [encodeFrom_small hs, UInt8.ofNat_toNat]; rfl
    · by_cases hn : ordinal = 9
      · -- an eleventh byte is never reached
        simp only [takeFrom] at h
        rw [if_neg (by omega)] at h
        split at h
        · cases h
        cases b with
        | nil => cases h
        | cons _ _ => simp only [takeFrom] at h; rw [if_pos (by omega)] at h; cases h
      · rw [takeFrom_more hacc (by omega) (by omega)] at h
        have ha' := or_shiftLeft_lt hacc (Nat.mod_lt byte.toNat (by decide : 0 < 0x80))
        obtain ⟨high, hr, hroom, hpos, rfl⟩ := ih ha' (by omega) h
        refine ⟨byte.toNat % 0x80 + 0x80 * high, ?_, ?_, by omega, ?_⟩
        · rw [hr, shift_split]
        · rw [room_succ (by omega)]; omega
        · have hlow : (byte.toNat % 0x80 + 0x80 * high) % 0x80 + 0x80 = byte.toNat := by omega
          have hh : (byte.toNat % 0x80 + 0x80 * high) / 0x80 = high := by omega
          rw [show 9 - ordinal = 9 - (ordinal + 1) + 1 by omega, encodeFrom, if_pos (by omega), hlow,
            hh, UInt8.ofNat_toNat]
          rfl

theorem take_encode (h : value < 2 ^ 64) (rest : List UInt8) :
    take faults (encode value ++ rest) = .ok (value, rest) := by
  have hread : takeFrom faults 0 0 (encodeFrom 9 value ++ rest) =
      .ok (0 + value * 2 ^ (7 * 0), rest) :=
    takeFrom_encodeFrom rfl (by decide) h (by omega) rest
  simpa [take, encode] using hread

theorem take_eq_ok {b rest : List UInt8} :
    take faults b = .ok (value, rest) ↔ value < 2 ^ 64 ∧ b = encode value ++ rest := by
  constructor
  · intro h
    obtain ⟨v, hv, hr, -, rfl⟩ := takeFrom_eq_ok (by decide) (by decide) h
    obtain rfl : value = v := by simpa using hv
    exact ⟨hr, rfl⟩
  · rintro ⟨hvalue, rfl⟩; exact take_encode hvalue rest

theorem encode_ne_nil (value : Nat) : encode value ≠ [] := by
  unfold encode encodeFrom
  split <;> simp

end Leb128
