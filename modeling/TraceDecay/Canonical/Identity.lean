import TraceDecay.Canonical.ValueCorrect

/-!
# Canonical.Identity

The canonical text of a value tells what the value is (`writeCanonical_eq_iff`). A text is read back
from its first byte on: a string ends at its quote, an array or an object at its bracket, and a
number before the first byte that is no digit.
-/

namespace TraceDecay.Canonical

open List Sorting

/-- Equal as JSON values: objects are compared as finite maps. -/
inductive Value.Same : Value → Value → Prop
  | null : Same .null .null
  | bool (b : Bool) : Same (.bool b) (.bool b)
  | number (n : Number) : Same (.number n) (.number n)
  | string (s : Str) : Same (.string s) (.string s)
  | array {a b : List Value} (hlen : a.length = b.length) (h : ∀ p ∈ a.zip b, Same p.1 p.2) :
    Same (.array a) (.array b)
  | object {a b : List (Str × Value)} (hkeys : ∀ key, key ∈ a.map (·.1) ↔ key ∈ b.map (·.1))
    (h : ∀ key v w, (key, v) ∈ a → (key, w) ∈ b → Same v w) : Same (.object a) (.object b)

/-- Every object has one entry for a key. -/
inductive Value.Keyed : Value → Prop
  | null : Keyed .null
  | bool (b : Bool) : Keyed (.bool b)
  | number (n : Number) : Keyed (.number n)
  | string (s : Str) : Keyed (.string s)
  | array {a : List Value} (h : ∀ v ∈ a, Keyed v) : Keyed (.array a)
  | object {a : List (Str × Value)} (hkeys : (a.map (·.1)).Nodup) (h : ∀ e ∈ a, Keyed e.2) :
    Keyed (.object a)

/-! ## Strings -/

def byteText (byte : UInt8) : Str := (escapeOf byte).getD [byte]

def escapedBytes : List UInt8 := 0x22 :: 0x5c :: (range 32).map UInt8.ofNat

theorem head_byteText : ∀ b ∈ escapedBytes, (byteText b).head? = some 0x5c := by
  decide +kernel

theorem escapes_apart : ∀ b ∈ escapedBytes, ∀ c ∈ escapedBytes, byteText b <+: byteText c → b = c := by
  decide +kernel

theorem byteText_cases (b : UInt8) : b ∈ escapedBytes ∧ (∃ r, byteText b = 0x5c :: r) ∨
    b ∉ escapedBytes ∧ byteText b = [b] := by
  by_cases hb : b ∈ escapedBytes
  · exact .inl ⟨hb, head?_eq_some_iff.mp (head_byteText b hb)⟩
  · refine .inr ⟨hb, ?_⟩
    simp only [escapedBytes, mem_cons, mem_map, mem_range, not_or, not_exists, not_and] at hb
    obtain ⟨hq, hs, hc⟩ := hb
    have hgt : ¬ b ≤ 0x1f := fun hle =>
      hc b.toNat (Nat.lt_succ_of_le (UInt8.le_iff_toNat_le.mp hle)) UInt8.ofNat_toNat
    rw [byteText, escapeOf, if_neg hq, if_neg hs, if_neg hgt, Option.getD_none]

variable {c : UInt8} {s t : Str} {n : Nat}

theorem byteText_apart {b : UInt8} (h : byteText b <+: byteText c) : b = c := by
  have hslash : 0x5c ∈ escapedBytes := by decide
  rcases byteText_cases b with ⟨hb, r, hr⟩ | ⟨hb, hr⟩
  · rcases byteText_cases c with ⟨hc, -⟩ | ⟨hc, hr'⟩
    · exact escapes_apart b hb c hc h
    · rw [hr, hr', cons_prefix_cons] at h; exact absurd (h.1 ▸ hslash) hc
  · rcases byteText_cases c with ⟨hc, r', hr'⟩ | ⟨hc, hr'⟩
    · rw [hr, hr', cons_prefix_cons] at h; exact absurd (h.1 ▸ hslash) hb
    · rw [hr, hr', cons_prefix_cons] at h; exact h.1

theorem escaped_read {a b : Str} (h : escaped a ++ 0x22 :: s = escaped b ++ 0x22 :: t) :
    a = b ∧ s = t := by
  have hcons : ∀ (c : UInt8) (a s : Str), escaped (c :: a) ++ s = byteText c ++ (escaped a ++ s) :=
    fun c a s => append_assoc ..
  have hquote : ∀ (c : UInt8) (l r : Str), 0x22 :: l ≠ byteText c ++ r := by
    intro c l r heq
    rcases byteText_cases c with ⟨-, r', hr⟩ | ⟨hc, hr⟩
    · rw [hr] at heq; cases heq
    · rw [hr] at heq; exact hc ((cons.inj heq).1 ▸ by decide)
  induction a generalizing b with
  | nil =>
    cases b with
    | nil => exact ⟨rfl, (cons.inj h).2⟩
    | cons d b => exact absurd (h.trans (hcons d b _)) (hquote d _ _)
  | cons c a ih =>
    cases b with
    | nil => exact absurd (h.symm.trans (hcons c a _)) (hquote c _ _)
    | cons d b =>
      rw [hcons, hcons] at h
      have heq : c = d := by
        rcases prefix_or_prefix_of_prefix ⟨_, h⟩ ⟨_, rfl⟩ with hp | hp
        · exact byteText_apart hp
        · exact (byteText_apart hp).symm
      subst heq
      obtain ⟨rfl, rfl⟩ := ih (append_cancel_left h)
      exact ⟨rfl, rfl⟩

/-! ## Numbers -/

def isDigit (byte : UInt8) : Bool := 0x30 ≤ byte && byte ≤ 0x39

/-- What follows a number. -/
def Stops (rest : Str) : Prop := ∀ byte ∈ rest.head?, isDigit byte = false

theorem isDigit_of_mem (h : c ∈ decimalNat n) : isDigit c = true := by
  have hall : ∀ d < 10, isDigit (UInt8.ofNat (0x30 + d)) = true := by decide
  unfold decimalNat at h
  split at h
  · rw [mem_singleton.mp h]; rfl
  · obtain ⟨d, hd, rfl⟩ := mem_map.mp h
    exact hall d (Nat.digits_lt_base (by decide) (mem_reverse.mp hd))

theorem ofDigits_decimalNat (n : Nat) :
    Nat.ofDigits 10 ((decimalNat n).reverse.map fun c => c.toNat - 0x30) = n := by
  unfold decimalNat
  split
  · next h => rw [h]; rfl
  have hd : ∀ d ∈ Nat.digits 10 n, (UInt8.ofNat (0x30 + d)).toNat - 0x30 = d := by
    intro d hd
    have := Nat.digits_lt_base (by decide) hd
    rw [UInt8.toNat_ofNat']; omega
  rw [← map_reverse, reverse_reverse, map_map]
  exact (congrArg _ ((map_congr_left hd).trans (map_id' _))).trans (Nat.ofDigits_digits 10 n)

theorem decimalNat_read {m : Nat} (hs : Stops s) (ht : Stops t)
    (h : decimalNat m ++ s = decimalNat n ++ t) : m = n ∧ s = t := by
  have htake : ∀ (n : Nat) {s : Str}, Stops s →
      (decimalNat n ++ s).takeWhile isDigit = decimalNat n := by
    intro n s hs
    rw [takeWhile_append_of_pos fun c hc => isDigit_of_mem hc]
    cases s with
    | nil => simp
    | cons c s => simp [hs c rfl]
  have heq : decimalNat m = decimalNat n := by
    rw [← htake m hs, h, htake n ht]
  refine ⟨?_, append_cancel_left (heq ▸ h)⟩
  rw [← ofDigits_decimalNat m, heq, ofDigits_decimalNat]

theorem exists_decimalNat (n : Nat) : ∃ c r, decimalNat n = c :: r ∧ isDigit c = true := by
  cases h : decimalNat n with
  | nil =>
    have hn := ofDigits_decimalNat n
    rw [h] at hn
    subst hn; cases h
  | cons c r => exact ⟨c, r, rfl, isDigit_of_mem (h ▸ mem_cons_self)⟩

theorem decimal_read {z w : Int} (hs : Stops s) (ht : Stops t)
    (h : decimal z ++ s = decimal w ++ t) : z = w ∧ s = t := by
  have hm : text "-" = [0x2d] := by decide
  have hminus : ∀ (n : Nat) (l r : Str), 0x2d :: l ≠ decimalNat n ++ r := by
    intro n l r heq
    obtain ⟨c, r', hr, hc⟩ := exists_decimalNat n
    rw [hr] at heq
    rw [← (cons.inj heq).1] at hc; cases hc
  rw [decimal, decimal, hm] at h
  split at h <;> split at h
  · obtain ⟨ha, rfl⟩ := decimalNat_read hs ht (cons.inj h).2; exact ⟨by omega, rfl⟩
  · exact absurd h (hminus _ _ _)
  · exact absurd h.symm (hminus _ _ _)
  · obtain ⟨ha, rfl⟩ := decimalNat_read hs ht h; exact ⟨by omega, rfl⟩

theorem Number.toInt_injective : Function.Injective Number.toInt := by
  rintro (a | ⟨a, ha⟩) (b | ⟨b, hb⟩) h
  · exact congrArg _ (UInt64.toNat_inj.mp (Int.ofNat.inj h))
  · have hneg : b.toInt < 0 := Int64.lt_iff_toInt_lt.mp hb; simp only [toInt] at h; omega
  · have hneg : a.toInt < 0 := Int64.lt_iff_toInt_lt.mp ha; simp only [toInt] at h; omega
  · cases Int64.toInt_inj.mp h; rfl

/-! ## Values -/

theorem commas_read {α : Type} {f : α → Str} {R : α → α → Prop} {close : UInt8}
    (hclose : isDigit close = false) (hcomma : close ≠ 0x2c) (hf : ∀ a, ∃ c r, f a = c :: r ∧
      c ≠ close)
    {l l' : List α} (hread : ∀ a ∈ l, ∀ b ∈ l', ∀ s t, Stops s → Stops t →
      f a ++ s = f b ++ t → R a b ∧ s = t) (first : Bool)
    (h : commas first (l.map f) ++ close :: s = commas first (l'.map f) ++ close :: t) :
    Forall₂ R l l' ∧ s = t := by
  have hc : text "," = [0x2c] := by decide
  have hopen : ∀ (a : α) (l : List α) (first : Bool) (s t : Str),
      close :: s ≠ commas first ((a :: l).map f) ++ t := by
    intro a l first s t heq
    cases first with
    | false => exact hcomma (cons.inj heq).1
    | true =>
      obtain ⟨c, r, hr, hne⟩ := hf a
      simp only [map_cons, commas, hr, if_true, nil_append, cons_append] at heq
      exact hne (cons.inj heq).1.symm
  have hstops : ∀ (l : List α) (s : Str), Stops (commas false (l.map f) ++ close :: s) := by
    intro l s c hh
    cases l with
    | nil => exact Option.some.inj hh ▸ hclose
    | cons a l => exact Option.some.inj hh ▸ rfl
  induction l generalizing l' first with
  | nil =>
    cases l' with
    | nil => exact ⟨.nil, (cons.inj h).2⟩
    | cons b l' => exact absurd h (hopen b l' first s _)
  | cons a l ih =>
    cases l' with
    | nil => exact absurd h.symm (hopen a l first t _)
    | cons b l' =>
      simp only [map_cons, commas, append_assoc, append_cancel_left_eq] at h
      obtain ⟨hab, h⟩ := hread a mem_cons_self b mem_cons_self _ _ (hstops l s) (hstops l' t) h
      obtain ⟨hl, hst⟩ := ih (fun c hc d hd => hread c (mem_cons_of_mem a hc) d
        (mem_cons_of_mem b hd)) false h
      exact ⟨.cons hab hl, hst⟩

def Value.shape : Value → Nat
  | .null => 0
  | .bool _ => 1
  | .number _ => 2
  | .string _ => 3
  | .array _ => 4
  | .object _ => 5

/-- The shape of the value whose text begins with the byte. -/
def shapeOf (byte : UInt8) : Nat :=
  if byte = 0x2d ∨ isDigit byte = true then 2
  else if byte = 0x6e then 0
  else if byte = 0x74 ∨ byte = 0x66 then 1
  else if byte = 0x22 then 3
  else if byte = 0x5b then 4
  else if byte = 0x7b then 5 else 6

theorem exists_render (v : Value) : ∃ c r, render v = c :: r ∧ shapeOf c = v.shape := by
  cases v with
  | null | string | array | object => exact ⟨_, _, rfl, rfl⟩
  | bool b => cases b <;> exact ⟨_, _, rfl, rfl⟩
  | number n =>
    rw [render, decimal]
    split
    · exact ⟨_, _, rfl, rfl⟩
    · obtain ⟨c, r, hr, hc⟩ := exists_decimalNat n.toInt.natAbs; exact ⟨c, r, hr, if_pos (.inr hc)⟩

theorem quoted_append (a s : Str) : quoted a ++ s = 0x22 :: (escaped a ++ 0x22 :: s) := by
  have hq : text "\"" = [0x22] := by decide
  simp [quoted, hq]

theorem same_of_forall₂ {a b : List (Str × Value)} (hb : (b.map (·.1)).Nodup)
    (h : Forall₂ (fun e f => e.1 = f.1 ∧ e.2.Same f.2) (sortBy entryCmp a) (sortBy entryCmp b)) :
    (Value.object a).Same (.object b) := by
  have hpa := sortBy_perm entryCmp a
  have hpb := sortBy_perm entryCmp b
  have hkeys : (sortBy entryCmp a).map (·.1) = (sortBy entryCmp b).map (·.1) :=
    forall₂_eq_eq_eq ▸ forall₂_map_left_iff.mpr (forall₂_map_right_iff.mpr (h.imp fun _ _ he => he.1))
  refine .object (fun key => ?_) fun key v w hv hw => ?_
  · rw [← (hpa.map _).mem_iff, hkeys, (hpb.map _).mem_iff]
  · obtain ⟨⟨i, hi⟩, he⟩ := mem_iff_get.mp (hpa.mem_iff.mpr hv)
    obtain ⟨hk, hs⟩ := h.get hi (h.length_eq ▸ hi)
    rw [he] at hk hs
    rw [inj_on_of_nodup_map hb (hpb.mem_iff.mp (get_mem ..)) hw hk.symm] at hs; exact hs

theorem render_read {x y : Value} (hy : y.Keyed) (hs : Stops s) (ht : Stops t)
    (h : render x ++ s = render y ++ t) : x.Same y ∧ s = t := by
  have hshape : ∀ {x y : Value} {s t : Str}, render x ++ s = render y ++ t → x.shape = y.shape := by
    intro x y s t h
    obtain ⟨c, r, hr, hc⟩ := exists_render x
    obtain ⟨d, r', hr', hd⟩ := exists_render y
    rw [hr, hr'] at h
    rw [← hc, (cons.inj h).1, hd]
  induction x using Value.ind generalizing y s t with
  | null =>
    cases y with
    | null => exact ⟨.null, append_cancel_left h⟩
    | _ => cases hshape h
  | bool b =>
    cases y with
    | bool c =>
      cases b <;> cases c <;> first | exact ⟨.bool _, append_cancel_left h⟩ | cases (cons.inj h).1
    | _ => cases hshape h
  | number n =>
    cases y with
    | number m =>
      obtain ⟨hnm, hread⟩ := decimal_read hs ht h
      exact ⟨Number.toInt_injective hnm ▸ .number n, hread⟩
    | _ => cases hshape h
  | string a =>
    cases y with
    | string b =>
      rw [render, render, quoted_append, quoted_append] at h
      obtain ⟨rfl, hread⟩ := escaped_read (cons.inj h).2
      exact ⟨.string a, hread⟩
    | _ => cases hshape h
  | array a ih =>
    cases y with
    | array b =>
      cases hy with | array hy =>
      simp only [render, renderAll_eq, append_assoc, append_cancel_left_eq] at h
      have hhead : ∀ v, ∃ c r, render v = c :: r ∧ c ≠ 0x5d := by
        intro v
        obtain ⟨c, r, hr, hc⟩ := exists_render v
        refine ⟨c, r, hr, fun heq => ?_⟩
        subst heq
        cases v <;> cases hc
      obtain ⟨hl, hread⟩ := commas_read rfl (by decide) hhead
        (fun v hv w hw _ _ hs ht => ih v hv (hy w hw) hs ht) true h
      exact ⟨.array hl.length_eq fun p hp => (forall₂_iff_zip.mp hl).2 hp, hread⟩
    | _ => cases hshape h
  | object a ih =>
    cases y with
    | object b =>
      cases hy with | object hkeys hy =>
      simp only [render, objectText, renderEntries_eq, sortBy_map_value, map_map, append_assoc,
        append_cancel_left_eq] at h
      have hread : ∀ e ∈ sortBy entryCmp a, ∀ f ∈ sortBy entryCmp b, ∀ s t, Stops s → Stops t →
          member e.1 (render e.2) ++ s = member f.1 (render f.2) ++ t →
          (e.1 = f.1 ∧ e.2.Same f.2) ∧ s = t := by
        intro e he f hf s t hs ht hef
        rw [member, member, append_assoc, append_assoc, append_assoc, append_assoc, quoted_append,
          quoted_append] at hef
        obtain ⟨hk, hef⟩ := escaped_read (cons.inj hef).2
        obtain ⟨hv, hread⟩ := ih e ((sortBy_perm _ a).mem_iff.mp he)
          (hy f ((sortBy_perm _ b).mem_iff.mp hf)) hs ht (append_cancel_left hef)
        exact ⟨⟨hk, hv⟩, hread⟩
      obtain ⟨hl, hread⟩ := commas_read rfl (by decide) (fun e => ⟨_, _, rfl, by decide⟩) hread true h
      exact ⟨same_of_forall₂ hkeys hl, hread⟩
    | _ => cases hshape h

theorem render_eq_of_same {x y : Value} (h : x.Same y) : x.Keyed → y.Keyed → render x = render y := by
  induction h with
  | null | bool | number | string => exact fun _ _ => rfl
  | @array a b hlen h ih =>
    rintro (_ | _ | _ | _ | hx) (_ | _ | _ | _ | hy)
    have heq : a.map render = b.map render := by
      rw [← forall₂_eq_eq_eq, forall₂_map_left_iff, forall₂_map_right_iff, forall₂_iff_zip]
      refine ⟨hlen, fun {v w} hp => ih _ hp (hx v ?_) (hy w ?_)⟩
      · exact (of_mem_zip hp).1
      · exact (of_mem_zip hp).2
    rw [render, render, renderAll_eq, renderAll_eq, heq]
  | @object a b hkeys h ih =>
    rintro (_ | _ | _ | _ | _ | ⟨hnum, hx⟩) (_ | _ | _ | _ | _ | ⟨hnum', hy⟩)
    have hkeyed : ∀ {l : List (Str × Value)}, (l.map (·.1)).Nodup →
        ((renderEntries l).map (·.1)).Nodup := by
      intro l hl
      rw [renderEntries_eq, map_map]; exact hl
    have hp : (renderEntries a).Perm (renderEntries b) := by
      refine (perm_ext_iff_of_nodup (hkeyed hnum).of_map (hkeyed hnum').of_map).mpr fun e => ?_
      rw [renderEntries_eq, renderEntries_eq, mem_map, mem_map]
      constructor
      · rintro ⟨⟨k, v⟩, hv, rfl⟩
        obtain ⟨⟨_, w⟩, hw, rfl⟩ := mem_map.mp ((hkeys k).mp (mem_map.mpr ⟨_, hv, rfl⟩))
        exact ⟨_, hw, by simp [ih _ v w hv hw (hx _ hv) (hy _ hw)]⟩
      · rintro ⟨⟨k, w⟩, hw, rfl⟩
        obtain ⟨⟨_, v⟩, hv, rfl⟩ := mem_map.mp ((hkeys k).mpr (mem_map.mpr ⟨_, hw, rfl⟩))
        exact ⟨_, hv, by simp [ih _ v w hv hw (hx _ hv) (hy _ hw)]⟩
    rw [render, render, objectText, objectText,
      sortBy_eq_of_perm entries_ordersBy hp fun e he f hf hk =>
      inj_on_of_nodup_map (hkeyed hnum) he hf (keyOrder_injective hk)]

/-- A JSON value: its objects are finite maps, its numbers 64-bit integers. -/
abbrev JsonValue := { v : Value // v.Keyed }

/-- Two values are written alike exactly if they are equal as JSON values. -/
theorem writeCanonical_eq_iff (x y : JsonValue) :
    writeCanonical x.1 ([] : List UInt8) = writeCanonical y.1 [] ↔ x.1.Same y.1 := by
  have hbytes : ∀ v : Value, writeCanonical v ([] : List UInt8) = render v :=
    fun v => (writeCanonical_written v _).bytes_eq
  rw [hbytes, hbytes]
  refine ⟨fun h => ?_, fun h => render_eq_of_same h x.2 y.2⟩
  have hstops : Stops [] := fun _ hb => by cases hb
  exact (render_read y.2 hstops hstops (congrArg (· ++ []) h)).1

end TraceDecay.Canonical
