import Mathlib.Data.List.Lex
import TraceDecay.Canonical.SinkCorrect
import TraceDecay.Lib.Stable

/-!
# Canonical.ValueCorrect

The canonical text of a JSON value (`render`), and that a value that is there as a whole is written
as it (`writeCanonical_written`), whatever the order its maps keep.
-/

namespace TraceDecay.Canonical

open List Sorting

/-! ## Keys in order -/

def keyOrder (key : Str) : List Nat := key.map UInt8.toNat

theorem keyOrder_injective : Function.Injective keyOrder :=
  map_injective_iff.mpr fun _ _ h => UInt8.toNat_inj.mp h

theorem strCmp_ne_gt {a b : Str} : strCmp a b ≠ .gt ↔ keyOrder a ≤ keyOrder b := by
  rw [strCmp, le_iff_lt_or_eq, keyOrder_injective.eq_iff]
  change (if keyOrder a < keyOrder b then _ else _) ≠ _ ↔ _
  by_cases hlt : keyOrder a < keyOrder b
  · simp [hlt]
  · by_cases heq : a = b
    · simp [heq]
    · simp [hlt, heq]

def entryOrder {β : Type} (e : Str × β) : List Nat := keyOrder e.1

theorem entries_ordersBy {β : Type} : OrdersBy (entryCmp (β := β)) entryOrder :=
  fun _ _ => strCmp_ne_gt

theorem sortBy_map_value {β γ : Type} (f : β → γ) (l : List (Str × β)) :
    sortBy entryCmp (l.map fun e => (e.1, f e.2)) = (sortBy entryCmp l).map fun e => (e.1, f e.2) :=
  sortBy_map fun _ _ _ _ => rfl

theorem keysAreCanonicallyOrdered_iff {keys : List Str} :
    keysAreCanonicallyOrdered keys = true ↔ keys.Pairwise fun a b => strCmp a b ≠ .gt := by
  fun_induction keysAreCanonicallyOrdered keys with
  | case1 => simp
  | case2 key => simp
  | case3 previous key keys ih =>
    rw [Bool.and_eq_true, decide_eq_true_iff, ih, pairwise_cons (a := previous)]
    refine and_congr_left fun hk => ⟨fun hle => forall_mem_cons.mpr ⟨hle, fun b hb => ?_⟩,
      fun h => h key mem_cons_self⟩
    have hn := (pairwise_cons.mp hk).1 b hb
    rw [strCmp_ne_gt] at hle hn ⊢; exact le_trans hle hn

theorem sorted_entries {β : Type} (entries : List (Str × β)) :
    (if keysAreCanonicallyOrdered (entries.map (·.1)) then entries
      else sortBy entryCmp entries) =
    sortBy entryCmp entries := by
  split
  · rename_i h
    rw [keysAreCanonicallyOrdered_iff, pairwise_map] at h; exact (sortBy_of_sorted h).symm
  · rfl

/-! ## The canonical text -/

def Number.toInt : Number → Int
  | .posInt n => n.toNat
  | .negInt n _ => n.toInt

/-- Items with commas between them, and one before the first if it is not the first. -/
def commas : Bool → List Str → Str
  | _, [] => []
  | first, item :: items => (if first then [] else text ",") ++ item ++ commas false items

def member (key value : Str) : Str := quoted key ++ text ":" ++ value

def objectText (entries : List (Str × Str)) : Str :=
  text "\x7b" ++ commas true ((sortBy entryCmp entries).map fun e => member e.1 e.2) ++ text "\x7d"

mutual

def render : Value → Str
  | .null => text "null"
  | .bool value => text (if value then "true" else "false")
  | .number value => decimal value.toInt
  | .string value => quoted value
  | .array values => text "[" ++ commas true (renderAll values) ++ text "]"
  | .object values => objectText (renderEntries values)

def renderAll : List Value → List Str
  | [] => []
  | value :: values => render value :: renderAll values

def renderEntries : List (Str × Value) → List (Str × Str)
  | [] => []
  | (key, value) :: entries => (key, render value) :: renderEntries entries

end

theorem renderAll_eq (values : List Value) : renderAll values = values.map render := by
  induction values with
  | nil => rfl
  | cons value values ih => rw [renderAll, ih, map_cons]

theorem renderEntries_eq (entries : List (Str × Value)) :
    renderEntries entries = entries.map fun e => (e.1, render e.2) := by
  induction entries with
  | nil => rfl
  | cons entry entries ih =>
    obtain ⟨key, value⟩ := entry
    rw [renderEntries, ih, map_cons]

theorem Value.ind {P : Value → Prop} (null : P .null) (bool : ∀ b, P (.bool b))
    (number : ∀ n, P (.number n)) (string : ∀ s, P (.string s))
    (array : ∀ values, (∀ v ∈ values, P v) → P (.array values))
    (object : ∀ entries, (∀ e ∈ entries, P e.2) → P (.object entries)) (v : Value) : P v :=
  @Value.rec P (fun values => ∀ v ∈ values, P v) (fun entries => ∀ e ∈ entries, P e.2)
    (fun e => P e.2) null bool number string array object
    (fun _ h => absurd h not_mem_nil) (fun _ _ h h' => forall_mem_cons.mpr ⟨h, h'⟩)
    (fun _ h => absurd h not_mem_nil) (fun _ _ h h' => forall_mem_cons.mpr ⟨h, h'⟩)
    (fun _ _ h => h) v

/-! ## Writing it -/

variable {S : Type} [CanonicalSink S]

theorem valueWriters_eq (values : List Value) :
    (valueWriters values : List (S → S)) = values.map writeCanonical := by
  induction values with
  | nil => rfl
  | cons value values ih => rw [valueWriters, ih, map_cons]

theorem memberWriters_eq (entries : List (Str × Value)) :
    (memberWriters entries : List (Str × (S → S))) =
      entries.map fun e => (e.1, writeCanonical e.2) := by
  induction entries with
  | nil => rfl
  | cons entry entries ih =>
    obtain ⟨key, value⟩ := entry
    rw [memberWriters, ih, map_cons]

theorem writeItems_written {α : Type} {write : α → S → S} {bytes : α → Str} (l : List α) :
    (∀ a ∈ l, ∀ s, Written s (bytes a) (write a s)) → ∀ (first : Bool) (s : S),
      Written s (commas first (l.map bytes)) (writeItems first (l.map write) s) := by
  induction l with
  | nil => exact fun _ _ s => .refl s
  | cons a l ih =>
    intro h first s
    have hc : Written s (if first then [] else text ",")
        (if first then s else CanonicalSink.write s (text ",")) := by
      split
      · exact .refl s
      · exact written_write s _
    exact (hc.trans (h a mem_cons_self _)).trans
      (ih (fun b hb => h b (mem_cons_of_mem _ hb)) false _)

theorem writeMember_written {key value : Str} {write : S → S} (h : ∀ s, Written s value (write s))
    (s : S) : Written s (member key value) (writeMember key write s) :=
  ((writeJsonString_written key s).write (text ":")).trans (h _)

theorem writeJsonNumber_written (n : Number) (s : S) :
    Written s (decimal n.toInt) (writeJsonNumber n s) := by
  cases n with
  | posInt n => exact writeU64_written n s
  | negInt n h =>
    have hf : (Number.negInt n h).asI64.filter (· < 0) = some n := by
      rw [Number.asI64, Option.filter_some, if_pos (decide_eq_true h)]
    have hw := writeI64_written n s
    rw [writeI64, if_pos h] at hw
    unfold writeJsonNumber
    rw [hf]; exact hw

theorem writeCanonical_written (v : Value) : ∀ s : S, Written s (render v) (writeCanonical v s) := by
  induction v using Value.ind with
  | null => exact fun s => written_write s _
  | bool b => exact fun s => written_write s _
  | number n => exact writeJsonNumber_written n
  | string value => exact writeJsonString_written value
  | array values ih =>
    intro s
    rw [render, renderAll_eq, writeCanonical, valueWriters_eq]
    exact ((written_write s _).trans (writeItems_written values ih true _)).write _
  | object entries ih =>
    intro s
    rw [render, objectText, renderEntries_eq, writeCanonical]
    simp only [sorted_entries]
    rw [memberWriters_eq, sortBy_map_value, map_map, sortBy_map_value, map_map]
    refine ((written_write s _).trans (writeItems_written _ (fun e he => ?_) true _)).write _
    have hmem : e ∈ entries := (sortBy_perm _ entries).mem_iff.mp he
    exact writeMember_written (ih e hmem)

end TraceDecay.Canonical
