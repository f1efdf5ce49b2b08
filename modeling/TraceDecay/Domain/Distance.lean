import Mathlib.Order.Lattice.Nat

/-!
# Domain.Distance

`edit_distance_within` (`text.rs`): the rows of the edit-distance table one after the other, given
up as soon as a row exceeds the limit. It returns the Levenshtein distance, which is the least
number of edits (`editDistanceWithin_levenshtein`).
-/

namespace TraceDecay.Domain

open List

/-! ## Edits -/

variable {α : Type} [DecidableEq α]

/-- The first list becomes the second by `n` edits, made from left to right. -/
inductive Edits : List α → List α → Nat → Prop
  | nil : Edits [] [] 0
  | replace {a b : List α} {n : Nat} (x y : α) : Edits a b n →
    Edits (a ++ [x]) (b ++ [y]) (n + if x ≠ y then 1 else 0)
  | delete {a b : List α} {n : Nat} (x : α) : Edits a b n → Edits (a ++ [x]) b (n + 1)
  | insert {a b : List α} {n : Nat} (y : α) : Edits a b n → Edits a (b ++ [y]) (n + 1)

def Levenshtein (a b : List α) (d : Nat) : Prop := IsLeast {n | Edits a b n} d

section

variable {a b c : List α} {n : Nat}

theorem Edits.length_le (h : Edits a b n) : a.length ≤ b.length + n ∧ b.length ≤ a.length + n := by
  induction h with
  | nil => simp
  | _ => simp only [length_append, length_singleton]; omega

theorem Edits.cut (h : Edits c b n) (ha : a <+: c) : ∃ b', b' <+: b ∧ ∃ m ≤ n, Edits a b' m := by
  induction h with
  | nil => exact ⟨[], prefix_rfl, 0, le_rfl, prefix_nil.mp ha ▸ .nil⟩
  | replace x y h ih =>
    rcases prefix_concat_iff.mp ha with rfl | ha
    · exact ⟨_, prefix_rfl, _, le_rfl, h.replace x y⟩
    · obtain ⟨b', hb, m, hm, he⟩ := ih ha
      exact ⟨b', hb.trans (prefix_append _ _), m, Nat.le_add_right_of_le hm, he⟩
  | delete x h ih =>
    rcases prefix_concat_iff.mp ha with rfl | ha
    · exact ⟨_, prefix_rfl, _, le_rfl, h.delete x⟩
    · obtain ⟨b', hb, m, hm, he⟩ := ih ha; exact ⟨b', hb, m, Nat.le_succ_of_le hm, he⟩
  | insert y h ih =>
    obtain ⟨b', hb, m, hm, he⟩ := ih ha
    exact ⟨b', hb.trans (prefix_append _ _), m, Nat.le_succ_of_le hm, he⟩

theorem Edits.rebuild (a b : List α) : Edits a b (a.length + b.length) := by
  induction b using reverseRecOn with
  | nil =>
    induction a using reverseRecOn with
    | nil => exact .nil
    | append_singleton a x ih => simpa using ih.delete x
  | append_singleton b y ih => simpa [← Nat.add_assoc] using ih.insert y

theorem exists_levenshtein (a b : List α) : ∃ d, Levenshtein a b d :=
  ⟨_, Nat.sInf_mem ⟨_, .rebuild a b⟩, fun _ => Nat.sInf_le⟩

theorem levenshtein_nil_left (b : List α) : Levenshtein [] b b.length :=
  ⟨by simpa using Edits.rebuild [] b, fun n h => by simpa using h.length_le.2⟩

theorem levenshtein_nil_right (a : List α) : Levenshtein a [] a.length :=
  ⟨Edits.rebuild a [], fun n h => by simpa using h.length_le.1⟩

theorem Levenshtein.step {x y : α} {d u l : Nat} (hd : Levenshtein a b d)
    (hu : Levenshtein a (b ++ [y]) u) (hl : Levenshtein (a ++ [x]) b l) :
    Levenshtein (a ++ [x]) (b ++ [y]) (min (min (d + if x ≠ y then 1 else 0) (u + 1)) (l + 1)) := by
  constructor
  · rcases min_choice (min (d + if x ≠ y then 1 else 0) (u + 1)) (l + 1) with h | h <;> rw [h]
    · rcases min_choice (d + if x ≠ y then 1 else 0) (u + 1) with h | h <;> rw [h]
      · exact hd.1.replace x y
      · exact hu.1.delete x
    · exact hl.1.insert y
  · intro n h
    generalize ha : a ++ [x] = a', hb : b ++ [y] = b' at h
    cases h with
    | nil => simp at ha
    | replace z w h =>
      obtain ⟨rfl, hx⟩ := append_inj' ha rfl
      obtain ⟨rfl, hy⟩ := append_inj' hb rfl
      cases hx
      cases hy
      have := hd.2 h
      omega
    | delete z h => obtain ⟨rfl, hx⟩ := append_inj' ha rfl; have := hu.2 (hb ▸ h); omega
    | insert w h => obtain ⟨rfl, hy⟩ := append_inj' hb rfl; have := hl.2 (ha ▸ h); omega

end

/-! ## The table -/

/-- The rest of a row after the entry `left`, from the rest of the row above. -/
def distanceRow (leftCharacter : α) : Nat → List α → List Nat → List Nat
  | left, rightCharacter :: right, diagonal :: up :: previous =>
    let entry := min (min (diagonal + if leftCharacter ≠ rightCharacter then 1 else 0) (up + 1))
      (left + 1)
    entry :: distanceRow leftCharacter entry right (up :: previous)
  | _, _, _ => []

/-- The last row of the table, unless a row exceeds the limit. -/
def distanceRows (limit : Nat) (right : List α) : Nat → List α → List Nat → Option (List Nat)
  | _, [], previous => some previous
  | leftIndex, leftCharacter :: left, previous =>
    let current := (leftIndex + 1) :: distanceRow leftCharacter (leftIndex + 1) right previous
    if current.min?.any (limit < ·) then none
    else distanceRows limit right (leftIndex + 1) left current

def editDistanceWithin (left right : String) (limit : Nat) : Option Nat :=
  let left := left.toList
  let right := right.toList
  if limit < max left.length right.length - min left.length right.length then none
  else do
    let previous ← distanceRows limit right 0 left (range (right.length + 1))
    previous[right.length]?.filter (· ≤ limit)

/-- The distances of `a` to `p` and to every longer beginning of `p ++ rest`. -/
inductive Row (a : List α) : List α → List α → List Nat → Prop
  | last {p : List α} {d : Nat} : Levenshtein a p d → Row a p [] [d]
  | cons {p rest : List α} {y : α} {d u : Nat} {row : List Nat} : Levenshtein a p d →
    Levenshtein a (p ++ [y]) u → Row a (p ++ [y]) rest (u :: row) →
    Row a p (y :: rest) (d :: u :: row)

variable {a p rest q : List α} {row : List Nat}

theorem row_nil (p rest : List α) : Row [] p rest (range' p.length (rest.length + 1)) := by
  induction rest generalizing p with
  | nil => exact .last (levenshtein_nil_left p)
  | cons y rest ih =>
    have := levenshtein_nil_left (p ++ [y])
    exact .cons (levenshtein_nil_left p) (by simpa using this)
      (by simpa [range'_succ] using ih (p ++ [y]))

theorem Row.next {x : α} {left : Nat} (h : Row a p rest row) (hl : Levenshtein (a ++ [x]) p left) :
    Row (a ++ [x]) p rest (left :: distanceRow x left rest row) := by
  induction h generalizing left with
  | last => exact .last hl
  | cons hd hu _ ih => exact .cons hl (hd.step hu hl) (ih (hd.step hu hl))

theorem Row.get (h : Row a p rest row) (hq : q <+: rest) :
    ∃ d, row[q.length]? = some d ∧ Levenshtein a (p ++ q) d := by
  induction h generalizing q with
  | last hd => obtain rfl := prefix_nil.mp hq; exact ⟨_, rfl, by simpa using hd⟩
  | cons hd _ _ ih =>
    cases q with
    | nil => exact ⟨_, rfl, by simpa using hd⟩
    | cons z q => obtain ⟨rfl, hrest⟩ := cons_prefix_cons.mp hq; simpa using ih hrest

theorem distanceRows_row (limit : Nat) (left : List α) {right : List α} (h : Row a [] right row) :
    (∀ last, distanceRows limit right a.length left row = some last →
      Row (a ++ left) [] right last) ∧
    (distanceRows limit right a.length left row = none →
      ∀ n, Edits (a ++ left) right n → limit < n) := by
  induction left generalizing a row with
  | nil => simpa [distanceRows] using h
  | cons x left ih =>
    have hcur : Row (a ++ [x]) [] right
        ((a.length + 1) :: distanceRow x (a.length + 1) right row) :=
      h.next (by simpa using levenshtein_nil_right (a ++ [x]))
    have hall := append_cons a x left
    rw [distanceRows]
    split
    · next hmin =>
      refine ⟨nofun, fun _ n hn => ?_⟩
      -- the edits of the whole pass through this row
      obtain ⟨b', hb, m, hm, he⟩ := hn.cut ⟨left, hall.symm⟩
      obtain ⟨d, hget, hd⟩ := hcur.get hb
      obtain ⟨k, hk, hlt⟩ := (Option.any_eq_true _ _).mp hmin
      have hle := (min?_eq_some_iff.mp hk).2 d (mem_of_getElem? hget)
      have hdm : d ≤ m := hd.2 he
      exact ((of_decide_eq_true hlt).trans_le hle).trans_le (hdm.trans hm)
    · rw [hall]; simpa using ih hcur

theorem editDistanceWithin_levenshtein (left right : String) (limit : Nat) :
    ∃ d, Levenshtein left.toList right.toList d ∧
      editDistanceWithin left right limit = if d ≤ limit then some d else none := by
  obtain ⟨d, hd⟩ := exists_levenshtein left.toList right.toList
  refine ⟨d, hd, ?_⟩
  obtain ⟨hsome, hnone⟩ := distanceRows_row limit left.toList (row_nil [] right.toList)
  have hlen := hd.1.length_le
  unfold editDistanceWithin
  simp only
  split
  · rw [if_neg (by omega)]
  rw [range_eq_range']
  cases hrows : distanceRows limit right.toList 0 left.toList (range' 0 (right.toList.length + 1))
    with
  | none => exact (if_neg (not_le.mpr (hnone hrows d hd.1))).symm
  | some last =>
    obtain ⟨d', hlast, hd'⟩ := (hsome last hrows).get prefix_rfl
    cases hd.unique hd'; simp [hlast, Option.filter_some]

end TraceDecay.Domain
