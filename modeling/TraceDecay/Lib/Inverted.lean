import TraceDecay.Lib.OrdMap

/-!
# Lib.Inverted

Inverted lists over numbered items. Every item has values under some keys, at most one under each;
the postings of a key are the numbers of the items that have it, ascending, with their values.
-/

universe u v w

namespace Inverted

/-- The values of one key, in order. -/
def valuesOf {κ : Type u} {ν : Type v} [LinearOrder κ] (k : κ) (es : List (κ × ν)) : List ν :=
  (es.filter fun e => e.1 = k).map Prod.snd

section Values

variable {κ : Type u} {ν : Type v} [LinearOrder κ] {k : κ} {v : ν}

@[simp] theorem valuesOf_append (k : κ) (a b : List (κ × ν)) :
    valuesOf k (a ++ b) = valuesOf k a ++ valuesOf k b := by
  simp [valuesOf]

theorem mem_valuesOf {es : List (κ × ν)} : v ∈ valuesOf k es ↔ (k, v) ∈ es := by
  simp [valuesOf]

end Values

variable {δ : Type u} {κ : Type v} {ν : Type w} {occ : δ → List (κ × ν)}

/-- A list of numbered things in the order of their numbers. -/
abbrev Ascending {α : Type*} (l : List (Nat × α)) : Prop := l.Pairwise fun a b => a.1 < b.1

/-- The values of numbered items, under their keys. -/
def entries (occ : δ → List (κ × ν)) (items : List (Nat × δ)) : List (κ × (Nat × ν)) :=
  items.flatMap fun item => (occ item.2).map fun o => (o.1, (item.1, o.2))

variable {it : List (Nat × δ)} {i : Nat} {k : κ} {v : ν}

theorem mem_entries : (k, (i, v)) ∈ entries occ it ↔ ∃ d, (i, d) ∈ it ∧ (k, v) ∈ occ d := by
  simp only [entries, List.mem_flatMap, List.mem_map, Prod.exists, Prod.mk.injEq]
  constructor
  · rintro ⟨j, d, hi, k', v', hocc, rfl, rfl, rfl⟩; exact ⟨d, hi, hocc⟩
  · rintro ⟨d, hi, hocc⟩; exact ⟨i, d, hi, k, v, hocc, rfl, rfl, rfl⟩

variable [LinearOrder κ]

def postings (occ : δ → List (κ × ν)) (items : List (Nat × δ)) (k : κ) : List (Nat × ν) :=
  valuesOf k (entries occ items)

theorem mem_postings : (i, v) ∈ postings occ it k ↔ ∃ d, (i, d) ∈ it ∧ (k, v) ∈ occ d :=
  mem_valuesOf.trans mem_entries

theorem postings_ascending (hocc : ∀ d, ((occ d).map Prod.fst).Nodup)
    (hitems : Ascending it) (k : κ) : Ascending (postings occ it k) := by
  induction it with
  | nil => exact .nil
  | cons item it ih =>
    obtain ⟨i, d⟩ := item
    obtain ⟨hf, hr⟩ := List.pairwise_cons.mp hitems
    have hs : postings occ ((i, d) :: it) k =
        valuesOf k ((occ d).map fun o => (o.1, (i, o.2))) ++ postings occ it k := by
      simp [postings, entries]
    rw [hs]
    refine List.pairwise_append.mpr ⟨?_, ih hr, ?_⟩
    · -- one item has one value under a key
      have hk : ((occ d).map fun o => (o.1, (i, o.2))).Pairwise fun a b => a.1 ≠ b.1 :=
        List.pairwise_map.mpr (List.pairwise_map.mp (hocc d))
      refine List.pairwise_map.mpr ?_
      refine (hk.filter _).imp_of_mem fun ha hb hne => absurd ?_ hne
      have ha' := (List.mem_filter.mp ha).2
      have hb' := (List.mem_filter.mp hb).2
      exact (of_decide_eq_true ha').trans (of_decide_eq_true hb').symm
    · rintro ⟨i', v⟩ hh ⟨j, w⟩ ht
      obtain ⟨d', hd', -⟩ := mem_postings.mp ht
      have hi : i' = i := by
        obtain ⟨o, -, ho⟩ := List.mem_map.mp (mem_valuesOf.mp hh)
        exact (congrArg (fun e => e.2.1) ho).symm
      rw [hi]; exact hf _ hd'

end Inverted
