import Mathlib.Algebra.GroupWithZero.Nat
import Mathlib.Order.Lattice
import Mathlib.Data.List.Nodup
import Mathlib.Data.List.Pairwise
import Mathlib.Data.List.Induction

/-!
# Lib.OrdMap

Ordered maps as the list of their entries, ascending in the key. Two maps with the same lookups are
equal, so what a map holds does not depend on the order it was filled in.
-/

universe u v

structure OrdMap (κ : Type u) (ν : Type v) [LinearOrder κ] where
  entries : List (κ × ν)
  sorted : entries.Pairwise fun a b => a.1 < b.1

namespace OrdMap

open List

variable {κ : Type u} {ν : Type v} [LinearOrder κ]

def lookup (k : κ) : List (κ × ν) → Option ν
  | [] => none
  | (k', v) :: rest => if k = k' then some v else lookup k rest

variable {l : List (κ × ν)}

theorem lookup_eq_none {k : κ} (h : k ∉ l.map Prod.fst) : lookup k l = none := by
  induction l with
  | nil => rfl
  | cons e l ih =>
    obtain ⟨hf, hr⟩ := ne_and_not_mem_of_not_mem_cons h
    rw [lookup, if_neg hf]; exact ih hr

/-- Update the entry of `k`, or make it in its place. -/
def place (k : κ) (f : Option ν → ν) : List (κ × ν) → List (κ × ν)
  | [] => [(k, f none)]
  | (k', v) :: rest =>
    if k < k' then (k, f none) :: (k', v) :: rest
    else if k = k' then (k, f (some v)) :: rest
    else (k', v) :: place k f rest

theorem fst_of_mem_place {k : κ} {f : Option ν → ν} {e : κ × ν}
    (h : e ∈ place k f l) : e.1 = k ∨ e ∈ l := by
  induction l with
  | nil => simp only [place, mem_singleton] at h; exact .inl (congrArg Prod.fst h)
  | cons first rest ih =>
    obtain ⟨k', v⟩ := first
    unfold place at h
    split_ifs at h
    · rcases mem_cons.mp h with rfl | h
      · exact .inl rfl
      · exact .inr h
    · rcases mem_cons.mp h with rfl | h
      · exact .inl rfl
      · exact .inr (mem_cons_of_mem _ h)
    · rcases mem_cons.mp h with rfl | h
      · exact .inr mem_cons_self
      · exact (ih h).imp_right (mem_cons_of_mem _)

theorem place_sorted (k : κ) (f : Option ν → ν)
    (h : l.Pairwise fun a b => a.1 < b.1) : (place k f l).Pairwise fun a b => a.1 < b.1 := by
  induction l with
  | nil => exact pairwise_singleton _ _
  | cons first rest ih =>
    obtain ⟨k', v⟩ := first
    obtain ⟨hf, hr⟩ := pairwise_cons.mp h
    unfold place
    split
    · rename_i hlt
      exact pairwise_cons.mpr
        ⟨forall_mem_cons.mpr ⟨hlt, fun e he => lt_trans hlt (hf e he)⟩, h⟩
    · split
      · rename_i heq; subst heq; exact pairwise_cons.mpr ⟨hf, hr⟩
      · rename_i hnlt hne
        refine pairwise_cons.mpr ⟨fun e he => ?_, ih hr⟩
        rcases fst_of_mem_place he with hk | he
        · rw [hk]; exact lt_of_le_of_ne (le_of_not_gt hnlt) (Ne.symm hne)
        · exact hf e he

theorem lookup_place (k k' : κ) (f : Option ν → ν) (h : l.Pairwise fun a b => a.1 < b.1) :
    lookup k' (place k f l) = if k' = k then some (f (lookup k l)) else lookup k' l := by
  induction l with
  | nil => simp [place, lookup]
  | cons first rest ih =>
    obtain ⟨k1, v⟩ := first
    obtain ⟨hf, hr⟩ := pairwise_cons.mp h
    unfold place
    split
    · rename_i hlt
      -- no later entry can have the key of the new one
      have hl : lookup k ((k1, v) :: rest) = none := by
        refine lookup_eq_none fun hmem => ?_
        obtain ⟨e, he, heq⟩ := mem_map.mp hmem
        rcases mem_cons.mp he with rfl | he
        · exact ne_of_gt hlt heq
        · exact ne_of_gt (lt_trans hlt (hf e he)) heq
      rw [hl, lookup]
    · split
      · rename_i heq
        subst heq
        by_cases hk : k' = k <;> simp [lookup, hk]
      · rename_i hne
        rw [lookup, ih hr, lookup, lookup, if_neg hne]
        by_cases hk : k' = k
        · simp [hk, hne]
        · simp [hk]

/-! ## Maps -/

def empty : OrdMap κ ν := ⟨[], .nil⟩

variable (m : OrdMap κ ν)

variable (k : κ)

def find? : Option ν := lookup k m.entries

def upsert (f : Option ν → ν) : OrdMap κ ν := ⟨place k f m.entries, place_sorted k f m.sorted⟩

def insert (v : ν) : OrdMap κ ν := m.upsert k fun _ => v

def erase : OrdMap κ ν := ⟨m.entries.filter fun e => e.1 ≠ k, m.sorted.filter _⟩

def contains : Bool := (m.find? k).isSome

def popFirst? : Option (κ × OrdMap κ ν) := m.entries.head?.map fun e => (e.1, m.erase e.1)

/-- Insert the pairs one after the other: the last one of a key stays. -/
def ofList (l : List (κ × ν)) : OrdMap κ ν := l.foldl (fun m e => m.insert e.1 e.2) empty

def keys : List κ := m.entries.map Prod.fst

def values : List ν := m.entries.map Prod.snd

@[simp] theorem find?_empty : (empty : OrdMap κ ν).find? k = none := rfl

@[simp] theorem find?_upsert (k k' : κ) (f : Option ν → ν) :
    (m.upsert k f).find? k' = if k' = k then some (f (m.find? k)) else m.find? k' :=
  lookup_place k k' f m.sorted

@[simp] theorem find?_insert (k k' : κ) (v : ν) :
    (m.insert k v).find? k' = if k' = k then some v else m.find? k' :=
  find?_upsert m k k' _

theorem mem_entries {m : OrdMap κ ν} {k : κ} {v : ν} : (k, v) ∈ m.entries ↔ m.find? k = some v := by
  obtain ⟨l, hl⟩ := m
  show (k, v) ∈ l ↔ lookup k l = some v
  induction l with
  | nil => simp [lookup]
  | cons first rest ih =>
    obtain ⟨k1, v1⟩ := first
    obtain ⟨hf, hr⟩ := pairwise_cons.mp hl
    rw [mem_cons, lookup, ih hr]
    split_ifs with heq
    · subst heq
      constructor
      · rintro (h | h)
        · rw [(Prod.mk.inj h).2]
        · exact absurd (hf _ ((ih hr).mpr h)) (lt_irrefl _)
      · intro h; cases h; exact .inl rfl
    · simp [heq]

@[simp] theorem find?_erase (k k' : κ) :
    (m.erase k).find? k' = if k' = k then none else m.find? k' := by
  have hmem : ∀ v, (m.erase k).find? k' = some v ↔ m.find? k' = some v ∧ k' ≠ k := by
    intro v
    rw [← mem_entries, ← mem_entries]; simp [erase]
  refine Option.ext fun v => (hmem v).trans ?_
  by_cases hk : k' = k <;> simp [hk]

theorem keys_sorted : m.keys.Pairwise (· < ·) := pairwise_map.mpr m.sorted

theorem keys_nodup : m.keys.Nodup := m.keys_sorted.imp ne_of_lt

theorem mem_keys {m : OrdMap κ ν} {k : κ} : k ∈ m.keys ↔ (m.find? k).isSome := by
  constructor
  · intro h
    obtain ⟨⟨_, v⟩, he, rfl⟩ := mem_map.mp h
    rw [mem_entries.mp he]; rfl
  · intro h
    obtain ⟨v, hv⟩ := Option.isSome_iff_exists.mp h
    exact mem_map.mpr ⟨(k, v), mem_entries.mpr hv, rfl⟩

variable {κ : Type u} {ν : Type v} [LinearOrder κ]

theorem ext_mem {a b : OrdMap κ ν} (h : ∀ e, e ∈ a.entries ↔ e ∈ b.entries) : a = b := by
  have hn : ∀ m : OrdMap κ ν, m.entries.Nodup := fun m =>
    m.sorted.imp fun hlt heq => ne_of_lt hlt (congrArg Prod.fst heq)
  have hp : a.entries.Perm b.entries := (perm_ext_iff_of_nodup (hn a) (hn b)).mpr h
  have heq : a.entries = b.entries :=
    hp.eq_of_pairwise (fun _ _ _ _ hab hba => absurd hab (lt_asymm hba)) a.sorted b.sorted
  cases a
  cases b
  cases heq; rfl

theorem ext {a b : OrdMap κ ν} (h : ∀ k, a.find? k = b.find? k) : a = b := by
  refine ext_mem ?_
  rintro ⟨k, v⟩
  rw [mem_entries, mem_entries, h k]

variable {l : List (κ × ν)}

/-- The last pair with a key counts. -/
theorem find?_ofList_eq (l : List (κ × ν)) (k : κ) :
    (ofList l).find? k = (l.reverse.find? (·.1 = k)).map Prod.snd := by
  induction l using reverseRecOn with
  | nil => rfl
  | append_singleton l e ih =>
    have hl : ofList (l ++ [e]) = (ofList l).insert e.1 e.2 := by simp [ofList]
    rw [hl, find?_insert, ih, reverse_append]
    by_cases hk : k = e.1
    · simp [hk]
    · simp [hk, Ne.symm hk]

theorem contains_ofList {k : κ} : (ofList l).contains k = true ↔ k ∈ l.map Prod.fst := by
  rw [contains, find?_ofList_eq]; simp

theorem mem_values {m : OrdMap κ ν} {v : ν} : v ∈ m.values ↔ ∃ k, m.find? k = some v := by
  simp only [values, mem_map, Prod.exists, mem_entries, exists_eq_right]

theorem popFirst?_eq_some {m m' : OrdMap κ ν} {k : κ} (h : m.popFirst? = some (k, m')) :
    m.keys = k :: m'.keys := by
  obtain ⟨entries, hsorted⟩ := m
  cases entries with
  | nil => cases h
  | cons e rest =>
    cases h
    have hr : rest.filter (fun a => !decide (a.1 = e.1)) = rest := by
      refine filter_eq_self.mpr fun a ha => ?_
      simpa using ((pairwise_cons.mp hsorted).1 a ha).ne'
    simp [keys, erase, hr]

theorem mem_of_find?_ofList {k : κ} {v : ν} (h : (ofList l).find? k = some v) : (k, v) ∈ l := by
  rw [find?_ofList_eq] at h
  obtain ⟨e, he, rfl⟩ := Option.map_eq_some_iff.mp h
  obtain rfl : e.1 = k := by simpa using List.find?_some he
  exact mem_reverse.mp (mem_of_find?_eq_some he)

theorem find?_ofList_map [DecidableEq κ] (f : κ → ν) (l : List κ) (k : κ) :
    (ofList (l.map fun k => (k, f k))).find? k = if k ∈ l then some (f k) else none := by
  split_ifs with hk
  · obtain ⟨v, hv⟩ := Option.isSome_iff_exists.mp
      (contains_ofList.mpr (by simpa using hk) : (ofList (l.map fun k => (k, f k))).contains k = true)
    obtain ⟨_, -, he⟩ := mem_map.mp (mem_of_find?_ofList hv)
    cases he; exact hv
  · refine Option.not_isSome_iff_eq_none.mp fun hc => hk ?_; simpa using contains_ofList.mp hc

theorem find?_ofList (hl : (l.map Prod.fst).Nodup) {k : κ} {v : ν} :
    (ofList l).find? k = some v ↔ (k, v) ∈ l := by
  refine ⟨mem_of_find?_ofList, fun h => ?_⟩
  have hc : (ofList l).contains k = true := contains_ofList.mpr (mem_map.mpr ⟨(k, v), h, rfl⟩)
  obtain ⟨v', hv'⟩ := Option.isSome_iff_exists.mp hc
  have heq := inj_on_of_nodup_map hl (mem_of_find?_ofList hv') h rfl
  rw [hv', (Prod.mk.inj heq).2]

/-- Pairs with different keys make one map in whatever order they are inserted. -/
theorem ofList_perm {l' : List (κ × ν)} (hl : (l.map Prod.fst).Nodup) (h : l.Perm l') :
    ofList l = ofList l' := by
  have hl' : (l'.map Prod.fst).Nodup := (h.map Prod.fst).nodup_iff.mp hl
  refine ext fun k => Option.ext fun v => ?_
  rw [find?_ofList hl, find?_ofList hl', h.mem_iff]

/-! ## Groups -/

section

variable {α : Type*} {key : α → κ} {P : List α → κ → ν → Prop} {m : OrdMap κ ν} {l : List α} {a : α}

/-- The map holds of the elements with one key what `P` says, and nothing without elements. -/
def Groups (m : OrdMap κ ν) (key : α → κ) (P : List α → κ → ν → Prop) (l : List α) : Prop :=
  ∀ k, (m.find? k = none ∧ ∀ a ∈ l, key a ≠ k) ∨ ∃ v, m.find? k = some v ∧ P l k v

theorem Groups.nil : (empty : OrdMap κ ν).Groups key P [] := fun _ => .inl ⟨rfl, by simp⟩

theorem Groups.of_mem (h : m.Groups key P l) (ha : a ∈ l) :
    ∃ v, m.find? (key a) = some v ∧ P l (key a) v :=
  (h (key a)).resolve_left fun hnone => hnone.2 a ha rfl

/-- One more element changes the group of its key, and `P` is about that group alone. -/
theorem Groups.insert (h : m.Groups key P l) {v : ν}
    (hframe : ∀ {k v}, P l k v → key a ≠ k → P (l ++ [a]) k v) (hv : P (l ++ [a]) (key a) v) :
    (m.insert (key a) v).Groups key P (l ++ [a]) := by
  intro k
  rw [find?_insert]
  split_ifs with heq
  · exact .inr ⟨v, rfl, heq ▸ hv⟩
  · have hne : key a ≠ k := Ne.symm heq
    refine (h k).imp (And.imp_right fun hl => ?_) fun ⟨v, hf, hv⟩ => ⟨v, hf, hframe hv hne⟩
    exact forall_mem_append.mpr ⟨hl, forall_mem_singleton.mpr hne⟩

end

/-! ## Mapped values -/

variable {ω : Type v} {f : ν → ω}

def mapValues (f : ν → ω) (m : OrdMap κ ν) : OrdMap κ ω :=
  ⟨m.entries.map fun e => (e.1, f e.2), pairwise_map.mpr m.sorted⟩

theorem find?_mapValues (m : OrdMap κ ν) (k : κ) : (m.mapValues f).find? k = (m.find? k).map f := by
  obtain ⟨entries, hsorted⟩ := m
  show lookup k (entries.map fun e => (e.1, f e.2)) = (lookup k entries).map f
  clear hsorted
  induction entries with
  | nil => rfl
  | cons e entries ih =>
    rw [map_cons, lookup, lookup, ih]
    split <;> rfl

theorem values_mapValues (m : OrdMap κ ν) : (m.mapValues f).values = m.values.map f := by
  simp [mapValues, values]

theorem mapValues_upsert (m : OrdMap κ ν) (k : κ) {g : Option ν → ν} {g' : Option ω → ω}
    (h : ∀ o, f (g o) = g' (o.map f)) :
    (m.upsert k g).mapValues f = (m.mapValues f).upsert k g' := by
  refine ext fun k' => ?_
  rw [find?_mapValues, find?_upsert, find?_upsert, find?_mapValues, find?_mapValues]
  split
  · rw [Option.map_some, h]
  · rfl

end OrdMap

/-- An ordered set is a map that holds nothing but its keys. -/
abbrev OrdSet (κ : Type u) [LinearOrder κ] := OrdMap κ Unit

def OrdSet.ofList {κ : Type u} [LinearOrder κ] (l : List κ) : OrdSet κ :=
  OrdMap.ofList (l.map fun k => (k, ()))
