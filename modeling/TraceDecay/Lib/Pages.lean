import Mathlib.Data.List.Basic

/-!
# Lib.Pages

Cutting a list into pages of elements with distinct labels. `firsts` keeps the first element of
every label. `Paged` cuts where a page is full and starts again, with no memory of the labels seen
before the cut. That gives the elements of `firsts` exactly when no label lies on both sides of a
cut (`Paged.flatten_eq_iff`).
-/

namespace Pages

open List

universe u v
variable {α : Type u} {β : Type v} [DecidableEq β] (label : α → β)

/-- The first element of every label that was not seen. -/
def firsts : List β → List α → List α
  | _, [] => []
  | seen, a :: l =>
    if label a ∈ seen then firsts seen l else a :: firsts (label a :: seen) l

variable {label} {seen seen' : List β} {l r : List α}

@[simp] theorem firsts_nil : firsts label seen [] = [] := rfl

theorem firsts_cons (a : α) : firsts label seen (a :: l) =
    if label a ∈ seen then firsts label seen l else a :: firsts label (label a :: seen) l := rfl

theorem firsts_congr (h : ∀ a ∈ l, label a ∈ seen ↔ label a ∈ seen') :
    firsts label seen l = firsts label seen' l := by
  induction l generalizing seen seen' with
  | nil => rfl
  | cons a l ih =>
    have ha := h a mem_cons_self
    have hr := fun c hc => h c (mem_cons_of_mem a hc)
    rw [firsts_cons, firsts_cons]
    by_cases hs : label a ∈ seen
    · rw [if_pos hs, if_pos (ha.mp hs), ih hr]
    · have hm : ∀ c ∈ l, label c ∈ label a :: seen ↔ label c ∈ label a :: seen' := by
        intro c hc
        rw [mem_cons, mem_cons, hr c hc]
      rw [if_neg hs, if_neg fun h' => hs (ha.mpr h'), ih hm]

theorem firsts_append (seen : List β) (l r : List α) :
    firsts label seen (l ++ r) = firsts label seen l ++ firsts label (l.map label ++ seen) r := by
  induction l generalizing seen with
  | nil => rfl
  | cons a l ih =>
    rw [cons_append, firsts_cons, firsts_cons]
    split_ifs with ha
    · rw [ih, map_cons]
      congr 1
      refine firsts_congr fun b _ => ?_
      simp only [mem_append, cons_append, mem_cons]
      exact ⟨.inr, fun h => h.elim (fun h => h ▸ .inr ha) id⟩
    · rw [ih, map_cons, cons_append]
      congr 2
      refine firsts_congr fun b _ => ?_
      simp only [mem_append, cons_append, mem_cons]; exact or_left_comm

theorem mem_map_firsts {b : β} :
    b ∈ (firsts label seen l).map label ↔ b ∈ l.map label ∧ b ∉ seen := by
  induction l generalizing seen with
  | nil => simp
  | cons a l ih =>
    rw [firsts_cons]
    split_ifs with ha
    · rw [ih, map_cons, mem_cons]
      constructor
      · rintro ⟨hb, hs⟩; exact ⟨.inr hb, hs⟩
      · rintro ⟨rfl | hb, hs⟩
        · exact absurd ha hs
        · exact ⟨hb, hs⟩
    · rw [map_cons, map_cons, mem_cons, mem_cons, ih, mem_cons]
      by_cases hb : b = label a
      · simp [hb, ha]
      · simp [hb]

theorem nodup_firsts (seen : List β) (l : List α) : ((firsts label seen l).map label).Nodup := by
  induction l generalizing seen with
  | nil => exact .nil
  | cons a l ih =>
    rw [firsts_cons]
    split
    · exact ih seen
    · refine nodup_cons.mpr ⟨fun h => ?_, ih _⟩; exact (mem_map_firsts.mp h).2 mem_cons_self

theorem firsts_of_apart (h : ∀ a ∈ l, label a ∉ seen) : firsts label seen l = firsts label [] l :=
  firsts_congr fun a ha => ⟨fun hs => absurd hs (h a ha), fun hs => absurd hs not_mem_nil⟩

variable {x : α} {b : List α}

theorem firsts_split {p q : List α} (h : firsts label seen l = p ++ x :: q) :
    ∃ before after, l = before ++ x :: after ∧ firsts label seen before = p ∧
      label x ∉ before.map label ++ seen := by
  induction l generalizing seen p with
  | nil => exact absurd h (by simp)
  | cons a l ih =>
    rw [firsts_cons] at h
    split_ifs at h with ha
    · obtain ⟨before, after, rfl, hp, hx⟩ := ih h
      refine ⟨a :: before, after, rfl, by rw [firsts_cons, if_pos ha, hp], ?_⟩
      simp only [map_cons, cons_append, mem_cons, not_or]
      exact ⟨fun heq => hx (mem_append_right _ (heq ▸ ha)), hx⟩
    · cases p with
      | nil => obtain ⟨rfl, -⟩ := List.cons.inj h; exact ⟨[], l, rfl, rfl, ha⟩
      | cons b p =>
        obtain ⟨rfl, hr⟩ := List.cons.inj h
        obtain ⟨before, after, rfl, hp, hx⟩ := ih hr
        refine ⟨a :: before, after, rfl, by rw [firsts_cons, if_neg ha, hp], ?_⟩
        simp only [mem_append, map_cons, cons_append, mem_cons] at hx ⊢
        exact fun h => hx (or_left_comm.mp h)

theorem firsts_concat (hx : label x ∉ b.map label) :
    firsts label [] (b ++ [x]) = firsts label [] b ++ [x] := by
  rw [firsts_append, firsts_cons, if_neg (by simpa using hx), firsts_nil]

theorem firsts_cut (b : List α) (x : α) (after : List α) :
    firsts label [] (b ++ x :: after) = firsts label [] (b ++ [x]) ++
      firsts label ((b ++ [x]).map label) after := by
  have hcut : b ++ x :: after = b ++ [x] ++ after := by simp
  rw [hcut, firsts_append [] (b ++ [x]) after, append_nil]

theorem length_firsts_pos (hx : label x ∉ b.map label) :
    0 < (firsts label [] (b ++ [x])).length := by
  rw [firsts_concat hx, length_append]; exact Nat.succ_pos _

/-! ## Pages -/

variable (label)

/-- The pages of a list: a full one ends at the element that fills it, if a further label
follows. -/
inductive Paged (limit : Nat) : List α → List (List α) → Prop
  | last {l : List α} : (firsts label [] l).length ≤ limit → Paged limit l [firsts label [] l]
  | more {before after : List α} {x : α} {pages : List (List α)} :
      label x ∉ before.map label → (firsts label [] (before ++ [x])).length = limit →
      (∃ a ∈ after, label a ∉ (before ++ [x]).map label) → Paged limit after pages →
      Paged limit (before ++ x :: after) (firsts label [] (before ++ [x]) :: pages)

/-- No label lies on both sides of the end of a full page. -/
def Apart (limit : Nat) (l : List α) : Prop :=
  ∀ before x after, l = before ++ x :: after → label x ∉ before.map label →
    limit ∣ (firsts label [] (before ++ [x])).length →
    (∃ a ∈ after, label a ∉ (before ++ [x]).map label) →
    ∀ a ∈ after, label a ∉ (before ++ [x]).map label

variable {label} {limit : Nat} {pages : List (List α)}

theorem Paged.covers (h : Paged label limit l pages) :
    ∀ a ∈ l, label a ∈ pages.flatten.map label := by
  induction h with
  | @last l hlen =>
    intro a ha
    rw [flatten_cons, flatten_nil, append_nil]
    exact mem_map_firsts.mpr ⟨mem_map_of_mem ha, not_mem_nil⟩
  | @more before after x pages hx hlen hnew _ ih =>
    intro a ha
    rw [flatten_cons, map_append, mem_append]
    have hs : a ∈ before ++ [x] ∨ a ∈ after := by simpa [or_assoc] using ha
    rcases hs with ha | ha
    · exact .inl (mem_map_firsts.mpr ⟨mem_map_of_mem ha, not_mem_nil⟩)
    · exact .inr (ih a ha)

theorem length_firsts_append_of_apart {after : List α} (h : ∀ a ∈ after, label a ∉ b.map label) :
    (firsts label [] (b ++ after)).length =
      (firsts label [] b).length + (firsts label [] after).length := by
  rw [firsts_append, append_nil, firsts_of_apart h, length_append]

theorem apart_cut {before after : List α} (hx : label x ∉ before.map label)
    (hlen : (firsts label [] (before ++ [x])).length = limit)
    (hnew : ∃ a ∈ after, label a ∉ (before ++ [x]).map label) :
    Apart label limit (before ++ x :: after) ↔
      (∀ a ∈ after, label a ∉ (before ++ [x]).map label) ∧ Apart label limit after := by
  have hj : ∀ b y, before ++ x :: b ++ [y] = before ++ [x] ++ (b ++ [y]) := by simp
  constructor
  · intro h
    have hcut := h before x after rfl hx (hlen ▸ Nat.dvd_refl _) hnew
    refine ⟨hcut, ?_⟩
    rintro b y c rfl hy hdvd ⟨a, ha, hlabel⟩
    have hat : ∀ d ∈ b ++ [y], label d ∉ (before ++ [x]).map label := by
      intro d hd
      refine hcut d ?_
      rcases mem_append.mp hd with hd | hd
      · exact mem_append_left _ hd
      · simp [mem_singleton.mp hd]
    have hall := h (before ++ x :: b) y c (by simp) ?_ ?_ ?_
    · intro d hd hmem
      refine hall d hd ?_
      rw [hj, map_append]; exact mem_append_right _ hmem
    · rw [show before ++ x :: b = before ++ [x] ++ b by simp, map_append, mem_append]
      exact not_or.mpr ⟨hat y (by simp), hy⟩
    · rw [hj, length_firsts_append_of_apart hat, hlen]; exact Nat.dvd_add (Nat.dvd_refl _) hdvd
    · refine ⟨a, ha, ?_⟩
      rw [hj, map_append, mem_append]; exact not_or.mpr ⟨hcut a (by simp [ha]), hlabel⟩
  · rintro ⟨hcut, h⟩ b y c heq hy hdvd hc
    have hp : before ++ [x] ++ after = b ++ [y] ++ c := by simpa using heq
    rcases append_eq_append_iff.mp hp with ⟨mid, hmid, rfl⟩ | ⟨mid, hmid, rfl⟩
    · -- the cut comes first: what lies between belongs to the rest
      rcases eq_nil_or_concat mid with rfl | ⟨b', y', rfl⟩
      · rw [append_nil] at hmid; rw [hmid]; exact hcut
      rw [concat_eq_append, ← append_assoc] at hmid
      obtain ⟨rfl, hy'⟩ := append_inj' hmid rfl
      obtain rfl := (List.cons.inj hy').1
      rw [concat_eq_append] at hcut h
      have hat : ∀ d ∈ b' ++ [y], label d ∉ (before ++ [x]).map label :=
        fun d hd => hcut d (mem_append_left c hd)
      have hac : before ++ [x] ++ b' ++ [y] = before ++ [x] ++ (b' ++ [y]) := append_assoc _ _ _
      rw [hac, length_firsts_append_of_apart hat, hlen] at hdvd
      rw [map_append, mem_append] at hy
      rw [hac, map_append] at hc ⊢
      obtain ⟨a, ha, hlabel⟩ := hc
      have hr := h b' y c (by simp) (fun hmem => hy (.inr hmem))
        ((Nat.dvd_add_right (Nat.dvd_refl _)).mp hdvd)
        ⟨a, ha, fun hmem => hlabel (mem_append_right _ hmem)⟩
      intro d hd hmem
      rcases mem_append.mp hmem with hmem | hmem
      · exact hcut d (mem_append_right _ hd) hmem
      · exact hr d hd hmem
    · rcases eq_nil_or_concat mid with rfl | ⟨mid', z, rfl⟩
      · rw [append_nil] at hmid; rw [← hmid]; exact hcut
      · -- before the cut a page is not full
        rw [concat_eq_append, ← append_assoc] at hmid
        obtain ⟨rfl, -⟩ := append_inj' hmid rfl
        rw [firsts_concat hx, length_append, length_singleton, firsts_append, length_append] at hlen
        have hf := Nat.le_of_dvd (length_firsts_pos hy) hdvd
        omega

/-- The pages are the first elements of their labels exactly when no cut has a label on both
sides. -/
theorem Paged.flatten_eq_iff (h : Paged label limit l pages) :
    pages.flatten = firsts label [] l ↔ Apart label limit l := by
  induction h with
  | @last l hlen =>
    refine iff_of_true (by simp) ?_
    rintro before x after rfl hx hdvd ⟨a, ha, hnew⟩
    -- the element would fill a page and another label would follow it
    have hf := Nat.le_of_dvd (length_firsts_pos hx) hdvd
    have hm : label a ∈ (firsts label ((before ++ [x]).map label) after).map label :=
      mem_map_firsts.mpr ⟨mem_map_of_mem ha, hnew⟩
    have hpos := length_pos_of_mem hm
    rw [length_map] at hpos
    rw [firsts_cut, length_append] at hlen; omega
  | @more before after x pages hx hlen hnew hr ih =>
    rw [apart_cut hx hlen hnew, ← ih, flatten_cons, firsts_cut before x after,
      append_cancel_left_eq]
    constructor
    · intro heq
      have hcut : ∀ a ∈ after, label a ∉ (before ++ [x]).map label := by
        intro a ha
        have hc := hr.covers a ha
        rw [heq] at hc; exact (mem_map_firsts.mp hc).2
      exact ⟨hcut, heq.trans (firsts_of_apart hcut)⟩
    · rintro ⟨hcut, heq⟩
      rw [heq, firsts_of_apart hcut]

end Pages
