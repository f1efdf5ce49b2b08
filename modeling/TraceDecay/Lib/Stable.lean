import TraceDecay.Lib.Sorting

/-!
# Lib.Stable

When sorting and dropping repeated neighbours forgets the order the input came in. A stable sort
keeps the elements of each key as they stood (`filter_sortBy`), so a sorted list without repeated
neighbours depends on the word each key reads in the input, up to repeated neighbours
(`dedup_sortBy_eq_iff`).

Words up to repeated neighbours form a monoid. It is not cancellative, since `aa` and `a` are one
word, but a product that is the same for every order of its factors has factors that commute
(`dedup_flatMap_perm_iff`).
-/

namespace Sorting

open List

universe u v
variable {α : Type u} {κ : Type v}

/-! ## Stability -/

variable {l l' : List α}

section Stable
variable [LinearOrder κ] [DecidableEq κ] {cmp : α → α → Ordering} {key : α → κ}

/-- The elements of one key keep their order. -/
theorem filter_sortBy (h : OrdersBy cmp key) (k : κ) (l : List α) :
    (sortBy cmp l).filter (fun b => key b = k) = l.filter fun b => key b = k := by
  have hsorted : (l.filter fun b => key b = k).Pairwise fun a b => cmp a b ≠ .gt := by
    refine pairwise_of_forall_mem_list fun a ha b hb => (h a b).mpr (le_of_eq ?_)
    exact (of_decide_eq_true (mem_filter.mp ha).2).trans (of_decide_eq_true (mem_filter.mp hb).2).symm
  have hsub := (sublist_insertionSort hsorted filter_sublist).filter fun b => decide (key b = k)
  rw [filter_filter, funext fun b => Bool.and_self _] at hsub
  exact (hsub.eq_of_length ((sortBy_perm cmp l).filter _).length_eq.symm).symm

/-- A sorted list is determined by what it reads at each key. -/
theorem eq_of_sorted_of_filter_eq
    (hl : l.Pairwise fun a b => key a ≤ key b) (hl' : l'.Pairwise fun a b => key a ≤ key b)
    (h : ∀ k, l.filter (fun b => key b = k) = l'.filter fun b => key b = k) : l = l' := by
  induction l generalizing l' with
  | nil =>
    cases l' with
    | nil => rfl
    | cons b l' => simpa using h (key b)
  | cons a l ih =>
    cases l' with
    | nil => simpa using h (key a)
    | cons b l' =>
      obtain ⟨ha, hr⟩ := pairwise_cons.mp hl
      obtain ⟨hb, hr'⟩ := pairwise_cons.mp hl'
      have hle : ∀ {a b : α} {l l' : List α}, (∀ c ∈ l', key b ≤ key c) →
          (a :: l).filter (fun c => key c = key a) = (b :: l').filter (fun c => key c = key a) →
          key b ≤ key a := by
        intro a b l l' hmin hf
        have hmem : a ∈ (b :: l').filter fun c => key c = key a := by rw [← hf]; simp
        rcases mem_cons.mp (mem_filter.mp hmem).1 with rfl | hmem
        · exact le_rfl
        · exact hmin a hmem
      have hkey : key a = key b := le_antisymm (hle ha (h (key b)).symm) (hle hb (h (key a)))
      have hh : a = b := by
        have := h (key a)
        rw [filter_cons_of_pos (by simp), filter_cons_of_pos (by simp [hkey])] at this
        exact (List.cons.inj this).1
      subst hh
      congr 1
      refine ih hr hr' fun k => ?_
      have := h k
      rw [filter_cons, filter_cons] at this
      split at this
      · exact (List.cons.inj this).2
      · exact this

theorem sortBy_eq_iff (h : OrdersBy cmp key) : sortBy cmp l = sortBy cmp l' ↔
      ∀ k, l.filter (fun b => key b = k) = l'.filter fun b => key b = k := by
  constructor
  · intro heq k
    rw [← filter_sortBy h k l, ← filter_sortBy h k l', heq]
  · intro heq
    refine eq_of_sorted_of_filter_eq (sortBy_sorted h l) (sortBy_sorted h l') fun k => ?_
    rw [filter_sortBy h, filter_sortBy h, heq k]

omit [DecidableEq κ] in
theorem sortBy_eq_of_perm (h : OrdersBy cmp key) (hp : l.Perm l')
    (hinj : ∀ a ∈ l, ∀ b ∈ l, key a = key b → a = b) : sortBy cmp l = sortBy cmp l' := by
  have hmem : ∀ {a}, a ∈ sortBy cmp l → a ∈ l := (sortBy_perm cmp l).mem_iff.mp
  have hm' : ∀ {a}, a ∈ sortBy cmp l' → a ∈ l :=
    fun ha => hp.mem_iff.mpr ((sortBy_perm cmp l').mem_iff.mp ha)
  refine List.Perm.eq_of_pairwise (fun a b ha hb hab hba => ?_) (sortBy_sorted h l)
    (sortBy_sorted h l') (((sortBy_perm cmp l).trans hp).trans (sortBy_perm cmp l').symm)
  exact hinj a (hmem ha) b (hm' hb) (le_antisymm hab hba)

end Stable

/-! ## Words up to repeated neighbours -/

variable [DecidableEq α]

theorem dedup_cons_cons_self (a : α) (l : List α) : dedup (a :: a :: l) = dedup (a :: l) :=
  if_pos rfl

theorem dedup_cons_cons_ne {a b : α} (h : a ≠ b) (l : List α) :
    dedup (a :: b :: l) = a :: dedup (b :: l) := if_neg h

theorem dedup_sublist (l : List α) : (dedup l).Sublist l := by
  fun_induction dedup l with
  | case1 => exact .slnil
  | case2 a => exact List.Sublist.refl _
  | case3 b l ih => exact ih.cons b
  | case4 a b l hne ih => exact ih.cons_cons a

theorem head?_dedup (l : List α) : (dedup l).head? = l.head? := by
  fun_induction dedup l with
  | case1 | case2 | case4 => rfl
  | case3 b l ih => exact ih

theorem dedup_cons (a : α) (l : List α) :
    dedup (a :: l) = if l.head? = some a then dedup l else a :: dedup l := by
  cases l with
  | nil => rfl
  | cons b l => simp only [dedup, head?_cons, Option.some.injEq, eq_comm]

theorem dedup_cons_congr (a : α) {m : List α} (h : dedup l = dedup m) :
    dedup (a :: l) = dedup (a :: m) := by
  have hhead : l.head? = m.head? := by rw [← head?_dedup l, h, head?_dedup]
  rw [dedup_cons, dedup_cons, hhead, h]

theorem dedup_append_congr_right (u : List α) {m : List α} (h : dedup l = dedup m) :
    dedup (u ++ l) = dedup (u ++ m) := by
  induction u with
  | nil => exact h
  | cons a u ih => exact dedup_cons_congr a ih

theorem dedup_append_dedup (u v : List α) : dedup (dedup u ++ v) = dedup (u ++ v) := by
  induction u with
  | nil => rfl
  | cons a u ih =>
    cases u with
    | nil => rfl
    | cons b u =>
      by_cases hab : a = b
      · subst hab; rw [dedup_cons_cons_self, ih]; exact (dedup_cons_cons_self a (u ++ v)).symm
      · rw [dedup_cons_cons_ne hab, cons_append, cons_append]; exact dedup_cons_congr a ih

variable {u z v : List α} {key : α → κ}

theorem dedup_append_congr_left {u' : List α} (v : List α) (h : dedup u = dedup u') :
    dedup (u ++ v) = dedup (u' ++ v) := by
  rw [← dedup_append_dedup u, h, dedup_append_dedup]

theorem dedup_dedup (u : List α) : dedup (dedup u) = dedup u := by
  have := dedup_append_dedup u []
  rwa [append_nil, append_nil] at this

theorem dedup_cons_cons_eq_self {a b : α} (h : dedup (a :: b :: l) = a :: b :: l) :
    a ≠ b ∧ dedup (b :: l) = b :: l := by
  by_cases hab : a = b
  · subst hab
    rw [dedup_cons_cons_self] at h
    have hle := (dedup_sublist (a :: l)).length_le
    rw [h] at hle; exact absurd hle (Nat.not_succ_le_self _)
  · rw [dedup_cons_cons_ne hab] at h; exact ⟨hab, (List.cons.inj h).2⟩

/-- Two words side by side, or grown together at the letter they meet in. -/
theorem dedup_append_cases (hu : dedup u = u) (hz : dedup z = z) :
    (dedup (u ++ z) = u ++ z ∧ ∀ c, u.getLast? = some c → z.head? ≠ some c) ∨
      ∃ c z', u.getLast? = some c ∧ z = c :: z' ∧ dedup (u ++ z) = u ++ z' := by
  induction u with
  | nil => exact .inl ⟨hz, by simp⟩
  | cons a u ih =>
    cases u with
    | nil =>
      cases z with
      | nil => exact .inl ⟨rfl, by simp⟩
      | cons c z' =>
        by_cases hac : a = c
        · subst hac
          exact .inr ⟨a, z', rfl, rfl, by rw [singleton_append, dedup_cons_cons_self, hz]; rfl⟩
        · refine .inl ⟨by rw [singleton_append, dedup_cons_cons_ne hac, hz], ?_⟩
          rintro d ⟨⟩ hd; exact hac (Option.some.inj hd).symm
    | cons b u =>
      obtain ⟨hab, hu'⟩ := dedup_cons_cons_eq_self hu
      have hs : dedup (a :: b :: u ++ z) = a :: dedup (b :: u ++ z) := dedup_cons_cons_ne hab _
      rcases ih hu' with ⟨hsame, ha⟩ | ⟨c, z', hl, hz', hg⟩
      · exact .inl ⟨by rw [hs, hsame]; rfl, by simpa using ha⟩
      · exact .inr ⟨c, z', by simpa using hl, hz', by rw [hs, hg]; rfl⟩

/-- Words that agree in front of `z` are one word, or differ by a last letter. -/
theorem dedup_append_cancel_right (hu : dedup u = u) (hv : dedup v = v)
    (hz : dedup z = z) (h : dedup (u ++ z) = dedup (v ++ z)) :
    u = v ∨ (∃ c, v = u ++ [c]) ∨ ∃ c, u = v ++ [c] := by
  have hone : ∀ {u v z' : List α} {c : α}, u ++ c :: z' = v ++ z' → v = u ++ [c] := by
    intro u v z' c h
    have h' : (u ++ [c]) ++ z' = v ++ z' := by simpa using h
    exact (append_cancel_right h').symm
  rcases dedup_append_cases hu hz with ⟨hu', -⟩ | ⟨c, z', -, rfl, hu'⟩
  · rcases dedup_append_cases hv hz with ⟨hv', -⟩ | ⟨d, z'', -, rfl, hv'⟩
    · rw [hu', hv'] at h; exact .inl (append_cancel_right h)
    · rw [hu', hv'] at h; exact .inr (.inl ⟨d, hone h⟩)
  · rcases dedup_append_cases hv hz with ⟨hv', -⟩ | ⟨d, z'', -, hz', hv'⟩
    · rw [hu', hv'] at h; exact .inr (.inr ⟨c, hone h.symm⟩)
    · cases hz'; rw [hu', hv'] at h; exact .inl (append_cancel_right h)

/-- Words that agree behind `z` are one word, or differ by a first letter new to the other. -/
theorem dedup_append_cancel_left (hu : dedup u = u) (hv : dedup v = v)
    (hz : dedup z = z) (h : dedup (z ++ u) = dedup (z ++ v)) :
    u = v ∨ (∃ d, v = d :: u ∧ u.head? ≠ some d) ∨ ∃ d, u = d :: v ∧ v.head? ≠ some d := by
  rcases dedup_append_cases hz hu with ⟨hu', ha⟩ | ⟨c, u', hl, rfl, hu'⟩
  · rcases dedup_append_cases hz hv with ⟨hv', -⟩ | ⟨d, v', hl, rfl, hv'⟩
    · rw [hu', hv'] at h; exact .inl (append_cancel_left h)
    · rw [hu', hv'] at h; obtain rfl := append_cancel_left h; exact .inr (.inl ⟨d, rfl, ha d hl⟩)
  · rcases dedup_append_cases hz hv with ⟨hv', ha⟩ | ⟨d, v', hl', rfl, hv'⟩
    · rw [hu', hv'] at h; obtain rfl := append_cancel_left h; exact .inr (.inr ⟨c, rfl, ha c hl⟩)
    · rw [hu', hv'] at h
      rw [hl] at hl'
      cases hl'; exact .inl (congrArg (c :: ·) (append_cancel_left h))

omit [DecidableEq α] in
/-- A word longer by a last letter is not also longer by a first one new to the other. -/
theorem not_both_ends {c : α} (hne : u ≠ []) (hc : v = u ++ [c])
    (h : u = v ∨ (∃ d, v = d :: u ∧ u.head? ≠ some d) ∨ ∃ d, u = d :: v ∧ v.head? ≠ some d) :
    u = v := by
  rcases h with h | ⟨d, hd, hh⟩ | ⟨d, hd, -⟩
  · exact h
  · cases u with
    | nil => exact absurd rfl hne
    | cons a u => exact absurd (congrArg some (cons.inj (hc.symm.trans hd)).1) hh
  · have hlen := congrArg List.length hc
    rw [hd] at hlen
    simp at hlen
    omega

/-- Words that may change places both in front of others and behind them commute. -/
theorem dedup_commute {x y : List α} (hrest : dedup (x ++ y ++ z) = dedup (y ++ x ++ z))
    (hlt : dedup (z ++ (x ++ y)) = dedup (z ++ (y ++ x))) : dedup (x ++ y) = dedup (y ++ x) := by
  have hr : ∀ a b : List α, dedup (dedup a ++ dedup b) = dedup (a ++ b) := by
    intro a b
    rw [dedup_append_dedup]; exact dedup_append_congr_right a (dedup_dedup b)
  have he : ∀ {a b : List α}, dedup (a ++ b) = [] → dedup (b ++ a) = [] := by
    intro a b h
    have hnil : (a ++ b).head? = none := by rw [← head?_dedup, h, head?_nil]
    obtain ⟨rfl, rfl⟩ := append_eq_nil_iff.mp (head?_eq_none_iff.mp hnil)
    rfl
  rw [← hr (x ++ y) z, ← hr (y ++ x) z] at hrest
  rw [← hr z (x ++ y), ← hr z (y ++ x)] at hlt
  have he' := he (a := x) (b := y)
  have he'' := he (a := y) (b := x)
  have hu := dedup_dedup (x ++ y)
  have hv := dedup_dedup (y ++ x)
  generalize dedup (x ++ y) = u at *
  generalize dedup (y ++ x) = v at *
  -- the two differ by a last letter and by a first one, unless they are equal
  rcases dedup_append_cancel_right hu hv (dedup_dedup z) hrest with h | ⟨c, hc⟩ | ⟨c, hc⟩
  · exact h
  · have hne : u ≠ [] := fun hnil => by simp [he' hnil] at hc
    exact not_both_ends hne hc (dedup_append_cancel_left hu hv (dedup_dedup z) hlt)
  · have hne : v ≠ [] := fun hnil => by simp [he'' hnil] at hc
    exact (not_both_ends hne hc (dedup_append_cancel_left hv hu (dedup_dedup z) hlt.symm)).symm

section Product
variable {β : Type v} {f : β → List α} {l l' : List β}

omit [DecidableEq α] in
theorem exists_perm_cons_cons {a b : β} (ha : a ∈ l) (hb : b ∈ l) (hab : a ≠ b) :
    ∃ t, (a :: b :: t).Perm l := by
  classical
  have hb' : b ∈ l.erase a := (mem_erase_of_ne hab.symm).mpr hb
  exact ⟨_, ((perm_cons_erase ha).trans ((perm_cons_erase hb').cons a)).symm⟩

theorem dedup_flatMap_of_perm (hp : l.Perm l')
    (h : ∀ a ∈ l, ∀ b ∈ l, dedup (f a ++ f b) = dedup (f b ++ f a)) :
    dedup (l.flatMap f) = dedup (l'.flatMap f) := by
  induction hp with
  | nil => rfl
  | cons a _ ih =>
    exact dedup_append_congr_right _ <|
      ih fun b hb c hc => h b (mem_cons_of_mem a hb) c (mem_cons_of_mem a hc)
  | swap a b l =>
    rw [flatMap_cons, flatMap_cons, flatMap_cons, flatMap_cons, ← append_assoc, ← append_assoc]
    exact dedup_append_congr_left _ (h b (by simp) a (by simp))
  | trans hf _ ih ih' =>
    refine (ih h).trans (ih' fun a ha b hb => ?_)
    exact h a (hf.mem_iff.mpr ha) b (hf.mem_iff.mpr hb)

/-- A product of words is the same for every order of its factors exactly when every two of them
commute. -/
theorem dedup_flatMap_perm_iff :
    (∀ l' : List β, l'.Perm l → dedup (l'.flatMap f) = dedup (l.flatMap f)) ↔
      ∀ a ∈ l, ∀ b ∈ l, dedup (f a ++ f b) = dedup (f b ++ f a) := by
  constructor
  · intro h a ha b hb
    by_cases hab : a = b
    · rw [hab]
    obtain ⟨t, hf⟩ := exists_perm_cons_cons ha hb hab
    have hf : ([a, b] ++ t).Perm l := hf
    have hs : ([b, a] ++ t).Perm l := (List.Perm.swap a b t).trans hf
    have hr := (h _ hf).trans (h _ hs).symm
    have hl := (h _ (perm_append_comm.trans hf)).trans (h _ (perm_append_comm.trans hs)).symm
    simp only [flatMap_append, flatMap_cons, flatMap_nil, append_nil] at hr hl
    exact dedup_commute hr hl
  · intro h l' hp; exact (dedup_flatMap_of_perm hp.symm h).symm

end Product

/-! ## Sorted words -/

/-- In a sorted list the elements of one key stand together, so dropping repeated neighbours is
done key by key. -/
theorem filter_dedup [LinearOrder κ] [DecidableEq κ] (k : κ)
    (h : l.Pairwise fun a b => key a ≤ key b) :
    (dedup l).filter (fun b => key b = k) = dedup (l.filter fun b => key b = k) := by
  fun_induction dedup l with
  | case1 => rfl
  | case2 a =>
    by_cases ha : key a = k <;> simp [ha, dedup]
  | case3 b l ih =>
    rw [ih (pairwise_cons.mp h).2]
    by_cases hb : key b = k
    · simp only [filter_cons, hb, decide_true, if_true, dedup_cons_cons_self]
    · simp only [filter_cons, hb, decide_false, Bool.false_eq_true, if_false]
  | case4 a b l hne ih =>
    obtain ⟨hle, hr⟩ := pairwise_cons.mp h
    rw [filter_cons, filter_cons, ih hr]
    by_cases ha : key a = k
    · rw [if_pos (by simpa using ha), if_pos (by simpa using ha)]
      by_cases hb : key b = k
      · rw [filter_cons_of_pos (by simpa using hb), dedup_cons_cons_ne hne]
      -- nothing beyond `b` has the key of `a` any more
      have hlt : k < key b := lt_of_le_of_ne (ha ▸ hle b mem_cons_self) (Ne.symm hb)
      have hnone : (b :: l).filter (fun c => key c = k) = [] := by
        refine filter_eq_nil_iff.mpr fun c hc => ?_
        have hbc : key b ≤ key c := by
          rcases mem_cons.mp hc with rfl | hc
          · exact le_rfl
          · exact (pairwise_cons.mp hr).1 c hc
        simpa using (lt_of_lt_of_le hlt hbc).ne'
      rw [hnone]; rfl
    · rw [if_neg (by simpa using ha), if_neg (by simpa using ha)]

/-- A sorted list without repeated neighbours is given by the words of its keys. -/
theorem dedup_sortBy_eq_iff [LinearOrder κ] [DecidableEq κ] {cmp : α → α → Ordering}
    (h : OrdersBy cmp key) :
    dedup (sortBy cmp l) = dedup (sortBy cmp l') ↔
      ∀ k, dedup (l.filter fun b => key b = k) = dedup (l'.filter fun b => key b = k) := by
  have hw : ∀ (l : List α) k, (dedup (sortBy cmp l)).filter (fun b => key b = k) =
      dedup (l.filter fun b => key b = k) := by
    intro l k
    rw [filter_dedup k (sortBy_sorted h l), filter_sortBy h]
  constructor
  · intro heq k
    rw [← hw l, ← hw l', heq]
  · intro heq
    have hsorted : ∀ l, (dedup (sortBy cmp l)).Pairwise fun a b => key a ≤ key b :=
      fun l => (sortBy_sorted h l).sublist (dedup_sublist _)
    refine eq_of_sorted_of_filter_eq (hsorted l) (hsorted l') fun k => ?_
    rw [hw, hw, heq k]

end Sorting
