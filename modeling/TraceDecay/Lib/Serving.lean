import Mathlib.Data.List.Nodup

/-!
# Lib.Serving

Callers are served one after another, and what one is given is not there for the next. `pick a X` is
what `a` is given when `X` is gone.

`serve_eq_iff_undisturbed`: what each caller is given does not depend on the order exactly when no
caller's pick is touched by what the others would pick on their own.
-/

namespace Serving

open List

variable {α β κ : Type}

/-- Each caller with what it is given; `key` is what is gone with it. -/
def serve (pick : α → List κ → Option β) (key : β → κ) : List α → List κ → List (α × Option β)
  | [], _ => []
  | a :: l, gone => (a, pick a gone) :: serve pick key l (((pick a gone).map key).toList ++ gone)

/-- What is gone when the callers are served. -/
def gone (pick : α → List κ → Option β) (key : β → κ) : List α → List κ → List κ
  | [], X => X
  | a :: l, X => gone pick key l (((pick a X).map key).toList ++ X)

/-- A pick looks at what is gone, and takes what is not. -/
structure Lawful (pick : α → List κ → Option β) (key : β → κ) : Prop where
  congr : ∀ a {X Y : List κ}, (∀ k, k ∈ X ↔ k ∈ Y) → pick a X = pick a Y
  fresh : ∀ {a X b}, pick a X = some b → key b ∉ X

/-- The key is one that another caller would take on its own. -/
def Rival (pick : α → List κ → Option β) (key : β → κ) (l : List α) (a : α) (k : κ) : Prop :=
  ∃ a' ∈ l, a' ≠ a ∧ ∃ b, pick a' [] = some b ∧ key b = k

/-- No caller's pick depends on whether what others would take is gone. -/
def Undisturbed (pick : α → List κ → Option β) (key : β → κ) (l : List α) : Prop :=
  ∀ a ∈ l, ∀ X, (∀ k ∈ X, Rival pick key l a k) → pick a X = pick a []

variable {pick : α → List κ → Option β} {key : β → κ} {l : List α}

theorem serve_append {l' : List α} : ∀ {X : List κ}, serve pick key (l ++ l') X =
    serve pick key l X ++ serve pick key l' (gone pick key l X) := by
  induction l with
  | nil => exact fun {_} => rfl
  | cons a l ih => intro X; simp only [cons_append, serve, gone, ih]

theorem map_fst_serve : ∀ {X : List κ}, (serve pick key l X).map Prod.fst = l := by
  induction l with
  | nil => exact fun {_} => rfl
  | cons a l ih => intro X; simp only [serve, map_cons, ih]

theorem serve_map {α' β' : Type} {p' : α' → List κ → Option β'} {key' : β' → κ} {r : α → α'}
    {q : β → β'} (hp : ∀ a X, p' (r a) X = (pick a X).map q) (hkey : ∀ b, key' (q b) = key b)
    : ∀ {X : List κ}, serve p' key' (l.map r) X =
      (serve pick key l X).map fun e => (r e.1, e.2.map q) := by
  induction l with
  | nil => exact fun {_} => rfl
  | cons a l ih =>
    intro X
    have hg : (p' (r a) X).map key' = (pick a X).map key := by
      rw [hp, Option.map_map]; exact congrArg (Option.map · _) (funext hkey)
    rw [map_cons, serve, serve, map_cons, hg, ih, hp]

theorem mem_gone {k : κ} : ∀ {X : List κ}, k ∈ gone pick key l X ↔
    k ∈ X ∨ ∃ a b, (a, some b) ∈ serve pick key l X ∧ key b = k := by
  induction l with
  | nil => simp [gone, serve]
  | cons a l ih =>
    intro X
    simp only [gone, serve, ih, mem_append, Option.mem_toList, Option.map_eq_some_iff,
      mem_cons, Prod.mk.injEq]
    constructor
    · rintro ((⟨b, hb, rfl⟩ | hk) | ⟨a', b, hmem, rfl⟩)
      · exact .inr ⟨a, b, .inl ⟨rfl, hb.symm⟩, rfl⟩
      · exact .inl hk
      · exact .inr ⟨a', b, .inr hmem, rfl⟩
    · rintro (hk | ⟨a', b, ⟨rfl, hb⟩ | hmem, rfl⟩)
      · exact .inl (.inr hk)
      · exact .inl (.inl ⟨b, hb.symm, rfl⟩)
      · exact .inr ⟨a', b, hmem, rfl⟩

theorem serve_pairwise (hl : Lawful pick key) : ∀ {X : List κ},
    (∀ a b, (a, some b) ∈ serve pick key l X → key b ∉ X) ∧
      (serve pick key l X).Pairwise fun e e' =>
        ∀ b b', e.2 = some b → e'.2 = some b' → key b ≠ key b' := by
  induction l with
  | nil => exact ⟨fun _ _ h => absurd h not_mem_nil, .nil⟩
  | cons a l ih =>
    intro X
    obtain ⟨hfresh, hp⟩ := @ih (((pick a X).map key).toList ++ X)
    refine ⟨fun a' b hmem => ?_, pairwise_cons.mpr ⟨?_, hp⟩⟩
    · rcases mem_cons.mp hmem with heq | hmem
      · rw [Prod.mk.injEq] at heq; exact hl.fresh heq.2.symm
      · exact fun hX => hfresh a' b hmem (mem_append_right _ hX)
    · rintro ⟨a', _⟩ hmem b b' hb rfl heq
      refine hfresh a' b' hmem (mem_append_left _ ?_)
      change pick a X = some b at hb
      rw [hb, Option.map_some, heq]; exact mem_singleton_self _

theorem serve_unique (hn : l.Nodup) {X : List κ} {e e' : α × Option β}
    (he : e ∈ serve pick key l X) (he' : e' ∈ serve pick key l X) (h : e.1 = e'.1) : e = e' := by
  have hfst : ((serve pick key l X).map Prod.fst).Nodup := by rwa [map_fst_serve]
  exact inj_on_of_nodup_map hfst he he' h

theorem exists_served (pick : α → List κ → Option β) (key : β → κ) {a : α} (h : a ∈ l)
    (X : List κ) : ∃ o, (a, o) ∈ serve pick key l X := by
  have hfst : (serve pick key l X).map Prod.fst = l := map_fst_serve
  rw [← hfst] at h
  obtain ⟨e, he, rfl⟩ := mem_map.mp h
  exact ⟨e.2, he⟩

/-- If every order serves what one order does, there is what each caller is given. -/
theorem exists_given (hn : l.Nodup) (h : ∀ l', l'.Perm l →
    ∀ e ∈ serve pick key l' [], e ∈ serve pick key l []) : ∃ g : α → Option β,
      ∀ l', l'.Perm l → serve pick key l' [] = l'.map fun a => (a, g a) := by
  have hex : ∀ a, ∃ o, a ∈ l → (a, o) ∈ serve pick key l [] := by
    intro a
    by_cases ha : a ∈ l
    · exact (exists_served pick key ha []).imp fun o ho _ => ho
    · exact ⟨none, fun h => absurd h ha⟩
  choose g hg using hex
  refine ⟨g, fun l' hp => ?_⟩
  have hs : ∀ e ∈ serve pick key l' [], (e.1, g e.1) = e := by
    intro e he
    have hfst : (serve pick key l' []).map Prod.fst = l' := map_fst_serve
    have hmem : e.1 ∈ l := hp.subset (hfst ▸ mem_map_of_mem he)
    exact serve_unique hn (hg e.1 hmem) (h l' hp e he) rfl
  calc serve pick key l' [] = (serve pick key l' []).map fun e => (e.1, g e.1) := by
        rw [map_congr_left hs, map_id']
    _ = ((serve pick key l' []).map Prod.fst).map fun a => (a, g a) := by rw [map_map]; rfl
    _ = l'.map fun a => (a, g a) := by rw [map_fst_serve]

/-- Undisturbed callers are given what they would take on their own. -/
theorem Undisturbed.serve {l0 : List α} (h : Undisturbed pick key l0)
    (hn : l.Nodup) (hsub : l ⊆ l0) :
    ∀ {X : List κ}, (∀ k ∈ X, ∀ a ∈ l, Rival pick key l0 a k) →
      Serving.serve pick key l X = l.map fun a => (a, pick a []) := by
  induction l with
  | nil => exact fun _ => rfl
  | cons a l ih =>
    intro X hX
    obtain ⟨ha, hn⟩ := nodup_cons.mp hn
    have hmem : a ∈ l0 := hsub mem_cons_self
    have hp : pick a X = pick a [] := h a hmem X fun k hk => hX k hk a mem_cons_self
    unfold Serving.serve
    rw [map_cons, hp]
    refine congrArg _ (ih hn (fun b hb => hsub (mem_cons_of_mem _ hb)) fun k hk a' ha' => ?_)
    rcases mem_append.mp hk with hk | hk
    · obtain ⟨b, hb, hkey⟩ := Option.map_eq_some_iff.mp (Option.mem_toList.mp hk)
      exact ⟨a, hmem, fun heq => ha (heq ▸ ha'), b, hb, hkey⟩
    · exact hX k hk a' (mem_cons_of_mem _ ha')

/-- What each caller is given is the same in every order exactly when the callers are
undisturbed. -/
theorem serve_eq_iff_undisturbed (hll : Lawful pick key) (hn : l.Nodup) :
    (∃ g : α → Option β, ∀ l', l'.Perm l →
      serve pick key l' [] = l'.map fun a => (a, g a)) ↔ Undisturbed pick key l := by
  constructor
  swap
  · intro h
    refine ⟨fun a => pick a [], fun l' hp => ?_⟩
    exact h.serve (hp.nodup_iff.mpr hn) hp.subset fun _ hk => absurd hk not_mem_nil
  rintro ⟨g, hg⟩
  -- a caller that comes first takes what it would take on its own
  have hf : ∀ a ∈ l, g a = pick a [] := by
    intro a ha
    obtain ⟨l1, l2, rfl⟩ := append_of_mem ha
    have h := hg (a :: (l1 ++ l2)) (perm_middle.symm)
    rw [serve, map_cons, cons_eq_cons, Prod.mk.injEq] at h; exact h.1.2.symm
  intro a ha X hX
  classical
  -- let those that take what is in `X` come before it, and nobody else
  let before : α → Bool := fun a' => decide (a' ≠ a ∧ ∃ b, pick a' [] = some b ∧ key b ∈ X)
  have hbefore : ∀ a', before a' = true ↔ a' ≠ a ∧ ∃ b, pick a' [] = some b ∧ key b ∈ X :=
    fun a' => decide_eq_true_iff
  have hrest : a ∈ l.filter fun a' => !before a' := by
    refine mem_filter.mpr ⟨ha, ?_⟩
    rw [Bool.not_eq_true', Bool.eq_false_iff]; exact fun h => ((hbefore a).mp h).1 rfl
  obtain ⟨r1, r2, hr⟩ := append_of_mem hrest
  have hp : (l.filter before ++ a :: (r1 ++ r2)).Perm l := by
    refine List.Perm.trans (List.Perm.append_left _ ?_) (filter_append_perm before l)
    rw [hr]; exact perm_middle.symm
  have hs := hg _ hp
  rw [serve_append, map_append] at hs
  obtain ⟨hserved, hl⟩ := append_inj hs (by
    rw [length_map, ← length_map (f := Prod.fst), map_fst_serve])
  have hpick : pick a (gone pick key (l.filter before) []) = g a := by
    rw [serve, map_cons, cons_eq_cons, Prod.mk.injEq] at hl; exact hl.1.2
  rw [← hf a ha, ← hpick]
  refine hll.congr a fun k => ?_
  rw [mem_gone, hserved]
  constructor
  · intro hk
    obtain ⟨a', ha', hne, b, hb, rfl⟩ := hX k hk
    refine .inr ⟨a', b, mem_map.mpr ⟨a', ?_, ?_⟩, rfl⟩
    · exact mem_filter.mpr ⟨ha', (hbefore a').mpr ⟨hne, b, hb, hk⟩⟩
    · rw [hf a' ha', hb]
  · rintro (hk | ⟨a', b, hmem, rfl⟩)
    · exact absurd hk not_mem_nil
    · obtain ⟨a'', ha'', heq⟩ := mem_map.mp hmem
      obtain ⟨ha'', hb⟩ := mem_filter.mp ha''
      rw [Prod.mk.injEq, hf a'' ha''] at heq
      obtain ⟨-, b', hb', hX'⟩ := (hbefore a'').mp hb
      cases heq.2.symm.trans hb'; exact hX'

end Serving
