import Mathlib.Data.List.Forall2
import Mathlib.Data.List.Induction

/-!
# Lib.Fallible

Taking computations in `Except` apart: what a sequence does when its first step is known, what is
known of the steps when the sequence succeeded, and which errors a computation cannot end with
(`Avoids`).
-/

namespace Fallible

open List

universe u v w
variable {ε : Type u} {α β : Type v}

@[simp] theorem ok_bind (a : α) (f : α → Except ε β) : (Except.ok a >>= f) = f a := rfl

@[simp] theorem error_bind (e : ε) (f : α → Except ε β) : (Except.error e >>= f) = .error e := rfl

variable {x : Except ε α} {b init : β} {e : ε} {a : α} {r : List β}

theorem bind_eq_ok {f : α → Except ε β} : (x >>= f) = .ok b ↔ ∃ a, x = .ok a ∧ f a = .ok b := by
  cases x with
  | error e => simp
  | ok a => simp

theorem elim_eq_ok {o : Option α} : o.elim (Except.error e) .ok = .ok a ↔ o = some a := by
  cases o with
  | none => simp
  | some b => simp

theorem mapError_eq_ok {ε' : Type u} {f : ε → ε'} : x.mapError f = .ok a ↔ x = .ok a := by
  cases x with
  | error e => simp [Except.mapError]
  | ok b => simp [Except.mapError]

theorem throw_eq : (throw e : Except ε α) = .error e := rfl

theorem ite_error_eq_ok {c : Prop} [Decidable c] :
    (if c then .error e else x) = .ok a ↔ ¬ c ∧ x = .ok a := by
  by_cases h : c <;> simp [h]

variable {γ : Type w} {l : List γ}

theorem forM_ok {f : γ → Except ε PUnit} (h : ∀ c ∈ l, f c = .ok ⟨⟩) : l.forM f = .ok ⟨⟩ := by
  induction l with
  | nil => rfl
  | cons c l ih =>
    show (f c >>= fun _ => l.forM f) = .ok ⟨⟩
    rw [h c mem_cons_self, ok_bind, ih fun c hc => h c (mem_cons_of_mem _ hc)]

variable {f : β → γ → Except ε β}

/-- A fold that succeeded kept whatever every step keeps. -/
theorem foldlM_induct {P : List γ → β → Prop} {r : β} (hi : P [] init)
    (hstep : ∀ pre c s s', pre ++ [c] <+: l → P pre s → f s c = .ok s' → P (pre ++ [c]) s')
    (h : l.foldlM f init = .ok r) : P l r := by
  induction l using List.reverseRecOn generalizing r with
  | nil => cases h; exact hi
  | append_singleton l c ih =>
    rw [foldlM_append] at h
    obtain ⟨s, hs, hr⟩ := bind_eq_ok.mp h
    simp only [foldlM_cons, foldlM_nil, bind_pure] at hr
    refine hstep l c s r List.prefix_rfl (ih (fun pre c s s' hpre => ?_) hs) hr
    exact hstep pre c s s' (hpre.trans (prefix_append l _))

/-- A fold succeeds when every step does from whatever the steps before it can have reached. -/
theorem foldlM_ok {P : List γ → β → Prop} (hi : P [] init)
    (hstep : ∀ pre c s, pre ++ [c] <+: l → P pre s → ∃ s', f s c = .ok s' ∧ P (pre ++ [c]) s') :
    ∃ r, l.foldlM f init = .ok r ∧ P l r := by
  induction l using List.reverseRecOn with
  | nil => exact ⟨init, rfl, hi⟩
  | append_singleton l c ih =>
    obtain ⟨s, hs, hP⟩ := ih fun pre c s hpre => hstep pre c s (hpre.trans (prefix_append l _))
    obtain ⟨r, hr, hPr⟩ := hstep l c s List.prefix_rfl hP
    refine ⟨r, ?_, hPr⟩
    simp only [foldlM_append, hs, ok_bind, foldlM_cons, foldlM_nil, bind_pure, hr]

theorem exists_forall₂ {R : γ → β → Prop} (h : ∀ c ∈ l, ∃ b, R c b) : ∃ r, List.Forall₂ R l r := by
  induction l with
  | nil => exact ⟨[], .nil⟩
  | cons c l ih =>
    obtain ⟨b, hb⟩ := h c mem_cons_self
    obtain ⟨r, hr⟩ := ih fun d hd => h d (mem_cons_of_mem _ hd)
    exact ⟨b :: r, .cons hb hr⟩

theorem exists_of_mem_right {R : γ → β → Prop}
    (h : List.Forall₂ R l r) (hb : b ∈ r) : ∃ c ∈ l, R c b := by
  induction h with
  | nil => exact absurd hb not_mem_nil
  | cons hcb _ ih =>
    rcases mem_cons.mp hb with rfl | hb
    · exact ⟨_, mem_cons_self, hcb⟩
    · obtain ⟨c, hc, hR⟩ := ih hb; exact ⟨c, mem_cons_of_mem _ hc, hR⟩

theorem mapM_eq_ok {f : γ → Except ε β} :
    l.mapM f = .ok r ↔ List.Forall₂ (fun c b => f c = .ok b) l r := by
  induction l generalizing r with
  | nil =>
    rw [mapM_nil, forall₂_nil_left_iff]; exact ⟨fun h => (Except.ok.inj h).symm, fun h => h ▸ rfl⟩
  | cons c l ih =>
    simp only [mapM_cons, forall₂_cons_left_iff, bind_eq_ok, ih]; simp [pure, Except.pure, eq_comm]

/-! ## Errors that cannot happen -/

/-- The computation does not end with a `bad` error. -/
def Avoids (bad : ε → Prop) (x : Except ε α) : Prop := ∀ e, x = .error e → ¬ bad e

variable {bad : ε → Prop}

theorem Avoids.ok (a : α) : Avoids bad (.ok a : Except ε α) := by
  intro e h; cases h

theorem Avoids.error (h : ¬ bad e) : Avoids bad (.error e : Except ε α) := by
  intro e' he
  cases he; exact h

theorem Avoids.bind {f : α → Except ε β} (hx : Avoids bad x)
    (hf : ∀ a, x = .ok a → Avoids bad (f a)) : Avoids bad (x >>= f) := by
  cases x with
  | error e => exact .error (hx e rfl)
  | ok a => exact hf a rfl

theorem Avoids.ite {c : Prop} [Decidable c] {y : Except ε α} (hx : Avoids bad x)
    (hy : Avoids bad y) : Avoids bad (if c then x else y) := by
  split
  · exact hx
  · exact hy

theorem Avoids.foldlM (hf : ∀ s c, Avoids bad (f s c)) (l : List γ)
    (init : β) : Avoids bad (l.foldlM f init) := by
  induction l generalizing init with
  | nil => exact .ok init
  | cons c l ih => exact (hf init c).bind fun s _ => ih s

theorem Avoids.forM {f : γ → Except ε PUnit} (hf : ∀ c, Avoids bad (f c))
    (l : List γ) : Avoids bad (l.forM f) := by
  induction l with
  | nil => exact .ok _
  | cons c l ih => exact (hf c).bind fun _ _ => ih

end Fallible
