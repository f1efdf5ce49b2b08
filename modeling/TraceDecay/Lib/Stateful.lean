/-!
# Lib.Stateful

Rules for programs that change a state and may fail, a failure keeping what was changed so far.
`Ends` speaks of every outcome, `bind_eq_ok` takes a successful run apart.
-/

namespace TraceDecay.Stateful

universe u

variable {ε σ α β : Type u}

/-- A fallible computation that leaves the state alone. -/
def lift (x : Except ε α) : EStateM ε σ α := fun s =>
  match x with
  | .ok a => .ok a s
  | .error e => .error e s

variable {x : EStateM ε σ α} {f : α → EStateM ε σ β} {s s' t : σ} {a : α} {b : β} {e : ε}

theorem bind_of_ok (h : x s = .ok a t) : (x >>= f) s = f a t := by
  change EStateM.bind x f s = _
  rw [EStateM.bind, h]

theorem bind_of_error (h : x s = .error e t) : (x >>= f) s = .error e t := by
  change EStateM.bind x f s = _
  rw [EStateM.bind, h]

theorem bind_eq_ok : (x >>= f) s = .ok b s' ↔ ∃ a t, x s = .ok a t ∧ f a t = .ok b s' := by
  cases hx : x s with
  | ok a t => simp [bind_of_ok hx, and_assoc]
  | error e t => simp [bind_of_error hx]

@[simp] theorem get_apply : (get : EStateM ε σ σ) s = .ok s s := rfl

@[simp] theorem lift_ok : (lift (.ok a) : EStateM ε σ α) s = .ok a s := rfl

@[simp] theorem lift_error : (lift (.error e) : EStateM ε σ α) s = .error e s := rfl

theorem lift_eq_ok {r : Except ε α} : (lift r : EStateM ε σ α) s = .ok a t ↔ r = .ok a ∧ t = s := by
  cases r with
  | ok a' =>
    simp only [lift_ok, EStateM.Result.ok.injEq, Except.ok.injEq]
    exact and_congr_right fun _ => eq_comm
  | error e' => simp

/-- How a run ends: with a value and a state of `good`, or with an error and a state of `bad`. -/
def Ends (r : EStateM.Result ε σ α) (good : α → σ → Prop) (bad : ε → σ → Prop) : Prop :=
  match r with
  | .ok a s => good a s
  | .error e s => bad e s

/-- However a run ends, it leaves a state of `P`. -/
abbrev Leaves (r : EStateM.Result ε σ α) (P : σ → Prop) : Prop := Ends r (fun _ => P) fun _ => P

/-- The state a run leaves, however it ends. -/
def left : EStateM.Result ε σ α → σ
  | .ok _ s => s
  | .error _ s => s

variable {good good' : α → σ → Prop} {bad bad' : ε → σ → Prop} {post : β → σ → Prop}

@[simp] theorem ends_ok : Ends (.ok a s : EStateM.Result ε σ α) good bad ↔ good a s := Iff.rfl

@[simp] theorem ends_error : Ends (.error e s : EStateM.Result ε σ α) good bad ↔ bad e s := Iff.rfl

variable {r : EStateM.Result ε σ α}

theorem Ends.mono (h : Ends r good bad) (hg : ∀ a s, good a s → good' a s)
    (hbad : ∀ e s, bad e s → bad' e s) : Ends r good' bad' := by
  cases r with
  | ok a s => exact hg a s h
  | error e s => exact hbad e s h

theorem Ends.cases (h : Ends r good bad) :
    (∃ a s, r = .ok a s ∧ good a s) ∨ ∃ e s, r = .error e s ∧ bad e s := by
  cases r with
  | ok a s => exact .inl ⟨a, s, rfl, h⟩
  | error e s => exact .inr ⟨e, s, rfl, h⟩

/-- A sequence ends as its second part does from where the first one left it. -/
theorem Ends.bind {P : α → σ → Prop} (hx : Ends (x s) P bad)
    (hf : ∀ a t, P a t → Ends (f a t) post bad) : Ends ((x >>= f) s) post bad := by
  obtain ⟨a, t, hs, hp⟩ | ⟨e, t, hs, hb⟩ := hx.cases
  · rw [bind_of_ok hs]; exact hf a t hp
  · rw [bind_of_error hs]; exact hb

theorem Ends.left {P : σ → Prop} (h : Ends r good bad) (hg : ∀ a s, good a s → P s)
    (hbad : ∀ e s, bad e s → P s) : P (left r) := by
  cases r with
  | ok a s => exact hg a s h
  | error e s => exact hbad e s h

end TraceDecay.Stateful
