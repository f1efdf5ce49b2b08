/-!
# Lib.Resumption

Programs that ask a store for one step after another. A run may be cut off between any two steps,
a step may fail before or after it took effect, and others may change the store in between.

* `Prog`      — a program, as the tree of what it asks and how it goes on.
* `run`       — its execution under a schedule of turns.
* `Safe`      — a program asks only for what a contract allows, and ends as promised.
* `Safe.path` — so do all its runs, however they are scheduled and wherever they are cut off.
-/

namespace TraceDecay.Resumption

/-- What a program may ask for, and what it is told. -/
structure Interface where
  Call : Type
  Reply : Call → Type

inductive Prog (F : Interface) (ε α : Type) : Type
  | done (r : Except ε α)
  | call (c : F.Call) (next : Except ε (F.Reply c) → Prog F ε α)

namespace Prog

variable {F : Interface} {ε α β : Type}

/-- An error of the first program ends the sequence. -/
def bind : Prog F ε α → (α → Prog F ε β) → Prog F ε β
  | .done (.ok a), f => f a
  | .done (.error e), _ => .done (.error e)
  | .call c next, f => .call c fun r => (next r).bind f

instance : Monad (Prog F ε) where
  pure a := .done (.ok a)
  bind := bind

instance : MonadExceptOf ε (Prog F ε) where
  throw e := .done (.error e)
  tryCatch x _ := x

def ask (c : F.Call) : Prog F ε (F.Reply c) := .call c .done

def lift (r : Except ε α) : Prog F ε α := .done r

/-- The program, with its failure as a value. -/
def attempt : Prog F ε α → Prog F ε (Except ε α)
  | .done r => .done (.ok r)
  | .call c next => .call c fun r => (next r).attempt

/-- What a program that has ended well answers. -/
def answer : Prog F ε α → Option α
  | .done (.ok a) => some a
  | .done (.error _) | .call _ _ => none

theorem answer_eq_some {p : Prog F ε α} {a : α} : p.answer = some a ↔ p = .done (.ok a) := by
  cases p with
  | done r => cases r <;> simp [answer]
  | call c next => simp [answer]

end Prog

/-- A store of type `σ` and how it takes a call. -/
structure Device (F : Interface) (ε σ : Type) where
  perform : (c : F.Call) → σ → Except ε (F.Reply c) × σ

/-- The store, and the calls it has taken with the answers it gave, the latest first. -/
structure Moment (F : Interface) (ε σ : Type) where
  state : σ
  history : List ((c : F.Call) × Except ε (F.Reply c))

variable {F : Interface} {ε σ α β ι : Type}

def Device.reply (D : Device F ε σ) (c : F.Call) (m : Moment F ε σ) : Except ε (F.Reply c) :=
  (D.perform c m.state).1

def Device.after (D : Device F ε σ) (c : F.Call) (m : Moment F ε σ) : Moment F ε σ :=
  ⟨(D.perform c m.state).2, ⟨c, D.reply c m⟩ :: m.history⟩

/-- What happens next: the program takes its step, the step fails before it has an effect or after
it, or somebody else acts. -/
inductive Turn (ε ι : Type) where
  | step
  | fault (e : ε)
  | late (e : ε)
  | other (i : ι)

structure Config (F : Interface) (ε σ α : Type) where
  prog : Prog F ε α
  moment : Moment F ε σ

def advance (D : Device F ε σ) (act : ι → σ → σ) (c : Config F ε σ α) : Turn ε ι → Config F ε σ α
  | .other i => ⟨c.prog, act i c.moment.state, c.moment.history⟩
  | turn =>
    match c.prog, turn with
    | .call q next, .step => ⟨next (D.reply q c.moment), D.after q c.moment⟩
    | .call _ next, .fault e => ⟨next (.error e), c.moment⟩
    | .call q next, .late e => ⟨next (.error e), D.after q c.moment⟩
    | _, _ => c

/-- The run of a program under a schedule; it may well end before the program does. -/
def run (D : Device F ε σ) (act : ι → σ → σ) (turns : List (Turn ε ι)) (c : Config F ε σ α) :
    Config F ε σ α :=
  turns.foldl (advance D act) c

/-- The step fails though the store is sound. -/
def Turn.Faulty : Turn ε ι → Prop
  | .fault _ | .late _ => True
  | .step | .other _ => False

/-- What others may do to the store, whether steps may fail though the store is sound, what the
program may ask for, and an invariant all keep. -/
structure Contract (D : Device F ε σ) where
  rely : σ → σ → Prop
  faults : Prop
  may : Moment F ε σ → F.Call → Prop
  inv : Moment F ε σ → Prop
  refl : ∀ s, rely s s
  trans : ∀ {s t u}, rely s t → rely t u → rely s u
  inv_others : ∀ {m : Moment F ε σ} {t}, inv m → rely m.state t → inv ⟨t, m.history⟩
  inv_call : ∀ {m c}, inv m → may m c → inv (D.after c m)

variable {D : Device F ε σ} {C : Contract D}

/-- The program keeps to the contract from here on, and `post` holds of how it ends. -/
def Safe (C : Contract D) (post : Except ε α → Moment F ε σ → Prop) :
    Prog F ε α → Moment F ε σ → Prop
  | .done r, m => ∀ t, C.rely m.state t → C.inv ⟨t, m.history⟩ → post r ⟨t, m.history⟩
  | .call c next, m => ∀ t, C.rely m.state t → C.inv ⟨t, m.history⟩ → C.may ⟨t, m.history⟩ c ∧
      Safe C post (next (D.reply c ⟨t, m.history⟩)) (D.after c ⟨t, m.history⟩) ∧
      (C.faults → ∀ e, Safe C post (next (.error e)) ⟨t, m.history⟩ ∧
        Safe C post (next (.error e)) (D.after c ⟨t, m.history⟩))

/-- The moments a run that keeps to the contract goes through. -/
inductive Path (C : Contract D) : Moment F ε σ → Moment F ε σ → Prop
  | refl (m) : Path C m m
  | others {m m' : Moment F ε σ} {t : σ} (h : Path C m m') (hrely : C.rely m'.state t) :
      Path C m ⟨t, m'.history⟩
  | call {m m' : Moment F ε σ} {c : F.Call} (h : Path C m m') (hmay : C.may m' c) :
      Path C m (D.after c m')

variable {m : Moment F ε σ} {p : Prog F ε α} {post : Except ε α → Moment F ε σ → Prop}
  {m' : Moment F ε σ} {r : Except ε α} {c : Config F ε σ α}

theorem Path.trans {m'' : Moment F ε σ} (h : Path C m m') (h' : Path C m' m'') : Path C m m'' := by
  induction h' with
  | refl => exact h
  | others _ hrely ih => exact .others ih hrely
  | call _ hmay ih => exact .call ih hmay

/-- What every allowed step preserves, a run that keeps to the contract preserves. -/
theorem Path.induct {P : Moment F ε σ → Prop} (h : Path C m m') (hinv : C.inv m)
    (hs : P m) (ho : ∀ m t, C.inv m → P m → C.rely m.state t → P ⟨t, m.history⟩)
    (hc : ∀ m c, C.inv m → P m → C.may m c → P (D.after c m)) : C.inv m' ∧ P m' := by
  induction h with
  | refl => exact ⟨hinv, hs⟩
  | others _ hrely ih => exact ⟨C.inv_others ih.1 hrely, ho _ _ ih.1 ih.2 hrely⟩
  | call _ hmay ih => exact ⟨C.inv_call ih.1 hmay, hc _ _ ih.1 ih.2 hmay⟩

theorem Path.inv (h : Path C m m') (hinv : C.inv m) : C.inv m' :=
  (h.induct (P := fun _ => True) hinv trivial (fun _ _ _ _ _ => trivial) fun _ _ _ _ _ => trivial).1

/-! ## Rules -/

theorem Safe.mono {p' : Except ε α → Moment F ε σ → Prop} :
    ∀ {m : Moment F ε σ}, Safe C post p m → (∀ r m, C.inv m → post r m → p' r m) →
      Safe C p' p m := by
  induction p with
  | done r => intro m h himp t ht hinv; exact himp _ _ hinv (h t ht hinv)
  | call c next ih =>
    intro m h himp t ht hinv
    obtain ⟨hmay, hok, he⟩ := h t ht hinv
    exact ⟨hmay, ih _ hok himp, fun hf e => ⟨ih _ (he hf e).1 himp, ih _ (he hf e).2 himp⟩⟩

theorem Safe.others (h : Safe C post p m) {t : σ} (ht : C.rely m.state t) :
    Safe C post p ⟨t, m.history⟩ := by
  cases p with
  | done | call => exact fun u hu => h u (C.trans ht hu)

theorem Safe.of_inv
    (h : ∀ t, C.rely m.state t → C.inv ⟨t, m.history⟩ → Safe C post p ⟨t, m.history⟩) :
    Safe C post p m := by
  cases p with
  | done | call => exact fun t ht hinv => h t ht hinv t (C.refl t) hinv

theorem Safe.done (h : ∀ t, C.rely m.state t → post r ⟨t, m.history⟩) : Safe C post (.done r) m :=
  fun t ht _ => h t ht

theorem Safe.bind {f : α → Prog F ε β} {Q : Except ε α → Moment F ε σ → Prop}
    {post : Except ε β → Moment F ε σ → Prop} :
    ∀ {m : Moment F ε σ}, Safe C Q p m → (∀ a m, Q (.ok a) m → Safe C post (f a) m) →
      (∀ e m, Q (.error e) m → post (.error e) m) → Safe C post (p >>= f) m := by
  induction p with
  | done r =>
    intro m h hok he
    cases r with
    | ok a => exact Safe.of_inv fun t ht hinv => hok a _ (h t ht hinv)
    | error e => exact fun t ht hinv => he e _ (h t ht hinv)
  | call c next ih =>
    intro m h hok he t ht hinv
    obtain ⟨hmay, hn, hfault⟩ := h t ht hinv
    exact ⟨hmay, ih _ hn hok he, fun hf e => ⟨ih _ (hfault hf e).1 hok he,
      ih _ (hfault hf e).2 hok he⟩⟩

theorem Safe.attempt {post : Except ε (Except ε α) → Moment F ε σ → Prop} :
    ∀ {m : Moment F ε σ}, Safe C (fun r => post (.ok r)) p m → Safe C post p.attempt m := by
  induction p with
  | done r => exact fun h => h
  | call c next ih =>
    intro m h t ht hinv
    obtain ⟨hmay, hok, he⟩ := h t ht hinv
    exact ⟨hmay, ih _ hok, fun hf e => ⟨ih _ (he hf e).1, ih _ (he hf e).2⟩⟩

theorem Safe.ask {c : F.Call} {post : Except ε (F.Reply c) → Moment F ε σ → Prop}
    (h : ∀ t, C.rely m.state t → C.inv ⟨t, m.history⟩ → C.may ⟨t, m.history⟩ c)
    (hp : ∀ t u, C.rely m.state t → C.rely (D.after c ⟨t, m.history⟩).state u →
      post (D.reply c ⟨t, m.history⟩) ⟨u, (D.after c ⟨t, m.history⟩).history⟩)
    (hfault : C.faults → ∀ e t, C.rely m.state t → post (.error e) ⟨t, m.history⟩)
    (hl : C.faults → ∀ e t u, C.rely m.state t → C.rely (D.after c ⟨t, m.history⟩).state u →
      post (.error e) ⟨u, (D.after c ⟨t, m.history⟩).history⟩) :
    Safe C post (Prog.ask c) m :=
  fun t ht hinv => ⟨h t ht hinv, fun u hu _ => hp t u ht hu,
    fun hf e => ⟨fun u hu _ => hfault hf e u (C.trans ht hu), fun u hu _ => hl hf e t u ht hu⟩⟩

/-! ## Soundness -/

theorem Safe.advance (act : ι → σ → σ) (turn : Turn ε ι)
    (hinv : C.inv c.moment) (h : Safe C post c.prog c.moment) (hf : turn.Faulty → C.faults)
    (ho : ∀ i, turn = .other i → C.rely c.moment.state (act i c.moment.state)) :
    Safe C post (advance D act c turn).prog (advance D act c turn).moment ∧
      Path C c.moment (advance D act c turn).moment := by
  obtain ⟨p, m⟩ := c
  have hother := fun i hi => And.intro (h.others (ho i hi)) (Path.others (.refl m) (ho i hi))
  cases p with
  | done r =>
    cases turn with
    | other i => exact hother i rfl
    | _ => exact ⟨h, .refl m⟩
  | call q next =>
    obtain ⟨hmay, hok, he⟩ := h m.state (C.refl _) hinv
    cases turn with
    | other i => exact hother i rfl
    | step => exact ⟨hok, .call (.refl m) hmay⟩
    | fault e => exact ⟨(he (hf trivial) e).1, .refl m⟩
    | late e => exact ⟨(he (hf trivial) e).2, .call (.refl m) hmay⟩

/-- What a schedule may hold: steps fail only where the contract has faults, and others keep to
what is relied on. -/
def Contract.Admits (C : Contract D) (act : ι → σ → σ) (turns : List (Turn ε ι)) : Prop :=
  ∀ turn ∈ turns, (turn.Faulty → C.faults) ∧ ∀ i, turn = .other i → ∀ s, C.rely s (act i s)

/-- Wherever a run of a safe program is cut off, it went a way the contract allows, and what is left
of the program is safe. -/
theorem Safe.run {act : ι → σ → σ} {ts : List (Turn ε ι)} (hts : C.Admits act ts) :
    ∀ {c : Config F ε σ α}, C.inv c.moment → Safe C post c.prog c.moment →
      Safe C post (run D act ts c).prog (run D act ts c).moment ∧
        Path C c.moment (run D act ts c).moment := by
  induction ts with
  | nil => exact fun _ h => ⟨h, .refl _⟩
  | cons turn ts ih =>
    intro c hinv h
    obtain ⟨hf, ho⟩ := hts turn List.mem_cons_self
    obtain ⟨hs, hpath⟩ := h.advance act turn hinv hf fun i hi => ho i hi c.moment.state
    obtain ⟨hr, hp'⟩ := ih (fun t ht => hts t (List.mem_cons_of_mem _ ht)) (hpath.inv hinv) hs
    exact ⟨hr, hpath.trans hp'⟩

/-- The next own step of a safe program does nothing, or it is one the contract allows. -/
theorem Safe.own_step (act : ι → σ → σ) (hinv : C.inv c.moment)
    (h : Safe C post c.prog c.moment) (turn : Turn ε ι) (hown : ∀ i, turn ≠ .other i) :
    (Resumption.advance D act c turn).moment = c.moment ∨
      ∃ q, C.may c.moment q ∧ (Resumption.advance D act c turn).moment = D.after q c.moment := by
  obtain ⟨p, m⟩ := c
  cases p with
  | done r =>
    cases turn with
    | other i => exact absurd rfl (hown i)
    | _ => exact .inl rfl
  | call q next =>
    have hmay := (h m.state (C.refl _) hinv).1
    cases turn with
    | other i => exact absurd rfl (hown i)
    | step | late => exact .inr ⟨q, hmay, rfl⟩
    | fault e => exact .inl rfl

theorem Safe.post_of_done (hinv : C.inv c.moment)
    (h : Safe C post c.prog c.moment) (hd : c.prog = .done r) : post r c.moment := by
  rw [hd] at h; exact h c.moment.state (C.refl _) hinv

theorem exists_run_done (D : Device F ε σ) (act : ι → σ → σ) (p : Prog F ε α) :
    ∀ m, ∃ n r, (run D act (List.replicate n .step) ⟨p, m⟩).prog = .done r := by
  induction p with
  | done r => exact fun _ => ⟨0, r, rfl⟩
  | call c next ih =>
    intro m
    obtain ⟨n, r, h⟩ := ih (D.reply c m) (D.after c m)
    exact ⟨n + 1, r, h⟩

end TraceDecay.Resumption
