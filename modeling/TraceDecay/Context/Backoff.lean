import TraceDecay.Context.AdmissionCorrect

/-!
# Context.Backoff

What the search does when a payload no longer fits. It goes back by one payload and adds the marker
of the limit that was broken, once: when the marker itself does not fit there, the search ends in an
error, though a shorter list of payloads may have room for it.
-/

namespace TraceDecay.Context

open Utf8 Fallible Nat

section
variable (ser : Serializer) (policy : TokenPolicy) (prepared : PreparedAdmission)
  (budget : ContextBudget)

/-- The first payloads with a marker are measured, and within both budgets. -/
def Fits (admitted : Nat) (limit : Option BudgetLimit) : Prop :=
  ∃ m, measureCandidate ser policy prepared admitted limit = .ok m ∧
    m.bytes ≤ min budget.maxBytes maxContextOutputBytes ∧ m.tokens ≤ budget.maxTokens

/-- All payloads need no marker, fewer need one of the two. -/
def Needs (admitted : Nat) (limit : Option BudgetLimit) : Prop :=
  admitted = prepared.records.length ∧ limit = none ∨
    admitted < prepared.records.length ∧ limit ≠ none

/-- Some prefix of the payloads fits with the marker it needs. -/
def Feasible : Prop :=
  ∃ admitted limit, Needs prepared admitted limit ∧ Fits ser policy prepared budget admitted limit

/-- The search answers with a prefix that fits with the marker it needs. -/
def Admits (outcome : Except ContextError AdmissionDecision) : Prop :=
  ∃ decision, outcome = .ok decision ∧ Needs prepared decision.admitted decision.limit ∧
    Fits ser policy prepared budget decision.admitted decision.limit

/-- The limit a measure breaks, the bytes looked at first. -/
def exceeded (m : WireMeasure) : Option BudgetLimit :=
  if m.bytes > min budget.maxBytes maxContextOutputBytes then some .byte
  else if m.tokens > budget.maxTokens then some .token
  else none

/-- One payload more breaks a limit, and there is room for the marker of that limit. -/
def LeavesRoom (admitted : Nat) : Prop :=
  ∃ m limit, measureCandidate ser policy prepared (admitted + 1) none = .ok m ∧
    exceeded budget m = some limit ∧ Fits ser policy prepared budget admitted (some limit)

/-- Where the payloads first stop fitting, one fewer leaves room for the marker. -/
def Backs : Prop :=
  Fits ser policy prepared budget 0 none ∧
    ∀ k < prepared.records.length, (∀ j ≤ k, Fits ser policy prepared budget j none) →
      Fits ser policy prepared budget (k + 1) none ∨ LeavesRoom ser policy prepared budget k

variable {ser policy prepared budget} {m : WireMeasure} {a : Nat}

theorem exceeded_eq_none : exceeded budget m = none ↔
    m.bytes ≤ min budget.maxBytes maxContextOutputBytes ∧ m.tokens ≤ budget.maxTokens := by
  unfold exceeded
  split_ifs
  · simp; omega
  · simp; omega
  · simp; omega

theorem fits_of_measure {l : Option BudgetLimit}
    (hm : measureCandidate ser policy prepared a l = .ok m) :
    Fits ser policy prepared budget a l ↔ exceeded budget m = none := by
  rw [exceeded_eq_none]
  constructor
  · rintro ⟨m', hm', hf⟩; obtain rfl : m = m' := Except.ok.inj (hm.symm.trans hm'); exact hf
  · intro hf; exact ⟨m, hm, hf⟩

theorem admits_marked (hlt : a < prepared.records.length) (l : BudgetLimit) :
    Admits ser policy prepared budget (do
      let finalMeasure ← measureCandidate ser policy prepared a (some l)
      requireFit finalMeasure (min budget.maxBytes maxContextOutputBytes) budget.maxTokens
      .ok ⟨a, some l, finalMeasure.bytes, finalMeasure.tokens⟩) ↔
      Fits ser policy prepared budget a (some l) := by
  constructor
  · rintro ⟨decision, h, -, -⟩
    obtain ⟨m, hm, h⟩ := bind_eq_ok.mp h
    obtain ⟨_, hfit, -⟩ := bind_eq_ok.mp h
    exact ⟨m, hm, requireFit_eq_ok.mp hfit⟩
  · intro hf
    obtain ⟨m, hm, hw⟩ := id hf
    refine ⟨⟨a, some l, m.bytes, m.tokens⟩, ?_, .inr ⟨hlt, by simp⟩, hf⟩
    exact bind_eq_ok.mpr ⟨m, hm, bind_eq_ok.mpr ⟨(), requireFit_eq_ok.mpr hw, rfl⟩⟩

theorem admitFrom_admits (r : Nat) (hc : a + r = prepared.records.length)
    (hf : ∀ j ≤ a, Fits ser policy prepared budget j none) :
    Admits ser policy prepared budget (admitFrom ser policy prepared
        (min budget.maxBytes maxContextOutputBytes) budget.maxTokens r (a + 1)) ↔
      ∀ k, a ≤ k → k < prepared.records.length → (∀ j ≤ k, Fits ser policy prepared budget j none) →
        Fits ser policy prepared budget (k + 1) none ∨ LeavesRoom ser policy prepared budget k := by
  induction r generalizing a with
  | zero =>
    have hall : a = prepared.records.length := hc
    obtain ⟨m, hm, hw⟩ := hf a (le_refl _)
    rw [hall] at hm
    refine ⟨fun _ k hle hlt => absurd hlt (by omega), fun _ => ?_⟩
    exact ⟨_, bind_eq_ok.mpr ⟨m, hm, rfl⟩, .inl ⟨rfl, rfl⟩, m, hm, hw⟩
  | succ r ih =>
    have hlt : a < prepared.records.length := by omega
    cases hm : measureCandidate ser policy prepared (a + 1) none with
    | error e =>
      constructor
      · rintro ⟨decision, h, -⟩; rw [admitFrom, hm] at h; cases h
      · intro h
        obtain ⟨m, hm', -⟩ | ⟨m, _, hm', -⟩ := h a (le_refl _) hlt hf
        all_goals cases hm.symm.trans hm'
    | ok m =>
      have hn : Fits ser policy prepared budget (a + 1) none ↔ exceeded budget m = none :=
        fits_of_measure hm
      cases hl : exceeded budget m with
      | none =>
        rw [hl, eq_self, iff_true] at hn
        have hf' : ∀ j ≤ a + 1, Fits ser policy prepared budget j none := by
          intro j hj
          rcases le_succ_iff.mp hj with hj | rfl
          · exact hf j hj
          · exact hn
        unfold exceeded at hl
        simp only [admitFrom, hm, ok_bind, hl]
        rw [ih (by omega) hf']
        refine ⟨fun h k hle hk hp => ?_, fun h k hle => h k (by omega)⟩
        rcases eq_or_lt_of_le hle with rfl | hle
        · exact .inl hn
        · exact h k hle hk hp
      | some limit =>
        have hb : ¬ Fits ser policy prepared budget (a + 1) none := by
          rw [hn, hl]; exact Option.some_ne_none _
        have hs := hl
        unfold exceeded at hs
        simp only [admitFrom, hm, ok_bind, hs]
        rw [Nat.add_sub_cancel, admits_marked hlt limit]
        constructor
        · intro hr k hle hk hp
          -- behind the first one that breaks a limit nothing is looked at
          rcases eq_or_lt_of_le hle with rfl | hle
          · exact .inr ⟨m, limit, hm, hl, hr⟩
          · exact absurd (hp (a + 1) hle) hb
        · intro h
          rcases h a (le_refl _) hlt hf with hfit | ⟨m', limit', hm', hl', hr⟩
          · exact absurd hfit hb
          · obtain rfl : m = m' := Except.ok.inj (hm.symm.trans hm')
            obtain rfl : limit = limit' := Option.some.inj (hl.symm.trans hl')
            exact hr

theorem chooseAdmission_admits : Admits ser policy prepared budget
    (chooseAdmission ser policy prepared budget) ↔ Backs ser policy prepared budget := by
  have hs : Fits ser policy prepared budget 0 none →
      (Admits ser policy prepared budget (chooseAdmission ser policy prepared budget) ↔
        Backs ser policy prepared budget) := by
    intro hf
    have hz : ∀ j ≤ 0, Fits ser policy prepared budget j none := fun j hj => le_zero.mp hj ▸ hf
    have hfrom := admitFrom_admits prepared.records.length (zero_add _) hz
    obtain ⟨m, hm, hw⟩ := id hf
    rw [chooseAdmission, hm, ok_bind, requireFit_eq_ok.mpr hw, ok_bind, hfrom]
    exact ⟨fun h => ⟨hf, fun k => h k (zero_le k)⟩, fun h k _ => h.2 k⟩
  refine ⟨fun h => ?_, fun h => (hs h.1).mpr h⟩
  obtain ⟨decision, hok, -⟩ := id h
  obtain ⟨m, hm, hok⟩ := bind_eq_ok.mp hok
  obtain ⟨_, hfit, -⟩ := bind_eq_ok.mp hok
  exact (hs ⟨m, hm, requireFit_eq_ok.mp hfit⟩).mp h

end

/-- Where some prefix fits with its marker, the search finds one, provided that where the payloads
first stop fitting one fewer leaves room for the marker. -/
theorem chooseAdmission_backs_off (ser : Serializer) (policy : TokenPolicy)
    (prepared : PreparedAdmission) (budget : ContextBudget) :
    (Feasible ser policy prepared budget →
      Admits ser policy prepared budget (chooseAdmission ser policy prepared budget)) ↔
    (Feasible ser policy prepared budget → Backs ser policy prepared budget) := by
  rw [chooseAdmission_admits]

def oneWrite : Serializer := ⟨fun text => [encode text], by simp⟩

def twoPayloads : List Payload :=
  [⟨⟨"a1", by decide⟩, encode ['h', 'i']⟩, ⟨⟨"a2", by decide⟩, encode ['h', 'o']⟩]

/-- The documents of no, one and two payloads have 285, 405 and 527 bytes, and the marker takes 41.
The first document has room for it under 420 bytes; the second has none, and is the one tried. -/
theorem marker_breaks_budget : ∃ prepared,
    prepareAdmission oneWrite .characters twoPayloads .turn ⟨[], [], [], {}, [], [], 0⟩ [] "v1" =
        .ok prepared ∧
      Feasible oneWrite .characters prepared ⟨420, 1000, "v1"⟩ ∧
      chooseAdmission oneWrite .characters prepared ⟨420, 1000, "v1"⟩ =
        .error (.budgetExceeded "byte") := by
  have hrun : (do
      let prepared ← prepareAdmission oneWrite .characters twoPayloads .turn
        ⟨[], [], [], {}, [], [], 0⟩ [] "v1"
      let marked ← measureCandidate oneWrite .characters prepared 0 (some .byte)
      .ok (prepared.records.length, marked.bytes, marked.tokens,
        (chooseAdmission oneWrite .characters prepared ⟨420, 1000, "v1"⟩).map (·.admitted))) =
      (.ok (2, 326, 326, .error (.budgetExceeded "byte")) :
        Except ContextError (Nat × Nat × Nat × Except ContextError Nat)) := by
    decide +kernel
  obtain ⟨prepared, hp, hrun⟩ := bind_eq_ok.mp hrun
  obtain ⟨marked, hm, hrun⟩ := bind_eq_ok.mp hrun
  simp only [Except.ok.injEq, Prod.mk.injEq] at hrun
  obtain ⟨hr, hb, ht, hc⟩ := hrun
  refine ⟨prepared, hp, ⟨0, some .byte, .inr ⟨by omega, by simp⟩, marked, hm, ?_, ?_⟩, ?_⟩
  · rw [hb]; decide
  · rw [ht]; decide
  · cases h : chooseAdmission oneWrite .characters prepared ⟨420, 1000, "v1"⟩ with
    | error e => rw [h] at hc; exact congrArg _ (Except.error.inj hc)
    | ok decision => rw [h] at hc; cases hc

end TraceDecay.Context
