import Mathlib.Data.List.Basic

/-!
# Lib.Incremental

Decoders that are called on a growing buffer. A call hands out a frame and the bytes behind it,
asks for more bytes, or fails; `feed` appends one chunk after another, draining the buffer after
each, and asks the decoder for its last word when the input has ended.

`splits_agree_iff`: how the input was cut into chunks shows in nothing that is handed out exactly
when, at every frame boundary of the input, a call on part of what follows fails only as the call
on all of it does.
-/

namespace Incremental

variable {β φ ε : Type}

abbrev Decoder (β φ ε : Type) := List β → Except ε (Option (φ × List β))

/-- The frames handed out, in order, and the error the input was given up at. -/
structure Outcome (φ ε : Type) where
  frames : List φ
  error : Option ε
deriving DecidableEq

/-- Frames off the front of the buffer until the decoder asks for more or fails. -/
def drain (decode : Decoder β φ ε) : Nat → List β → List φ × Except ε (List β)
  | 0, buffer => ([], .ok buffer)
  | fuel + 1, buffer =>
    match decode buffer with
    | .error e => ([], .error e)
    | .ok none => ([], .ok buffer)
    | .ok (some (frame, rest)) =>
      let (frames, left) := drain decode fuel rest
      (frame :: frames, left)

/-- The whole input, chunk by chunk, from what `buffer` holds. A frame takes at least one byte, so
a buffer is drained within as many calls as it has bytes, and one more. -/
def feed (decode decodeEof : Decoder β φ ε) (buffer : List β) : List (List β) → Outcome φ ε
  | [] =>
    match drain decodeEof (buffer.length + 1) buffer with
    | (frames, .error e) => ⟨frames, some e⟩
    | (frames, .ok _) => ⟨frames, none⟩
  | chunk :: chunks =>
    match drain decode ((buffer ++ chunk).length + 1) (buffer ++ chunk) with
    | (frames, .error e) => ⟨frames, some e⟩
    | (frames, .ok rest) =>
      let more := feed decode decodeEof rest chunks
      ⟨frames ++ more.frames, more.error⟩

/-- A frame is read off bytes of its own, whatever stands behind them; input that ends where no
frame has begun ends well, and anywhere else with `eof`, an error of the end of input alone. -/
structure Framed (decode decodeEof : Decoder β φ ε) (eof : ε) : Prop where
  consumes : ∀ {s r : List β} {f : φ}, decode s = .ok (some (f, r)) →
    ∃ c, c ≠ [] ∧ s = c ++ r ∧ ∀ t, decode (c ++ t) = .ok (some (f, t))
  empty : decode [] = .ok none
  eof_empty : decodeEof [] = .ok none
  eof_pending : ∀ {s : List β}, decode s = .ok none → s ≠ [] → decodeEof s = .error eof
  not_eof : ∀ s : List β, decode s ≠ .error eof

/-- `r` is what the frames `fs` leave of `s`. -/
inductive Takes (decode : Decoder β φ ε) : List β → List φ → List β → Prop where
  | refl (s : List β) : Takes decode s [] s
  | step {s s' r : List β} {f : φ} {fs : List φ} :
      decode s = .ok (some (f, s')) → Takes decode s' fs r → Takes decode s (f :: fs) r

/-- How a drained buffer ends once nothing more will come. -/
inductive Stops (decode : Decoder β φ ε) (eof : ε) : List β → Option ε → Prop where
  | failed {r : List β} {e : ε} : decode r = .error e → Stops decode eof r (some e)
  | ended : decode [] = .ok none → Stops decode eof [] none
  | pending {r : List β} : decode r = .ok none → r ≠ [] → Stops decode eof r (some eof)

/-- The outcome of an input that has arrived as a whole. -/
def Result (decode : Decoder β φ ε) (eof : ε) (s : List β) (o : Outcome φ ε) : Prop :=
  ∃ r, Takes decode s o.frames r ∧ Stops decode eof r o.error

/-- A failure on part of the bytes behind a frame boundary is the failure on all of them. -/
def Steady (decode : Decoder β φ ε) (s : List β) : Prop :=
  ∀ fs b t e, Takes decode s fs (b ++ t) → decode b = .error e → decode (b ++ t) = .error e

section Takes

variable {decode decodeEof : Decoder β φ ε} {eof : ε}
  {fs : List φ} {r s : List β} {q : List β} {gs : List φ} {o : Outcome φ ε} {e : Option ε}

theorem Takes.trans (h : Takes decode s fs r)
    (h' : Takes decode r gs q) : Takes decode s (fs ++ gs) q := by
  induction h with
  | refl => exact h'
  | step hs _ ih => exact .step hs (ih h')

theorem Takes.unique (h : Takes decode s fs r) (h' : Takes decode s fs q) : r = q := by
  induction h with
  | refl => cases h'; rfl
  | step hs _ ih =>
    cases h' with
    | step hs' h' => rw [hs] at hs'; cases hs'; exact ih h'

theorem Takes.local (H : Framed decode decodeEof eof)
    (h : Takes decode s fs r) : ∃ c, s = c ++ r ∧ ∀ t, Takes decode (c ++ t) fs t := by
  induction h with
  | refl => exact ⟨[], rfl, Takes.refl⟩
  | step hs _ ih =>
    obtain ⟨c, -, rfl, hc⟩ := H.consumes hs
    obtain ⟨d, rfl, hd⟩ := ih
    refine ⟨c ++ d, (List.append_assoc ..).symm, fun t => ?_⟩
    rw [List.append_assoc]; exact .step (hc (d ++ t)) (hd t)

theorem Takes.append (H : Framed decode decodeEof eof)
    (h : Takes decode s fs r) (t : List β) : Takes decode (s ++ t) fs (r ++ t) := by
  obtain ⟨c, rfl, hc⟩ := h.local H
  rw [List.append_assoc]; exact hc (r ++ t)

theorem Steady.rest (h : Steady decode s) (hr : Takes decode s fs r) : Steady decode r :=
  fun gs b t e hb he => h (fs ++ gs) b t e (hr.trans hb) he

theorem Result.of_takes (hr : Takes decode s fs r)
    (h : Result decode eof r o) : Result decode eof s ⟨fs ++ o.frames, o.error⟩ := by
  obtain ⟨q, hq, hstop⟩ := h
  exact ⟨q, hr.trans hq, hstop⟩

/-- Where no further frame is in reach, the frames before are all there are. -/
theorem Takes.unique_of_stuck (hr : Takes decode s fs r)
    (hq : Takes decode s gs q) (hstuck : ∀ f t, decode r ≠ .ok (some (f, t)))
    (hsk' : ∀ f t, decode q ≠ .ok (some (f, t))) : fs = gs ∧ r = q := by
  induction hr generalizing gs with
  | refl =>
    cases hq with
    | refl => exact ⟨rfl, rfl⟩
    | step hs _ => exact absurd hs (hstuck _ _)
  | step hs _ ih =>
    cases hq with
    | refl => exact absurd hs (hsk' _ _)
    | step hs' hq =>
      rw [hs] at hs'
      cases hs'
      obtain ⟨rfl, rfl⟩ := ih hq hstuck
      exact ⟨rfl, rfl⟩

theorem Stops.stuck (h : Stops decode eof r e) (f : φ) (t : List β) :
    decode r ≠ .ok (some (f, t)) := by
  intro hr
  cases h with
  | failed he => rw [he] at hr; cases hr
  | ended hn => rw [hn] at hr; cases hr
  | pending hn _ => rw [hn] at hr; cases hr

theorem Stops.unique {e' : Option ε} (h : Stops decode eof r e)
    (h' : Stops decode eof r e') : e = e' := by
  cases h with
  | failed he =>
    cases h' with
    | failed he' => rw [he] at he'; cases he'; rfl
    | ended hn => rw [he] at hn; cases hn
    | pending hn _ => rw [he] at hn; cases hn
  | ended hn =>
    cases h' with
    | failed he => rw [hn] at he; cases he
    | ended _ => rfl
    | pending _ hne => exact absurd rfl hne
  | pending hn hne =>
    cases h' with
    | failed he => rw [hn] at he; cases he
    | ended _ => exact absurd rfl hne
    | pending _ _ => rfl

theorem Result.unique {o' : Outcome φ ε} (h : Result decode eof s o)
    (h' : Result decode eof s o') : o = o' := by
  obtain ⟨r, hr, hstop⟩ := h
  obtain ⟨q, hq, hs'⟩ := h'
  obtain ⟨hf, rfl⟩ := hr.unique_of_stuck hq hstop.stuck hs'.stuck
  cases o
  cases o'
  cases hf
  cases hstop.unique hs'; rfl

end Takes

variable {decode decodeEof : Decoder β φ ε} {eof : ε}

variable (H : Framed decode decodeEof eof)
include H

variable {s : List β} {c : List (List β)} {fs : List φ}

theorem drain_takes {fuel : Nat} (hf : s.length < fuel) : ∃ fs r, Takes decode s fs r ∧
      ((decode r = .ok none ∧ drain decode fuel s = (fs, .ok r)) ∨
        ∃ e, decode r = .error e ∧ drain decode fuel s = (fs, .error e)) := by
  induction fuel generalizing s with
  | zero => omega
  | succ fuel ih =>
    rcases hd : decode s with e | _ | ⟨f, rest⟩
    · exact ⟨[], s, .refl s, .inr ⟨e, hd, by simp [drain, hd]⟩⟩
    · exact ⟨[], s, .refl s, .inl ⟨hd, by simp [drain, hd]⟩⟩
    · obtain ⟨c, hc, rfl, -⟩ := H.consumes hd
      have hs : rest.length < fuel := by
        have hpos := List.length_pos_of_ne_nil hc
        rw [List.length_append] at hf; omega
      obtain ⟨fs, r, ht, hr⟩ := ih hs
      refine ⟨f :: fs, r, .step hd ht, ?_⟩
      obtain ⟨hn, hr⟩ | ⟨e, he, hr⟩ := hr
      · exact .inl ⟨hn, by simp [drain, hd, hr]⟩
      · exact .inr ⟨e, he, by simp [drain, hd, hr]⟩

theorem feed_nil (hs : decode s = .ok none) : Result decode eof s (feed decode decodeEof s []) := by
  by_cases hne : s = []
  · subst hne
    exact ⟨[], by simpa [feed, drain, H.eof_empty] using .refl [],
      by simpa [feed, drain, H.eof_empty] using .ended hs⟩
  · exact ⟨s, by simpa [feed, drain, H.eof_pending hs hne] using .refl s,
      by simpa [feed, drain, H.eof_pending hs hne] using .pending hs hne⟩

theorem feed_cons (s chunk : List β) (c : List (List β)) : ∃ fs r, Takes decode (s ++ chunk) fs r ∧
      ((decode r = .ok none ∧ feed decode decodeEof s (chunk :: c) =
          ⟨fs ++ (feed decode decodeEof r c).frames, (feed decode decodeEof r c).error⟩) ∨
        ∃ e, decode r = .error e ∧ feed decode decodeEof s (chunk :: c) = ⟨fs, some e⟩) := by
  obtain ⟨fs, r, ht, ⟨hn, hr⟩ | ⟨e, he, hr⟩⟩ := drain_takes H (Nat.lt_succ_self (s ++ chunk).length)
  · exact ⟨fs, r, ht, .inl ⟨hn, by simp only [feed, hr]⟩⟩
  · exact ⟨fs, r, ht, .inr ⟨e, he, by simp only [feed, hr]⟩⟩

/-- Every cut of a steady input has the outcome of the whole. The induction is on the chunks still
to come; the buffer holds no whole frame between them. -/
theorem feed_result (hs : decode s = .ok none) (hsteady : Steady decode (s ++ c.flatten)) :
    Result decode eof (s ++ c.flatten) (feed decode decodeEof s c) := by
  induction c generalizing s with
  | nil => simpa using feed_nil H hs
  | cons chunk c ih =>
    rw [List.flatten_cons, ← List.append_assoc] at hsteady ⊢
    obtain ⟨fs, r, ht, ⟨hn, hr⟩ | ⟨e, he, hr⟩⟩ := feed_cons H s chunk c
    · have htakes :=
        ht.append H c.flatten; rw [hr]; exact .of_takes htakes (ih hn (hsteady.rest htakes))
    · have htakes := ht.append H c.flatten
      rw [hr]; exact ⟨_, htakes, .failed (hsteady fs r c.flatten e htakes he)⟩

theorem feed_whole (s : List β) : Result decode eof s (feed decode decodeEof [] [s]) := by
  obtain ⟨fs, r, ht, ⟨hn, hr⟩ | ⟨e, he, hr⟩⟩ := feed_cons H [] s []
  · rw [hr]; exact .of_takes ht (feed_nil H hn)
  · rw [hr]; exact ⟨r, ht, .failed he⟩

/-- A cut inside the bytes behind a frame boundary, where the decoder fails on the part before
it, ends the run there. -/
theorem feed_cut {c b : List β} {e : ε}
    (hc : Takes decode (c ++ b) fs b) (he : decode b = .error e) (t : List β) :
    feed decode decodeEof [] [c ++ b, t] = ⟨fs, some e⟩ := by
  obtain ⟨gs, r, hgs, ⟨hn, -⟩ | ⟨e', he', hr⟩⟩ := feed_cons H [] (c ++ b) [t]
  · obtain ⟨-, rfl⟩ := hc.unique_of_stuck hgs (by simp [he]) (by simp [hn]); rw [he] at hn; cases hn
  · obtain ⟨rfl, rfl⟩ := hc.unique_of_stuck hgs (by simp [he]) (by simp [he'])
    rw [he] at he'
    cases he'; exact hr

theorem splits_agree_iff (s : List β) : (∀ cs ds : List (List β), cs.flatten = s → ds.flatten = s →
      feed decode decodeEof [] cs = feed decode decodeEof [] ds) ↔ Steady decode s := by
  constructor
  · intro h fs b t e ht he
    obtain ⟨c, rfl, hc⟩ := ht.local H
    have hcut := feed_cut H (hc b) he t
    rw [h [c ++ b, t] [c ++ (b ++ t)] (by simp) (by simp)] at hcut
    have hw := feed_whole H (c ++ (b ++ t))
    rw [hcut] at hw
    obtain ⟨r, hr, hstop⟩ := hw
    have hrt : r = b ++ t := hr.unique ht
    cases hstop with
    | failed he' => exact hrt ▸ he'
    | pending => exact absurd he (H.not_eof b)
  · rintro h cs ds rfl hflat
    have hcs : Result decode eof cs.flatten _ := feed_result H H.empty h
    have hds' : Result decode eof ds.flatten _ := feed_result H H.empty (hflat ▸ h)
    exact hcs.unique (hflat ▸ hds')

/-- Frames up to the very end of a steady input are handed out under every cut of it. -/
theorem feed_of_takes_all (hs : Steady decode s) (h : Takes decode s fs [])
    (hc : c.flatten = s) : feed decode decodeEof [] c = ⟨fs, none⟩ := by
  subst hc
  have hr : Result decode eof c.flatten _ := feed_result H H.empty hs
  exact hr.unique ⟨[], h, .ended H.empty⟩

end Incremental
