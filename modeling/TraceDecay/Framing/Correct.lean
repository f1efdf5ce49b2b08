import TraceDecay.Lib.Lines
import TraceDecay.Framing.Reader

/-!
# Framing.Correct

The bounded line reader is line splitting. `Emits` is the abstract reader: it holds the lines
still to come and each read takes the first of them, or reports the end of input. The concrete
reader refines it: `Holds max self cur` says that the reader carries exactly the bytes `cur` of
the unfinished line, and every pass through the read loop keeps `cur ++ rest`, the part of the
stream not yet reported, except that a returned frame takes its line off the front.

`bounded_reader_splits_lines` states the whole run: any chunking, any suspension points, any
schedule of polls and drops.
-/

namespace TraceDecay.Framing

open Lines List
open BoundedLineReader (finishAtEof finishFrame new retain takeLine takeOversized)

abbrev Result := Except IoError BoundedLineOutcome

/-- `bytes` without the one trailing carriage return a line may carry. -/
inductive Content : List UInt8 → List UInt8 → Prop where
  | crlf (body : List UInt8) : Content (body ++ [carriageReturn]) body
  | bare {line : List UInt8} : line.getLast? ≠ some carriageReturn → Content line line

/-- A prefix an oversized line may be reported with. -/
structure OversizePrefix (maxBytes : Nat) (line shown : List UInt8) : Prop where
  exceeds : maxBytes < line.length
  isPrefix : shown <+: line
  bounded : shown.length ≤ mcpOversizeIdInspectBytes
  exact : mcpOversizeIdInspectBytes ≤ maxBytes → shown = line.take mcpOversizeIdInspectBytes

/-- What a read may return for `line`. -/
inductive FrameOf (maxBytes : Nat) (line : List UInt8) : Result → Prop where
  | text {content : List UInt8} {s : String} : line.length ≤ maxBytes → Content line content →
      s.toByteArray = ⟨content.toArray⟩ → FrameOf maxBytes line (.ok (.ready (some s)))
  | notUtf8 {content : List UInt8} : line.length ≤ maxBytes → Content line content →
      ¬ ByteArray.IsValidUTF8 ⟨content.toArray⟩ → FrameOf maxBytes line (.error .wireInputNotUtf8)
  | oversized {shown : List UInt8} : OversizePrefix maxBytes line shown →
      FrameOf maxBytes line (.ok (.oversized shown))

/-- One read of the abstract reader, from the lines to come before it to those after it. A failed
transport read takes no line. -/
inductive Emits (maxBytes : Nat) : List (List UInt8) → Result → List (List UInt8) → Prop where
  | frame {line : List UInt8} {more : List (List UInt8)} {r : Result} :
      FrameOf maxBytes line r → Emits maxBytes (line :: more) r more
  | eof : Emits maxBytes [] (.ok (.ready none)) []
  | failed (ls : List (List UInt8)) (code : Nat) : Emits maxBytes ls (.error (.transport code)) ls

inductive Reads (maxBytes : Nat) : List (List UInt8) → List Result → Prop where
  | done (ls : List (List UInt8)) : Reads maxBytes ls []
  | next {ls ls' : List (List UInt8)} {r : Result} {rs : List Result} :
      Emits maxBytes ls r ls' → Reads maxBytes ls' rs → Reads maxBytes ls (r :: rs)

/-! ## The partial frame -/

/-- The reader carries the bytes `cur` of an unfinished line: the bytes themselves while they fit,
and the verdict with its prefix once they do not. -/
structure Holds (maxBytes : Nat) (r : BoundedLineReader) (cur : List UInt8) : Prop where
  unfinished : newline ∉ cur
  fits : r.oversized = false → r.retained = cur ∧ cur.length ≤ maxBytes
  cut : r.oversized = true → r.retained = [] ∧ OversizePrefix maxBytes cur r.inspectPrefix

theorem Holds.fresh (maxBytes : Nat) (inner : BufSource) : Holds maxBytes (.new inner) [] :=
  ⟨by simp, fun _ => ⟨rfl, Nat.zero_le _⟩, fun h => by simp [new] at h⟩

variable {cur : List UInt8} {maxBytes : Nat} {r : BoundedLineReader} {inner : BufSource}
  {self : BoundedLineReader} {line : List UInt8}

theorem Holds.withInner
    (h : Holds maxBytes self cur) (inner : BufSource) : Holds maxBytes { self with inner } cur :=
  ⟨h.unfinished, h.fits, h.cut⟩

theorem OversizePrefix.append {shown : List UInt8} (h : OversizePrefix maxBytes line shown)
    (more : List UInt8) : OversizePrefix maxBytes (line ++ more) shown := by
  refine ⟨?_, h.isPrefix.trans (prefix_append line more), h.bounded, ?_⟩
  · have := h.exceeds; simp only [length_append]; omega
  · intro hmax
    have := h.exceeds
    rw [h.exact hmax, take_append_of_le_length (by omega)]

theorem captureInspectPrefix_eq (read next : List UInt8) :
    captureInspectPrefix read next = (read ++ next).take mcpOversizeIdInspectBytes := by
  unfold captureInspectPrefix
  by_cases hlen : read.length < mcpOversizeIdInspectBytes
  · have hmin : min read.length mcpOversizeIdInspectBytes = read.length := by omega
    simp only [hmin, take_length, hlen, if_true]
    rw [take_append, take_of_length_le (Nat.le_of_lt hlen), Nat.min_comm, ← take_take,
      take_of_length_le (length_take_le' _ _)]
  · have hmin : min read.length mcpOversizeIdInspectBytes = mcpOversizeIdInspectBytes := by
      omega
    have hout : ¬ (read.take mcpOversizeIdInspectBytes).length < mcpOversizeIdInspectBytes := by
      rw [length_take]; omega
    simp only [hmin, hout, if_false]
    rw [take_append_of_le_length (by omega)]

theorem Holds.retain {content : List UInt8} (h : Holds maxBytes self cur)
    (hc : newline ∉ content) : Holds maxBytes (self.retain maxBytes content) (cur ++ content) := by
  have hopen : newline ∉ cur ++ content := by
    simp only [mem_append, not_or]; exact ⟨h.unfinished, hc⟩
  unfold BoundedLineReader.retain
  by_cases hover : self.oversized = true
  · rw [if_pos hover]
    obtain ⟨hr, hp⟩ := h.cut hover
    exact ⟨hopen, fun hf => absurd (hover.symm.trans hf) (by simp), fun _ => ⟨hr, hp.append content⟩⟩
  obtain ⟨hr, hlen⟩ := h.fits (by simpa using hover)
  rw [if_neg hover]
  simp only [hr]
  by_cases hroom : content.length > maxBytes - cur.length
  · -- the line crosses the cap in this chunk: its first bytes are still all at hand
    rw [if_pos hroom]
    refine ⟨hopen, fun hf => by simp at hf, fun _ => ⟨rfl, ?_, ?_, ?_, ?_⟩⟩
    · rw [length_append]; omega
    · simp only [captureInspectPrefix_eq]; exact List.take_prefix _ _
    · simp only [captureInspectPrefix_eq, length_take]; omega
    · intro _; simp only [captureInspectPrefix_eq]
  · rw [if_neg hroom]
    refine ⟨hopen, fun _ => ⟨rfl, ?_⟩, fun hf => by simp [hover] at hf⟩
    rw [length_append]; omega

theorem takeLineString_frame (hlen : line.length ≤ maxBytes) :
    FrameOf maxBytes line ((takeLineString line).map fun text => .ready (some text)) := by
  obtain ⟨content, hcontent, hs⟩ : ∃ content, Content line content ∧
      (if line.getLast? = some carriageReturn then line.dropLast else line) = content := by
    by_cases hreturn : line.getLast? = some carriageReturn
    · obtain ⟨body, rfl⟩ := getLast?_eq_some_iff.mp hreturn; exact ⟨body, .crlf body, by simp⟩
    · exact ⟨line, .bare hreturn, by rw [if_neg hreturn]⟩
  simp only [takeLineString, hs, String.fromUTF8?]
  by_cases hv : ByteArray.IsValidUTF8 ⟨content.toArray⟩
  · rw [dif_pos (by simpa [ByteArray.validateUTF8_eq_true_iff] using hv)]; exact .text hlen hcontent
      rfl
  · rw [dif_neg (by simpa [ByteArray.validateUTF8_eq_true_iff] using hv)]
    exact .notUtf8 hlen hcontent hv

theorem finishFrame_frame (h : Holds maxBytes r cur) :
    FrameOf maxBytes cur r.finishFrame.1 ∧ Holds maxBytes r.finishFrame.2 [] := by
  unfold finishFrame
  by_cases hover : r.oversized = true
  · obtain ⟨hr, hp⟩ := h.cut hover
    simp only [hover, if_true, takeOversized]
    exact ⟨.oversized hp, by simp, fun _ => ⟨hr, Nat.zero_le _⟩, fun hf => by simp at hf⟩
  · obtain ⟨hr, hlen⟩ := h.fits (by simpa using hover)
    simp only [hover, takeLine, hr]
    exact ⟨takeLineString_frame hlen, by simp, fun _ => ⟨rfl, Nat.zero_le _⟩,
      fun hf => by simp at hf⟩

theorem FrameOf.not_transport {rt : Result}
    (h : FrameOf maxBytes line rt) (code : Nat) : rt ≠ .error (.transport code) := by
  cases h <;> simp

theorem finishAtEof_emits (h : Holds maxBytes r cur) :
    Emits maxBytes (lines newline cur) r.finishAtEof.1 [] ∧ Holds maxBytes r.finishAtEof.2 [] ∧
      ∀ code, r.finishAtEof.1 ≠ .error (.transport code) := by
  rw [lines_of_not_mem h.unfinished]
  by_cases hcur : cur = []
  · subst hcur
    have hfits : r.oversized = false := by
      cases hc : r.oversized with
      | false => rfl
      | true => exact absurd (h.cut hc).2.exceeds (by simp)
    obtain ⟨hr, -⟩ := h.fits hfits
    simp only [finishAtEof, hfits, hr]; exact ⟨.eof, h, by simp⟩
  · have hsame : r.finishAtEof = r.finishFrame := by
      unfold finishAtEof finishFrame
      split
      · rfl
      · rename_i hfits
        rw [if_neg (by rw [(h.fits (by simpa using hfits)).1]; exact hcur)]
    have hb : (cur == []) = false := by simpa using hcur
    rw [hsame, hb]
    obtain ⟨hf, hh⟩ := finishFrame_frame h
    exact ⟨.frame hf, hh, hf.not_transport⟩

/-! The frame operations leave the transport alone. -/

@[simp] theorem retain_inner (r : BoundedLineReader) (maxBytes : Nat) (c : List UInt8) :
    (r.retain maxBytes c).inner = r.inner := by
  simp only [retain]
  split
  · rfl
  · split <;> rfl

@[simp] theorem finishFrame_inner (r : BoundedLineReader) : r.finishFrame.2.inner = r.inner := by
  unfold finishFrame
  split <;> rfl

@[simp] theorem finishAtEof_inner (r : BoundedLineReader) : r.finishAtEof.2.inner = r.inner := by
  unfold finishAtEof
  split
  · rfl
  · split <;> rfl

/-! ## One pass and one poll -/

def Arrival.isPending : Arrival → Bool
  | .pending => true
  | _ => false

variable (s : BufSource)

def BufSource.pendings : Nat := s.arrivals.countP Arrival.isPending

/-- Everything `fill_buf` can do: suspend, fail, report the end, or show non-empty bytes of the
same stream, taking at most one arrival. -/
theorem fillBuf_cases : (∃ inner, s.fillBuf = (.pending, inner) ∧ inner.rest = s.rest ∧
      s.arrivals = .pending :: inner.arrivals) ∨
    (∃ code inner, s.fillBuf = (.ready (.error (.transport code)), inner) ∧
      inner.rest = s.rest ∧ s.arrivals = .failed code :: inner.arrivals) ∨
    (s.fillBuf = (.ready (.ok []), s) ∧ s.rest = []) ∨
    (∃ inner, s.fillBuf = (.ready (.ok inner.buffered), inner) ∧ inner.buffered ≠ [] ∧
      inner.rest = s.rest ∧ (s.buffered ≠ [] ∧ inner = s ∨
        s.buffered = [] ∧ ∃ b, s.arrivals = b :: inner.arrivals ∧ b.isPending = false)) := by
  obtain ⟨buffered, arrivals⟩ := s
  unfold BufSource.fillBuf
  by_cases hb : buffered = []
  · subst hb
    cases arrivals with
    | nil => exact .inr (.inr (.inl ⟨rfl, rfl⟩))
    | cons a more =>
      cases a with
      | pending => exact .inl ⟨⟨[], more⟩, rfl, rfl, rfl⟩
      | failed code => exact .inr (.inl ⟨code, ⟨[], more⟩, rfl, rfl, rfl⟩)
      | chunk bytes hne =>
        refine .inr (.inr (.inr ⟨⟨bytes, more⟩, rfl, hne, rfl, .inr ⟨rfl, _, rfl, rfl⟩⟩))
  · refine .inr (.inr (.inr ⟨⟨buffered, arrivals⟩, ?_, hb, rfl, .inl ⟨hb, rfl⟩⟩)); simp [hb]

theorem cut_at_newline (a : List UInt8) : (newline ∉ a ∧ a.findIdx? (· == newline) = none) ∨
    ∃ body more, a = body ++ newline :: more ∧ newline ∉ body ∧
      a.findIdx? (· == newline) = some body.length := by
  have hnone : ∀ {a : List UInt8}, newline ∉ a → a.findIdx? (· == newline) = none := fun h =>
    findIdx?_eq_none_iff.mpr fun b hb => beq_false_of_ne (ne_of_mem_of_not_mem hb h)
  by_cases h : newline ∈ a
  · obtain ⟨body, more, rfl, hb⟩ := eq_append_cons_of_mem h
    exact .inr ⟨body, more, rfl, hb, by simp [findIdx?_append, hnone hb, findIdx?_cons]⟩
  · exact .inl ⟨h, hnone h⟩

/-- What a reader and its partial frame have still to report. -/
def toCome (r : BoundedLineReader) (cur : List UInt8) : List (List UInt8) :=
  lines newline (cur ++ r.inner.rest)

/-- The passes left before the read must suspend or return. -/
def BufSource.passes : Nat := s.arrivals.length + if s.buffered = [] then 0 else 1

/-- The transport moved from `s` to `s'` without suspending. -/
structure Advanced (s s' : BufSource) : Prop where
  suffix : s'.arrivals <:+ s.arrivals
  pendings : s'.pendings = s.pendings

/-- Everything one pass through the loop can do to the frame, the stream and the transport. -/
inductive Pass (maxBytes : Nat) (r : BoundedLineReader) (cur : List UInt8) : Turn → Prop where
  | suspended {r' : BoundedLineReader} : Holds maxBytes r' cur → toCome r' cur = toCome r cur →
      r.inner.arrivals = .pending :: r'.inner.arrivals → Pass maxBytes r cur (.suspended r')
  | returned {r' : BoundedLineReader} {result : Result} {cur' : List UInt8} :
      Holds maxBytes r' cur' → Emits maxBytes (toCome r cur) result (toCome r' cur') →
      (∀ code, result = .error (.transport code) → .failed code ∈ r.inner.arrivals) →
      Advanced r.inner r'.inner → Pass maxBytes r cur (.returned result r')
  | again {r' : BoundedLineReader} {cur' : List UInt8} :
      Holds maxBytes r' cur' → toCome r' cur' = toCome r cur → Advanced r.inner r'.inner →
      r'.inner.passes < r.inner.passes → Pass maxBytes r cur (.again r')

theorem Advanced.rfl : Advanced s s := ⟨suffix_rfl, Eq.refl _⟩

theorem Advanced.of_shown {s : BufSource} (h : s.buffered ≠ [] ∧ inner = s ∨
      s.buffered = [] ∧ ∃ b, s.arrivals = b :: inner.arrivals ∧ b.isPending = false) :
    Advanced s inner := by
  rcases h with ⟨-, hs⟩ | ⟨-, b, hb, hp⟩
  · exact hs ▸ .rfl s
  · refine ⟨⟨[b], by simp [hb]⟩, ?_⟩; simp [BufSource.pendings, hb, hp]

variable (h : Holds maxBytes r cur)
include h

theorem pass_failed {code : Nat} (hr : inner.rest = r.inner.rest)
    (ha : r.inner.arrivals = .failed code :: inner.arrivals) :
    Pass maxBytes r cur (.returned (.error (.transport code)) { r with inner }) := by
  refine .returned (h.withInner inner) ?_ ?_ ⟨⟨[.failed code], by simp [ha]⟩, ?_⟩
  · have hsame : toCome { r with inner } cur = toCome r cur := by simp [toCome, hr]
    rw [hsame]; exact .failed _ code
  · intro c hc; cases hc; simp [ha]
  · simp [BufSource.pendings, ha, Arrival.isPending]

theorem pass_eof (hr : r.inner.rest = []) :
    Pass maxBytes r cur (.returned r.finishAtEof.1 r.finishAtEof.2) := by
  obtain ⟨he, hh, hnot⟩ := finishAtEof_emits h
  refine .returned hh ?_ (fun c hc => absurd hc (hnot c)) ?_
  · simpa [toCome, hr, lines_nil] using he
  · rw [finishAtEof_inner]; exact .rfl _

theorem pass_again (hr : inner.rest = r.inner.rest) (hadv : Advanced r.inner inner)
    (hline : newline ∉ inner.buffered) (hp : inner.arrivals.length < r.inner.passes) :
    let r1 := retain { r with inner } maxBytes inner.buffered
    Pass maxBytes r cur (.again { r1 with inner := r1.inner.consume inner.buffered.length }) := by
  intro r1
  refine .again (((h.withInner inner).retain hline).withInner _) ?_ ?_ ?_
  · rw [toCome, toCome, ← hr]; simp [r1, BufSource.rest, BufSource.consume]
  · simp only [r1, retain_inner]; exact ⟨hadv.suffix, hadv.pendings⟩
  · simpa [r1, BufSource.passes, BufSource.consume] using hp

theorem pass_frame {body more : List UInt8} (hr : inner.rest = r.inner.rest)
    (hadv : Advanced r.inner inner) (hcut : inner.buffered = body ++ newline :: more)
    (hb : newline ∉ body) : let r1 := retain { r with inner } maxBytes body
    let r2 := { r1 with inner := r1.inner.consume (body.length + 1) }
    Pass maxBytes r cur (.returned r2.finishFrame.1 r2.finishFrame.2) := by
  intro r1 r2
  have hh : Holds maxBytes r2 (cur ++ body) := ((h.withInner inner).retain hb).withInner _
  obtain ⟨hf, hfresh⟩ := finishFrame_frame hh
  have hi : r2.finishFrame.2.inner = ⟨more, inner.arrivals⟩ := by
    simp [r2, r1, BufSource.consume, hcut]
  have hcome : toCome r cur = (cur ++ body) :: toCome r2.finishFrame.2 [] := by
    rw [toCome, toCome, ← hr, hi, nil_append, ← lines_append_sep hh.unfinished]
    simp only [BufSource.rest, hcut]; simp only [append_assoc, cons_append]
  refine .returned hfresh ?_ (fun c hc => absurd hc (hf.not_transport c)) ?_
  · rw [hcome]; exact .frame hf
  · rw [hi]; exact ⟨hadv.suffix, hadv.pendings⟩

theorem readTurn_pass : Pass maxBytes r cur (readTurn maxBytes r) := by
  unfold readTurn
  rcases fillBuf_cases r.inner with ⟨inner, hf, hr, ha⟩ | ⟨code, inner, hf, hr, ha⟩ |
    ⟨hf, hr⟩ | ⟨inner, hf, hne, hr, hs⟩
  · rw [hf]; exact .suspended (h.withInner inner) (by simp [toCome, hr]) ha
  · rw [hf]; exact pass_failed h hr ha
  · rw [hf]; exact pass_eof h hr
  · rw [hf]
    simp only [hne, if_false]
    rcases cut_at_newline inner.buffered with ⟨hline, hidx⟩ | ⟨body, more, hcut, hbody, hidx⟩
    · simp only [hidx, Option.elim_none, Option.getD_none, take_length, Option.isSome_none,
        Bool.false_eq_true, if_false]
      refine pass_again h hr (.of_shown hs) hline ?_
      rcases hs with ⟨hb, rfl⟩ | ⟨hb, b, hb', -⟩
      · simp [BufSource.passes, hb]
      · simp [BufSource.passes, hb, hb']
    · have ht : inner.buffered.take body.length = body := by rw [hcut]; simp
      simp only [hidx, Option.elim_some, Option.getD_some, ht, Option.isSome_some, if_true]
      exact pass_frame h hr (.of_shown hs) hcut hbody

omit h

/-- Everything one poll can do. It suspends only where the transport did. -/
inductive Polled (maxBytes : Nat) (r : BoundedLineReader) (cur : List UInt8) :
    Poll Result × BoundedLineReader → Prop where
  | pending {r' : BoundedLineReader} {cur' : List UInt8} : Holds maxBytes r' cur' →
      toCome r' cur' = toCome r cur → r'.inner.arrivals <:+ r.inner.arrivals →
      r.inner.pendings = r'.inner.pendings + 1 → Polled maxBytes r cur (.pending, r')
  | ready {r' : BoundedLineReader} {result : Result} {cur' : List UInt8} :
      Holds maxBytes r' cur' → Emits maxBytes (toCome r cur) result (toCome r' cur') →
      (∀ code, result = .error (.transport code) → .failed code ∈ r.inner.arrivals) →
      Advanced r.inner r'.inner → Polled maxBytes r cur (.ready result, r')

/-- The loop does not stop for want of fuel: each pass that goes round again uses one up. -/
theorem readLoop_polled (fuel : Nat) (h : Holds maxBytes r cur) (hf : r.inner.passes < fuel) :
    Polled maxBytes r cur (readLoop maxBytes fuel r) := by
  induction fuel generalizing r cur with
  | zero => omega
  | succ fuel ih =>
    unfold readLoop
    have hp := readTurn_pass h
    generalize readTurn maxBytes r = turn at hp
    cases hp with
    | suspended hh hcome ha =>
      refine .pending hh hcome ⟨[.pending], by simp [ha]⟩ ?_
      rw [BufSource.pendings, BufSource.pendings, ha, countP_cons_of_pos rfl]
    | returned hh he hcode hadv => exact .ready hh he hcode hadv
    | again hh hcome hadv hl =>
      -- the rest of the poll starts from the same stream, so its verdict is this poll's
      have hrun := ih hh (by omega)
      simp only
      generalize readLoop maxBytes fuel _ = out at hrun
      cases hrun with
      | pending hh' hc' hsuf hpause =>
        exact .pending hh' (hc'.trans hcome) (hsuf.trans hadv.suffix) (hadv.pendings ▸ hpause)
      | ready hh' he hcode ha' =>
        rw [hcome] at he
        exact .ready hh' he (fun c hc => hadv.suffix.subset (hcode c hc))
          ⟨ha'.suffix.trans hadv.suffix, ha'.pendings.trans hadv.pendings⟩

theorem pollReadBounded_polled
    (h : Holds maxBytes r cur) : Polled maxBytes r cur (pollReadBounded maxBytes r) := by
  refine readLoop_polled _ h ?_
  unfold BufSource.passes
  split <;> omega

/-! ## Whole runs -/

/-- The cap of the read in flight, if there is one, is the session's. -/
def Session.Capped (maxBytes : Nat) (s : Session) : Prop :=
  ∀ future ∈ s.future, future.maxBytes = maxBytes

theorem Session.Capped.getD {s : Session} (h : s.Capped maxBytes) :
    s.future.getD ⟨maxBytes⟩ = ⟨maxBytes⟩ := by
  cases hf : s.future with
  | none => rfl
  | some future => have := h future hf; cases future; simp_all

/-- What holds of the results of a schedule from a state whose partial frame is `cur`. -/
structure RunsFrom (maxBytes : Nat) (s : Session) (cur : List UInt8) (acts : List Act) : Prop where
  reads : Reads maxBytes (toCome s.reader cur) (outcomes maxBytes acts s)
  failures : ∀ code, .error (.transport code) ∈ outcomes maxBytes acts s →
    .failed code ∈ s.reader.inner.arrivals
  progress : acts.count .poll ≤ (outcomes maxBytes acts s).length + s.reader.inner.pendings

theorem run_from (acts : List Act) {s : Session} (h : Holds maxBytes s.reader cur)
    (hcap : s.Capped maxBytes) : RunsFrom maxBytes s cur acts := by
  induction acts generalizing s cur with
  | nil => exact ⟨.done _, by simp [outcomes], by simp⟩
  | cons act acts ih =>
    cases act with
    | drop =>
      -- the partial frame lives in the reader, so nothing is lost with the future
      have hrun : RunsFrom maxBytes { s with future := none } cur acts :=
        ih h (by simp [Session.Capped])
      have hout : outcomes maxBytes (.drop :: acts) s =
          outcomes maxBytes acts { s with future := none } := rfl
      exact ⟨hout ▸ hrun.reads, hout ▸ hrun.failures, by simpa [hout] using hrun.progress⟩
    | poll =>
      have hpoll := pollReadBounded_polled h
      generalize hp : pollReadBounded maxBytes s.reader = out at hpoll
      cases hpoll with
      | @pending r' cur' hh hcome hsuf hpause =>
        have hout : outcomes maxBytes (.poll :: acts) s =
            outcomes maxBytes acts ⟨r', some ⟨maxBytes⟩⟩ := by
          simp [outcomes, Session.act, hcap.getD, hp]
        have hrun : RunsFrom maxBytes ⟨r', some ⟨maxBytes⟩⟩ cur' acts :=
          ih hh (by simp [Session.Capped])
        refine ⟨?_, ?_, ?_⟩
        · rw [hout, ← hcome]; exact hrun.reads
        · intro code hc; exact hsuf.subset (hrun.failures code (hout ▸ hc))
        · have hcount := hrun.progress; simp only [hout, count_cons_self] at hcount ⊢; omega
      | @ready r' result cur' hh he hcode hadv =>
        have hout : outcomes maxBytes (.poll :: acts) s =
            result :: outcomes maxBytes acts ⟨r', none⟩ := by
          simp [outcomes, Session.act, hcap.getD, hp]
        have hrun : RunsFrom maxBytes ⟨r', none⟩ cur' acts := ih hh (by simp [Session.Capped])
        refine ⟨?_, ?_, ?_⟩
        · rw [hout]; exact .next he hrun.reads
        · intro code hc
          rw [hout, mem_cons] at hc
          rcases hc with hc | hc
          · exact hcode code hc.symm
          · exact hadv.suffix.subset (hrun.failures code hc)
        · have hcount := hrun.progress
          have hpause := hadv.pendings
          simp only [hout, count_cons_self, length_cons] at hcount ⊢; omega

/-- **The bounded reader is line splitting.** However the stream is cut into chunks, wherever the
transport suspends and whenever the caller drops its read, the results are those of the abstract
reader on the lines of the delivered stream; a transport error is one the transport reported; and
a poll that returns nothing is one of the transport's own suspensions. -/
theorem bounded_reader_splits_lines (maxBytes : Nat) (arrivals : List Arrival) (acts : List Act) :
    Reads maxBytes (lines newline (delivered arrivals))
        (outcomes maxBytes acts (Session.start arrivals)) ∧
      (∀ code, .error (.transport code) ∈ outcomes maxBytes acts (Session.start arrivals) →
        .failed code ∈ arrivals) ∧
      acts.count .poll ≤ (outcomes maxBytes acts (Session.start arrivals)).length +
        arrivals.countP Arrival.isPending := by
  have hrun : RunsFrom maxBytes (Session.start arrivals) [] acts :=
    run_from acts (Holds.fresh maxBytes _) (by intro f hf; cases hf)
  exact ⟨hrun.reads, hrun.failures, hrun.progress⟩

end TraceDecay.Framing
