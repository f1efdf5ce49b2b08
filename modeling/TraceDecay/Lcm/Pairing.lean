import TraceDecay.Lcm.Assembly

/-!
# Lcm.Pairing

What pairing tool calls with results leaves. Every call has its one result and every result its one
call (`Paired`), but for a last message whose calls are still open. The ids are counted among the
calls of a message and in the run of results behind it, and what is taken out of both changes no
count of an id that is kept.
-/

namespace TraceDecay.Lcm

open Json (Tree)
open List

/-- Neither a result nor an assistant message with calls. -/
def isPlain (message : Tree) : Bool :=
  isToolMessage message = false ∧
    (messageRole message ≠ "assistant".toList ∨ (message.get "tool_calls").isNone)

/-- The results are in the runs behind the calls, one for every call and none besides. Only the
calls of a last message may be open. -/
inductive Paired : List Tree → Prop
  | nil : Paired []
  | plain {message rest} : isPlain message = true → Paired rest → Paired (message :: rest)
  | calls {message results rest} : messageRole message = "assistant".toList →
      callsOf message ≠ [] → message.set "tool_calls" (.array (callsOf message)) = message →
      (∀ call ∈ callsOf message, paired (callsOf message) results (callId call) = true) →
      (∀ result ∈ results, isToolMessage result = true ∧
        paired (callsOf message) results (resultId result) = true) →
      Paired rest → Paired (message :: (results ++ rest))
  | openCalls {message} : messageRole message = "assistant".toList →
      openCalls message [] = true → Paired [message]

/-- The calls of a message that are answered once by the results. -/
def answeredCalls (message : Tree) (results : List Tree) : List Tree :=
  (callsOf message).filter fun call => paired (callsOf message) results (callId call)

/-- The results that answer them. -/
def answers (message : Tree) (results : List Tree) : List Tree :=
  results.filter fun result => paired (callsOf message) results (resultId result)

variable {message call : Tree} {results rest : List Tree}

/-! ## One message -/

theorem normalize_plain (h : isPlain message = true) :
    normalizeReplayToolPairs (message :: rest) = message :: normalizeReplayToolPairs rest := by
  obtain ⟨ht, hp⟩ := of_decide_eq_true h
  rw [normalizeReplayToolPairs, ht, if_neg Bool.false_ne_true, if_pos hp]

theorem count_filterMap_filter {f : Tree → Option (List Char)} {p : Option (List Char) → Bool}
    {id : List Char} (h : p (some id) = true) (l : List Tree) :
    ((l.filter fun x => p (f x)).filterMap f).count id = (l.filterMap f).count id := by
  have hf : (l.filter fun x => p (f x)).filterMap f = (l.filterMap f).filter (p ∘ some) := by
    rw [filterMap_filter, filter_filterMap]
    refine filterMap_congr fun x _ => ?_
    cases f x <;> simp [Option.filter]
  rw [hf]; exact count_filter h

theorem paired_answered {id : Option (List Char)} (h : paired (callsOf message) results id = true) :
    paired (answeredCalls message results) (answers message results) id = true := by
  cases id with
  | none => cases h
  | some id =>
    rw [paired, Option.any_some, answeredCalls, answers, count_filterMap_filter h,
      count_filterMap_filter h]
    exact h

theorem isToolMessage_of_assistant (h : messageRole message = "assistant".toList) :
    isToolMessage message = false := by
  rw [isToolMessage, h]; decide

theorem isSome_of_callsOf (h : callsOf message ≠ []) :
    ¬ (message.get "tool_calls").isNone = true := by
  intro hn
  rw [callsOf, Option.isNone_iff_eq_none.mp hn] at h; exact h rfl

theorem normalize_calls (hr : messageRole message = "assistant".toList)
    (hc : call ∈ callsOf message)
    (hp : paired (callsOf message) (rest.takeWhile isToolMessage) (callId call) = true) :
    normalizeReplayToolPairs (message :: rest) = message.set "tool_calls"
        (.array (answeredCalls message (rest.takeWhile isToolMessage))) ::
      answers message (rest.takeWhile isToolMessage) ++ normalizeReplayToolPairs rest := by
  have hopen : openCalls message rest = false := by
    cases rest with
    | nil => cases h : callId call <;> simp [paired, h] at hp
    | cons _ _ => rfl
  have hk : ¬ (answeredCalls message (rest.takeWhile isToolMessage)).isEmpty = true := by
    rw [List.isEmpty_iff]; exact ne_nil_of_mem (mem_filter.mpr ⟨hc, hp⟩)
  rw [normalizeReplayToolPairs, isToolMessage_of_assistant hr, if_neg Bool.false_ne_true,
    if_neg (not_or_intro (not_not_intro hr) (isSome_of_callsOf (ne_nil_of_mem hc))), hopen,
    if_neg Bool.false_ne_true]
  exact congrArg (· ++ _) (if_neg hk)

theorem paired_pairCalls (hr : messageRole message = "assistant".toList)
    (hs : (message.get "tool_calls").isSome = true) (ht : ∀ r ∈ results, isToolMessage r = true)
    (h : Paired rest) : Paired (pairCalls message results ++ rest) := by
  obtain ⟨entries, rfl⟩ : ∃ entries, message = .object entries := by
    cases message with
    | object entries => exact ⟨entries, rfl⟩
    | _ => cases hs
  have hc : ∀ kept, callsOf (Tree.set (.object entries) "tool_calls" (.array kept)) = kept :=
    fun kept => by simp [callsOf, Tree.set, Json.Tree.get, Tree.asArray]
  unfold pairCalls
  simp only
  split_ifs with hk
  · exact h
  · refine .plain (decide_eq_true ⟨isToolMessage_of_assistant ?_, .inr ?_⟩) h
    · rw [← hr, messageRole, Tree.get_remove_of_ne (by decide)]; rfl
    · rw [Tree.get_remove_self]; rfl
  · rw [cons_append]
    refine .calls ?_ ?_ ?_ ?_ ?_ h
    · rw [← hr, messageRole, Tree.get_set_of_ne (by decide)]; rfl
    · rw [hc]; simpa using hk
    · rw [hc]; simp [Tree.set, filter_filter]
    · rw [hc]; exact fun call hcall => paired_answered (mem_filter.mp hcall).2
    · rw [hc]
      intro result hresult
      exact ⟨ht _ (mem_filter.mp hresult).1, paired_answered (mem_filter.mp hresult).2⟩

/-! ## All messages -/

theorem normalize_paired (messages : List Tree) : Paired (normalizeReplayToolPairs messages) := by
  induction messages with
  | nil => exact .nil
  | cons message rest ih =>
    rw [normalizeReplayToolPairs]
    split_ifs with ht hcall hopen
    · exact ih
    · exact .plain (decide_eq_true ⟨Bool.eq_false_iff.mpr ht, hcall⟩) ih
    · rw [not_or, not_not] at hcall
      cases rest with
      | nil => exact .openCalls hcall.1 hopen
      | cons next rest => cases hopen
    · rw [not_or, not_not, Option.isNone_iff_eq_none, ← ne_eq, ← Option.isSome_iff_ne_none] at hcall
      exact paired_pairCalls hcall.1 hcall.2 (all_eq_true.mp all_takeWhile) ih

theorem Paired.takeWhile (h : Paired rest) : rest.takeWhile isToolMessage = [] := by
  cases h with
  | nil => rfl
  | plain hp => exact takeWhile_cons_of_neg (by simp [(of_decide_eq_true hp).1])
  | calls hr => exact takeWhile_cons_of_neg (by simp [isToolMessage_of_assistant hr])
  | openCalls hr => exact takeWhile_cons_of_neg (by simp [isToolMessage_of_assistant hr])

theorem normalize_results (ht : ∀ r ∈ results, isToolMessage r = true) :
    normalizeReplayToolPairs (results ++ rest) = normalizeReplayToolPairs rest := by
  induction results with
  | nil => rfl
  | cons r results ih =>
    obtain ⟨hr, ht⟩ := forall_mem_cons.mp ht
    rw [cons_append, normalizeReplayToolPairs, if_pos hr, ih ht]

theorem Paired.normalize_eq (h : Paired rest) : normalizeReplayToolPairs rest = rest := by
  induction h with
  | nil => rfl
  | plain hp _ ih => rw [normalize_plain hp, ih]
  | @calls message results rest hr hne hset hcalls hresults h ih =>
    have ht := fun r hr => (hresults r hr).1
    have hrun : (results ++ rest).takeWhile isToolMessage = results := by
      rw [takeWhile_append_of_pos ht, h.takeWhile, append_nil]
    obtain ⟨call, hc⟩ := exists_mem_of_ne_nil _ hne
    rw [normalize_calls hr hc (by rw [hrun]; exact hcalls call hc), hrun, normalize_results ht, ih,
      answeredCalls, filter_eq_self.mpr hcalls, hset, answers,
      filter_eq_self.mpr fun r hr => (hresults r hr).2, cons_append]
  | @openCalls message hr ho =>
    have hne : callsOf message ≠ [] := by intro h; simp [Lcm.openCalls, h] at ho
    rw [normalizeReplayToolPairs, isToolMessage_of_assistant hr, if_neg Bool.false_ne_true,
      if_neg (not_or_intro (not_not_intro hr) (isSome_of_callsOf hne)), if_pos ho]

theorem exists_normalize_append (before : List Tree) (hne : rest ≠ []) :
    ∃ start, normalizeReplayToolPairs (before ++ rest) =
      start ++ normalizeReplayToolPairs rest := by
  induction before with
  | nil => exact ⟨[], rfl⟩
  | cons message before ih =>
    obtain ⟨start, h⟩ := ih
    rw [cons_append, normalizeReplayToolPairs, h]
    split_ifs with ht hcall hopen
    · exact ⟨start, rfl⟩
    · exact ⟨message :: start, rfl⟩
    · simp [openCalls, hne] at hopen
    · exact ⟨_, (append_assoc ..).symm⟩

theorem plain_sublist (messages : List Tree) :
    (messages.filter isPlain).Sublist (normalizeReplayToolPairs messages) := by
  induction messages with
  | nil => exact .slnil
  | cons message rest ih =>
    by_cases hp : isPlain message = true
    · rw [filter_cons_of_pos hp, normalize_plain hp]; exact ih.cons_cons message
    rw [filter_cons_of_neg hp]
    cases rest with
    | nil => exact nil_sublist _
    | cons next rest =>
      obtain ⟨start, h⟩ := exists_normalize_append [message] (cons_ne_nil next rest)
      exact ih.trans (h ▸ sublist_append_right _ _)

/-- Calls and results are paired, a second pairing changes nothing, and nothing else is lost: what
is neither a result nor an assistant message with calls is kept in order, and a message with calls that
are answered once keeps them and the answers. -/
theorem tool_pairs_normalized (messages : List Tree) :
    Paired (normalizeReplayToolPairs messages) ∧
    normalizeReplayToolPairs (normalizeReplayToolPairs messages) =
      normalizeReplayToolPairs messages ∧
    (messages.filter isPlain).Sublist (normalizeReplayToolPairs messages) ∧
    ∀ before message rest call, messages = before ++ message :: rest →
      messageRole message = "assistant".toList → call ∈ callsOf message →
      paired (callsOf message) (rest.takeWhile isToolMessage) (callId call) = true →
      ∃ start stop, normalizeReplayToolPairs messages = start ++ (message.set "tool_calls"
          (.array (answeredCalls message (rest.takeWhile isToolMessage))) ::
        answers message (rest.takeWhile isToolMessage) ++ stop) := by
  refine ⟨normalize_paired messages, (normalize_paired messages).normalize_eq,
    plain_sublist messages, ?_⟩
  rintro before message rest call rfl hr hc hp
  obtain ⟨start, h⟩ := exists_normalize_append before (cons_ne_nil message rest)
  exact ⟨start, _, h.trans (by rw [normalize_calls hr hc hp])⟩

end TraceDecay.Lcm
