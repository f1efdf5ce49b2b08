import TraceDecay.Lib.Fallible
import TraceDecay.SourceEdit.Requests

/-!
# SourceEdit.PlanCorrect

A plan that is exact has one entry for each candidate file, and the digests of its two images tell
whether the files are as they were before the edit, or as they are after it.
-/

namespace TraceDecay.SourceEdit

open Fallible List

variable {δ : Type} {host : Host δ}

def PlannedSourceEditFile.image (file : PlannedSourceEditFile) (intended : Bool) : Option Content :=
  if intended then file.intended else file.expected

/-- The plan has an entry for each of the candidate files, and these are the digests of its
images. -/
structure PlanExact (host : Host δ) (candidates : List String)
    (files : List PlannedSourceEditFile) (pre post : δ) : Prop where
  normalized : normalizeCandidateFiles host (files.map (·.relativePath)) = .ok candidates
  length : files.length = candidates.length
  expected : plannedSourceEditStateDigest host candidates files false = .ok pre
  intended : plannedSourceEditStateDigest host candidates files true = .ok post

variable {candidates : List String} {intended : Bool} {d : δ}

theorem normalizeCandidateFiles_nodup {files : List String}
    (h : normalizeCandidateFiles host files = .ok candidates) :
    candidates.Nodup ∧ candidates ≠ [] := by
  obtain ⟨normalized, -, h⟩ := bind_eq_ok.mp h
  obtain ⟨hne, h⟩ := ite_error_eq_ok.mp h
  cases h
  refine ⟨?_, hne⟩
  have hid : Function.Injective (id : String → String) := Function.injective_id
  have hsorted := Sorting.dedup_sorted hid
    (Sorting.sortBy_sorted (fun a b => Sorting.compare_ne_gt) normalized)
  exact hsorted.imp fun hab => ne_of_lt hab

theorem plannedContent_eq_ok {p : List PlannedSourceEditFile} {r : String} {c : Option Content}
    (h : plannedContent p intended r = .ok c) :
    ∃ file ∈ p, file.relativePath = r ∧ c = file.image intended := by
  unfold plannedContent at h
  split at h
  · cases h
  · next file hone =>
    cases h
    have hmem : file ∈ p.filter fun file => decide (file.relativePath = r) := by
      rw [hone]; exact mem_singleton_self file
    obtain ⟨hf, hpath⟩ := mem_filter.mp hmem
    exact ⟨file, hf, of_decide_eq_true hpath, rfl⟩
  · cases h

/-- The digest of candidate files that hold what `look` says. -/
def stateOf (host : Host δ) (candidates : List String) (look : String → Option Content) : δ :=
  host.state (candidates.map fun p => (p, (look p).map host.content))

theorem stateOf_injective (hfree : host.CollisionFree) {look l' : String → Option Content} :
    stateOf host candidates look = stateOf host candidates l' ↔
      ∀ p ∈ candidates, look p = l' p := by
  constructor
  · intro h p hp
    have hs := map_inj_left.mp (hfree.state h) p hp
    exact Option.map_injective hfree.content (Prod.mk.inj hs).2
  · intro h
    unfold stateOf
    rw [map_congr_left fun p hp => by rw [h p hp]]

theorem plannedDigest_eq_ok {planned : List PlannedSourceEditFile} {i : Bool}
    (h : plannedSourceEditStateDigest host candidates planned i = .ok d) :
    ∃ look, (∀ p ∈ candidates, plannedContent planned i p = .ok (look p)) ∧
      d = stateOf host candidates look := by
  obtain ⟨states, hs, h⟩ := bind_eq_ok.mp h
  cases h
  clear h
  rw [mapM_eq_ok] at hs
  refine ⟨fun p => (plannedContent planned i p).toOption.join, fun p hp => ?_, ?_⟩
  · obtain ⟨_, -, hstate⟩ := exists_of_mem_right hs.flip hp
    obtain ⟨content, hc, -⟩ := bind_eq_ok.mp hstate
    simp only [hc, Except.toOption, Option.join_some]
  · unfold stateOf
    congr 1
    induction hs with
    | nil => rfl
    | cons hstate _ ih =>
      obtain ⟨content, hc, heq⟩ := bind_eq_ok.mp hstate
      cases heq
      rw [ih, map_cons]; simp only [hc, Except.toOption, Option.join_some]

namespace PlanExact

variable {candidates : List String} {files : List PlannedSourceEditFile} {pre post : δ}
  {file : PlannedSourceEditFile} {look : String → Option Content}

variable (h : PlanExact host candidates files pre post)
include h

theorem candidates_nodup : candidates.Nodup := (normalizeCandidateFiles_nodup h.normalized).1

theorem files_ne_nil : files ≠ [] := by
  intro hnil
  have hlen := h.length
  rw [hnil] at hlen
  exact (normalizeCandidateFiles_nodup h.normalized).2 (length_eq_zero_iff.mp hlen.symm)

theorem perm : candidates.Perm (files.map (·.relativePath)) := by
  have hsub : candidates ⊆ files.map (·.relativePath) := by
    intro p hp
    obtain ⟨look, hl, -⟩ := plannedDigest_eq_ok h.expected
    obtain ⟨file, hf, hpath, -⟩ := plannedContent_eq_ok (hl p hp)
    exact mem_map.mpr ⟨file, hf, hpath⟩
  refine (subperm_of_subset h.candidates_nodup hsub).perm_of_length_le ?_
  exact Nat.le_of_eq ((length_map _).trans h.length)

theorem nodup : (files.map (·.relativePath)).Nodup := h.perm.nodup_iff.mp h.candidates_nodup

theorem mem_candidates (hf : file ∈ files) : file.relativePath ∈ candidates :=
  h.perm.mem_iff.mpr (mem_map_of_mem hf)

theorem exists_of_mem {p : String} (hp : p ∈ candidates) : ∃ file ∈ files, file.relativePath = p :=
  mem_map.mp (h.perm.mem_iff.mp hp)

theorem eq_of_path {file' : PlannedSourceEditFile} (hf : file ∈ files) (hf' : file' ∈ files)
    (hpath : file.relativePath = file'.relativePath) : file = file' :=
  inj_on_of_nodup_map h.nodup hf hf' hpath

theorem plannedContent_of_mem (hf : file ∈ files)
    (hl : ∀ p ∈ candidates, plannedContent files intended p = .ok (look p)) :
    look file.relativePath = file.image intended := by
  obtain ⟨file', hf', hpath, hc⟩ := plannedContent_eq_ok (hl _ (h.mem_candidates hf))
  rw [hc, h.eq_of_path hf' hf hpath]

variable (hfree : host.CollisionFree)
include hfree

theorem stateOf_eq_iff (hd : plannedSourceEditStateDigest host candidates files intended = .ok d) :
    stateOf host candidates look = d ↔
      ∀ file ∈ files, look file.relativePath = file.image intended := by
  obtain ⟨planned, hplan, rfl⟩ := plannedDigest_eq_ok hd
  rw [stateOf_injective hfree]
  constructor
  · intro heq file hf
    rw [heq _ (h.mem_candidates hf), h.plannedContent_of_mem hf hplan]
  · intro heq p hp
    obtain ⟨file, hf, rfl⟩ := h.exists_of_mem hp
    rw [heq file hf, h.plannedContent_of_mem hf hplan]

theorem stateOf_eq_pre :
    stateOf host candidates look = pre ↔ ∀ file ∈ files, look file.relativePath = file.expected :=
  h.stateOf_eq_iff hfree h.expected

theorem stateOf_eq_post :
    stateOf host candidates look = post ↔ ∀ file ∈ files, look file.relativePath = file.intended :=
  h.stateOf_eq_iff hfree h.intended

end PlanExact

theorem plannedContent_swap (files : List PlannedSourceEditFile) (i : Bool) (p : String) :
    plannedContent (files.map (·.swap)) i p = plannedContent files (!i) p := by
  have hf : ((files.map (·.swap)).filter fun file => decide (file.relativePath = p)) =
      (files.filter fun file => decide (file.relativePath = p)).map (·.swap) := by
    rw [filter_map]; rfl
  unfold plannedContent
  rw [hf]
  generalize files.filter (fun file => decide (file.relativePath = p)) = found
  match found with
  | [] => rfl
  | [file] => cases i <;> rfl
  | _ :: _ :: _ => rfl

theorem plannedDigest_swap (candidates : List String) (files : List PlannedSourceEditFile)
    (i : Bool) :
    plannedSourceEditStateDigest host candidates (files.map (·.swap)) i =
      plannedSourceEditStateDigest host candidates files (!i) := by
  unfold plannedSourceEditStateDigest; simp only [plannedContent_swap]

/-- Taking an exact plan back is an exact plan. -/
theorem PlanExact.swap {files : List PlannedSourceEditFile}
    {pre post : δ} (h : PlanExact host candidates files pre post) :
    PlanExact host candidates (files.map (·.swap)) post pre where
  normalized := by
    rw [map_map]; exact h.normalized
  length := by rw [length_map, h.length]
  expected := by
    rw [plannedDigest_swap]; exact h.intended
  intended := by
    rw [plannedDigest_swap]; exact h.expected

end TraceDecay.SourceEdit
