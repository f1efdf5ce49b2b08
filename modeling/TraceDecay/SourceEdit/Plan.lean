import Mathlib.Data.String.Basic
import TraceDecay.Lib.Sorting
import TraceDecay.SourceEdit.Types

/-!
# SourceEdit.Plan

The plan of an edit: the state digests of its candidate files, the publications an apply admits,
the edit primitives as far as they publish files, and the restoring of preimages.
-/

namespace TraceDecay.SourceEdit

open Resumption

variable {δ : Type} [DecidableEq δ]

/-! ## State digests -/

def normalizeCandidateFiles (host : Host δ) (files : List String) :
    Except EditError (List String) := do
  let normalized ← files.mapM fun file =>
    (host.normalize file).elim
      (.error (configError "source edit candidate path is outside the authorized worktree")) .ok
  let sorted := Sorting.dedup (Sorting.sortBy compare normalized)
  if sorted = [] then .error (configError "source edit preview resolved no candidate files")
  else .ok sorted

def readStates (host : Host δ) : List String → EditM δ (List (String × Option δ))
  | [] => pure []
  | relative :: files => do
    let current ← readSourceEditCandidate relative
    let rest ← readStates host files
    pure ((relative, current.map host.content) :: rest)

def sourceEditStateDigest (host : Host δ) (files : List String) : EditM δ δ := do
  let states ← readStates host files
  pure (host.state states)

/-- The content the plan has for a candidate, before or after the edit. -/
def plannedContent (planned : List PlannedSourceEditFile) (intended : Bool) (relative : String) :
    Except EditError (Option Content) :=
  match planned.filter fun file => decide (file.relativePath = relative) with
  | [] =>
    .error (configError "source edit candidate is missing from its exact preview plan")
  | [file] => .ok (if intended then file.intended else file.expected)
  | _ =>
    .error (configError "source edit candidate appears more than once in its exact preview plan")

def plannedSourceEditStateDigest (host : Host δ) (files : List String)
    (planned : List PlannedSourceEditFile) (intended : Bool) : Except EditError δ := do
  let states ← files.mapM fun relative => do
    let content ← plannedContent planned intended relative
    .ok (relative, content.map host.content)
  .ok (host.state states)

/-! ## Restoring preimages -/

def observePlannedFiles : List PlannedSourceEditFile → EditM δ (List (Option Content))
  | [] => pure []
  | file :: files => do
    let current ← readSourceEditCandidate file.relativePath
    if current ≠ file.expected ∧ current ≠ file.intended then
      throw (configError
        ("source edit crash recovery refused foreign bytes in " ++ file.relativePath))
    else do
      let rest ← observePlannedFiles files
      pure (current :: rest)

def restorePlannedFiles : List (PlannedSourceEditFile × Option Content) → EditM δ Unit
  | [] => pure ()
  | (file, current) :: files =>
    if current = file.expected then restorePlannedFiles files
    else do
      publishSourceEditState file.relativePath file.intended file.expected
      restorePlannedFiles files

/-- Every file is looked at before one is touched; they are restored from the last to the first. -/
def rollbackPlannedSourceEditFiles (files : List PlannedSourceEditFile) : EditM δ Unit := do
  let observed ← observePlannedFiles files
  restorePlannedFiles (files.zip observed).reverse

def commitSourceEditPostimages : List PlannedSourceEditFile → EditM δ Unit
  | [] => pure ()
  | file :: files => do
    let current ← readSourceEditCandidate file.relativePath
    if current ≠ file.intended then
      throw (configError
        ("source edit postimage changed before reconciliation in " ++ file.relativePath))
    else commitSourceEditPostimages files

/-! ## Applying a plan -/

variable (plan : List PlannedSourceEditFile)

/-- Admits one publication against the plan; the names of the admitted candidates are kept. -/
def validatePlannedSourceEdit (consumed : List String) (path : String)
    (expected intended : Option Content) : Except EditError (List String) :=
  match plan.find? fun file => decide (file.relativePath = path) with
  | none => .error (configError ("source edit apply produced unplanned candidate " ++ path))
  | some planned =>
    if planned.expected ≠ expected ∨ planned.intended ≠ intended then
      .error (configError ("source edit candidate " ++ path ++ " drifted from its exact preview"))
    else .ok (consumed.insert path)

def publishPlannedSourceEdit (consumed : List String) (path : String) (expected : Option Content)
    (intended : Content) : EditM δ (List String) := do
  let consumed ← Prog.lift (validatePlannedSourceEdit plan consumed path expected (some intended))
  publishSourceEditState path expected (some intended)
  pure consumed

def ensureTextUnchanged (path : String) (expected : Option Content) : EditM δ Unit := do
  let current ← readSourceEditCandidate path
  match expected, current with
  | some expected, some current =>
    if current = expected then pure ()
    else throw (configError (path ++ " changed while the move was being prepared; retry"))
  | some _, none => throw (configError ("failed to re-read " ++ path ++ " before applying move"))
  | none, none => pure ()
  | none, some _ =>
    throw (configError (path ++ " was created while the move was being prepared; retry"))

/-- The two files a move rewrites, as the move computed them; a move within one file is refused
before that. -/
structure MoveEdit where
  (sourceRel destRel : String)
  (source sourceModified : Content)
  destOriginal : Option Content
  destModified : Content
  distinct : destRel ≠ sourceRel

/-- The destination is written first; when the source cannot follow, both are restored. -/
def moveSymbol (m : MoveEdit) : EditM δ (SourceEditOutcome × List String) := do
  let consumed ← Prog.lift
    (validatePlannedSourceEdit plan [] m.sourceRel (some m.source) (some m.sourceModified))
  let consumed ← Prog.lift
    (validatePlannedSourceEdit plan consumed m.destRel m.destOriginal (some m.destModified))
  ensureTextUnchanged m.sourceRel (some m.source)
  ensureTextUnchanged m.destRel m.destOriginal
  let consumed ← publishPlannedSourceEdit plan consumed m.destRel m.destOriginal m.destModified
  let rest ← Prog.attempt do
    ensureTextUnchanged m.sourceRel (some m.source)
    ensureTextUnchanged m.destRel (some m.destModified)
    publishPlannedSourceEdit plan consumed m.sourceRel (some m.source) m.sourceModified
  match rest with
  | .ok consumed => pure (.edit true [m.sourceRel, m.destRel], consumed)
  | .error e => do
    let rollback ← Prog.attempt (rollbackPlannedSourceEditFiles
      [⟨m.sourceRel, some m.source, some m.sourceModified⟩,
        ⟨m.destRel, m.destOriginal, some m.destModified⟩])
    throw (configError (match rollback with
      | .ok () => "move aborted before writing " ++ m.sourceRel ++ ": " ++ e.display ++
          "; destination rolled back"
      | .error rollbackError => "move aborted before writing " ++ m.sourceRel ++ ": " ++
          e.display ++ "; rollback incomplete: " ++ rollbackError.display))

/-- One file after another; `stopped` is the cancellation seen before a publication. -/
def renameFiles (plan : List PlannedSourceEditFile) (stopped : Nat → Option EditError) :
    Nat → List String → List PlannedSourceEditFile → EditM δ (List String)
  | _, consumed, [] => pure consumed
  | index, consumed, file :: files =>
    match stopped index, file.intended with
    | some e, _ => throw e
    | none, none =>
      throw (configError ("rename plan lost its postimage for " ++ file.relativePath))
    | none, some intended => do
      let consumed ← publishPlannedSourceEdit plan consumed file.relativePath file.expected intended
      renameFiles plan stopped (index + 1) consumed files

/-- What an edit primitive does when it is run for real: it ends before it publishes anything, or
it publishes the one file, the two files of a move or the files of a rename. -/
inductive Primitive where
  | fails (e : EditError)
  | refuses (files : List String)
  | edit (path : String) (original modified : Content)
  | move (m : MoveEdit)
  | rename (files : List PlannedSourceEditFile) (stopped : Nat → Option EditError)

/-- The outcome, and the names of the planned candidates that were published. -/
def runSourceEdit : Primitive → EditM δ (SourceEditOutcome × List String)
  | .fails e => throw e
  | .refuses files => pure (.edit false files, [])
  | .edit path original modified => do
    let consumed ← publishPlannedSourceEdit plan [] path (some original) modified
    pure (.edit true [path], consumed)
  | .move m => moveSymbol plan m
  | .rename files stopped => do
    let consumed ← renameFiles plan stopped 0 [] files
    pure (.edit true (files.map (·.relativePath)), consumed)

/-- The apply of a plan: how the primitive ended, and whether every planned file was published. -/
def applySourceEditPlan (primitive : Primitive) :
    EditM δ (Except EditError (SourceEditOutcome × Bool)) := do
  let result ← Prog.attempt (runSourceEdit plan primitive)
  pure (result.map fun r => (r.1, decide (r.2.length = plan.length)))

end TraceDecay.SourceEdit
