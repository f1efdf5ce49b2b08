import TraceDecay.Lib.TextLines
import TraceDecay.Domain.Text

/-!
# Edit.Primitives

The line-splicing source edits (`tracedecay-source-edit`, `edits/primitives.rs` and the line bounds
of `edits/symbols.rs`): insertion at an anchor, insertion at a symbol and replacement of a symbol.
Each reads the file as text, cuts it into lines, puts the lines together again around the new text
and hands the result to the gate that writes or previews it. A successful edit is returned here
together with that result.
-/

namespace TraceDecay.Edit

open Utf8 Domain TextLines

def usizeMax : Nat := 18446744073709551615

/-- `as u32`. -/
def asU32 (n : Nat) : Nat := n % 4294967296

inductive EditError where
  | config (message : String)
  /-- `source-edit-symbol-evidence-unavailable`. -/
  | symbolEvidenceUnavailable (detail : String)
  /-- A slice of the source that does not lie on character boundaries, or of the lines that is out
  of range. -/
  | panicked
deriving DecidableEq

variable (ls : List (List Char))

/-- `splice_lines`. -/
def spliceLines (sourceHadTrailingNewline : Bool) : List Char :=
  let joined := join ls
  if sourceHadTrailingNewline && !joined.isEmpty then joined ++ ['\n'] else joined

def endsWithNewline (source : List Char) : Bool := source.getLast? == some '\n'

def editSuccessMessage (dryRun : Bool) (base : String) : String :=
  if dryRun then s!"dry run. Nothing written; preview only ({base})" else base

/-! ## Insertion at an anchor -/

structure InsertResult where
  success : Bool
  filePath : String
  anchorLine : Nat
  content : List Char
  (before dryRun : Bool)
  message : String

/-- Where an anchor is, or what the edit is refused with. -/
inductive Anchored where
  | line (index : Nat)
  | refused (anchorLine : Nat) (message : String)

/-- The number of the lines that contain `part`. -/
def matchingLines (part : List Char) : List Nat :=
  (List.range ls.length).filter fun i => decide (∃ line ∈ ls[i]?, part <:+: line)

def anchorLine (anchor : List Char) : Except EditError Anchored :=
  if anchor.all Char.isDigit then
    let lineNum := Nat.ofDigitChars 10 anchor 0
    if anchor.isEmpty || decide (usizeMax < lineNum) then
      .error (.config s!"invalid line number: {String.ofList anchor}")
    else if lineNum == 0 || decide (ls.length < lineNum) then
      .ok (.refused (asU32 lineNum)
        s!"line number {lineNum} out of range (file has {ls.length} lines)")
    else .ok (.line (lineNum - 1))
  else
    match matchingLines ls (wholeChars 100 anchor) with
    | [] => .ok (.refused 0 s!"anchor '{String.ofList anchor}' not found")
    | [index] => .ok (.line index)
    | found => .ok (.refused (asU32 found.length)
        s!"anchor '{String.ofList anchor}' matches {found.length} lines, must match exactly one")

def insertAt (relPath : String) (source anchor content : List Char) (before dryRun : Bool) :
    Except EditError (InsertResult × Option (List Char)) := do
  let ls := lines source
  match ← anchorLine ls anchor with
  | .refused line message =>
    .ok (⟨false, relPath, line, content, before, dryRun, message⟩, none)
  | .line anchorLine =>
    let insertIdx := if before then anchorLine else anchorLine + 1
    let newLines := ls.take insertIdx ++ stripSuffix '\n' content :: ls.drop insertIdx
    let modified := spliceLines newLines (endsWithNewline source)
    .ok (⟨true, relPath, asU32 (anchorLine + 1), content, before, dryRun,
      editSuccessMessage dryRun s!"inserted at line {anchorLine + 1}"⟩, some modified)

/-! ## Symbols -/

/-- The resolved symbol of an edit: the part of `EditSymbolV1` the edits read. -/
structure EditSymbol where
  (name kind filePath : String)
  (startByte endByte startLine lineSpan : Nat)

/-- A byte that begins a character, or the end of the text. -/
def isCharBoundary (bytes : List UInt8) (n : Nat) : Bool :=
  if n == bytes.length then true
  else (bytes[n]?).any fun b => b.toNat < 0x80 || 0xC0 ≤ b.toNat

def newlinesBefore (bytes : List UInt8) (n : Nat) : Nat := (bytes.take n).count 10

def isBlank (line : List Char) : Bool := (trim line).isEmpty

/-- Upwards over the lines attached to a declaration. -/
def attachedStart (ls : List (List Char)) (startLine : Nat) : Nat → Nat
  | 0 => 0
  | n + 1 =>
    if startLine < n + 1 && (ls[n]?).any (!isBlank ·) then attachedStart ls startLine n else n + 1

/-- `EditSymbolV1::line_bounds`. -/
def lineBounds (self : EditSymbol) (source : List Char) : Except EditError (Nat × Nat) :=
  let bytes := encode source
  if self.endByte ≤ self.startByte || decide (bytes.length < self.endByte) ||
      !isCharBoundary bytes self.startByte || !isCharBoundary bytes self.endByte then
    .error (.symbolEvidenceUnavailable "symbol source span is not an exact UTF-8 range")
  else if !isCharBoundary bytes (self.endByte - 1) then
    -- `source[..end - 1]`
    .error .panicked
  else
    let startLine := newlinesBefore bytes self.startByte
    let endInclusive := newlinesBefore bytes (self.endByte - 1)
    if self.lineSpan == 0 then
      .error (.symbolEvidenceUnavailable "symbol line span is not a positive line count")
    else
      let attestedEnd := self.startLine + (self.lineSpan - 1)
      let trailing := (lines (wholeChars self.endByte source)).drop (attestedEnd + 1)
      if self.startLine < startLine || decide (endInclusive < attestedEnd) ||
          !trailing.all isBlank then
        .error (.symbolEvidenceUnavailable
          "symbol source span disagrees with its extraction-attested line bounds")
      else .ok (attachedStart (lines source) startLine self.startLine, attestedEnd)

/-- `trim_end_matches('\n')`. -/
def trimEndNewlines (s : List Char) : List Char := (s.reverse.dropWhile (· == '\n')).reverse

structure EditResult where
  success : Bool
  (filePath matchedStr : String)
  newStr : List Char
  replacedSpan : Option (List Char)
  dryRun : Bool
  message : String

def replaceSymbol (target : EditSymbol) (symbol : String) (source newSource : List Char)
    (dryRun : Bool) : Except EditError (EditResult × Option (List Char)) := do
  let ls := lines source
  let (start, endInclusive) ← lineBounds target source
  if ls.length ≤ start || decide (endInclusive < start) then
    .ok (⟨false, target.filePath, symbol, [], none, dryRun,
      s!"symbol range [{start}..={endInclusive}] out of bounds for {ls.length}-line file"⟩, none)
  else if ls.length ≤ endInclusive then
    -- `lines[start..=end_inclusive]`
    .error .panicked
  else
    let replaced := join ((ls.take (endInclusive + 1)).drop start)
    let rebuilt := ls.take start ++ trimEndNewlines newSource :: ls.drop (endInclusive + 1)
    let modified := spliceLines rebuilt (endsWithNewline source)
    .ok (⟨true, target.filePath, s!"{target.name} ({target.kind})", newSource, some replaced, dryRun,
      editSuccessMessage dryRun
        s!"replaced {target.filePath}:{start + 1}-{endInclusive + 1}"⟩, some modified)

/-- Whether a position is before the symbol. -/
def isBefore (position : String) : Except EditError Bool :=
  if position = "before" then .ok true
  else if position = "after" then .ok false
  else .error (.config s!"position must be \"before\" or \"after\", got {repr position}")

def insertAtSymbol (target : EditSymbol) (source content : List Char) (position : String)
    (dryRun : Bool) : Except EditError (InsertResult × Option (List Char)) := do
  let before ← isBefore position
  let ls := lines source
  let (symbolStart, symbolEnd) ← lineBounds target source
  let anchorLine := if before then symbolStart else symbolEnd + 1
  if ls.length < anchorLine then
    .ok (⟨false, target.filePath, asU32 anchorLine, content, before, dryRun,
      s!"anchor line {anchorLine} past EOF ({ls.length})"⟩, none)
  else
    let rebuilt := ls.take anchorLine ++ trimEndNewlines content :: ls.drop anchorLine
    let modified := spliceLines rebuilt (endsWithNewline source)
    let base := s!"inserted {position} {target.name} ({target.kind}) at line {anchorLine + 1}"
    .ok (⟨true, target.filePath, asU32 (anchorLine + 1), content, before, dryRun,
      editSuccessMessage dryRun base⟩, some modified)

end TraceDecay.Edit
