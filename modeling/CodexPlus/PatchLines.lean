/-
CodexPlus/PatchLines.lean

How a patch chunk rewrites the lines of a file: apply-patch/src/text_file.rs,
seek_sequence.rs and file_update.rs.

Texts are lists of characters.  Bytes and characters agree on every position the
code computes, since it only cuts at ASCII line ends.
-/
import CodexPlus.Text
import Mathlib.Data.List.Sort

namespace CodexPlus

namespace Patch

abbrev Text := List Char

/-! ### Source files -/

inductive LineEnding where
  | lf
  | crLf
  | cr
  deriving DecidableEq, Repr

def LineEnding.asStr : LineEnding → Text
  | .lf => ['\n']
  | .crLf => ['\r', '\n']
  | .cr => ['\r']

structure SourceLine where
  text : Text
  ending : Option LineEnding
  deriving DecidableEq, Repr

structure SourceFile where
  lines : List SourceLine
  preferredEnding : LineEnding
  deriving DecidableEq, Repr

/-- The loop of `SourceFile::parse`; `line` is the text since `line_start`. -/
def parseLines (line : Text) : Text → List SourceLine
  | [] => if line = [] then [] else [⟨line, none⟩]
  | c :: rest =>
    if c = '\n' then ⟨line, some .lf⟩ :: parseLines [] rest
    else if c = '\r' then
      match rest with
      | '\n' :: rest => ⟨line, some .crLf⟩ :: parseLines [] rest
      | rest => ⟨line, some .cr⟩ :: parseLines [] rest
    else parseLines (line ++ [c]) rest

/-- The first ending of a file is the preferred one; without any it is LF. -/
def SourceFile.parse (contents : Text) : SourceFile :=
  let lines := parseLines [] contents
  ⟨lines, (lines.findSome? (·.ending)).getD .lf⟩

variable (file : SourceFile)

def SourceFile.lineTexts : List Text := file.lines.map (·.text)

structure Replacement where
  start : ℕ
  oldLen : ℕ
  newSegment : List Text
  deriving DecidableEq, Repr

/-- The loop of `apply_replacements`: `source` is what is left of the lines, `sourceIndex` the index
of its first one. Replacements are ordered and do not overlap, so the subtraction is exact. -/
def replaceLines (preferredEnding : LineEnding) :
    (sourceIndex : ℕ) → (source : List SourceLine) → List Replacement → List SourceLine
  | _, source, [] => source
  | sourceIndex, source, r :: replacements =>
    source.take (r.start - sourceIndex) ++ r.newSegment.map (⟨·, some preferredEnding⟩) ++
      replaceLines preferredEnding (r.start + r.oldLen)
        (source.drop (r.start - sourceIndex + r.oldLen)) replacements

def SourceFile.applyReplacements (replacements : List Replacement) : SourceFile :=
  let lines := replaceLines file.preferredEnding 0 file.lines replacements
  { file with
    lines := lines.map fun line =>
      { line with ending := some (line.ending.getD file.preferredEnding) } }

def SourceFile.intoContents : Text :=
  file.lines.flatMap fun line => line.text ++ (line.ending.map LineEnding.asStr).getD []

/-! ### Finding lines -/

/-- The punctuation and spaces the last pass of `seek_sequence` treats as ASCII. -/
def normaliseChar (c : Char) : Char :=
  let n := c.toNat
  if (0x2010 ≤ n && n ≤ 0x2015) || n = 0x2212 then '-'
  else if 0x2018 ≤ n && n ≤ 0x201B then '\''
  else if 0x201C ≤ n && n ≤ 0x201F then '"'
  else if n = 0x00A0 || (0x2002 ≤ n && n ≤ 0x200A) || n = 0x202F || n = 0x205F || n = 0x3000 then ' '
  else c

def normalise (s : Text) : Text := (trim s).map normaliseChar

/-- Whether the pattern stands at `i` when lines are compared after `view`. -/
def matchesAt (view : Text → Text) (lines pattern : List Text) (i : ℕ) : Bool :=
  ((lines.drop i).take pattern.length).map view == pattern.map view

def seekWith (view : Text → Text) (lines pattern : List Text) (searchStart : ℕ) : Option ℕ :=
  (List.range' searchStart (lines.length - pattern.length + 1 - searchStart)).find?
    (matchesAt view lines pattern)

def seekSequence (lines pattern : List Text) (start : ℕ) (eof : Bool) : Option ℕ :=
  if pattern = [] then some start
  else if pattern.length > lines.length then none
  else
    let searchStart := if eof then max (lines.length - pattern.length) start else start
    (seekWith id lines pattern searchStart).or
      ((seekWith trimEnd lines pattern searchStart).or
        ((seekWith trim lines pattern searchStart).or
          (seekWith normalise lines pattern searchStart)))

/-! ### Chunks -/

structure UpdateFileChunk where
  changeContext : Option Text
  oldLines : List Text
  newLines : List Text
  contextLineIndices : List (ℕ × ℕ)
  isEndOfFile : Bool
  deriving DecidableEq, Repr

def UpdateFileChunk.default : UpdateFileChunk := ⟨none, [], [], [], false⟩

/-- The replacements of one matched chunk: the stretches between its context lines. -/
def chunkReplacements (startIdx : ℕ) (pattern newSlice : List Text) :
    (oldStart newStart : ℕ) → (contextLineIndices : List (ℕ × ℕ)) → List Replacement
  | oldStart, newStart, (oldContext, newContext) :: indices =>
    if oldContext ≥ pattern.length ∨ newContext ≥ newSlice.length then
      -- a trailing empty context line was removed with the pattern's
      finish oldStart newStart
    else
      (if oldStart ≠ oldContext ∨ newStart ≠ newContext then
        [⟨startIdx + oldStart, oldContext - oldStart,
          (newSlice.drop newStart).take (newContext - newStart)⟩]
      else []) ++
      chunkReplacements startIdx pattern newSlice (oldContext + 1) (newContext + 1) indices
  | oldStart, newStart, [] => finish oldStart newStart
where
  finish (oldStart newStart : ℕ) : List Replacement :=
    if oldStart ≠ pattern.length ∨ newStart ≠ newSlice.length then
      [⟨startIdx + oldStart, pattern.length - oldStart, newSlice.drop newStart⟩]
    else []

/-- A list without its last element when that is an empty line. -/
def dropTrailingEmpty (lines : List Text) : List Text :=
  if lines.getLast? = some [] then lines.dropLast else lines

/-- The loop of `compute_replacements`. -/
def collectReplacements (originalLines : List Text) (path : Text) :
    (lineIndex : ℕ) → List UpdateFileChunk → Except Text (List Replacement)
  | _, [] => .ok []
  | lineIndex, chunk :: chunks => do
    let lineIndex ←
      match chunk.changeContext with
      | none => .ok lineIndex
      | some ctxLine =>
        match seekSequence originalLines [ctxLine] lineIndex false with
        | some idx => .ok (idx + 1)
        | none => .error ("Failed to find context '".toList ++ ctxLine ++ "' in ".toList ++ path)
    if chunk.oldLines = [] then
      let rest ← collectReplacements originalLines path lineIndex chunks
      .ok (⟨originalLines.length, 0, chunk.newLines⟩ :: rest)
    else
      let found := seekSequence originalLines chunk.oldLines lineIndex chunk.isEndOfFile
      -- the terminating newline of the file is not a line of its own
      let retry := found.isNone && chunk.oldLines.getLast? == some []
      let pattern := if retry then chunk.oldLines.dropLast else chunk.oldLines
      let newSlice := if retry then dropTrailingEmpty chunk.newLines else chunk.newLines
      let found :=
        if retry then seekSequence originalLines pattern lineIndex chunk.isEndOfFile else found
      match found with
      | some startIdx =>
        let rest ← collectReplacements originalLines path (startIdx + pattern.length) chunks
        .ok (chunkReplacements startIdx pattern newSlice 0 0 chunk.contextLineIndices ++ rest)
      | none =>
        .error ("Failed to find expected lines in ".toList ++ path ++ ":\n".toList ++
          ['\n'].intercalate chunk.oldLines)

def computeReplacements (originalLines : List Text) (path : Text)
    (chunks : List UpdateFileChunk) : Except Text (List Replacement) :=
  (collectReplacements originalLines path 0 chunks).map
    (List.insertionSort fun r r' => r.start ≤ r'.start)

/-- The computation of `derive_new_contents_from_chunks` once the file is read. -/
def newContents (path : Text) (chunks : List UpdateFileChunk) (originalContents : Text) :
    Except Text Text := do
  let sourceFile := SourceFile.parse originalContents
  let replacements ← computeReplacements sourceFile.lineTexts path chunks
  .ok (sourceFile.applyReplacements replacements).intoContents

example : newContents "a.txt".toList
    [⟨none, ["b".toList], ["x".toList, "y".toList], [], false⟩] "a\r\nb\nc".toList
      = .ok "a\r\nx\r\ny\r\nc\r\n".toList := by decide

end Patch

end CodexPlus
