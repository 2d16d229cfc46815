/-
CodexPlus/PatchParser.lean

Parsing a patch: apply-patch/src/parser.rs and streaming_parser.rs.

The streaming parser is fed characters, collects them into lines and advances its
state line by line (`processLine`).  `parsePatch` finds the patch in its text,
joins its lines again and feeds them to a fresh parser.  The lenient mode is the
one `parse_patch` uses.
-/
import CodexPlus.PatchLines

namespace CodexPlus

namespace Patch

/-! ### Hunks and errors -/

inductive Hunk where
  | addFile (path contents : Text)
  | deleteFile (path : Text)
  | updateFile (path : Text) (movePath : Option Text) (chunks : List UpdateFileChunk)
  deriving DecidableEq, Repr

/-- `Hunk::path`: the path a summary names, the move destination for rename hunks. -/
def Hunk.path : Hunk → Text
  | .addFile path _ => path
  | .deleteFile path => path
  | .updateFile _ (some movePath) _ => movePath
  | .updateFile path none _ => path

/-- The path `Hunk::resolve_path` joins to the working directory. -/
def Hunk.sourcePath : Hunk → Text
  | .addFile path _ => path
  | .deleteFile path => path
  | .updateFile path _ _ => path

def UpdateFileChunk.pushContextLine (chunk : UpdateFileChunk) (line : Text) : UpdateFileChunk :=
  { chunk with
    contextLineIndices :=
      chunk.contextLineIndices ++ [(chunk.oldLines.length, chunk.newLines.length)]
    oldLines := chunk.oldLines ++ [line]
    newLines := chunk.newLines ++ [line] }

def UpdateFileChunk.hasNoLines (chunk : UpdateFileChunk) : Bool :=
  chunk.oldLines.isEmpty && chunk.newLines.isEmpty

inductive ParseError where
  | invalidPatchError (message : Text)
  | invalidHunkError (message : Text) (lineNumber : ℕ)
  deriving DecidableEq, Repr

def beginPatchMarker : Text := "*** Begin Patch".toList
def endPatchMarker : Text := "*** End Patch".toList
def addFileMarker : Text := "*** Add File: ".toList
def deleteFileMarker : Text := "*** Delete File: ".toList
def updateFileMarker : Text := "*** Update File: ".toList
def moveToMarker : Text := "*** Move to: ".toList
def eofMarker : Text := "*** End of File".toList
def changeContextMarker : Text := "@@ ".toList
def emptyChangeContextMarker : Text := "@@".toList
def environmentIdMarker : Text := "*** Environment ID:".toList

/-- `str::strip_prefix` -/
def afterMarker (marker line : Text) : Option Text :=
  if marker.isPrefixOf line then some (line.drop marker.length) else none

def firstLineError : ParseError :=
  .invalidPatchError "The first line of the patch must be '*** Begin Patch'".toList

def lastLineError : ParseError :=
  .invalidPatchError "The last line of the patch must be '*** End Patch'".toList

def invalidHeader (trimmed : Text) (lineNumber : ℕ) : ParseError :=
  .invalidHunkError ("'".toList ++ trimmed ++
    ("' is not a valid hunk header. Valid hunk headers: '*** Add File: \x7bpath\x7d', " ++
      "'*** Delete File: \x7bpath\x7d', '*** Update File: \x7bpath\x7d'").toList) lineNumber

def unexpectedLine (line : Text) (lineNumber : ℕ) : ParseError :=
  .invalidHunkError ("Unexpected line found in update hunk: '".toList ++ line ++
    ("'. Every line should start with ' ' (context line), '+' (added line), " ++
      "or '-' (removed line)").toList) lineNumber

def expectedContextMarker (line : Text) (lineNumber : ℕ) : ParseError :=
  .invalidHunkError ("Expected update hunk to start with a @@ context marker, got: '".toList ++
    line ++ "'".toList) lineNumber

def noLinesError (lineNumber : ℕ) : ParseError :=
  .invalidHunkError "Update hunk does not contain any lines".toList lineNumber

/-! ### The streaming parser -/

inductive StreamingParserMode where
  | notStarted
  | startedPatch
  | addFile
  | deleteFile
  | updateFile (hunkLineNumber : ℕ)
  | endedPatch
  deriving DecidableEq, Repr

structure StreamingPatchParser where
  lineBuffer : Text
  mode : StreamingParserMode
  hunks : List Hunk
  environmentId : Option Text
  lineNumber : ℕ
  deriving DecidableEq, Repr

namespace StreamingPatchParser

def default : StreamingPatchParser := ⟨[], .notStarted, [], none, 0⟩

variable (p : StreamingPatchParser)

def ensureUpdateHunkIsNotEmpty (line : Text) : Except ParseError Unit :=
  match p.hunks.getLast? with
  | some (.updateFile path _ chunks) =>
    match p.mode, chunks.getLast? with
    | .updateFile hunkLineNumber, none =>
      .error (.invalidHunkError
        ("Update file hunk for path '".toList ++ path ++ "' is empty".toList) hunkLineNumber)
    | _, none => .ok ()
    | _, some chunk =>
      if chunk.hasNoLines then
        if line = endPatchMarker then .error (noLinesError p.lineNumber)
        else .error (unexpectedLine line p.lineNumber)
      else .ok ()
  | _ => .ok ()

/-- A hunk header: the hunk before it must be complete. -/
def startHunk (line : Text) (hunk : Hunk) (mode : StreamingParserMode) :
    Except ParseError (Option StreamingPatchParser) := do
  p.ensureUpdateHunkIsNotEmpty line
  .ok (some { p with hunks := p.hunks ++ [hunk], mode := mode })

/-- The headers that may follow any hunk, and the end of the patch. -/
def handleHeadersAndEnd (trimmed : Text) : Except ParseError (Option StreamingPatchParser) :=
  if trimmed = endPatchMarker then do
    p.ensureUpdateHunkIsNotEmpty trimmed
    .ok (some { p with mode := .endedPatch })
  else
    match afterMarker addFileMarker trimmed with
    | some path => p.startHunk trimmed (.addFile path []) .addFile
    | none =>
      match afterMarker deleteFileMarker trimmed with
      | some path => p.startHunk trimmed (.deleteFile path) .deleteFile
      | none =>
        match afterMarker updateFileMarker trimmed with
        | some path => p.startHunk trimmed (.updateFile path none []) (.updateFile p.lineNumber)
        | none => .ok none

/-- The environment marker, which only the first lines of a patch may have. -/
def handleEnvironmentId (environmentId : Text) : Except ParseError StreamingPatchParser :=
  if p.environmentId.isSome then
    .error (.invalidPatchError
      "apply_patch environment_id cannot be specified more than once".toList)
  else if trim environmentId = [] then
    .error (.invalidPatchError "apply_patch environment_id cannot be empty".toList)
  else .ok { p with environmentId := some (trim environmentId) }

/-- `none` stands for a line that is no header. -/
def handleHunkHeadersAndEndPatch (trimmed : Text) :
    Except ParseError (Option StreamingPatchParser) :=
  match if p.mode = .startedPatch then afterMarker environmentIdMarker trimmed else none with
  | some environmentId => (p.handleEnvironmentId environmentId).map some
  | none => p.handleHeadersAndEnd trimmed

/-- The last chunk takes a line; the first line of a hunk without a marker opens a chunk. -/
def onLastChunk (f : UpdateFileChunk → UpdateFileChunk) (chunks : List UpdateFileChunk) :
    List UpdateFileChunk :=
  if chunks = [] then [f .default] else chunks.modifyLast f

def startsChunk (updateLine : Text) : Bool :=
  updateLine = emptyChangeContextMarker || changeContextMarker.isPrefixOf updateLine

/-- A line of an update hunk that is not a marker. -/
def changeLine (lineNumber : ℕ) (line : Text) (chunks : List UpdateFileChunk) :
    Except ParseError (List UpdateFileChunk) :=
  match line with
  | [] => .ok (onLastChunk (·.pushContextLine []) chunks)
  | ' ' :: text => .ok (onLastChunk (·.pushContextLine text) chunks)
  | '+' :: text =>
    .ok (onLastChunk (fun chunk => { chunk with newLines := chunk.newLines ++ [text] }) chunks)
  | '-' :: text =>
    .ok (onLastChunk (fun chunk => { chunk with oldLines := chunk.oldLines ++ [text] }) chunks)
  | line =>
    if chunks.getLast?.any (! ·.hasNoLines) then .error (expectedContextMarker line lineNumber)
    else .error (unexpectedLine line lineNumber)

/-- A line of an update hunk: its move path and chunks afterwards. -/
def updateFileLine (lineNumber : ℕ) (line : Text) (movePath : Option Text)
    (chunks : List UpdateFileChunk) : Except ParseError (Option Text × List UpdateFileChunk) :=
  let updateLine := trimEnd line
  let lastIsEof := chunks.getLast?.any (·.isEndOfFile)
  let lastHasNoLines := chunks.getLast?.any (·.hasNoLines)
  if lastIsEof ∧ updateLine = [] then .ok (movePath, chunks)
  else if lastIsEof ∧ ¬ startsChunk updateLine then
    .error (expectedContextMarker line lineNumber)
  else
    match if chunks = [] ∧ movePath = none then afterMarker moveToMarker updateLine else none with
    | some moveToPath => .ok (some moveToPath, chunks)
    | none =>
      if startsChunk updateLine ∧ lastHasNoLines then .error (unexpectedLine line lineNumber)
      else if updateLine = emptyChangeContextMarker then .ok (movePath, chunks ++ [.default])
      else
        match afterMarker changeContextMarker updateLine with
        | some changeContext =>
          .ok (movePath, chunks ++ [{ UpdateFileChunk.default with changeContext }])
        | none =>
          if updateLine = eofMarker then
            if lastHasNoLines then .error (noLinesError lineNumber)
            else .ok (movePath, chunks.modifyLast fun chunk => { chunk with isEndOfFile := true })
          else do
            let chunks ← changeLine lineNumber line chunks
            .ok (movePath, chunks)

def processLine (line : Text) : Except ParseError StreamingPatchParser :=
  let trimmed := trim line
  match p.mode with
  | .notStarted =>
    if trimmed = beginPatchMarker then .ok { p with mode := .startedPatch }
    else .error firstLineError
  | .startedPatch | .deleteFile => do
    match ← p.handleHunkHeadersAndEndPatch trimmed with
    | some p => .ok p
    | none => .error (invalidHeader trimmed p.lineNumber)
  | .addFile => do
    match ← p.handleHunkHeadersAndEndPatch trimmed with
    | some p => .ok p
    | none =>
      match line, p.hunks.getLast? with
      | '+' :: lineToAdd, some (.addFile path contents) =>
        .ok { p with
          hunks := p.hunks.dropLast ++ [.addFile path (contents ++ lineToAdd ++ ['\n'])] }
      | _, _ => .error (invalidHeader trimmed p.lineNumber)
  | .updateFile _ => do
    match ← p.handleHunkHeadersAndEndPatch (trimEnd line) with
    | some p => .ok p
    | none =>
      match p.hunks.getLast? with
      | some (.updateFile path movePath chunks) => do
        let (movePath, chunks) ← updateFileLine p.lineNumber line movePath chunks
        .ok { p with hunks := p.hunks.dropLast ++ [.updateFile path movePath chunks] }
      | _ => .error (unexpectedLine line p.lineNumber)
  | .endedPatch => if trimmed = [] then .ok p else .error lastLineError

end StreamingPatchParser

/-- A line without the carriage return at its end. -/
def stripCr (line : Text) : Text :=
  if line.getLast? = some '\r' then line.dropLast else line

namespace StreamingPatchParser

variable (p : StreamingPatchParser)

/-- The parser once the line buffer is taken. -/
def nextLine : StreamingPatchParser :=
  { p with lineBuffer := [], lineNumber := p.lineNumber + 1 }

def pushChar (c : Char) : Except ParseError StreamingPatchParser :=
  if c = '\n' then p.nextLine.processLine (stripCr p.lineBuffer)
  else .ok { p with lineBuffer := p.lineBuffer ++ [c] }

def pushDelta (delta : Text) : Except ParseError StreamingPatchParser :=
  delta.foldlM pushChar p

/-- The last line of a patch may lack its line end. -/
def takeLastLine : Except ParseError StreamingPatchParser :=
  if p.lineBuffer = [] then .ok p
  else if trim p.lineBuffer = endPatchMarker then do
    p.nextLine.ensureUpdateHunkIsNotEmpty (trim p.lineBuffer)
    .ok { p.nextLine with mode := .endedPatch }
  else p.nextLine.processLine p.lineBuffer

def finish : Except ParseError StreamingPatchParser := do
  let p ← p.takeLastLine
  if p.mode = .endedPatch then .ok p else .error lastLineError

end StreamingPatchParser

/-! ### Parsing a whole patch -/

structure ApplyPatchArgs where
  patch : Text
  hunks : List Hunk
  workdir : Option Text
  environmentId : Option Text
  deriving DecidableEq, Repr

/-- `str::lines`; `line` is what was read of the current line. -/
def textLines (line : Text) : Text → List Text
  | [] => if line = [] then [] else [line]
  | c :: rest => if c = '\n' then stripCr line :: textLines [] rest else textLines (line ++ [c]) rest

def checkStartAndEndLinesStrict (firstLine lastLine : Option Text) : Except ParseError Unit :=
  match firstLine.map trim, lastLine.map trim with
  | some first, some last =>
    if first = beginPatchMarker then
      if last = endPatchMarker then .ok () else .error lastLineError
    else .error firstLineError
  | some first, none =>
    if first ≠ beginPatchMarker then .error firstLineError else .error lastLineError
  | _, _ => .error lastLineError

def checkPatchBoundariesStrict (lines : List Text) : Except ParseError (List Text) := do
  checkStartAndEndLinesStrict lines.head? lines.getLast?
  .ok lines

def heredocMarkers : List Text := ["<<EOF".toList, "<<'EOF'".toList, "<<\"EOF\"".toList]

def checkPatchBoundariesLenient (originalLines : List Text) : Except ParseError (List Text) :=
  match checkPatchBoundariesStrict originalLines with
  | .ok lines => .ok lines
  | .error originalParseError =>
    match originalLines.head?, originalLines.getLast? with
    | some first, some last =>
      if first ∈ heredocMarkers ∧ "EOF".toList.isSuffixOf last ∧ originalLines.length ≥ 4 then
        checkPatchBoundariesStrict originalLines.tail.dropLast
      else .error originalParseError
    | _, _ => .error originalParseError

def parsePatch (patch : Text) : Except ParseError ApplyPatchArgs := do
  let patchLines ← checkPatchBoundariesLenient (textLines [] (trim patch))
  let patch := ['\n'].intercalate patchLines
  let parser ← StreamingPatchParser.default.pushDelta patch
  let parser ← parser.finish
  .ok ⟨patch, parser.hunks, none, parser.environmentId⟩

example :
    (parsePatch "*** Begin Patch\n*** Add File: a\n+x\r\n*** End Patch\n".toList).map (·.hunks)
      = .ok [.addFile "a".toList "x\n".toList] := by decide

end Patch

end CodexPlus
