/-
CodexPlus/ApplyPatch.lean

Applying patch hunks to files: `apply_hunks_to_files` of apply-patch/src/lib.rs,
with the delta it records.

Files live in a flat store keyed by environment and path, so paths do not alias
and are regular files (text or not); every operation may fail.  How a path of a
patch resolves against the working directory is a parameter (`Paths`), and the
results hold for every choice of it.

A delta is truthful when its changes replay (`Replays`): each change names what
was there before it and what is there after it.
-/
import CodexPlus.FaultyStore
import CodexPlus.PatchParser

namespace CodexPlus

namespace Patch

open FaultyStore

/-! ### Files and deltas -/

/-- The path operations the applier takes from `PathUri`. -/
structure Paths (Uri : Type) where
  join : Uri → Text → Except Text Uri
  parent : Uri → Option Uri
  /-- `inferred_native_path_string` -/
  display : Uri → Text

structure TrackedPath (Uri : Type) where
  environmentId : String
  path : Uri
  deriving DecidableEq, Repr

inductive FileContent where
  | text (content : Text)
  /-- Bytes that are not UTF-8. -/
  | binary (bytes : List UInt8)
  deriving DecidableEq, Repr

abbrev Files (Uri : Type) := TrackedPath Uri → Option FileContent

abbrev FileWorld (Uri : Type) := World (TrackedPath Uri) FileContent

inductive AppliedPatchFileChange (Uri : Type) where
  | add (content : Text) (overwrittenContent : Option Text)
  | delete (content : Text)
  | update (movePath : Option Uri) (oldContent : Text) (overwrittenMoveContent : Option Text)
      (newContent : Text)
  deriving DecidableEq, Repr

structure AppliedPatchChange (Uri : Type) where
  path : Uri
  change : AppliedPatchFileChange Uri
  deriving DecidableEq, Repr

structure AppliedPatchDelta (Uri : Type) where
  changes : List (AppliedPatchChange Uri)
  exact : Bool
  deriving DecidableEq, Repr

namespace AppliedPatchDelta

variable {Uri : Type}

def empty : AppliedPatchDelta Uri := ⟨[], true⟩

def push (d : AppliedPatchDelta Uri) (c : AppliedPatchChange Uri) : AppliedPatchDelta Uri :=
  { d with changes := d.changes ++ [c] }

def inexact (d : AppliedPatchDelta Uri) : AppliedPatchDelta Uri := { d with exact := false }

end AppliedPatchDelta

inductive ApplyPatchError where
  | noFilesModified
  | pathUri (message : Text)
  | io (context : Text) (kind : ErrorKind)
  | computeReplacements (message : Text)
  deriving DecidableEq, Repr

/-- The files and the delta of one application. -/
structure Session (Uri : Type) where
  world : FileWorld Uri
  delta : AppliedPatchDelta Uri

/-! ### File operations -/

section Operations

variable {Uri : Type} [DecidableEq Uri] (paths : Paths Uri) (environmentId : String)
variable (w : FileWorld Uri)

def readFileText (path : Uri) : Except ErrorKind Text × FileWorld Uri :=
  match w.read ⟨environmentId, path⟩ with
  | (.ok (.text content), w) => (.ok content, w)
  | (.ok (.binary _), w) => (.error .other, w)
  | (.error kind, w) => (.error kind, w)

variable (s : Session Uri)

/-- The files are regular files, so `get_metadata` succeeding is all there is to check. -/
def noteExistingPathDeltaSupport (path : Uri) : Session Uri :=
  match s.world.stat ⟨environmentId, path⟩ with
  | (.error .other, w) => ⟨w, s.delta.inexact⟩
  | (_, w) => ⟨w, s.delta⟩

def readOptionalFileTextForDelta (path : Uri) : Option Text × Session Uri :=
  let s := noteExistingPathDeltaSupport environmentId s path
  match readFileText environmentId s.world path with
  | (.ok content, w) => (some content, ⟨w, s.delta⟩)
  | (.error .notFound, w) => (none, ⟨w, s.delta⟩)
  | (.error .other, w) => (none, ⟨w, s.delta.inexact⟩)

def writeFile (path : Uri) (contents : Text) : Except ApplyPatchError Unit × FileWorld Uri :=
  match w.write ⟨environmentId, path⟩ (.text contents) with
  | (.ok (), w) => (.ok (), w)
  | (.error kind, w) => (.error (.io ("Failed to write file ".toList ++ paths.display path) kind), w)

/-- `create_directory` of the parent, if there is one. -/
def createParent (path : Uri) : Except ErrorKind Unit × FileWorld Uri :=
  if (paths.parent path).isSome then w.prepare else (.ok (), w)

def writeFileWithMissingParentRetry (path : Uri) (contents : Text) :
    Except ApplyPatchError Unit × FileWorld Uri :=
  match w.write ⟨environmentId, path⟩ (.text contents) with
  | (.ok (), w) => (.ok (), w)
  | (.error .notFound, w) =>
    match createParent paths w path with
    | (.ok (), w) => writeFile paths environmentId w path contents
    | (.error kind, w) =>
      (.error (.io ("Failed to create parent directories for ".toList ++ paths.display path) kind),
        w)
  | (.error kind, w) => (.error (.io ("Failed to write file ".toList ++ paths.display path) kind), w)

def removeFailureWasSideEffectFree (path : Uri)
    (expectedContent : Option Text) : Bool × FileWorld Uri :=
  match expectedContent with
  | none => (false, w)
  | some expected =>
    match readFileText environmentId w path with
    | (.ok content, w) => (content == expected, w)
    | (.error _, w) => (false, w)

/-- `ensure_not_directory` and then `remove`. When the removal fails, the delta stays exact only if
the file still has the content it is expected to have. -/
def removeFile (path : Uri) (context : Text) (expectedContent : Option Text) :
    Except ApplyPatchError Unit × Session Uri :=
  match s.world.stat ⟨environmentId, path⟩ with
  | (.error kind, w) => (.error (.io context kind), ⟨w, s.delta⟩)
  | (.ok (), w) =>
    match w.remove ⟨environmentId, path⟩ with
    | (.ok (), w) => (.ok (), ⟨w, s.delta⟩)
    | (.error kind, w) =>
      let (free, w) := removeFailureWasSideEffectFree environmentId w path expectedContent
      (.error (.io context kind), ⟨w, { s.delta with exact := s.delta.exact && free }⟩)

/-! ### Applying hunks -/

def applyAdd (path : Uri) (contents : Text) : Except ApplyPatchError Unit × Session Uri :=
  let (overwrittenContent, s) := readOptionalFileTextForDelta environmentId s path
  match writeFileWithMissingParentRetry paths environmentId s.world path contents with
  | (.error error, w) => (.error error, ⟨w, s.delta.inexact⟩)
  | (.ok (), w) => (.ok (), ⟨w, s.delta.push ⟨path, .add contents overwrittenContent⟩⟩)

def applyDelete (path : Uri) : Except ApplyPatchError Unit × Session Uri :=
  let s := noteExistingPathDeltaSupport environmentId s path
  let (read, w) := readFileText environmentId s.world path
  let deletedContent := read.toOption
  let delta := if deletedContent.isNone then s.delta.inexact else s.delta
  match removeFile environmentId ⟨w, delta⟩ path
    ("Failed to delete file ".toList ++ paths.display path) deletedContent with
  | (.error error, s) => (.error error, s)
  | (.ok (), s) =>
    match deletedContent with
    | none => (.ok (), s)
    | some content => (.ok (), { s with delta := s.delta.push ⟨path, .delete content⟩ })

/-- The branch of a rename hunk, once the new contents are known: the destination is written and
recorded as an addition, which the removal of the source turns into a move. -/
def applyMove (path dest : Uri) (originalContents newContents : Text) :
    Except ApplyPatchError Unit × Session Uri :=
  let (overwrittenMoveContent, s) := readOptionalFileTextForDelta environmentId s dest
  match writeFileWithMissingParentRetry paths environmentId s.world dest newContents with
  | (.error error, w) => (.error error, ⟨w, s.delta.inexact⟩)
  | (.ok (), w) =>
    let changes := s.delta.changes
    match removeFile environmentId
      ⟨w, s.delta.push ⟨dest, .add newContents overwrittenMoveContent⟩⟩ path
      ("Failed to remove original ".toList ++ paths.display path) (some originalContents) with
    | (.error error, s) => (.error error, s)
    | (.ok (), s) =>
      (.ok (), { s with delta := { s.delta with
        changes := changes ++
          [⟨path, .update (some dest) originalContents overwrittenMoveContent newContents⟩] } })

def applyUpdate (cwd path : Uri) (movePath : Option Text)
    (chunks : List UpdateFileChunk) : Except ApplyPatchError Unit × Session Uri :=
  let s := noteExistingPathDeltaSupport environmentId s path
  match readFileText environmentId s.world path with
  | (.error kind, w) =>
    (.error (.io ("Failed to read file to update ".toList ++ paths.display path) kind), ⟨w, s.delta⟩)
  | (.ok originalContents, w) =>
    match Patch.newContents (paths.display path) chunks originalContents with
    | .error message => (.error (.computeReplacements message), ⟨w, s.delta⟩)
    | .ok newContents =>
      match movePath with
      | some dest =>
        match paths.join cwd dest with
        | .error message => (.error (.pathUri message), ⟨w, s.delta⟩)
        | .ok dest => applyMove paths environmentId ⟨w, s.delta⟩ path dest originalContents newContents
      | none =>
        match writeFile paths environmentId w path newContents with
        | (.error error, w) => (.error error, ⟨w, s.delta.inexact⟩)
        | (.ok (), w) =>
          (.ok (), ⟨w, s.delta.push ⟨path, .update none originalContents none newContents⟩⟩)

def applyHunk (cwd : Uri) (s : Session Uri) (hunk : Hunk) :
    Except ApplyPatchError Unit × Session Uri :=
  match paths.join cwd hunk.sourcePath with
  | .error message => (.error (.pathUri message), s)
  | .ok path =>
    match hunk with
    | .addFile _ contents => applyAdd paths environmentId s path contents
    | .deleteFile _ => applyDelete paths environmentId s path
    | .updateFile _ movePath chunks => applyUpdate paths environmentId s cwd path movePath chunks

def applyEach (cwd : Uri) : Session Uri → List Hunk → Except ApplyPatchError Unit × Session Uri
  | s, [] => (.ok (), s)
  | s, hunk :: hunks =>
    match applyHunk paths environmentId cwd s hunk with
    | (.error error, s) => (.error error, s)
    | (.ok (), s) => applyEach cwd s hunks

structure AffectedPaths where
  added : List Text
  modified : List Text
  deleted : List Text
  deriving DecidableEq, Repr

/-- What a run that applied every hunk reports. -/
def affectedPaths (hunks : List Hunk) : AffectedPaths where
  added := hunks.filterMap fun
    | .addFile path _ => some path
    | _ => none
  modified := hunks.filterMap fun
    | hunk@(.updateFile ..) => some hunk.path
    | _ => none
  deleted := hunks.filterMap fun
    | .deleteFile path => some path
    | _ => none

/-- `apply_hunks_to_files` with a fresh delta. -/
def applyHunksToFiles (cwd : Uri) (w : FileWorld Uri) (hunks : List Hunk) :
    Except ApplyPatchError AffectedPaths × Session Uri :=
  if hunks = [] then (.error .noFilesModified, ⟨w, .empty⟩)
  else
    match applyEach paths environmentId cwd ⟨w, .empty⟩ hunks with
    | (.error error, s) => (.error error, s)
    | (.ok (), s) => (.ok (affectedPaths hunks), s)

end Operations

end Patch

end CodexPlus
