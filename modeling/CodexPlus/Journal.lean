/-
CodexPlus/Journal.lean

The file-backed workflow journal (`ext/workflow/src/journal.rs`): marker files, the
generations they list, the segment files of a generation, the caches a process keeps for
a generation, and the operations `open`, `append_started`, `append_result`, `replay` and
`close`.

A marker file is the list of its complete records.  A storage directory is named by a
fresh UUID; here the new name is an argument, and creating a directory that exists is an
error, as `create_dir` has it.  Which entry a full cache evicts depends on the iteration
order of a hash map, so the evicted key is an argument as well.  File operations succeed;
locks make the operations below atomic, except that `apply_hot_state` runs after the
locks of `write_state_blocking` are released and is an operation of its own.
-/
import CodexPlus.JournalSegment
import Mathlib.Logic.Function.Basic

namespace CodexPlus

open List

namespace Journal

variable {R : Type} (c : Codec R)

/-! ### Disk and caches -/

/-- `JournalMarker` -/
structure JournalMarker where
  storageDirectory : String
  sourceStorageDirectories : List String

/-- `JournalMarker::replay_directories` -/
def JournalMarker.replayDirectories (m : JournalMarker) : List String :=
  m.storageDirectory :: m.sourceStorageDirectories

/-- A segment file and how much of it is known to be on disk. -/
structure Segment where
  bytes : List UInt8
  synced : Nat

/-- The marker files, the storage directories and their segments. -/
structure Disk where
  markers : String → List JournalMarker
  directories : List String
  segments : String → Nat → Segment

variable (disk : Disk)

def Disk.setSegment (directory : String) (segment : Nat) (value : Segment) : Disk :=
  { disk with
    segments := Function.update disk.segments directory
      (Function.update (disk.segments directory) segment value) }

/-- `ReplayState` -/
structure ReplayState (R : Type) where
  prefixResults : List (String × R)
  currentResults : List (String × R)
  invalidatedKeys : List String

/-- `JournalFileState` -/
structure JournalFileState (R : Type) where
  replay : ReplayState R
  pendingResultRecords : Nat → Nat

def JournalFileState.default : JournalFileState R := ⟨⟨[], [], []⟩, fun _ => 0⟩

def maxHotJournalResults : Nat := 4096

def resultGroupCommitRecords : Nat := 64

/-- `HashMap::remove` -/
def removeKey (m : List (String × R)) (key : String) : List (String × R) := m.filter (·.1 ≠ key)

/-- `insert_hot_result` -/
def insertHotResult (results : List (String × R)) (key : String) (result : R) (evicted : String) :
    List (String × R) :=
  let kept :=
    if maxHotJournalResults ≤ results.length && !(results.any (·.1 = key)) then
      removeKey results evicted
    else results
  (key, result) :: removeKey kept key

variable {m : List (String × R)} {result : R} {key other : String}

theorem lookup_removeKey
    (h : (removeKey m other).lookup key = some result) : key ≠ other ∧ m.lookup key = some result := by
  induction m with
  | nil => simp [removeKey] at h
  | cons entry m ih =>
    obtain ⟨k, r⟩ := entry
    by_cases hk : k = other
    · rw [removeKey, filter_cons_of_neg (by simp [hk])] at h
      obtain ⟨hne, hm⟩ := ih h
      rw [lookup_cons, show (key == k) = false by simp [hk, hne]]
      exact ⟨hne, hm⟩
    · rw [removeKey, filter_cons_of_pos (by simp [hk]), lookup_cons] at h
      rw [lookup_cons]
      cases hkey : key == k with
      | true =>
        rw [hkey] at h
        refine ⟨?_, h⟩
        rw [eq_of_beq hkey]
        exact hk
      | false =>
        rw [hkey] at h
        exact ih h

/-- `FileWorkflowJournal::remember_invalidated`, and the `Started` case of `apply_hot_state` -/
def rememberInvalidated (s : ReplayState R) (key evicted : String) : ReplayState R :=
  let kept :=
    if maxHotJournalResults ≤ s.invalidatedKeys.length && !(s.invalidatedKeys.contains key) then
      s.invalidatedKeys.filter (· ≠ evicted)
    else s.invalidatedKeys
  { prefixResults := removeKey s.prefixResults key
    currentResults := removeKey s.currentResults key
    invalidatedKeys := key :: kept.filter (· ≠ key) }

variable (fileState : JournalFileState R)

/-- `apply_hot_state` -/
def applyHotState (state : DurableKeyState R) (evicted : String) : JournalFileState R :=
  match state with
  | .started key => { fileState with replay := rememberInvalidated fileState.replay key evicted }
  | .result key result =>
    { fileState with
      replay := { fileState.replay with
        invalidatedKeys := fileState.replay.invalidatedKeys.filter (· ≠ key)
        currentResults := insertHotResult fileState.replay.currentResults key result evicted } }

/-! ### Reading and writing key states -/

/-- `read_state` -/
def readKey (disk : Disk) (directory key : String) : Except String (ReadState R) :=
  readState c (disk.segments directory (keySegment c key)).bytes key

/-- Whether a read asks for an immediately durable `Started` record. -/
def ReadState.hasResult : ReadState R → Bool
  | .complete (some (.result _ _)) => true
  | .corruptTail => true
  | _ => false

/-- `has_result_in_sources` -/
def hasResultInSources (disk : Disk) (key : String) : List String → Except String Bool
  | [] => .ok false
  | directory :: rest =>
    match readKey c disk directory key with
    | .error e => .error e
    | .ok (.complete none) => hasResultInSources disk key rest
    | .ok read => .ok read.hasResult

/-- `write_state_locked`: append the record, and sync the segment for an immediate `Started`
record or when a group of results is complete. -/
def writeStateLocked (directory : String)
    (state : DurableKeyState R) (immediate : Bool) : Except String (Disk × JournalFileState R) :=
  let segment := keySegment c state.key
  let old := disk.segments directory segment
  match appendRecord c old.bytes state with
  | .error e => .error e
  | .ok bytes =>
    let kept := bytes.length - ((frame c state).length + 1)
    let pending := fileState.pendingResultRecords
    let (synced, count) :=
      match state with
      | .started _ => if immediate then (bytes.length, 0) else (min old.synced kept, pending segment)
      | .result _ _ =>
        if resultGroupCommitRecords ≤ pending segment + 1 then (bytes.length, 0)
        else (min old.synced kept, pending segment + 1)
    .ok (disk.setSegment directory segment ⟨bytes, synced⟩,
      { fileState with pendingResultRecords := Function.update pending segment count })

/-- `write_state_blocking` -/
def writeStateBlocking (directory : String) (sources : List String) (state : DurableKeyState R) :
    Except String (Disk × JournalFileState R) :=
  match state with
  | .result _ _ => writeStateLocked c disk fileState directory state false
  | .started key =>
    match readKey c disk directory key, hasResultInSources c disk key sources with
    | .error e, _ => .error e
    | .ok _, .error e => .error e
    | .ok read, .ok sourceHasResult =>
      writeStateLocked c disk fileState directory state (read.hasResult || sourceHasResult)

/-! ### Replay -/

/-- What the search of the source generations ends with. -/
inductive SourceAnswer (R : Type) where
  | found (result : R)
  | invalidated
  | nothing

/-- The loop of `replay_blocking` over the source generations. -/
def searchSources (disk : Disk) (key : String) : List String → Except String (SourceAnswer R)
  | [] => .ok .nothing
  | directory :: rest =>
    match readKey c disk directory key with
    | .error e => .error e
    | .ok (.complete (some (.result _ result))) => .ok (.found result)
    | .ok (.complete (some (.started _))) => .ok .invalidated
    | .ok .corruptTail => .ok .invalidated
    | .ok (.complete none) => searchSources disk key rest

/-- What `replay_blocking` returns and leaves behind. -/
structure Replayed (R : Type) where
  answer : Except String (Option R)
  disk : Disk
  fileState : JournalFileState R
  tombstone : Bool

/-- `FileWorkflowJournal::replay_blocking` -/
def replayBlocking (directory : String)
    (sources : List String) (key evicted : String) : Replayed R :=
  let invalidate (fileState : JournalFileState R) : JournalFileState R :=
    { fileState with replay := rememberInvalidated fileState.replay key evicted }
  match readKey c disk directory key with
  | .error e => ⟨.error e, disk, fileState, false⟩
  | .ok (.complete (some (.result _ result))) =>
    ⟨.ok (some result), disk, applyHotState fileState (.result key result) evicted, false⟩
  | .ok (.complete (some (.started _))) => ⟨.ok none, disk, invalidate fileState, false⟩
  | .ok .corruptTail => ⟨.ok none, disk, invalidate fileState, false⟩
  | .ok (.complete none) =>
    if fileState.replay.invalidatedKeys.contains key then ⟨.ok none, disk, fileState, false⟩
    else
      match fileState.replay.prefixResults.lookup key with
      | some result => ⟨.ok (some result), disk, fileState, false⟩
      | none =>
        match searchSources c disk key sources with
        | .error e => ⟨.error e, disk, fileState, false⟩
        | .ok (.found result) =>
          let results := insertHotResult fileState.replay.prefixResults key result evicted
          ⟨.ok (some result), disk,
            { fileState with replay := { fileState.replay with prefixResults := results } }, false⟩
        | .ok .invalidated => ⟨.ok none, disk, invalidate fileState, false⟩
        | .ok .nothing =>
          if sources = [] then ⟨.ok none, disk, invalidate fileState, false⟩
          else
            -- `persist_replay_tombstone`
            match writeStateLocked c disk fileState directory (.started key) true with
            | .error e =>
              ⟨.error ("failed to persist workflow replay tombstone: " ++ e), disk, fileState, false⟩
            | .ok (disk, fileState) => ⟨.ok none, disk, invalidate fileState, true⟩

/-! ### Opening -/

/-- `create_generation` and `append_marker_record` -/
def createGeneration (path : String) (sources : List String) (fresh : String) :
    Except String (Disk × JournalMarker) :=
  if disk.directories.contains fresh then .error "storage directory exists"
  else
    let marker : JournalMarker := ⟨fresh, sources⟩
    .ok ({ markers := Function.update disk.markers path (disk.markers path ++ [marker])
           directories := fresh :: disk.directories
           segments := Function.update disk.segments fresh fun _ => ⟨[], 0⟩ }, marker)

/-- `ensure_storage_available` on a marker and its sources -/
def storageAvailable (marker : JournalMarker) : Bool :=
  marker.replayDirectories.all disk.directories.contains

def storageUnavailable : String := "workflow journal storage directory is unavailable"

/-- The disk, the marker in force, and the generations that were created for it. -/
structure Opened where
  disk : Disk
  marker : JournalMarker
  created : List JournalMarker

/-- `initialize_marker` -/
def initializeMarker (path : String) (sources : List String) (fresh : String) :
    Except String Opened :=
  match (disk.markers path).getLast? with
  | none =>
    match createGeneration disk path sources fresh with
    | .error e => .error e
    | .ok (disk, marker) =>
      if storageAvailable disk marker then .ok ⟨disk, marker, [marker]⟩ else .error storageUnavailable
  | some marker =>
    if storageAvailable disk marker then .ok ⟨disk, marker, []⟩ else .error storageUnavailable

/-- `advance_marker_generation` -/
def advanceMarkerGeneration (opened : Opened) (path fresh : String) : Except String Opened :=
  match (opened.disk.markers path).getLast? with
  | none => .error "workflow journal marker has no complete generation record"
  | some previous =>
    if storageAvailable opened.disk previous then
      match createGeneration opened.disk path previous.replayDirectories fresh with
      | .error e => .error e
      | .ok (disk, marker) => .ok ⟨disk, marker, opened.created ++ [marker]⟩
    else .error storageUnavailable

/-- `FileWorkflowJournal::open_blocking`; paths are canonical, so that `same_file` is equality. -/
def openBlocking (path : String) (replayPath : Option String)
    (fresh fresh' : String) : Except String Opened :=
  match replayPath with
  | none => initializeMarker disk path [] fresh
  | some source =>
    if source = path then
      match initializeMarker disk path [] fresh with
      | .error e => .error e
      | .ok opened => advanceMarkerGeneration opened path fresh'
    else
      match (disk.markers source).getLast? with
      | none => .error "workflow journal marker has no complete generation record"
      | some marker =>
        if (disk.markers source).all (storageAvailable disk) then
          initializeMarker disk path marker.replayDirectories fresh
        else .error storageUnavailable

/-! ### Closing -/

/-- `flush_pending_results`: sync every segment with pending results. -/
def flushPendingResults (directory : String) : Disk × JournalFileState R :=
  ({ disk with
     segments := Function.update disk.segments directory fun segment =>
       let old := disk.segments directory segment
       if 0 < fileState.pendingResultRecords segment then ⟨old.bytes, old.bytes.length⟩ else old },
   { fileState with pendingResultRecords := fun _ => 0 })

end Journal

end CodexPlus
