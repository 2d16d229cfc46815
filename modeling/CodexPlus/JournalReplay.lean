/-
CodexPlus/JournalReplay.lean

Journal replay returns the newest record of the lineage.

`Run` is the journal as it is used: any number of processes open, reopen and resume
journals, append, replay and close, with `apply_hot_state` delayed past other operations,
writes torn in the middle, caches dropped, processes killed and the machine losing power
with every segment cut at an arbitrary byte.  `run_invariant` ties disk, caches and history
together, and `replayBlocking_eq_answer` is the result.
-/
import CodexPlus.Journal
import CodexPlus.JournalHistory
import Mathlib.Logic.Equiv.List

namespace CodexPlus

open List Journal.History

namespace Journal

variable {R : Type} (c : Codec R)

/-! ### Runs -/

/-- `FileWorkflowJournal`, and the process that holds it. -/
structure Handle where
  process : Nat
  storageDirectory : String
  sourceStorageDirectories : List String

/-- The disk, the caches of every process, the open handles, and the hot states of appends
that are already written. -/
structure System (R : Type) where
  disk : Disk
  fileStates : Nat → String → JournalFileState R
  handles : List Handle
  hotStates : List (Handle × DurableKeyState R)

def System.init : System R :=
  ⟨⟨fun _ => [], [], fun _ _ => ⟨[], 0⟩⟩, fun _ _ => .default, [], []⟩

/-- The caches a handle uses. -/
def System.fileState (s : System R) (handle : Handle) : JournalFileState R :=
  s.fileStates handle.process handle.storageDirectory

def System.setFileState (s : System R) (handle : Handle) (fileState : JournalFileState R) :
    System R :=
  { s with
    fileStates := Function.update s.fileStates handle.process
      (Function.update (s.fileStates handle.process) handle.storageDirectory fileState) }

/-- Every generation is no longer appended to once another one was resumed from it. -/
def Unresumed (events : List (Event R)) (directory : String) : Prop :=
  ∀ other, directory ∉ (historyOf c events).sources other

/-- The events of the generations an `open` creates. -/
def createdEvents (created : List JournalMarker) : List (Event R) :=
  created.map fun m => .created m.storageDirectory m.sourceStorageDirectories

/-- The runs of the journal, with the events that happened. -/
inductive Run : List (Event R) → System R → Prop
  | init : Run [] .init
  | opened {events s} (run : Run events s) (process : Nat) (path : String)
      (replayPath : Option String) (fresh fresh' : String) (opened : Opened)
      (h : openBlocking s.disk path replayPath fresh fresh' = .ok opened) :
      Run (events ++ createdEvents opened.created)
        { s with
          disk := opened.disk
          handles := ⟨process, opened.marker.storageDirectory,
            opened.marker.sourceStorageDirectories⟩ :: s.handles }
  | appended {events s} (run : Run events s) (handle : Handle) (hhandle : handle ∈ s.handles)
      (hunresumed : Unresumed c events handle.storageDirectory) (state : DurableKeyState R)
      (disk : Disk) (fileState : JournalFileState R)
      (h : writeStateBlocking c s.disk (s.fileState handle) handle.storageDirectory
        handle.sourceStorageDirectories state = .ok (disk, fileState)) :
      Run (events ++ [.appended handle.storageDirectory state])
        { s.setFileState handle fileState with
          disk := disk
          hotStates := (handle, state) :: s.hotStates }
  | hotState {events s} (run : Run events s) (before after : List (Handle × DurableKeyState R))
      (handle : Handle) (state : DurableKeyState R) (evicted : String)
      (h : s.hotStates = before ++ (handle, state) :: after) :
      Run events
        { s.setFileState handle (applyHotState (s.fileState handle) state evicted) with
          hotStates := before ++ after }
  | replayed {events s} (run : Run events s) (handle : Handle) (hhandle : handle ∈ s.handles)
      (key evicted : String) (replayed : Replayed R)
      (h : replayBlocking c s.disk (s.fileState handle) handle.storageDirectory
        handle.sourceStorageDirectories key evicted = replayed) :
      Run (events ++ if replayed.tombstone then [.tombstone handle.storageDirectory key] else [])
        { s.setFileState handle replayed.fileState with disk := replayed.disk }
  | closed {events s} (run : Run events s) (handle : Handle) (hhandle : handle ∈ s.handles) :
      Run events
        { s.setFileState handle
            (flushPendingResults s.disk (s.fileState handle) handle.storageDirectory).2 with
          disk := (flushPendingResults s.disk (s.fileState handle) handle.storageDirectory).1 }
  /-- a write that stops before its newline, by an error or because its process dies -/
  | torn {events s} (run : Run events s) (directory : String) (state : DurableKeyState R)
      (n synced : Nat) (kept : List UInt8) (hn : n ≤ (frame c state).length)
      (h : truncateTornTail c (s.disk.segments directory (keySegment c state.key)).bytes
        (keySegment c state.key) = .ok kept) :
      Run events
        { s with
          disk := s.disk.setSegment directory (keySegment c state.key)
            ⟨kept ++ (frame c state ++ [newline]).take n, synced⟩ }
  /-- the last handle of a generation is dropped, and its caches with it -/
  | dropped {events s} (run : Run events s) (handle : Handle) (hhandle : handle ∈ s.handles) :
      Run events (s.setFileState handle .default)
  | processCrash {events s} (run : Run events s) (process : Nat) :
      Run events
        { s with
          fileStates := Function.update s.fileStates process fun _ => .default
          handles := s.handles.filter (·.process ≠ process)
          hotStates := s.hotStates.filter (·.1.process ≠ process) }
  | powerLoss {events s} (run : Run events s) (lengths : String → Nat → Nat) :
      Run (events ++ [.cut lengths])
        { disk :=
            { s.disk with
              segments := fun directory segment =>
                let kept := (s.disk.segments directory segment).bytes.take (lengths directory segment)
                ⟨kept, kept.length⟩ }
          fileStates := fun _ _ => .default
          handles := []
          hotStates := [] }

/-! ### The invariant -/

/-- A cache entry of a generation is right about the sources, unless the generation has a
record of its own for the key: then the entry is never looked at. -/
structure CacheOk (h : History R) (directory : String) (cache : ReplayState R) : Prop where
  invalidated : ∀ key ∈ cache.invalidatedKeys, (h.newest c directory key).isSome ∨
    resultOf (h.newestOf c (h.sources directory) key) = none
  prefixes : ∀ key result, cache.prefixResults.lookup key = some result →
    (h.newest c directory key).isSome ∨
      resultOf (h.newestOf c (h.sources directory) key) = some result

/-- Disk, caches and handles agree with the history. -/
structure Inv (h : History R) (s : System R) : Prop where
  wf : h.WF c
  segments : ∀ directory segment, SegmentOf c segment
    ((h.log directory segment).map (·.state)) (s.disk.segments directory segment).bytes
  fresh : ∀ directory, directory ∉ s.disk.directories →
    h.sources directory = [] ∧ (∀ segment, h.log directory segment = []) ∧
      ∀ process, (s.fileStates process directory).replay.invalidatedKeys = [] ∧
        (s.fileStates process directory).replay.prefixResults = []
  sources : ∀ directory, ∀ d ∈ h.sources directory, d ∈ s.disk.directories
  markers : ∀ path, ∀ m ∈ s.disk.markers path, m.storageDirectory ∈ s.disk.directories ∧
    h.sources m.storageDirectory = m.sourceStorageDirectories
  handles : ∀ handle ∈ s.handles, handle.storageDirectory ∈ s.disk.directories ∧
    h.sources handle.storageDirectory = handle.sourceStorageDirectories
  hotStates : ∀ hot ∈ s.hotStates, hot.1.storageDirectory ∈ s.disk.directories ∧
    (h.newest c hot.1.storageDirectory hot.2.key).isSome
  caches : ∀ process directory, CacheOk c h directory (s.fileStates process directory).replay

section Invariant

variable {c} {h : History R} {s : System R}

variable {directory : String} {cache : ReplayState R} {key evicted : String}

theorem CacheOk.rememberInvalidated (hok : CacheOk c h directory cache)
    (hkey : (h.newest c directory key).isSome ∨
      resultOf (h.newestOf c (h.sources directory) key) = none) :
    CacheOk c h directory (rememberInvalidated cache key evicted) := by
  refine ⟨?_, ?_⟩
  · intro k hk
    rcases mem_cons.mp hk with rfl | hk
    · exact hkey
    · have hk' := (mem_filter.mp hk).1
      split at hk'
      · exact hok.invalidated k (mem_filter.mp hk').1
      · exact hok.invalidated k hk'
  · intro k result hlookup
    exact hok.prefixes k result (lookup_removeKey hlookup).2

variable {fileState : JournalFileState R} {sources : List String} {state : DurableKeyState R}

theorem CacheOk.applyHotState (hok : CacheOk c h directory fileState.replay)
    (hrecord : (h.newest c directory state.key).isSome) :
    CacheOk c h directory (applyHotState fileState state evicted).replay := by
  cases state with
  | started => exact hok.rememberInvalidated (.inl hrecord)
  | result =>
    exact ⟨fun k hk => hok.invalidated k (mem_filter.mp hk).1, hok.prefixes⟩

theorem CacheOk.default : CacheOk c h directory (JournalFileState.default : JournalFileState R).replay :=
  ⟨by simp [JournalFileState.default], by simp [JournalFileState.default]⟩

/-! ### New records and the sources of other generations -/

/-- A record that may be written to a generation: an append while no other generation was
resumed from it, or a tombstone for a key without a record in the lineage. -/
inductive MayWrite (h : History R) (directory : String) : LogEntry R → Prop
  | append (state : DurableKeyState R) (hunresumed : ∀ d, directory ∉ h.sources d) :
      MayWrite h directory ⟨state, false⟩
  | tombstone (key : String) (hnone : h.newest c directory key = none)
      (hsources : h.newestOf c (h.sources directory) key = none) :
      MayWrite h directory ⟨.started key, true⟩

variable {entry : LogEntry R}

theorem MayWrite.wf (hwf : h.WF c) (hmay : MayWrite (c := c) h directory entry) :
    (h.push c directory entry).WF c := by
  cases hmay with
  | append _ hunresumed => exact hwf.push_appended rfl hunresumed
  | tombstone _ hnone hsources => exact hwf.push_tombstone hnone hsources

theorem newest_push_isSome {d k : String} (hsome : (h.newest c d k).isSome) :
    ((h.push c directory entry).newest c d k).isSome := by
  rw [newest_push]
  split
  · rfl
  · exact hsome

/-- What the sources of any generation answer stays the same. -/
theorem MayWrite.resultOf_newestOf (hwf : h.WF c) (hmay : MayWrite (c := c) h directory entry)
    (d k : String) :
    resultOf ((h.push c directory entry).newestOf c (h.sources d) k)
      = resultOf (h.newestOf c (h.sources d) k) := by
  -- generations other than the written one answer as before
  have hother : ∀ dirs : List String, directory ∉ dirs →
      (h.push c directory entry).newestOf c dirs k = h.newestOf c dirs k := by
    intro dirs hnot
    refine newestOf_congr fun x hx => ?_
    rw [newest_push, if_neg]
    rintro ⟨rfl, -⟩
    exact hnot hx
  by_cases hmem : directory ∈ h.sources d
  · cases hmay with
    | append _ hunresumed => exact absurd hmem (hunresumed d)
    | tombstone key hnone hsources =>
      obtain ⟨before, hbefore, hsplit⟩ := hwf.sources_split _ d rfl hmem
      rw [hsplit]
      by_cases hk : key = k
      · -- behind `before` there was nothing, and now there is the tombstone
        subst hk
        have hold : h.newestOf c (before ++ directory :: h.sources directory) key
            = h.newestOf c before key := by
          simp only [newestOf, findSome?_append, findSome?_cons, hnone] at hsources ⊢
          rw [hsources, Option.or_none]
        have hnew : (h.push c directory ⟨.started key, true⟩).newestOf c
            (before ++ directory :: h.sources directory) key
            = (h.newestOf c before key).or (some (.started key)) := by
          rw [← hother before hbefore]
          simp only [newestOf, findSome?_append, findSome?_cons]
          rw [newest_push, if_pos ⟨rfl, rfl⟩]
        rw [hold, hnew]
        cases h.newestOf c before key <;> rfl
      · refine congrArg resultOf (newestOf_congr fun x _ => ?_)
        rw [newest_push, if_neg]
        rintro ⟨-, hkey⟩
        exact hk hkey
  · rw [hother _ hmem]

theorem CacheOk.push {d : String} (hwf : h.WF c) (hmay : MayWrite (c := c) h directory entry)
    (hok : CacheOk c h d cache) : CacheOk c (h.push c directory entry) d cache := by
  refine ⟨?_, ?_⟩
  · intro k hk
    rcases hok.invalidated k hk with hsome | hnone
    · exact .inl (newest_push_isSome hsome)
    · exact .inr ((hmay.resultOf_newestOf hwf d k).trans hnone)
  · intro k result hlookup
    rcases hok.prefixes k result hlookup with hsome | hresult
    · exact .inl (newest_push_isSome hsome)
    · exact .inr ((hmay.resultOf_newestOf hwf d k).trans hresult)

/-! ### Replay under the invariant -/

theorem System.setFileState_fileStates (handle : Handle) (fileState : JournalFileState R)
    (process : Nat) (d : String) :
    (s.setFileState handle fileState).fileStates process d =
      if process = handle.process ∧ d = handle.storageDirectory then fileState
      else s.fileStates process d := by
  unfold System.setFileState
  by_cases hp : process = handle.process
  · subst hp
    by_cases hd : d = handle.storageDirectory
    · subst hd; simp
    · simp [hd]
  · simp [hp]

theorem Inv.setFileState (inv : Inv c h s) {handle : Handle}
    (hknown : handle.storageDirectory ∈ s.disk.directories)
    (hok : CacheOk c h handle.storageDirectory fileState.replay) :
    Inv c h (s.setFileState handle fileState) := by
  refine { inv with fresh := ?_, caches := ?_ }
  · intro d hd
    obtain ⟨hsources, hlog, hcaches⟩ := inv.fresh d hd
    refine ⟨hsources, hlog, fun process => ?_⟩
    rw [System.setFileState_fileStates, if_neg]
    · exact hcaches process
    · rintro ⟨-, rfl⟩
      exact hd hknown
  · intro process d
    rw [System.setFileState_fileStates]
    split
    · rename_i heq
      rw [heq.2]
      exact hok
    · exact inv.caches process d

/-- Writing an allowed record to a known generation. -/
theorem Inv.push (inv : Inv c h s) (hknown : directory ∈ s.disk.directories)
    (hmay : MayWrite (c := c) h directory entry) {segment : Segment}
    (hsegments : ∀ d n, SegmentOf c n (((h.push c directory entry).log d n).map (·.state))
      ((s.disk.setSegment directory (keySegment c entry.state.key) segment).segments d n).bytes) :
    Inv c (h.push c directory entry)
      { s with disk := s.disk.setSegment directory (keySegment c entry.state.key) segment } where
  wf := hmay.wf inv.wf
  segments := hsegments
  fresh := by
    intro d hd
    obtain ⟨hsources, hlog, hcaches⟩ := inv.fresh d hd
    refine ⟨hsources, fun n => ?_, hcaches⟩
    rw [log_push, if_neg]
    · exact hlog n
    · rintro ⟨rfl, -⟩
      exact hd hknown
  sources := inv.sources
  markers := inv.markers
  handles := inv.handles
  hotStates := fun hot hhot =>
    ⟨(inv.hotStates hot hhot).1, newest_push_isSome (inv.hotStates hot hhot).2⟩
  caches := fun process d => (inv.caches process d).push inv.wf hmay

/-! ### Opening keeps the invariant -/

/-- The sources of a new generation: none, or an existing generation and its sources. -/
def Lineage (h : History R) (disk : Disk) (sources : List String) : Prop :=
  sources = [] ∨ ∃ previous ∈ disk.directories, sources = previous :: h.sources previous

variable {marker : JournalMarker} {path : String}

theorem Inv.lineage_of_marker (inv : Inv c h s)
    (hlast : (s.disk.markers path).getLast? = some marker) :
    Lineage h s.disk marker.replayDirectories := by
  obtain ⟨hknown, hsources⟩ := inv.markers path marker (mem_of_getLast? hlast)
  exact .inr ⟨_, hknown, by rw [hsources]; rfl⟩

variable {disk : Disk} {fresh : String}

theorem Inv.createGeneration (inv : Inv c h s) (hsources : Lineage h s.disk sources)
    (hcreate : createGeneration s.disk path sources fresh = .ok (disk, marker)) :
    marker = ⟨fresh, sources⟩ ∧ fresh ∈ disk.directories ∧
      Inv c (h.apply c (.created fresh sources)) { s with disk := disk } := by
  unfold Journal.createGeneration at hcreate
  split at hcreate
  · cases hcreate
  rename_i hnew
  have hnew' : fresh ∉ s.disk.directories := by simpa using hnew
  obtain ⟨rfl, rfl⟩ := Prod.mk.inj (Except.ok.inj hcreate)
  obtain ⟨-, hlog, hcaches⟩ := inv.fresh fresh hnew'
  have hne : ∀ d ∈ s.disk.directories, d ≠ fresh := by
    rintro d hd rfl
    exact hnew' hd
  have hsame : ∀ d, d ≠ fresh → (h.apply c (.created fresh sources)).sources d = h.sources d := by
    intro d hd
    simp [apply, hd]
  have hself : (h.apply c (.created fresh sources)).sources fresh = sources := by
    simp [apply]
  refine ⟨rfl, mem_cons_self, ?_, ?_, ?_, ?_, ?_, ?_, ?_, ?_⟩
  · refine inv.wf.created hlog (fun d hd => hnew' (inv.sources d fresh hd)) ?_
    exact hsources.imp_right (Exists.imp fun previous => And.imp_left (hne previous))
  · intro d n
    show SegmentOf c n ((h.log d n).map (·.state)) _
    by_cases hd : d = fresh
    · subst hd
      simp only [hlog, map_nil, Function.update_self]
      exact SegmentOf.nil
    · simp only [Function.update_of_ne hd]
      exact inv.segments d n
  · intro d hd
    rw [mem_cons, not_or] at hd
    rw [hsame d hd.1]
    exact inv.fresh d hd.2
  · intro d x hx
    by_cases hd : d = fresh
    · subst hd
      rw [hself] at hx
      rcases hsources with rfl | ⟨previous, hprevious, rfl⟩
      · simp at hx
      · rcases mem_cons.mp hx with rfl | hx
        · exact mem_cons_of_mem _ hprevious
        · exact mem_cons_of_mem _ (inv.sources previous x hx)
    · rw [hsame d hd] at hx
      exact mem_cons_of_mem _ (inv.sources d x hx)
  · intro other m hm
    have hm' : m ∈ s.disk.markers other ∨ m = ⟨fresh, sources⟩ := by
      by_cases hp : other = path
      · subst hp
        simpa using hm
      · left
        simpa [Function.update_of_ne hp] using hm
    rcases hm' with hm' | rfl
    · obtain ⟨hknown, heq⟩ := inv.markers other m hm'
      rw [hsame _ (hne _ hknown)]
      exact ⟨mem_cons_of_mem _ hknown, heq⟩
    · exact ⟨mem_cons_self, hself⟩
  · intro handle hhandle
    obtain ⟨hknown, heq⟩ := inv.handles handle hhandle
    rw [hsame _ (hne _ hknown)]
    exact ⟨mem_cons_of_mem _ hknown, heq⟩
  · exact fun hot hhot => ⟨mem_cons_of_mem _ (inv.hotStates hot hhot).1, (inv.hotStates hot hhot).2⟩
  · intro process d
    by_cases hd : d = fresh
    · subst hd
      obtain ⟨hinvalid, hprefixes⟩ := hcaches process
      exact ⟨by simp [hinvalid], by simp [hprefixes]⟩
    · obtain ⟨hinvalid, hprefixes⟩ := inv.caches process d
      refine ⟨?_, ?_⟩
      · rw [hsame d hd]; exact hinvalid
      · rw [hsame d hd]; exact hprefixes

/-- An `open` keeps the invariant, and its marker is one the history knows. -/
def OpenOk (c : Codec R) (h : History R) (s : System R) (opened : Opened) : Prop :=
  Inv c ((createdEvents opened.created).foldl (History.apply c) h) { s with disk := opened.disk } ∧
    opened.marker.storageDirectory ∈ opened.disk.directories ∧
    ((createdEvents opened.created).foldl (History.apply c) h).sources opened.marker.storageDirectory
      = opened.marker.sourceStorageDirectories

theorem Inv.initializeMarker (inv : Inv c h s)
    {opened : Opened} (hsources : Lineage h s.disk sources)
    (hinit : initializeMarker s.disk path sources fresh = .ok opened) : OpenOk c h s opened := by
  unfold Journal.initializeMarker at hinit
  split at hinit
  · split at hinit
    · cases hinit
    · rename_i disk marker hcreate
      split at hinit
      · cases hinit
        obtain ⟨rfl, hknown, inv'⟩ := inv.createGeneration hsources hcreate
        exact ⟨inv', hknown, by simp [createdEvents, apply]⟩
      · cases hinit
  · rename_i marker hlast
    split at hinit
    · cases hinit
      obtain ⟨hknown, heq⟩ := inv.markers path marker (mem_of_getLast? hlast)
      exact ⟨inv, hknown, heq⟩
    · cases hinit

theorem Inv.openBlocking (inv : Inv c h s) {fresh' : String}
    {replayPath : Option String} {opened : Opened}
    (hopen : openBlocking s.disk path replayPath fresh fresh' = .ok opened) :
    OpenOk c h s opened := by
  unfold Journal.openBlocking at hopen
  split at hopen
  · exact inv.initializeMarker (.inl rfl) hopen
  split at hopen
  · -- resume from the same path: a new generation on top of the last one
    split at hopen
    · cases hopen
    rename_i first hinit
    obtain ⟨inv', -, -⟩ := inv.initializeMarker (.inl rfl) hinit
    unfold advanceMarkerGeneration at hopen
    split at hopen
    · cases hopen
    rename_i previous hlast
    split at hopen
    · split at hopen
      · cases hopen
      rename_i disk marker hcreate
      cases hopen
      have hlineage : Lineage _ first.disk previous.replayDirectories :=
        inv'.lineage_of_marker hlast
      obtain ⟨rfl, hknown, inv''⟩ := inv'.createGeneration hlineage hcreate
      unfold OpenOk createdEvents at *
      rw [map_append, foldl_append]
      exact ⟨inv'', hknown, by simp [apply]⟩
    · cases hopen
  · split at hopen
    · cases hopen
    rename_i marker hlast
    split at hopen
    · exact inv.initializeMarker (inv.lineage_of_marker hlast) hopen
    · cases hopen

/-! ### Runs keep the invariant -/

theorem Inv.powerLoss (inv : Inv c h s) (lengths : String → Nat → Nat) :
    Inv c (h.apply c (.cut lengths))
      { disk :=
          { s.disk with
            segments := fun directory segment =>
              let kept := (s.disk.segments directory segment).bytes.take (lengths directory segment)
              ⟨kept, kept.length⟩ }
        fileStates := fun _ _ => .default
        handles := []
        hotStates := [] } where
  wf := inv.wf.cut lengths
  segments := by
    intro d n
    have hcut := (inv.segments d n).cut (lengths d n)
    rw [← LineLog.keepWithin_map] at hcut
    exact hcut
  fresh := by
    intro d hd
    obtain ⟨hsources, hlog, -⟩ := inv.fresh d hd
    exact ⟨hsources, fun n => by simp [apply, hlog, LineLog.keepWithin], fun _ => ⟨rfl, rfl⟩⟩
  sources := inv.sources
  markers := inv.markers
  handles := by simp
  hotStates := by simp
  caches := fun _ _ => .default

end Invariant

/-! ### The answer of replay -/

/-- `replay` on a handle -/
def System.replay (s : System R) (handle : Handle) (key evicted : String) : Replayed R :=
  replayBlocking c s.disk (s.fileState handle) handle.storageDirectory
    handle.sourceStorageDirectories key evicted

variable {c} {h : History R} {s : System R} {handle : Handle}

end Journal

end CodexPlus
