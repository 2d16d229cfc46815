/-
CodexPlus/TurnDiff.lean

The turn diff tracker: core/src/turn_diff_tracker.rs.

The tracker follows the deltas of a turn without rereading the files.  For each
path it knows, `baselineByPath` is to hold the content at the start of the turn
and `currentByPath` the content now; a path it does not know is to be as it was
(`Truthful`).

The abstract side is a pair of functions from paths to texts (`View`) with one
operation, `View.set`.  Each change of a delta is one or two of these on the
view of the tracker, and each of these keeps the view truthful.
-/
import CodexPlus.DeltaReplay
import Mathlib.Data.List.AList

namespace CodexPlus

namespace TurnDiff

open Patch

/-! ### Views of a turn -/

/-- What is told about each path: its content at the start, and its content now. -/
@[ext] structure View (K : Type) where
  baseline : K → Option Text
  current : K → Option Text

namespace View

variable {K : Type} {v : View K} {start now : K → Option FileContent} {k : K}

/-- A path with an entry has the contents the entries say, one without any has not changed. -/
def Truthful (v : View K) (start now : K → Option FileContent) : Prop :=
  ∀ k, if v.baseline k = none ∧ v.current k = none then now k = start k
    else start k = (v.baseline k).map .text ∧ now k = (v.current k).map .text

theorem truthful_refl (start : K → Option FileContent) :
    Truthful ⟨fun _ => none, fun _ => none⟩ start start := by
  intro k
  simp

/-- What the start of the turn had at `k`, if it has `before` now. -/
def startOf (v : View K) (k : K) (before : Option Text) : Option Text :=
  if v.baseline k = none ∧ v.current k = none then before else v.baseline k

theorem Truthful.startOf (h : v.Truthful start now) {before : Option Text}
    (hbefore : now k = before.map .text) : start k = (v.startOf k before).map .text := by
  have hk := h k
  unfold View.startOf
  split at hk
  · next hunknown => rw [if_pos hunknown, ← hk, hbefore]
  · next hknown => rw [if_neg hknown, hk.1]

variable [DecidableEq K]

/-- The content of `k`, which is `before`, becomes `after`. -/
def set (v : View K) (k : K) (before after : Option Text) : View K where
  baseline := Function.update v.baseline k (v.startOf k before)
  current := Function.update v.current k after

theorem Truthful.set (h : v.Truthful start now) {before : Option Text}
    (hbefore : now k = before.map .text) (after : Option Text) :
    (v.set k before after).Truthful start (Function.update now k (after.map .text)) := by
  have hstart := h.startOf hbefore
  intro k'
  by_cases hk : k' = k
  · subst hk
    simp only [View.set, Function.update_self]
    split
    · next hnone => rw [hstart, hnone.1, hnone.2]
    · exact ⟨hstart, trivial⟩
  · simpa only [View.set, Function.update_of_ne hk] using h k'

end View

/-! ### The tracker -/

structure TrackedContent where
  content : Text
  revision : ℕ
  deriving DecidableEq, Repr

abbrev PathMap (Uri V : Type) := AList fun _ : TrackedPath Uri => V

structure TurnDiffTracker (Uri : Type) where
  valid : Bool
  baselineByPath : PathMap Uri TrackedContent
  currentByPath : PathMap Uri TrackedContent
  originByCurrentPath : PathMap Uri (TrackedPath Uri)
  nextRevision : ℕ

namespace TurnDiffTracker

variable {Uri : Type} [DecidableEq Uri]

def new : TurnDiffTracker Uri := ⟨true, ∅, ∅, ∅, 0⟩

def insertBaseline (t : TurnDiffTracker Uri) (path : TrackedPath Uri) (content : Text) :
    TurnDiffTracker Uri :=
  { t with
    baselineByPath := t.baselineByPath.insert path ⟨content, t.nextRevision⟩
    nextRevision := t.nextRevision + 1 }

def insertCurrent (t : TurnDiffTracker Uri) (path : TrackedPath Uri) (content : Text) :
    TurnDiffTracker Uri :=
  { t with
    currentByPath := t.currentByPath.insert path ⟨content, t.nextRevision⟩
    nextRevision := t.nextRevision + 1 }

/-- The first change of a path records what it replaced. -/
def noteBaseline (t : TurnDiffTracker Uri) (path : TrackedPath Uri) (content : Option Text) :
    TurnDiffTracker Uri :=
  if path ∉ t.currentByPath ∧ path ∉ t.baselineByPath then
    match content with
    | some content => t.insertBaseline path content
    | none => t
  else t

def removeOrigin (t : TurnDiffTracker Uri) (path : TrackedPath Uri) : TurnDiffTracker Uri :=
  { t with originByCurrentPath := t.originByCurrentPath.erase path }

def applyAdd (t : TurnDiffTracker Uri) (path : TrackedPath Uri) (content : Text)
    (overwrittenContent : Option Text) : TurnDiffTracker Uri :=
  ((t.removeOrigin path).noteBaseline path overwrittenContent).insertCurrent path content

def removeCurrent (t : TurnDiffTracker Uri) (path : TrackedPath Uri) : TurnDiffTracker Uri :=
  { t with currentByPath := t.currentByPath.erase path }

def applyDelete (t : TurnDiffTracker Uri) (path : TrackedPath Uri) (content : Text) :
    TurnDiffTracker Uri :=
  -- `remove` tells whether there was an entry, so both maps are asked as they were before
  ((t.noteBaseline path (some content)).removeCurrent path).removeOrigin path

def applyUpdate (t : TurnDiffTracker Uri) (sourcePath : TrackedPath Uri)
    (movePath : Option (TrackedPath Uri)) (oldContent : Text)
    (overwrittenMoveContent : Option Text) (newContent : Text) : TurnDiffTracker Uri :=
  let t := t.noteBaseline sourcePath (some oldContent)
  match movePath with
  | some destPath =>
    let t := t.noteBaseline destPath overwrittenMoveContent
    let origin := (t.originByCurrentPath.lookup sourcePath).getD sourcePath
    let t := (t.removeOrigin sourcePath).removeCurrent sourcePath
    let t := (t.insertCurrent destPath newContent).removeOrigin destPath
    if destPath ≠ origin then
      { t with originByCurrentPath := t.originByCurrentPath.insert destPath origin }
    else t
  | none => t.insertCurrent sourcePath newContent

def applyChange (environmentId : String) (t : TurnDiffTracker Uri)
    (change : AppliedPatchChange Uri) : TurnDiffTracker Uri :=
  let sourcePath : TrackedPath Uri := ⟨environmentId, change.path⟩
  match change.change with
  | .add content overwrittenContent => t.applyAdd sourcePath content overwrittenContent
  | .delete content => t.applyDelete sourcePath content
  | .update movePath oldContent overwrittenMoveContent newContent =>
    t.applyUpdate sourcePath (movePath.map fun path => ⟨environmentId, path⟩) oldContent
      overwrittenMoveContent newContent

def invalidate (t : TurnDiffTracker Uri) : TurnDiffTracker Uri := { t with valid := false }

def trackDelta (t : TurnDiffTracker Uri) (environmentId : String)
    (delta : AppliedPatchDelta Uri) : TurnDiffTracker Uri :=
  if ¬ t.valid then t
  else if ¬ delta.exact then t.invalidate
  else delta.changes.foldl (applyChange environmentId) t

/-! ### The view of a tracker -/

section Views

variable (t : TurnDiffTracker Uri) (path dest : TrackedPath Uri)

def view : View (TrackedPath Uri) where
  baseline path := (t.baselineByPath.lookup path).map (·.content)
  current path := (t.currentByPath.lookup path).map (·.content)

variable (content : Text)

theorem view_insertCurrent : (t.insertCurrent path content).view =
      ⟨t.view.baseline, Function.update t.view.current path (some content)⟩ := by
  refine View.ext rfl (funext fun p => ?_)
  by_cases hp : p = path
  · subst hp
    simp [view, insertCurrent]
  · simp [view, insertCurrent, hp]

theorem view_removeCurrent :
    (t.removeCurrent path).view =
      ⟨t.view.baseline, Function.update t.view.current path none⟩ := by
  refine View.ext rfl (funext fun p => ?_)
  by_cases hp : p = path
  · subst hp
    simp [view, removeCurrent]
  · simp [view, removeCurrent, hp]

theorem view_noteBaseline (content : Option Text) :
    (t.noteBaseline path content).view =
      ⟨Function.update t.view.baseline path (t.view.startOf path content), t.view.current⟩ := by
  have hiff : (t.view.baseline path = none ∧ t.view.current path = none) ↔
      path ∉ t.currentByPath ∧ path ∉ t.baselineByPath := by
    simp [view, AList.lookup_eq_none, and_comm]
  unfold noteBaseline View.startOf
  simp only [hiff]
  split
  · next hunknown =>
    rcases content with - | content
    · have hself := Function.update_eq_self path t.view.baseline
      rw [(hiff.mpr hunknown).1] at hself
      rw [hself]
    · refine View.ext (funext fun p => ?_) rfl
      by_cases hp : p = path
      · subst hp
        simp [view, insertBaseline]
      · simp [view, insertBaseline, hp]
  · rw [Function.update_eq_self]

theorem view_applyAdd (overwrittenContent : Option Text) :
    (t.applyAdd path content overwrittenContent).view =
      t.view.set path overwrittenContent (some content) := by
  rw [applyAdd, view_insertCurrent, view_noteBaseline]
  rfl

theorem view_applyDelete :
    (t.applyDelete path content).view = t.view.set path (some content) none := by
  show ((t.noteBaseline path (some content)).removeCurrent path).view = _
  rw [view_removeCurrent, view_noteBaseline]
  rfl

theorem view_applyUpdate_none (oldContent : Text) (overwritten : Option Text) (newContent : Text) :
    (t.applyUpdate path none oldContent overwritten newContent).view =
      t.view.set path (some oldContent) (some newContent) := by
  show ((t.noteBaseline path (some oldContent)).insertCurrent path newContent).view = _
  rw [view_insertCurrent, view_noteBaseline]
  rfl

/-- A move takes the source away and sets the destination, as long as they differ. -/
theorem view_applyUpdate_some (hne : dest ≠ path) (oldContent : Text)
    (overwritten : Option Text) (newContent : Text) :
    (t.applyUpdate path (some dest) oldContent overwritten newContent).view =
      (t.view.set path (some oldContent) none).set dest overwritten (some newContent) := by
  have hview : (t.applyUpdate path (some dest) oldContent overwritten newContent).view =
      ((((t.noteBaseline path (some oldContent)).noteBaseline dest overwritten).removeCurrent
        path).insertCurrent dest newContent).view := by
    unfold applyUpdate
    simp only
    split <;> rfl
  rw [hview, view_insertCurrent, view_removeCurrent, view_noteBaseline, view_noteBaseline]
  simp [View.set, View.startOf, Function.update_of_ne hne]

end Views

variable {after start : Files Uri} {environmentId : String} {t : TurnDiffTracker Uri}

/-- Every change keeps the view truthful. -/
theorem truthful_applyChange {change : AppliedPatchChange Uri} {before : Files Uri}
    (h : t.view.Truthful start before) (happlies : Applies environmentId before change after) :
    (applyChange environmentId t change).view.Truthful start after := by
  obtain ⟨path, change⟩ := change
  rcases change with ⟨content, overwritten⟩ | content | ⟨movePath, old, overwritten, new⟩
  · obtain ⟨hbefore, rfl⟩ := happlies
    show (t.applyAdd _ content overwritten).view.Truthful start _
    rw [view_applyAdd]
    exact h.set hbefore (some content)
  · obtain ⟨hbefore, rfl⟩ := happlies
    show (t.applyDelete _ content).view.Truthful start _
    rw [view_applyDelete]
    exact h.set hbefore none
  · rcases movePath with - | dest
    · obtain ⟨hbefore, rfl⟩ := happlies
      show (t.applyUpdate _ none old overwritten new).view.Truthful start _
      rw [view_applyUpdate_none]
      exact h.set hbefore (some new)
    · obtain ⟨hne, hbefore, hdest, rfl⟩ := happlies
      have hne' : (⟨environmentId, dest⟩ : TrackedPath Uri) ≠ ⟨environmentId, path⟩ := by
        simpa using hne
      show (t.applyUpdate _ (some ⟨environmentId, dest⟩) old overwritten new).view.Truthful start _
      rw [view_applyUpdate_some _ _ _ hne', Function.update_comm hne']
      refine (h.set hbefore none).set ?_ (some new)
      rw [Function.update_of_ne hne']
      exact hdest

theorem truthful_foldl_applyChange {changes : List (AppliedPatchChange Uri)}
    {before : Files Uri} (h : t.view.Truthful start before)
    (hreplays : Replays environmentId before changes after) :
    (changes.foldl (applyChange environmentId) t).view.Truthful start after := by
  induction changes generalizing t before with
  | nil =>
    cases hreplays
    exact h
  | cons _ _ ih =>
    obtain ⟨between, happlies, hrest⟩ := hreplays
    exact ih (truthful_applyChange h happlies) hrest

/-- What the tracker is to tell: a path with an entry in either map had the baseline content at the
start of the turn and has the current content now, a missing entry standing for a missing file;
every other path is as it was. -/
def TellsTruth (t : TurnDiffTracker Uri) (start now : Files Uri) : Prop :=
  ∀ path,
    if path ∈ t.baselineByPath ∨ path ∈ t.currentByPath then
      start path = (t.baselineByPath.lookup path).map (.text ·.content) ∧
        now path = (t.currentByPath.lookup path).map (.text ·.content)
    else now path = start path

theorem tellsTruth_iff {now : Files Uri} : t.TellsTruth start now ↔ t.view.Truthful start now := by
  refine forall_congr' fun path => ?_
  have hiff : (t.view.baseline path = none ∧ t.view.current path = none) ↔
      ¬ (path ∈ t.baselineByPath ∨ path ∈ t.currentByPath) := by
    simp [view, AList.lookup_eq_none]
  simp only [hiff, ite_not]
  simp only [view, Option.map_map, Function.comp_def]

@[simp] theorem valid_noteBaseline (t : TurnDiffTracker Uri) (path : TrackedPath Uri)
    (content : Option Text) : (t.noteBaseline path content).valid = t.valid := by
  unfold noteBaseline
  split
  · cases content <;> rfl
  · rfl

theorem valid_applyChange (environmentId : String) (t : TurnDiffTracker Uri)
    (change : AppliedPatchChange Uri) : (applyChange environmentId t change).valid = t.valid := by
  obtain ⟨path, change⟩ := change
  rcases change with ⟨content, overwritten⟩ | content | ⟨movePath, old, overwritten, new⟩
  · simp [applyChange, applyAdd, insertCurrent, removeOrigin]
  · simp [applyChange, applyDelete, removeCurrent, removeOrigin]
  · rcases movePath with - | dest
    · simp [applyChange, applyUpdate, insertCurrent]
    · simp [applyChange, applyUpdate]
      split <;> simp [insertCurrent, removeCurrent, removeOrigin]

theorem valid_foldl_applyChange (environmentId : String) (changes : List (AppliedPatchChange Uri))
    (t : TurnDiffTracker Uri) :
    (changes.foldl (applyChange environmentId) t).valid = t.valid := by
  induction changes generalizing t with
  | nil => rfl
  | cons _ _ ih => rw [List.foldl_cons, ih, valid_applyChange]

theorem trackDelta_valid {delta : AppliedPatchDelta Uri} (hvalid : t.valid) (hexact : delta.exact) :
    t.trackDelta environmentId delta = delta.changes.foldl (applyChange environmentId) t := by
  simp [trackDelta, hvalid, hexact]

end TurnDiffTracker

/-! ### A turn -/

/-- One call of `apply_hunks_to_files`. -/
structure PatchCall (Uri : Type) where
  environmentId : String
  cwd : Uri
  hunks : List Hunk

structure Turn (Uri : Type) where
  world : FileWorld Uri
  tracker : TurnDiffTracker Uri

section Turns

variable {Uri : Type} [DecidableEq Uri] (paths : Paths Uri)

def callSession (w : FileWorld Uri) (call : PatchCall Uri) : Session Uri :=
  (applyHunksToFiles paths call.environmentId call.cwd w call.hunks).2

/-- The call, and then `track_delta` of what it recorded, whether it succeeded or not. -/
def Turn.call (turn : Turn Uri) (call : PatchCall Uri) : Turn Uri :=
  let s := callSession paths turn.world call
  ⟨s.world, turn.tracker.trackDelta call.environmentId s.delta⟩

def Turn.run (turn : Turn Uri) (calls : List (PatchCall Uri)) : Turn Uri :=
  calls.foldl (Turn.call paths) turn

/-- The deltas of the calls, in order. -/
def callDeltas : FileWorld Uri → List (PatchCall Uri) → List (AppliedPatchDelta Uri)
  | _, [] => []
  | w, call :: calls =>
    let s := callSession paths w call
    s.delta :: callDeltas s.world calls

variable {paths} {start : Files Uri} {turn : Turn Uri} {call : PatchCall Uri}

/-- One call with an exact delta keeps the tracker valid and truthful. -/
theorem truthful_call (hvalid : turn.tracker.valid)
    (h : turn.tracker.view.Truthful start turn.world.files)
    (hmoves : ∀ hunk ∈ call.hunks, hunk.movesOntoItself paths call.cwd = false)
    (hexact : (callSession paths turn.world call).delta.exact) :
    (turn.call paths call).tracker.valid ∧
      (turn.call paths call).tracker.view.Truthful start (turn.call paths call).world.files := by
  have hreplays := applyHunksToFiles_replays hmoves rfl hexact
  have htrack : (turn.call paths call).tracker =
      (callSession paths turn.world call).delta.changes.foldl
        (TurnDiffTracker.applyChange call.environmentId) turn.tracker :=
    TurnDiffTracker.trackDelta_valid hvalid hexact
  rw [htrack]
  refine ⟨?_, TurnDiffTracker.truthful_foldl_applyChange h hreplays⟩
  rw [TurnDiffTracker.valid_foldl_applyChange, hvalid]

theorem truthful_run {calls : List (PatchCall Uri)} (hvalid : turn.tracker.valid)
    (h : turn.tracker.view.Truthful start turn.world.files)
    (hmoves : ∀ call ∈ calls, ∀ hunk ∈ call.hunks, hunk.movesOntoItself paths call.cwd = false)
    (hexact : ∀ delta ∈ callDeltas paths turn.world calls, delta.exact) :
    (turn.run paths calls).tracker.view.Truthful start (turn.run paths calls).world.files := by
  induction calls generalizing turn with
  | nil => exact h
  | cons call _ ih =>
    obtain ⟨hvalid', h'⟩ := truthful_call hvalid h (hmoves call List.mem_cons_self)
      (hexact _ List.mem_cons_self)
    exact ih hvalid' h' (fun other hother => hmoves other (List.mem_cons_of_mem _ hother))
      fun delta hdelta => hexact delta (List.mem_cons_of_mem _ hdelta)

/-- **The deltas and the tracker tell the truth.**  Over every sequence of calls in a turn and every
choice of failing operations, if all deltas are exact and no hunk moves a file onto itself, the
tracker knows the start of the turn and the files as they are. -/
theorem turn_tellsTruth (paths : Paths Uri) (w : FileWorld Uri) (calls : List (PatchCall Uri))
    (hmoves : ∀ call ∈ calls, ∀ hunk ∈ call.hunks, hunk.movesOntoItself paths call.cwd = false)
    (hexact : ∀ delta ∈ callDeltas paths w calls, delta.exact = true) :
    ((Turn.mk w .new).run paths calls).tracker.TellsTruth w.files
      ((Turn.mk w .new).run paths calls).world.files :=
  TurnDiffTracker.tellsTruth_iff.mpr
    (truthful_run rfl (View.truthful_refl w.files) hmoves hexact)

end Turns

/-! ### Turns of one file -/

/-- Paths below a directory, by their text. -/
def childPaths : Paths Text where
  join cwd name := .ok (cwd ++ '/' :: name)
  parent _ := none
  display uri := uri

def oneFile (path : TrackedPath Text) (content : Text) : FileWorld Text where
  files := Function.update (fun _ => none) path (some (.text content))
  faults _ := none
  ops := 0

def deleteCall (name : Text) : PatchCall Text where
  environmentId := "local"
  cwd := "/w".toList
  hunks := [.deleteFile name]

/-- The hunk renames `a` and changes its one line. -/
def renameCall (dest : Text) : PatchCall Text where
  environmentId := "local"
  cwd := "/w".toList
  hunks := [.updateFile "a".toList (some dest)
    [⟨none, ["x".toList], ["y".toList], [], false⟩]]

theorem rename_delete_turn_tellsTruth :
    ((Turn.mk (oneFile ⟨"local", "/w/a".toList⟩ "x\n".toList) .new).run childPaths
      [renameCall "b".toList, deleteCall "b".toList]).tracker.TellsTruth
      (oneFile ⟨"local", "/w/a".toList⟩ "x\n".toList).files
      ((Turn.mk (oneFile ⟨"local", "/w/a".toList⟩ "x\n".toList) .new).run childPaths
        [renameCall "b".toList, deleteCall "b".toList]).world.files :=
  turn_tellsTruth childPaths _ _ (by decide) (by decide)

/-- A rename onto the same path: the file is written and then removed as the source of the move,
while the delta is exact and the tracker holds the new content. -/
theorem self_move_is_told_as_kept :
    let path : TrackedPath Text := ⟨"local", "/w/a".toList⟩
    let w := oneFile path "x\n".toList
    let turn := (Turn.mk w .new).run childPaths [renameCall "a".toList]
    (∀ delta ∈ callDeltas childPaths w [renameCall "a".toList], delta.exact = true) ∧
      turn.world.files path = none ∧
      (turn.tracker.currentByPath.lookup path).map (·.content) = some "y\n".toList ∧
      ¬ turn.tracker.TellsTruth w.files turn.world.files := by
  refine ⟨by decide, by decide, by decide, fun h => ?_⟩
  have hpath := h ⟨"local", "/w/a".toList⟩
  revert hpath
  decide

end TurnDiff

end CodexPlus
