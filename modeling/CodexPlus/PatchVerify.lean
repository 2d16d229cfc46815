/-
CodexPlus/PatchVerify.lean

Verifying a patch before it is applied: `try_verify_apply_patch_args` of
apply-patch/src/invocation.rs, and what the runtime does with the result
(core/src/tools/runtimes/apply_patch.rs).

Verification reads every file in its original state and collects one change per
path; the runtime parses the text of the patch again and applies the hunks one
after the other.  In a store without faults both are an edit script
(`hunkEdits`): verification plans it, the runtime runs it, with the hunks as the
second parse gives them.  So the runtime does what was verified exactly when the
script keeps its plan (`appliesAsVerified_iff`).

The unified diff of a change is a parameter: it is shown, not applied.
-/
import CodexPlus.EditScript
import CodexPlus.PatchReparse
import CodexPlus.TurnDiff

namespace CodexPlus

open List

namespace Patch

open FaultyStore EditScript

/-! ### Verification -/

inductive ApplyPatchFileChange (Uri : Type) where
  | add (content : Text)
  | delete (content : Text)
  | update (unifiedDiff : Text) (movePath : Option Uri) (newContent : Text)
  deriving DecidableEq, Repr

abbrev Changes (Uri : Type) := AList fun _ : Uri => ApplyPatchFileChange Uri

structure ApplyPatchAction (Uri : Type) where
  changes : Changes Uri
  patch : Text
  cwd : Uri

inductive VerifyError where
  | parseError (error : ParseError)
  | io (context : Text) (kind : ErrorKind)
  | computeReplacements (message : Text)
  | pathUri (message : Text)
  deriving DecidableEq, Repr

section Verification

variable {Uri : Type} [DecidableEq Uri] (paths : Paths Uri) (unifiedDiff : Text → Text → Text)
  (environmentId : String)

/-- The change of one hunk at its resolved path. -/
def verifyChange (cwd : Uri) (w : FileWorld Uri) (path : Uri) (hunk : Hunk) :
    Except VerifyError (ApplyPatchFileChange Uri) × FileWorld Uri :=
  match hunk with
  | .addFile _ contents => (.ok (.add contents), w)
  | .deleteFile _ =>
    match readFileText environmentId w path with
    | (.ok content, w) => (.ok (.delete content), w)
    | (.error kind, w) => (.error (.io ("Failed to read ".toList ++ paths.display path) kind), w)
  | .updateFile _ movePath chunks =>
    match readFileText environmentId w path with
    | (.error kind, w) =>
      (.error (.io ("Failed to read file to update ".toList ++ paths.display path) kind), w)
    | (.ok originalContents, w) =>
      match newContents (paths.display path) chunks originalContents with
      | .error message => (.error (.computeReplacements message), w)
      | .ok content =>
        let diff := unifiedDiff originalContents content
        match movePath with
        | none => (.ok (.update diff none content), w)
        | some dest =>
          match paths.join cwd dest with
          | .error message => (.error (.pathUri message), w)
          | .ok dest => (.ok (.update diff (some dest) content), w)

def verifyHunk (cwd : Uri) (w : FileWorld Uri) (changes : Changes Uri) (hunk : Hunk) :
    Except VerifyError (Changes Uri) × FileWorld Uri :=
  match paths.join cwd hunk.sourcePath with
  | .error message => (.error (.pathUri message), w)
  | .ok path =>
    if path ∈ changes then
      (.error (.parseError (.invalidPatchError
        ("multiple operations target ".toList ++ paths.display path))), w)
    else
      match verifyChange paths unifiedDiff environmentId cwd w path hunk with
      | (.error error, w) => (.error error, w)
      | (.ok change, w) => (.ok (changes.insert path change), w)

def verifyEach (cwd : Uri) :
    FileWorld Uri → Changes Uri → List Hunk → Except VerifyError (Changes Uri) × FileWorld Uri
  | w, changes, [] => (.ok changes, w)
  | w, changes, hunk :: hunks =>
    match verifyHunk paths unifiedDiff environmentId cwd w changes hunk with
    | (.error error, w) => (.error error, w)
    | (.ok changes, w) => verifyEach cwd w changes hunks

def effectiveCwd (cwd : Uri) (workdir : Option Text) : Except Text Uri :=
  match workdir with
  | some dir => paths.join cwd dir
  | none => .ok cwd

def tryVerifyApplyPatchArgs (cwd : Uri) (w : FileWorld Uri) (args : ApplyPatchArgs) :
    Except VerifyError (ApplyPatchAction Uri) × FileWorld Uri :=
  match effectiveCwd paths cwd args.workdir with
  | .error message => (.error (.pathUri message), w)
  | .ok effectiveCwd =>
    match verifyEach paths unifiedDiff environmentId effectiveCwd w ∅ args.hunks with
    | (.error error, w) => (.error error, w)
    | (.ok changes, w) => (.ok ⟨changes, args.patch, effectiveCwd⟩, w)

end Verification

/-! ### What the runtime is to do -/

section Contract

variable {Uri : Type} (environmentId : String)

/-- What an entry of `changes` says about the files once the patch is applied. -/
def ApplyPatchFileChange.Holds (files : Files Uri) (path : Uri) : ApplyPatchFileChange Uri → Prop
  | .add content => files ⟨environmentId, path⟩ = some (.text content)
  | .delete _ => files ⟨environmentId, path⟩ = none
  | .update _ none newContent => files ⟨environmentId, path⟩ = some (.text newContent)
  | .update _ (some dest) newContent =>
    files ⟨environmentId, dest⟩ = some (.text newContent) ∧ files ⟨environmentId, path⟩ = none

variable [DecidableEq Uri]

/-- The path or the move target of an entry. -/
def Changes.Names (changes : Changes Uri) (k : TrackedPath Uri) : Prop :=
  ∃ path change, changes.lookup path = some change ∧
    (k = ⟨environmentId, path⟩ ∨
      ∃ diff dest content, change = .update diff (some dest) content ∧ k = ⟨environmentId, dest⟩)

/-- The runtime parses the text again and applies it; every entry holds afterwards and nothing else
changed. -/
def AppliesAsVerified (paths : Paths Uri) (action : ApplyPatchAction Uri) (w : FileWorld Uri) :
    Prop :=
  ∃ args affected s, parsePatch action.patch = .ok args ∧
    applyHunksToFiles paths environmentId action.cwd w args.hunks = (.ok affected, s) ∧
    (∀ path change, action.changes.lookup path = some change →
      change.Holds environmentId s.world.files path) ∧
    ∀ k, ¬ action.changes.Names environmentId k → s.world.files k = w.files k

end Contract

/-! ### The edit script of a patch -/

section Script

variable {Uri : Type} (paths : Paths Uri) (environmentId : String)

def rewrite (path : Uri) (chunks : List UpdateFileChunk) : FileContent → Option FileContent
  | .text contents => (newContents (paths.display path) chunks contents).toOption.map .text
  | .binary _ => none

/-- A hunk as an edit: planned as it was parsed, run as its text is parsed again. -/
def hunkEdit (cwd : Uri) (hunk : Hunk) : Option (Edit (TrackedPath Uri) FileContent) :=
  match paths.join cwd hunk.sourcePath with
  | .error _ => none
  | .ok path =>
    match hunk with
    | .addFile _ contents =>
      some ⟨⟨environmentId, path⟩, .put (.text contents) (.text (stripLineEnds contents))⟩
    | .deleteFile _ => some ⟨⟨environmentId, path⟩, .drop⟩
    | .updateFile _ none chunks =>
      some ⟨⟨environmentId, path⟩, .edit none (rewrite paths path chunks)
        (rewrite paths path (chunks.map (·.stripCr)))⟩
    | .updateFile _ (some dest) chunks =>
      match paths.join cwd dest with
      | .error _ => none
      | .ok dest =>
        some ⟨⟨environmentId, path⟩, .edit (some ⟨environmentId, dest⟩)
          (rewrite paths path chunks) (rewrite paths path (chunks.map (·.stripCr)))⟩

def hunkEdits (cwd : Uri) (hunks : List Hunk) : List (Edit (TrackedPath Uri) FileContent) :=
  hunks.filterMap (hunkEdit paths environmentId cwd)

end Script

/-! ### Applying without faults -/

section Reliable

variable {Uri : Type} {paths : Paths Uri} {environmentId : String} {w : FileWorld Uri}
  {s : Session Uri} {path dest : Uri}

theorem readFileText_text (hw : w.Reliable) {content : Text}
    (h : w.files ⟨environmentId, path⟩ = some (.text content)) :
    readFileText environmentId w path = (.ok content, w.next) := by
  rw [readFileText, hw.read_some _ h]

theorem readFileText_fails (hw : w.Reliable)
    (h : ∀ content, w.files ⟨environmentId, path⟩ ≠ some (.text content)) :
    ∃ kind, readFileText environmentId w path = (.error kind, w.next) := by
  unfold readFileText
  rcases hk : w.files ⟨environmentId, path⟩ with - | content | bytes
  · rw [hw.read_none _ hk]
    exact ⟨_, rfl⟩
  · exact absurd hk (h content)
  · rw [hw.read_some _ hk]
    exact ⟨_, rfl⟩

theorem reliable_of_read {w' : FileWorld Uri} {read : Except ErrorKind Text} (hw : w.Reliable)
    (h : readFileText environmentId w path = (read, w')) :
    w'.Reliable ∧ w'.files = w.files := by
  by_cases htext : ∃ content, w.files ⟨environmentId, path⟩ = some (.text content)
  · obtain ⟨content, htext⟩ := htext
    rw [readFileText_text hw htext] at h
    cases h
    exact ⟨hw, rfl⟩
  · obtain ⟨kind, hkind⟩ := readFileText_fails hw (by simpa using htext)
    rw [hkind] at h
    cases h
    exact ⟨hw, rfl⟩

theorem note_reliable (hs : s.world.Reliable) (path : Uri) :
    noteExistingPathDeltaSupport environmentId s path = ⟨s.world.next, s.delta⟩ := by
  rw [noteExistingPathDeltaSupport, hs.stat]
  by_cases h : (s.world.files ⟨environmentId, path⟩).isSome <;> simp [h]

variable (environmentId) in
/-- The two file operations that only serve the delta leave the files alone. -/
theorem readOptional_reliable (hs : s.world.Reliable) (path : Uri) :
    ∃ read s', readOptionalFileTextForDelta environmentId s path = (read, s') ∧
      s'.world.Reliable ∧ s'.world.files = s.world.files := by
  unfold readOptionalFileTextForDelta
  rw [note_reliable hs]
  simp only
  by_cases h : ∃ content, s.world.files ⟨environmentId, path⟩ = some (.text content)
  · obtain ⟨content, h⟩ := h
    rw [readFileText_text (w := s.world.next) hs h]
    exact ⟨_, _, rfl, hs, rfl⟩
  · obtain ⟨kind, hkind⟩ := readFileText_fails (w := s.world.next) hs (by simpa using h)
    rw [hkind]
    cases kind <;> exact ⟨_, _, rfl, hs, rfl⟩

variable {chunks : List UpdateFileChunk} {v : FileContent} {cwd : Uri}

theorem bind_rewrite_eq_some {x : Option FileContent} :
    x.bind (rewrite paths path chunks) = some v ↔
      ∃ original contents, x = some (.text original) ∧
        newContents (paths.display path) chunks original = .ok contents ∧ v = .text contents := by
  rcases x with - | original | bytes
  · simp
  · simp [rewrite, FileContent.text.injEq]
    rcases hnew : newContents (paths.display path) chunks original with error | contents
    · simp [Except.toOption]
    · simp [Except.toOption, eq_comm]
  · simp [rewrite]

variable [DecidableEq Uri]

theorem writeRetry_reliable (hw : w.Reliable) (path : Uri) (contents : Text) :
    writeFileWithMissingParentRetry paths environmentId w path contents =
      (.ok (), w.next.setFile ⟨environmentId, path⟩ (some (.text contents))) := by
  rw [writeFileWithMissingParentRetry, hw.write]

section

variable (hs : s.world.Reliable)

include hs

theorem removeFile_reliable
    (h : (s.world.files ⟨environmentId, path⟩).isSome) (context : Text) (expected : Option Text) :
    removeFile environmentId s path context expected =
      (.ok (), ⟨s.world.next.next.setFile ⟨environmentId, path⟩ none, s.delta⟩) := by
  rw [removeFile, hs.stat, if_pos h]
  simp only
  rw [World.Reliable.remove_some (w := s.world.next) hs _ h]

theorem applyAdd_reliable (contents : Text) :
    ∃ s', applyAdd paths environmentId s path contents = (.ok (), s') ∧ s'.world.Reliable ∧
      s'.world.files =
        Function.update s.world.files ⟨environmentId, path⟩ (some (.text contents)) := by
  obtain ⟨read, s₁, hread, hs₁, hfiles⟩ := readOptional_reliable environmentId hs path
  rw [applyAdd, hread]
  simp only
  rw [writeRetry_reliable hs₁]
  refine ⟨_, rfl, hs₁, ?_⟩
  rw [← hfiles]
  rfl

theorem applyDelete_reliable (h : (s.world.files ⟨environmentId, path⟩).isSome) :
    ∃ s', applyDelete paths environmentId s path = (.ok (), s') ∧ s'.world.Reliable ∧
      s'.world.files = Function.update s.world.files ⟨environmentId, path⟩ none := by
  rw [applyDelete, note_reliable hs]
  have hread : ∃ read, readFileText environmentId s.world.next path = (read, s.world.next.next) := by
    by_cases htext : ∃ content, s.world.files ⟨environmentId, path⟩ = some (.text content)
    · obtain ⟨content, htext⟩ := htext
      exact ⟨_, readFileText_text (w := s.world.next) hs htext⟩
    · obtain ⟨kind, hkind⟩ := readFileText_fails (w := s.world.next) hs (by simpa using htext)
      exact ⟨_, hkind⟩
  obtain ⟨read, hread⟩ := hread
  rw [hread]
  simp only
  rw [removeFile_reliable (s := ⟨s.world.next.next, _⟩) hs h]
  rcases read.toOption with - | content <;> exact ⟨_, rfl, hs, rfl⟩

theorem applyDelete_fails (h : s.world.files ⟨environmentId, path⟩ = none) :
    ∃ error s', applyDelete paths environmentId s path = (.error error, s') := by
  have hread : readFileText environmentId s.world.next path =
      (.error .notFound, s.world.next.next) := by
    rw [readFileText, World.Reliable.read_none (w := s.world.next) hs _ h]
  rw [applyDelete, note_reliable hs]
  simp only [hread]
  rw [removeFile, World.Reliable.stat (w := s.world.next.next) hs, if_neg (by simp [h])]
  exact ⟨_, _, rfl⟩

theorem applyMove_reliable
    (h : (s.world.files ⟨environmentId, path⟩).isSome) (original contents : Text) :
    ∃ s', applyMove paths environmentId s path dest original contents = (.ok (), s') ∧
      s'.world.Reliable ∧
      s'.world.files = Function.update
        (Function.update s.world.files ⟨environmentId, dest⟩ (some (.text contents)))
        ⟨environmentId, path⟩ none := by
  obtain ⟨read, s₁, hread, hs₁, hfiles⟩ := readOptional_reliable environmentId hs dest
  rw [applyMove, hread]
  simp only
  rw [writeRetry_reliable hs₁]
  simp only
  have hsource : ((s₁.world.next.setFile ⟨environmentId, dest⟩ (some (.text contents))).files
      ⟨environmentId, path⟩).isSome := by
    show (Function.update s₁.world.files _ _ _).isSome
    rw [hfiles]
    by_cases hdest : (⟨environmentId, path⟩ : TrackedPath Uri) = ⟨environmentId, dest⟩
    · rw [hdest, Function.update_self]
      rfl
    · rwa [Function.update_of_ne hdest]
  rw [removeFile_reliable (s := ⟨s₁.world.next.setFile _ _, _⟩) hs₁ hsource]
  refine ⟨_, rfl, hs₁, ?_⟩
  rw [← hfiles]
  rfl

theorem applyUpdate_none_reliable
    (h : (s.world.files ⟨environmentId, path⟩).bind (rewrite paths path chunks) = some v) :
    ∃ s', applyUpdate paths environmentId s cwd path none chunks = (.ok (), s') ∧
      s'.world.Reliable ∧
      s'.world.files = Function.update s.world.files ⟨environmentId, path⟩ (some v) := by
  obtain ⟨original, contents, hfile, hnew, rfl⟩ := bind_rewrite_eq_some.mp h
  rw [applyUpdate, note_reliable hs]
  rw [readFileText_text (w := s.world.next) hs hfile]
  simp only [hnew]
  rw [writeFile, World.Reliable.write (w := s.world.next.next) hs]
  exact ⟨_, rfl, hs, rfl⟩

theorem applyUpdate_some_reliable {name : Text} (hdest : paths.join cwd name = .ok dest)
    (h : (s.world.files ⟨environmentId, path⟩).bind (rewrite paths path chunks) = some v) :
    ∃ s', applyUpdate paths environmentId s cwd path (some name) chunks = (.ok (), s') ∧
      s'.world.Reliable ∧
      s'.world.files = Function.update
        (Function.update s.world.files ⟨environmentId, dest⟩ (some v))
        ⟨environmentId, path⟩ none := by
  obtain ⟨original, contents, hfile, hnew, rfl⟩ := bind_rewrite_eq_some.mp h
  rw [applyUpdate, note_reliable hs]
  rw [readFileText_text (w := s.world.next) hs hfile]
  simp only [hnew, hdest]
  exact applyMove_reliable (s := ⟨s.world.next.next, s.delta⟩) hs
    (Option.isSome_iff_exists.mpr ⟨_, hfile⟩) original contents

theorem applyUpdate_fails {movePath : Option Text}
    (h : (s.world.files ⟨environmentId, path⟩).bind (rewrite paths path chunks) = none) :
    ∃ error s', applyUpdate paths environmentId s cwd path movePath chunks = (.error error, s') := by
  rw [applyUpdate, note_reliable hs]
  by_cases htext : ∃ original, s.world.files ⟨environmentId, path⟩ = some (.text original)
  · obtain ⟨original, hfile⟩ := htext
    rw [readFileText_text (w := s.world.next) hs hfile]
    simp only
    rcases hnew : newContents (paths.display path) chunks original with error | contents
    · exact ⟨_, _, rfl⟩
    · rw [bind_rewrite_eq_some.mpr ⟨original, contents, hfile, hnew, rfl⟩] at h
      cases h
  · obtain ⟨kind, hkind⟩ := readFileText_fails (w := s.world.next) hs (by simpa using htext)
    rw [hkind]
    exact ⟨_, _, rfl⟩

/-- Running the hunks of the second parse is running the edits. -/
theorem applyHunk_run {hunk : Hunk} {e : Edit (TrackedPath Uri) FileContent}
    (he : hunkEdit paths environmentId cwd hunk = some e) :
    (∀ F, e.run s.world.files = some F →
      ∃ s', applyHunk paths environmentId cwd s hunk.stripCr = (.ok (), s') ∧
        s'.world.Reliable ∧ s'.world.files = F) ∧
      (e.run s.world.files = none →
        ∃ error s', applyHunk paths environmentId cwd s hunk.stripCr = (.error error, s')) := by
  have hsource : hunk.stripCr.sourcePath = hunk.sourcePath := by cases hunk <;> rfl
  unfold hunkEdit at he
  unfold applyHunk
  rw [hsource]
  rcases hpath : paths.join cwd hunk.sourcePath with error | path
  · simp only [hpath] at he
    cases he
  simp only [hpath] at he ⊢
  split at he
  · cases he
    refine ⟨?_, fun h => by cases h⟩
    rintro F ⟨⟩
    exact applyAdd_reliable hs _
  · cases he
    by_cases hfile : (s.world.files ⟨environmentId, path⟩).isSome
    · refine ⟨?_, fun h => by simp [Edit.run, hfile] at h⟩
      intro F hF
      simp only [Edit.run, if_pos hfile, Option.some.injEq] at hF
      subst hF
      exact applyDelete_reliable hs hfile
    · refine ⟨fun F hF => by simp [Edit.run, hfile] at hF, fun _ => ?_⟩
      exact applyDelete_fails hs (by simpa using hfile)
  · cases he
    refine ⟨fun F hF => ?_, fun hF => ?_⟩
    · obtain ⟨v, hv, rfl⟩ := Option.map_eq_some_iff.mp hF
      exact applyUpdate_none_reliable hs hv
    · exact applyUpdate_fails hs (Option.map_eq_none_iff.mp hF)
  · split at he
    · cases he
    · next dest hdest =>
      cases he
      refine ⟨fun F hF => ?_, fun hF => ?_⟩
      · obtain ⟨v, hv, rfl⟩ := Option.map_eq_some_iff.mp hF
        exact applyUpdate_some_reliable hs hdest hv
      · exact applyUpdate_fails hs (Option.map_eq_none_iff.mp hF)

theorem applyEach_run {hunks : List Hunk}
    (hedits : ∀ hunk ∈ hunks, (hunkEdit paths environmentId cwd hunk).isSome) :
    (∀ F, runAll (hunkEdits paths environmentId cwd hunks) s.world.files = some F →
      ∃ s', applyEach paths environmentId cwd s (hunks.map Hunk.stripCr) = (.ok (), s') ∧
        s'.world.files = F) ∧
      (runAll (hunkEdits paths environmentId cwd hunks) s.world.files = none →
        ∃ error s', applyEach paths environmentId cwd s (hunks.map Hunk.stripCr) =
          (.error error, s')) := by
  induction hunks generalizing s with
  | nil =>
    refine ⟨?_, fun h => by cases h⟩
    rintro F ⟨⟩
    exact ⟨s, rfl, rfl⟩
  | cons hunk hunks ih =>
    obtain ⟨e, he⟩ := Option.isSome_iff_exists.mp (hedits hunk mem_cons_self)
    have hrest := fun other hother => hedits other (mem_cons_of_mem hunk hother)
    obtain ⟨hok, hfail⟩ := applyHunk_run hs he
    have hcons : hunkEdits paths environmentId cwd (hunk :: hunks) =
        e :: hunkEdits paths environmentId cwd hunks := filterMap_cons_some he
    rw [hcons, runAll_cons]
    rcases hrun : e.run s.world.files with - | F₁
    · obtain ⟨error, s', hs'⟩ := hfail hrun
      refine ⟨fun F hF => (by cases hF), fun _ => ⟨error, s', ?_⟩⟩
      rw [map_cons, applyEach, hs']
    · obtain ⟨s', hs', hreliable, rfl⟩ := hok F₁ hrun
      rw [map_cons, applyEach, hs']
      exact ih hreliable hrest

end

theorem applyHunksToFiles_run {hunks : List Hunk} {F : Files Uri} (hw : w.Reliable)
    (hedits : ∀ hunk ∈ hunks, (hunkEdit paths environmentId cwd hunk).isSome) :
    (∃ affected s, applyHunksToFiles paths environmentId cwd w (hunks.map Hunk.stripCr) =
        (.ok affected, s) ∧ s.world.files = F) ↔
      hunks ≠ [] ∧ runAll (hunkEdits paths environmentId cwd hunks) w.files = some F := by
  obtain ⟨hok, hfail⟩ := applyEach_run (s := ⟨w, .empty⟩) hw hedits
  unfold applyHunksToFiles
  by_cases hnil : hunks = []
  · simp [hnil]
  rw [if_neg (by simpa using hnil)]
  rcases hrun : runAll (hunkEdits paths environmentId cwd hunks) w.files with - | F'
  · obtain ⟨error, s, hs⟩ := hfail hrun
    rw [hs]
    simp
  · obtain ⟨s, hs, rfl⟩ := hok F' hrun
    rw [hs]
    simp [hnil]

end Reliable

/-! ### What verification plans -/

section Planning

variable {Uri : Type} {paths : Paths Uri} {unifiedDiff : Text → Text → Text}
  {environmentId : String} {w : FileWorld Uri} {cwd path : Uri} {hunk : Hunk}

variable (environmentId) in
/-- An edit is what an entry of `changes` says. -/
structure Plans (files : Files Uri) (path : Uri) (change : ApplyPatchFileChange Uri)
    (e : Edit (TrackedPath Uri) FileContent) : Prop where
  key : e.key = ⟨environmentId, path⟩
  planned : e.Planned files
  holds_iff : ∀ F, change.Holds environmentId F path ↔ ∀ k c, e.Promises files k c → F k = c
  names_iff : ∀ k, (k = e.key ∨ e.onto = some k) ↔ (k = ⟨environmentId, path⟩ ∨
    ∃ diff dest content, change = .update diff (some dest) content ∧ k = ⟨environmentId, dest⟩)

theorem plans_add (files : Files Uri) (path : Uri) (contents actual : Text) :
    Plans environmentId files path (.add contents)
      ⟨⟨environmentId, path⟩, .put (.text contents) (.text actual)⟩ where
  key := rfl
  planned := trivial
  holds_iff F := by
    simp [ApplyPatchFileChange.Holds, Edit.Promises, Edit.target, Edit.removed, Edit.planned]
  names_iff k := by simp [Edit.onto]

variable {files : Files Uri} {path : Uri}

theorem plans_delete (h : (files ⟨environmentId, path⟩).isSome) (content : Text) :
    Plans environmentId files path (.delete content) ⟨⟨environmentId, path⟩, .drop⟩ where
  key := rfl
  planned := h
  holds_iff F := by
    simp [ApplyPatchFileChange.Holds, Edit.Promises, Edit.target, Edit.removed]
  names_iff k := by simp [Edit.onto]

theorem plans_update {contents : Text} {planned actual : FileContent → Option FileContent}
    (h : (files ⟨environmentId, path⟩).bind planned = some (.text contents)) (diff : Text) :
    Plans environmentId files path (.update diff none contents)
      ⟨⟨environmentId, path⟩, .edit none planned actual⟩ where
  key := rfl
  planned := Option.isSome_iff_exists.mpr ⟨_, h⟩
  holds_iff F := by
    simp [ApplyPatchFileChange.Holds, Edit.Promises, Edit.target, Edit.removed, Edit.planned, h]
  names_iff k := by simp [Edit.onto]

theorem plans_move {path dest : Uri} {contents : Text}
    {planned actual : FileContent → Option FileContent}
    (h : (files ⟨environmentId, path⟩).bind planned = some (.text contents)) (diff : Text) :
    Plans environmentId files path (.update diff (some dest) contents)
      ⟨⟨environmentId, path⟩, .edit (some ⟨environmentId, dest⟩) planned actual⟩ where
  key := rfl
  planned := Option.isSome_iff_exists.mpr ⟨_, h⟩
  holds_iff F := by
    simp only [ApplyPatchFileChange.Holds, Edit.Promises, Edit.target, Edit.removed, Edit.planned,
      h, Option.some.injEq]
    constructor
    · rintro ⟨hdest, hpath⟩ k c (⟨rfl, rfl⟩ | ⟨rfl, rfl⟩)
      · exact hdest
      · exact hpath
    · intro hall
      exact ⟨hall _ _ (.inl ⟨rfl, rfl⟩), hall _ _ (.inr ⟨rfl, rfl⟩)⟩
  names_iff k := by simp [Edit.onto, eq_comm]

theorem verifyChange_plans (hw : w.Reliable) {change : ApplyPatchFileChange Uri} {w' : FileWorld Uri}
    (hpath : paths.join cwd hunk.sourcePath = .ok path)
    (h : verifyChange paths unifiedDiff environmentId cwd w path hunk = (.ok change, w')) :
    ∃ e, hunkEdit paths environmentId cwd hunk = some e ∧
      Plans environmentId w.files path change e ∧ w'.Reliable ∧ w'.files = w.files := by
  unfold hunkEdit
  rw [hpath]
  unfold verifyChange at h
  split at h
  · cases h
    exact ⟨_, rfl, plans_add _ _ _ _, hw, rfl⟩
  · rcases hread : readFileText environmentId w path with ⟨read, w₁⟩
    obtain ⟨hw₁, hfiles⟩ := reliable_of_read hw hread
    rw [hread] at h
    rcases read with kind | content
    · cases h
    cases h
    have hsome : (w.files ⟨environmentId, path⟩).isSome := by
      rw [(readFileText_spec hread).2.1 _ rfl]
      rfl
    exact ⟨_, rfl, plans_delete hsome _, hw₁, hfiles⟩
  · next name movePath chunks =>
    rcases hread : readFileText environmentId w path with ⟨read, w₁⟩
    obtain ⟨hw₁, hfiles⟩ := reliable_of_read hw hread
    rw [hread] at h
    rcases read with kind | original
    · cases h
    simp only at h
    split at h
    · cases h
    · next contents hnew =>
      have hplan := bind_rewrite_eq_some.mpr
        ⟨original, contents, (readFileText_spec hread).2.1 _ rfl, hnew, rfl⟩
      rcases movePath with - | name
      · cases h
        exact ⟨_, rfl, plans_update hplan _, hw₁, hfiles⟩
      · simp only at h
        split at h
        · cases h
        · next dest hdest =>
          cases h
          simp only [hdest]
          exact ⟨_, rfl, plans_move hplan _, hw₁, hfiles⟩

variable [DecidableEq Uri]

variable (environmentId) in
/-- The edits that lead from the entries of `changes` to those of `changes'`. -/
structure PlansAll (files : Files Uri) (changes : Changes Uri)
    (edits : List (Edit (TrackedPath Uri) FileContent)) (changes' : Changes Uri) : Prop where
  nodup : (edits.map Edit.key).Nodup
  fresh : ∀ e ∈ edits, ∀ path, e.key = ⟨environmentId, path⟩ → path ∉ changes
  planned : ∀ e ∈ edits, e.Planned files
  holds_iff : ∀ F, (∀ path change, changes'.lookup path = some change →
    change.Holds environmentId F path) ↔
      (∀ path change, changes.lookup path = some change → change.Holds environmentId F path) ∧
        ∀ e ∈ edits, ∀ k c, e.Promises files k c → F k = c
  names_iff : ∀ k, changes'.Names environmentId k ↔
    changes.Names environmentId k ∨ ∃ e ∈ edits, k = e.key ∨ e.onto = some k

theorem lookup_insert_eq_some_iff {changes : Changes Uri} {path path' : Uri}
    {change change' : ApplyPatchFileChange Uri} (h : path ∉ changes) :
    (changes.insert path change).lookup path' = some change' ↔
      (path' = path ∧ change' = change) ∨ changes.lookup path' = some change' := by
  by_cases hpath : path' = path
  · subst hpath
    rw [AList.lookup_eq_none.mpr h]
    simp [eq_comm]
  · rw [AList.lookup_insert_ne hpath]
    simp [hpath]

theorem PlansAll.nil (files : Files Uri) (changes : Changes Uri) :
    PlansAll environmentId files changes [] changes := by
  constructor <;> simp

theorem Plans.cons {changes changes' : Changes Uri}
    {change : ApplyPatchFileChange Uri} {e : Edit (TrackedPath Uri) FileContent}
    {edits : List (Edit (TrackedPath Uri) FileContent)}
    (he : Plans environmentId files path change e) (hfresh : path ∉ changes)
    (h : PlansAll environmentId files (changes.insert path change) edits changes') :
    PlansAll environmentId files changes (e :: edits) changes' where
  nodup := by
    rw [map_cons, nodup_cons]
    refine ⟨fun hmem => ?_, h.nodup⟩
    obtain ⟨e', he', hkey⟩ := mem_map.mp hmem
    exact h.fresh e' he' path (hkey.trans he.key) (by simp)
  fresh := by
    intro e' he' path' hkey
    rcases mem_cons.mp he' with rfl | he'
    · have hpath : path = path' := by simpa using he.key.symm.trans hkey
      exact hpath ▸ hfresh
    · have hnot := h.fresh e' he' path' hkey
      simp only [AList.mem_insert, not_or] at hnot
      exact hnot.2
  planned := forall_mem_cons.mpr ⟨he.planned, h.planned⟩
  holds_iff F := by
    rw [h.holds_iff F, forall_mem_cons, ← he.holds_iff F, ← and_assoc]
    refine and_congr_left fun _ => ?_
    simp only [lookup_insert_eq_some_iff hfresh]
    constructor
    · intro hall
      exact ⟨fun p c hc => hall p c (.inr hc), hall path change (.inl ⟨rfl, rfl⟩)⟩
    · rintro ⟨hold, hnew⟩ p c (⟨rfl, rfl⟩ | hc)
      · exact hnew
      · exact hold p c hc
  names_iff k := by
    have hnames : Changes.Names environmentId (changes.insert path change) k ↔
        changes.Names environmentId k ∨ (k = e.key ∨ e.onto = some k) := by
      unfold Changes.Names
      simp only [lookup_insert_eq_some_iff hfresh]
      rw [he.names_iff k]
      constructor
      · rintro ⟨p, c, ⟨rfl, rfl⟩ | hc, hk⟩
        · exact .inr hk
        · exact .inl ⟨p, c, hc, hk⟩
      · rintro (⟨p, c, hc, hk⟩ | hk)
        · exact ⟨p, c, .inr hc, hk⟩
        · exact ⟨path, change, .inl ⟨rfl, rfl⟩, hk⟩
    rw [h.names_iff k, hnames, or_assoc, exists_mem_cons_iff]

theorem verifyEach_plansAll {changes changes' : Changes Uri} {hunks : List Hunk}
    {w' : FileWorld Uri} (hw : w.Reliable)
    (h : verifyEach paths unifiedDiff environmentId cwd w changes hunks = (.ok changes', w')) :
    (∀ hunk ∈ hunks, (hunkEdit paths environmentId cwd hunk).isSome) ∧
      PlansAll environmentId w.files changes (hunkEdits paths environmentId cwd hunks) changes' := by
  induction hunks generalizing w changes with
  | nil =>
    cases h
    exact ⟨by simp, PlansAll.nil _ _⟩
  | cons hunk hunks ih =>
    unfold verifyEach at h
    split at h
    · cases h
    · next changes₁ w₁ hhunk =>
      unfold verifyHunk at hhunk
      split at hhunk
      · cases hhunk
      · next path hpath =>
        split at hhunk
        · cases hhunk
        · next hfresh =>
          split at hhunk
          · cases hhunk
          · next change w₂ hchange =>
            cases hhunk
            obtain ⟨e, he, hplans, hw₁, hfiles⟩ := verifyChange_plans hw hpath hchange
            obtain ⟨hsome, hall⟩ := ih hw₁ h
            have hcons : hunkEdits paths environmentId cwd (hunk :: hunks) =
                e :: hunkEdits paths environmentId cwd hunks := filterMap_cons_some he
            refine ⟨forall_mem_cons.mpr ⟨by rw [he]; rfl, hsome⟩, ?_⟩
            rw [hcons]
            rw [hfiles] at hall
            exact hplans.cons hfresh hall

/-- When the runtime does what was verified: there is a hunk, no two hunks say different things about
a path, and each hunk, read again, gives what was verified on what the moves before it left at its
path, unless a later hunk writes the same path. -/
structure RunsAsPlanned (paths : Paths Uri) (environmentId : String) (cwd : Uri) (files : Files Uri)
    (hunks : List Hunk) : Prop where
  nonempty : hunks ≠ []
  consistent : Consistent files (hunkEdits paths environmentId cwd hunks)
  lastWord : LastWord files (hunkEdits paths environmentId cwd hunks)

/-- **What was verified is what gets applied, exactly when the hunks run as planned.** -/
theorem appliesAsVerified_iff (paths : Paths Uri) (unifiedDiff : Text → Text → Text)
    (environmentId : String) (cwd : Uri) (w w' : FileWorld Uri) (patch : Text)
    (workdir : Option Text) (args : ApplyPatchArgs) (action : ApplyPatchAction Uri)
    (hw : w.Reliable) (hparse : parsePatch patch = .ok args)
    (hverify : tryVerifyApplyPatchArgs paths unifiedDiff environmentId cwd w
      { args with workdir } = (.ok action, w')) :
    AppliesAsVerified environmentId paths action w ↔
      RunsAsPlanned paths environmentId action.cwd w.files args.hunks := by
  obtain ⟨again, hagain⟩ := parsePatch_again hparse
  unfold tryVerifyApplyPatchArgs at hverify
  split at hverify
  · cases hverify
  · next cwd' hcwd =>
    split at hverify
    · cases hverify
    · next changes w₁ heach =>
      cases hverify
      obtain ⟨hsome, hplans⟩ := verifyEach_plansAll hw heach
      have hrun := fun F => applyHunksToFiles_run (F := F) hw hsome
      have hholds := fun F => (hplans.holds_iff F).trans (and_iff_right (by simp))
      have hkeeps := keeps_iff hplans.nodup hplans.planned
      constructor
      · rintro ⟨args', affected, s, hparse', happly, hentries, -⟩
        cases hagain.symm.trans hparse'
        obtain ⟨hne, hF⟩ := (hrun s.world.files).mp ⟨affected, s, happly, rfl⟩
        obtain ⟨hcons, hlast⟩ := hkeeps.mp ⟨s.world.files, hF, (hholds _).mp hentries⟩
        exact ⟨hne, hcons, hlast⟩
      · rintro ⟨hne, hcons, hlast⟩
        obtain ⟨F, hF, hpromises⟩ := hkeeps.mpr ⟨hcons, hlast⟩
        obtain ⟨affected, s, happly, rfl⟩ := (hrun F).mpr ⟨hne, hF⟩
        refine ⟨_, affected, s, hagain, happly, (hholds _).mpr hpromises, fun k hk => ?_⟩
        -- an edit touches its path and its move target only, which the changes name
        refine runAll_frame hF fun e he => ⟨fun htarget => ?_, fun hremoved => ?_⟩
        · exact hk ((hplans.names_iff k).mpr (.inr ⟨e, he, Edit.target_eq htarget⟩))
        · exact hk ((hplans.names_iff k).mpr
            (.inr ⟨e, he, .inl (Edit.removed_eq_key hremoved)⟩))

end Planning

/-! ### Two patches -/

section Patches

open TurnDiff (childPaths)

/-- `a` and `b` below `/w`. -/
def twoFiles : FileWorld Text where
  files k :=
    if k = ⟨"local", "/w/a".toList⟩ then some (.text "x\n".toList)
    else if k = ⟨"local", "/w/b".toList⟩ then some (.text "old\n".toList)
    else none
  faults _ := none
  ops := 0

def renamePatch : Text :=
  ("*** Begin Patch\n*** Update File: a\n*** Move to: c\n@@\n-x\n+y\n" ++
    "*** End Patch").toList

def renameAndDeletePatch : Text :=
  ("*** Begin Patch\n*** Update File: a\n*** Move to: b\n@@\n-x\n+y\n" ++
    "*** Delete File: b\n*** End Patch").toList

theorem rename_appliesAsVerified :
    ∃ args action w', parsePatch renamePatch = .ok args ∧
      tryVerifyApplyPatchArgs childPaths (fun _ new => new) "local" "/w".toList twoFiles args =
        (.ok action, w') ∧
      AppliesAsVerified "local" childPaths action twoFiles := by
  refine ⟨_, _, _, rfl, rfl, ?_⟩
  refine (appliesAsVerified_iff childPaths (fun _ new => new) "local" "/w".toList twoFiles _
    renamePatch none _ _ (fun _ => rfl) rfl rfl).mpr ⟨by decide, ?_, ?_⟩
  · -- one edit says two things, about different paths
    rintro e he e' he' k c c' hc hc'
    cases mem_singleton.mp he
    cases mem_singleton.mp he'
    rcases hc with ⟨ht, rfl⟩ | ⟨hr, rfl⟩ <;> rcases hc' with ⟨ht', rfl⟩ | ⟨hr', rfl⟩
    · rfl
    · exact absurd (ht.trans hr'.symm) (by decide)
    · exact absurd (ht'.trans hr.symm) (by decide)
    · rfl
  · rintro before e after hsplit k -
    rcases before with - | ⟨e', before⟩
    · cases hsplit
      exact ⟨.text "y\n".toList, rfl, .inl rfl⟩
    · have hlength := congrArg List.length hsplit
      simp at hlength
      cases hlength

/-- The check for several operations on one path does not see move targets: `b` is the target of a
move and is then deleted, so the moved content is gone. -/
theorem move_target_is_deleted :
    ∃ args action w', parsePatch renameAndDeletePatch = .ok args ∧
      tryVerifyApplyPatchArgs childPaths (fun _ new => new) "local" "/w".toList twoFiles args =
        (.ok action, w') ∧
      ¬ AppliesAsVerified "local" childPaths action twoFiles := by
  refine ⟨_, _, _, rfl, rfl, ?_⟩
  rintro ⟨args, affected, s, hparse, happly, hentries, -⟩
  have hb : (applyHunksToFiles childPaths "local" "/w".toList twoFiles args.hunks).2.world.files
      ⟨"local", "/w/b".toList⟩ = none := by
    cases hparse
    rfl
  have hmoved := (hentries "/w/a".toList _ rfl).1
  rw [happly] at hb
  exact absurd (hmoved.symm.trans hb) (by simp)

end Patches

end Patch

end CodexPlus
