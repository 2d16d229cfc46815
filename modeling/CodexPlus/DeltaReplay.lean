/-
CodexPlus/DeltaReplay.lean

What an exact delta is worth: its changes replay.

`Replays environmentId before changes after` says that every change found the
file it names as it says and left it as it says, one change after the other.
`applyHunksToFiles_replays` proves it of each delta that is exact, whichever
file operations fail, as long as no hunk moves a file onto itself
(`MovesOntoItself`).
-/
import CodexPlus.ApplyPatch

namespace CodexPlus

namespace Patch

open FaultyStore

/-! ### Replaying a list of changes -/

section Replay

variable {Uri : Type} [DecidableEq Uri] (environmentId : String)

/-- One change: what was there, what is there now, and nothing else touched. -/
def Applies (before : Files Uri) (c : AppliedPatchChange Uri) (after : Files Uri) : Prop :=
  let path : TrackedPath Uri := ⟨environmentId, c.path⟩
  match c.change with
  | .add content overwrittenContent =>
    before path = overwrittenContent.map .text ∧
      after = Function.update before path (some (.text content))
  | .delete content =>
    before path = some (.text content) ∧ after = Function.update before path none
  | .update none oldContent _ newContent =>
    before path = some (.text oldContent) ∧
      after = Function.update before path (some (.text newContent))
  | .update (some dest) oldContent overwrittenMoveContent newContent =>
    dest ≠ c.path ∧ before path = some (.text oldContent) ∧
      before ⟨environmentId, dest⟩ = overwrittenMoveContent.map .text ∧
      after = Function.update
        (Function.update before ⟨environmentId, dest⟩ (some (.text newContent))) path none

def Replays : Files Uri → List (AppliedPatchChange Uri) → Files Uri → Prop
  | before, [], after => after = before
  | before, c :: changes, after =>
    ∃ between, Applies environmentId before c between ∧ Replays between changes after

variable {environmentId}

theorem Applies.replays {before after : Files Uri} {c : AppliedPatchChange Uri}
    (h : Applies environmentId before c after) : Replays environmentId before [c] after :=
  ⟨after, h, rfl⟩

theorem Replays.append {first second : List (AppliedPatchChange Uri)} {before between after : Files Uri}
    (h₁ : Replays environmentId before first between)
    (h₂ : Replays environmentId between second after) :
    Replays environmentId before (first ++ second) after := by
  induction first generalizing before with
  | nil =>
    cases h₁
    exact h₂
  | cons _ _ ih =>
    obtain ⟨mid, hc, hrest⟩ := h₁
    exact ⟨mid, hc, ih hrest⟩

end Replay

/-! ### Sessions that tell the truth -/

section Sessions

variable {Uri : Type} [DecidableEq Uri] {environmentId : String} {s s' s'' : Session Uri}
variable (environmentId) in
/-- If the delta is still exact at `s'`, then what was recorded since `s` replays. -/
def Records (s s' : Session Uri) : Prop :=
  s'.delta.exact = true →
    s.delta.exact = true ∧
      ∃ changes, s'.delta.changes = s.delta.changes ++ changes ∧
        Replays environmentId s.world.files changes s'.world.files

/-- Nothing happened to the files and nothing was recorded. -/
structure Quiet (s s' : Session Uri) : Prop where
  files : s'.world.files = s.world.files
  changes : s'.delta.changes = s.delta.changes
  exact : s'.delta.exact = true → s.delta.exact = true

theorem Records.of_inexact (h : s'.delta.exact = false) : Records environmentId s s' := by
  intro hexact
  rw [h] at hexact
  cases hexact

theorem Records.of_unchanged (hchanges : s'.delta.changes = s.delta.changes)
    (h : s'.delta.exact → s.delta.exact ∧ s'.world.files = s.world.files) :
    Records environmentId s s' := by
  intro hexact
  refine ⟨(h hexact).1, [], ?_, (h hexact).2⟩
  rw [hchanges, List.append_nil]

theorem Quiet.records (h : Quiet s s') : Records environmentId s s' :=
  .of_unchanged h.changes fun hexact => ⟨h.exact hexact, h.files⟩

theorem Records.trans (h : Records environmentId s s') (h' : Records environmentId s' s'') :
    Records environmentId s s'' := by
  intro hexact
  obtain ⟨hexact', second, hsecond, hreplay'⟩ := h' hexact
  obtain ⟨hexact'', first, hfirst, hreplay⟩ := h hexact'
  refine ⟨hexact'', first ++ second, ?_, hreplay.append hreplay'⟩
  rw [hsecond, hfirst, List.append_assoc]

/-- A session that records one change and is exact only if that change applied. -/
theorem Records.of_push {c : AppliedPatchChange Uri}
    (hchanges : s'.delta.changes = s.delta.changes ++ [c])
    (hexact : s'.delta.exact → s.delta.exact)
    (happlies : s'.delta.exact → Applies environmentId s.world.files c s'.world.files) :
    Records environmentId s s' :=
  fun h => ⟨hexact h, [c], hchanges, (happlies h).replays⟩

end Sessions

/-! ### What the file operations do -/

open AppliedPatchDelta

section Operations

variable {Uri : Type} {environmentId : String} {w w' : FileWorld Uri} {path : Uri} {content : Text}

open World

theorem readFileText_spec {read : Except ErrorKind Text}
    (h : readFileText environmentId w path = (read, w')) :
    w'.files = w.files ∧
      (∀ content, read = .ok content → w.files ⟨environmentId, path⟩ = some (.text content)) ∧
      (read = .error .notFound → w.files ⟨environmentId, path⟩ = none) := by
  unfold readFileText at h
  split at h <;> next hread =>
    cases h
    obtain ⟨hfiles, hok, hnone⟩ := read_spec hread
    exact ⟨hfiles, by simp_all, by simp_all⟩

theorem quiet_note (s : Session Uri) (path : Uri) :
    Quiet s (noteExistingPathDeltaSupport environmentId s path) := by
  unfold noteExistingPathDeltaSupport
  split
  · next hstat => exact ⟨World.stat_files hstat, rfl, by simp [inexact]⟩
  · next hstat => exact ⟨World.stat_files hstat, rfl, id⟩

theorem Quiet.trans {s s' s'' : Session Uri} (h : Quiet s s') (h' : Quiet s' s'') : Quiet s s'' :=
  ⟨h'.files.trans h.files, h'.changes.trans h.changes, fun hexact => h.exact (h'.exact hexact)⟩

theorem quiet_read {s : Session Uri} {read : Except ErrorKind Text}
    (h : readFileText environmentId s.world path = (read, w')) : Quiet s ⟨w', s.delta⟩ :=
  ⟨(readFileText_spec h).1, rfl, id⟩

theorem quiet_inexact (s : Session Uri) : Quiet s ⟨s.world, s.delta.inexact⟩ :=
  ⟨rfl, rfl, by simp [inexact]⟩

/-- What is read for the delta is what is there, if the delta stays exact. -/
theorem readOptional_spec {s s' : Session Uri} {read : Option Text}
    (h : readOptionalFileTextForDelta environmentId s path = (read, s')) :
    Quiet s s' ∧
      (s'.delta.exact → s.world.files ⟨environmentId, path⟩ = read.map .text) := by
  have hnote : Quiet s (noteExistingPathDeltaSupport environmentId s path) := quiet_note s path
  unfold readOptionalFileTextForDelta at h
  simp only at h
  split at h
  · next hread =>
    cases h
    refine ⟨hnote.trans (quiet_read hread), fun _ => ?_⟩
    rw [← hnote.files]
    exact (readFileText_spec hread).2.1 _ rfl
  · next hread =>
    cases h
    refine ⟨hnote.trans (quiet_read hread), fun _ => ?_⟩
    rw [← hnote.files]
    exact (readFileText_spec hread).2.2 rfl
  · next hread =>
    cases h
    refine ⟨(hnote.trans (quiet_read hread)).trans (quiet_inexact _), ?_⟩
    intro hexact
    cases hexact

variable {paths : Paths Uri}

theorem createParent_files {result : Except ErrorKind Unit}
    (h : createParent paths w path = (result, w')) : w'.files = w.files := by
  unfold createParent at h
  split at h
  · exact prepare_files h
  · cases h
    rfl

variable {expected : Option Text}

theorem removeFailure_free {free : Bool}
    (h : removeFailureWasSideEffectFree environmentId w path expected = (free, w'))
    (hfree : free) :
    ∃ content, expected = some content ∧
      w.files ⟨environmentId, path⟩ = some (.text content) ∧ w'.files = w.files := by
  unfold removeFailureWasSideEffectFree at h
  split at h
  · cases h
    cases hfree
  · next content =>
    split at h
    · next hread =>
      cases h
      obtain ⟨hfiles, hcontent, -⟩ := readFileText_spec hread
      exact ⟨content, rfl, hcontent content (by rw [← beq_iff_eq.mp hfree]), hfiles⟩
    · cases h
      cases hfree

variable [DecidableEq Uri]

theorem writeFile_ok (h : writeFile paths environmentId w path content = (.ok (), w')) :
    w'.files = Function.update w.files ⟨environmentId, path⟩ (some (.text content)) := by
  unfold writeFile at h
  split at h
  · next hwrite =>
    cases h
    obtain ⟨left, hleft, hok⟩ := write_spec hwrite
    rw [hleft, hok rfl]
  · cases h

theorem writeFileWithMissingParentRetry_ok
    (h : writeFileWithMissingParentRetry paths environmentId w path content = (.ok (), w')) :
    w'.files = Function.update w.files ⟨environmentId, path⟩ (some (.text content)) := by
  unfold writeFileWithMissingParentRetry at h
  split at h
  · next hwrite =>
    cases h
    obtain ⟨left, hleft, hok⟩ := write_spec hwrite
    rw [hleft, hok rfl]
  · next hwrite =>
    -- the failed attempt left something under the path, which the second one replaces
    obtain ⟨left, hleft, -⟩ := write_spec hwrite
    split at h
    · next hparent =>
      rw [writeFile_ok h, createParent_files hparent, hleft, Function.update_idem]
    · cases h
  · cases h

/-- A removal that fails and leaves the delta exact left the files alone. -/
theorem removeFile_error {s s' : Session Uri} {context : Text} {error : ApplyPatchError}
    (hexpected : ∀ content, expected = some content →
      s.world.files ⟨environmentId, path⟩ = some (.text content))
    (h : removeFile environmentId s path context expected = (.error error, s')) :
    s'.delta.changes = s.delta.changes ∧
      (s'.delta.exact → s.delta.exact ∧ s'.world.files = s.world.files) := by
  unfold removeFile at h
  split at h
  · next hstat =>
    cases h
    exact ⟨rfl, fun hexact => ⟨hexact, stat_files hstat⟩⟩
  · next w hstat =>
    split at h
    · cases h
    · next hremove =>
      cases h
      refine ⟨rfl, fun hexact => ?_⟩
      simp only [Bool.and_eq_true] at hexact
      refine ⟨hexact.1, ?_⟩
      obtain ⟨left, hleft, -⟩ := remove_spec hremove
      obtain ⟨content, rfl, hcontent, hfiles⟩ := removeFailure_free rfl hexact.2
      -- the file that was to go still has its content, so the attempt changed nothing
      have hkept : left = some (.text content) := by
        simpa [hleft] using hcontent
      rw [hfiles, hleft, hkept, stat_files hstat, ← hexpected content rfl,
        Function.update_eq_self]

theorem removeFile_ok {s s' : Session Uri} {context : Text}
    (h : removeFile environmentId s path context expected = (.ok (), s')) :
    s'.delta = s.delta ∧
      s'.world.files = Function.update s.world.files ⟨environmentId, path⟩ none := by
  unfold removeFile at h
  split at h
  · cases h
  · next hstat =>
    split at h
    · next hremove =>
      cases h
      obtain ⟨left, hleft, hgone⟩ := remove_spec hremove
      exact ⟨rfl, by rw [hleft, hgone rfl, stat_files hstat]⟩
    · cases h

end Operations

/-! ### What a hunk records -/

section Hunks

variable {Uri : Type} [DecidableEq Uri] {paths : Paths Uri} {environmentId : String}
  {s s' : Session Uri} {cwd path dest : Uri} {result : Except ApplyPatchError Unit}

open Records

theorem applyAdd_records {contents : Text}
    (h : applyAdd paths environmentId s path contents = (result, s')) :
    Records environmentId s s' := by
  unfold applyAdd at h
  rcases hread : readOptionalFileTextForDelta environmentId s path with ⟨overwritten, s₁⟩
  obtain ⟨hquiet, hoverwritten⟩ := readOptional_spec hread
  simp only [hread] at h
  split at h
  · cases h
    exact of_inexact rfl
  · next hwrite =>
    cases h
    have hfiles := writeFileWithMissingParentRetry_ok hwrite
    refine of_push (by rw [← hquiet.changes]; rfl) hquiet.exact fun hexact => ?_
    rw [hquiet.files] at hfiles
    exact ⟨hoverwritten hexact, hfiles⟩

theorem applyDelete_records (h : applyDelete paths environmentId s path = (result, s')) :
    Records environmentId s s' := by
  have hnote : Quiet s (noteExistingPathDeltaSupport environmentId s path) := quiet_note s path
  unfold applyDelete at h
  rcases hread : readFileText environmentId
    (noteExistingPathDeltaSupport environmentId s path).world path with ⟨read, w⟩
  simp only [hread] at h
  have hquiet := hnote.trans (quiet_read hread)
  rcases read with kind | content
  · -- without the content the delta is inexact, and the removal keeps it so
    split at h
    · next hremove =>
      cases h
      refine of_inexact (Bool.eq_false_iff.mpr fun hexact => ?_)
      have := ((removeFile_error (by simp [Except.toOption]) hremove).2 hexact).1
      simp [Except.toOption, inexact] at this
    · next hremove =>
      cases h
      exact of_inexact (by rw [(removeFile_ok hremove).1]; rfl)
  · have hpath := (readFileText_spec hread).2.1 content rfl
    rw [hnote.files] at hpath
    split at h
    · next hremove =>
      cases h
      obtain ⟨hchanges, hexact⟩ := removeFile_error
        (by
          rintro _ ⟨⟩
          rw [← hpath, ← hquiet.files]) hremove
      exact hquiet.records.trans (of_unchanged hchanges hexact)
    · next hremove =>
      cases h
      obtain ⟨hdelta, hgone⟩ := removeFile_ok hremove
      refine hquiet.records.trans (of_push (c := ⟨path, .delete content⟩) ?_ ?_ ?_)
      · exact congrArg (·.changes ++ [_]) hdelta
      · exact fun h => (congrArg exact hdelta).symm.trans h
      · exact fun _ => ⟨hquiet.files ▸ hpath, hgone⟩

theorem applyMove_records {originalContents newContents : Text} (hne : dest ≠ path)
    (hpath : s.world.files ⟨environmentId, path⟩ = some (.text originalContents))
    (h : applyMove paths environmentId s path dest originalContents newContents = (result, s')) :
    Records environmentId s s' := by
  unfold applyMove at h
  rcases hread : readOptionalFileTextForDelta environmentId s dest with ⟨overwritten, s₁⟩
  obtain ⟨hquiet, hoverwritten⟩ := readOptional_spec hread
  simp only [hread] at h
  split at h
  · cases h
    exact of_inexact rfl
  · next w hwrite =>
    have hfiles := writeFileWithMissingParentRetry_ok hwrite
    rw [hquiet.files] at hfiles
    -- writing the destination leaves the source as it was
    have hsource : w.files ⟨environmentId, path⟩ = some (.text originalContents) := by
      rw [hfiles, Function.update_of_ne (by simp [Ne.symm hne]), hpath]
    split at h
    · next hremove =>
      cases h
      obtain ⟨hchanges, hexact⟩ := removeFile_error (by simpa using hsource) hremove
      refine of_push (c := ⟨dest, .add newContents overwritten⟩)
        (by rw [hchanges, ← hquiet.changes]; rfl)
        (fun h => hquiet.exact (hexact h).1) fun h => ?_
      refine ⟨hoverwritten (hexact h).1, ?_⟩
      rw [(hexact h).2]
      exact hfiles
    · next hremove =>
      cases h
      obtain ⟨hdelta, hgone⟩ := removeFile_ok hremove
      have hexact : s₁.delta.exact = _ := (congrArg exact hdelta).symm
      refine of_push
        (c := ⟨path, .update (some dest) originalContents overwritten newContents⟩)
        (by rw [← hquiet.changes]) (fun h => hquiet.exact (hexact.trans h)) fun h =>
          ⟨hne, hpath, hoverwritten (hexact.trans h), ?_⟩
      rw [← hfiles]
      exact hgone

theorem applyUpdate_records {movePath : Option Text} {chunks : List UpdateFileChunk}
    (hne : ∀ name ∈ movePath, paths.join cwd name ≠ .ok path)
    (h : applyUpdate paths environmentId s cwd path movePath chunks = (result, s')) :
    Records environmentId s s' := by
  have hnote : Quiet s (noteExistingPathDeltaSupport environmentId s path) := quiet_note s path
  unfold applyUpdate at h
  simp only at h
  split at h
  · next hread =>
    cases h
    exact (hnote.trans (quiet_read hread)).records
  · next originalContents w hread =>
    have hquiet := hnote.trans (quiet_read hread)
    obtain ⟨hfiles, hcontents, -⟩ := readFileText_spec hread
    have hpath : w.files ⟨environmentId, path⟩ = some (.text originalContents) := by
      rw [hfiles, hcontents _ rfl]
    split at h
    · cases h
      exact hquiet.records
    split at h
    · split at h
      · cases h
        exact hquiet.records
      · next name _ dest hdest =>
        have hdest' : dest ≠ path := by
          rintro rfl
          exact hne name rfl hdest
        exact hquiet.records.trans (applyMove_records hdest' hpath h)
    · split at h
      · cases h
        exact of_inexact rfl
      · next hwrite =>
        cases h
        exact hquiet.records.trans
          (of_push rfl id fun _ => ⟨hpath, writeFile_ok hwrite⟩)

/-- A rename hunk whose destination is the file it renames. -/
def Hunk.movesOntoItself (paths : Paths Uri) (cwd : Uri) : Hunk → Bool
  | .updateFile path (some dest) _ =>
    match paths.join cwd path, paths.join cwd dest with
    | .ok source, .ok dest => source == dest
    | _, _ => false
  | _ => false

theorem applyHunk_records {hunk : Hunk} (hne : hunk.movesOntoItself paths cwd = false)
    (h : applyHunk paths environmentId cwd s hunk = (result, s')) : Records environmentId s s' := by
  unfold applyHunk at h
  split at h
  · cases h
    exact Quiet.records ⟨rfl, rfl, id⟩
  · next path hpath =>
    split at h
    · exact applyAdd_records h
    · exact applyDelete_records h
    · next name movePath chunks =>
      refine applyUpdate_records ?_ h
      rintro dest ⟨⟩ hdest
      have hsource : paths.join cwd name = .ok path := hpath
      simp [Hunk.movesOntoItself, hsource, hdest] at hne

theorem applyEach_records {hunks : List Hunk}
    (hne : ∀ hunk ∈ hunks, hunk.movesOntoItself paths cwd = false)
    (h : applyEach paths environmentId cwd s hunks = (result, s')) :
    Records environmentId s s' := by
  induction hunks generalizing s with
  | nil =>
    cases h
    exact Quiet.records ⟨rfl, rfl, id⟩
  | cons hunk _ ih =>
    have hhead := hne hunk List.mem_cons_self
    unfold applyEach at h
    split at h
    · next hhunk =>
      cases h
      exact applyHunk_records hhead hhunk
    · next hhunk =>
      exact (applyHunk_records hhead hhunk).trans
        (ih (fun other hother => hne other (List.mem_cons_of_mem _ hother)) h)

/-- **An exact delta replays.**  This covers calls that fail half way: the delta of such a call
holds what was done before the failure. -/
theorem applyHunksToFiles_replays {hunks : List Hunk} {w : FileWorld Uri}
    {affected : Except ApplyPatchError AffectedPaths}
    (hne : ∀ hunk ∈ hunks, hunk.movesOntoItself paths cwd = false)
    (h : applyHunksToFiles paths environmentId cwd w hunks = (affected, s'))
    (hexact : s'.delta.exact) :
    Replays environmentId w.files s'.delta.changes s'.world.files := by
  have hrecords : Records environmentId ⟨w, .empty⟩ s' := by
    unfold applyHunksToFiles at h
    split at h
    · cases h
      exact Quiet.records ⟨rfl, rfl, id⟩
    · split at h <;> next heach =>
        cases h
        exact applyEach_records hne heach
  obtain ⟨-, changes, hchanges, hreplays⟩ := hrecords hexact
  rw [hchanges]
  exact hreplays

end Hunks

end Patch

end CodexPlus
