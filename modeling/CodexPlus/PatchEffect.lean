/-
CodexPlus/PatchEffect.lean

What an update hunk does to a file.

A chunk is a list of changes, and a site says where they apply.  Every '+' line has its gap
in the file, behind the context line above it in the chunk, and every '-' line the line
that it removes.  The updated file is the old one with those insertions and removals
(`newContents_rebuilds`); the retry at the end of the file applies the changes without their
trailing empty line (`trimmed`).
-/
import CodexPlus.Gaps
import CodexPlus.PatchSites

namespace CodexPlus

open List

namespace Patch

/-! ### Insertions and removals -/

namespace Change

/-- The '+' lines with their gaps: `pos` is the line that the next change is at, `gap` the one
behind the last context line. -/
def insertions (gap pos : ℕ) : List Change → List (ℕ × Text)
  | [] => []
  | ⟨.context, _⟩ :: changes => insertions (pos + 1) (pos + 1) changes
  | ⟨.added, text⟩ :: changes => (gap, text) :: insertions gap pos changes
  | ⟨.removed, _⟩ :: changes => insertions gap (pos + 1) changes

/-- The lines of the file that the '-' lines stand for. -/
def removals (pos : ℕ) : List Change → List ℕ
  | [] => []
  | ⟨.context, _⟩ :: changes => removals (pos + 1) changes
  | ⟨.added, _⟩ :: changes => removals pos changes
  | ⟨.removed, _⟩ :: changes => pos :: removals (pos + 1) changes

/-- The last line of the old side, with its kind. -/
def lastOld (changes : List Change) : Option Change :=
  (changes.filter (·.kind ≠ .added)).getLast?

/-- The last line of the new side, with its kind. -/
def lastNew (changes : List Change) : Option Change :=
  (changes.filter (·.kind ≠ .removed)).getLast?

/-- A list without its last change of a kind. -/
def dropLastOf (kind : ChangeKind) (changes : List Change) : List Change :=
  (changes.reverse.eraseP (·.kind = kind)).reverse

/-- The changes that are left when the trailing empty line of the old side is dropped, and with it
one of the new side. -/
def trimmed (changes : List Change) : List Change :=
  if changes.getLast? = some ⟨.context, []⟩ then changes.dropLast
  else if lastNew changes = some ⟨.added, []⟩ then
    dropLastOf .added (dropLastOf .removed changes)
  else dropLastOf .removed changes

/-- An empty context line ends both sides or none. -/
def EndsEvenly (changes : List Change) : Prop :=
  lastOld changes = some ⟨.context, []⟩ ↔ lastNew changes = some ⟨.context, []⟩

end Change

/-- The changes of a chunk that apply at its site. -/
def Site.applied (site : Site) (changes : List Change) : List Change :=
  if site.retried then Change.trimmed changes else changes

/-- A file with lines inserted and removed: what is inserted has the preferred ending, and every line
has one. -/
def SourceFile.edited (file : SourceFile) (insertions : List (ℕ × Text)) (removals : List ℕ) :
    SourceFile :=
  let lines := Gaps.rebuild file.lines
    (insertions.map fun (gap, text) => (gap, ⟨text, some file.preferredEnding⟩)) removals
  { file with
    lines := lines.map fun line =>
      { line with ending := some (line.ending.getD file.preferredEnding) } }

/-! ### The stretches between context lines -/

/-- The replacement of a stretch, if it changes something. -/
def stretch (pos len : ℕ) (segment : List Text) : List Replacement :=
  if len = 0 ∧ segment = [] then [] else [⟨pos, len, segment⟩]

/-- The replacements of changes: `pos`, `len` and `segment` are the stretch so far. -/
def stretches (pos len : ℕ) (segment : List Text) : List Change → List Replacement
  | [] => stretch pos len segment
  | ⟨.context, _⟩ :: changes => stretch pos len segment ++ stretches (pos + len + 1) 0 [] changes
  | ⟨.added, text⟩ :: changes => stretches pos len (segment ++ [text]) changes
  | ⟨.removed, _⟩ :: changes => stretches pos (len + 1) segment changes

variable {newStart oldStart : ℕ}

theorem chunkReplacements_eq_stretches (startIdx : ℕ) (changes : List Change)
    (before added : List Text) (hold : oldStart ≤ before.length)
    (hnew : newStart ≤ added.length) :
    chunkReplacements startIdx (before ++ Change.oldSide changes) (added ++ Change.newSide changes)
        oldStart newStart (Change.contextIndices before.length added.length changes) =
      stretches (startIdx + oldStart) (before.length - oldStart) (added.drop newStart) changes := by
  -- a stretch is left out exactly if it changes nothing
  have hempty : ∀ {before added : List Text} {oldStart newStart : ℕ}, oldStart ≤ before.length →
      newStart ≤ added.length → (¬(oldStart ≠ before.length ∨ newStart ≠ added.length) ↔
        before.length - oldStart = 0 ∧ added.drop newStart = []) := by
    intro before added oldStart newStart hold hnew
    rw [drop_eq_nil_iff]
    omega
  induction changes generalizing before added oldStart newStart with
  | nil =>
    have hiff := hempty hold hnew
    rw [Change.contextIndices, chunkReplacements, chunkReplacements.finish, stretches, stretch,
      Change.oldSide, Change.newSide]
    simp only [filter_nil, map_nil, append_nil]
    by_cases hnone : before.length - oldStart = 0 ∧ added.drop newStart = []
    · rw [if_pos hnone, if_neg (hiff.mpr hnone)]
    · rw [if_neg hnone, if_pos (not_not.mp (mt hiff.mp hnone))]
  | cons change changes ih =>
    rcases change with ⟨kind, text⟩
    cases kind with
    | context =>
      have hold' : Change.oldSide (⟨.context, text⟩ :: changes) = text :: Change.oldSide changes :=
        rfl
      have hnew' : Change.newSide (⟨.context, text⟩ :: changes) = text :: Change.newSide changes :=
        rfl
      -- the context line is on both sides
      have hin : ¬(before.length ≥ (before ++ text :: Change.oldSide changes).length ∨
          added.length ≥ (added ++ text :: Change.newSide changes).length) := by
        simp only [length_append, length_cons]
        omega
      have ih := ih (before ++ [text]) (added ++ [text]) (Nat.le_refl _) (Nat.le_refl _)
      rw [length_append, length_append, length_singleton, ← append_cons,
        ← append_cons, Nat.sub_self, drop_eq_nil_of_le (by simp)] at ih
      rw [Change.contextIndices, chunkReplacements, hold', hnew', if_neg hin, ih, stretches, stretch]
      have hsegment : ((added ++ text :: Change.newSide changes).drop newStart).take
          (added.length - newStart) = added.drop newStart := by
        rw [drop_append_of_le_length hnew, take_left' (by simp)]
      have hpos : startIdx + oldStart + (before.length - oldStart) + 1 =
          startIdx + (before.length + 1) := by
        omega
      rw [hsegment, hpos]
      have hiff := hempty hold hnew
      by_cases hnone : before.length - oldStart = 0 ∧ added.drop newStart = []
      · rw [if_pos hnone, if_neg (hiff.mpr hnone)]
      · rw [if_neg hnone, if_pos (not_not.mp (mt hiff.mp hnone))]
    | added =>
      have ih := ih before (added ++ [text]) hold (hnew.trans (by simp))
      rw [length_append, ← append_cons, drop_append_of_le_length hnew] at ih
      exact ih
    | removed =>
      have ih := ih (before ++ [text]) added (hold.trans (by simp)) hnew
      rw [length_append, ← append_cons, Nat.sub_add_comm hold] at ih
      exact ih

namespace Replacement

/-- The lines that a replacement puts into the gap where it starts. -/
def insertions (r : Replacement) : List (ℕ × Text) := r.newSegment.map (r.start, ·)

/-- The lines that a replacement takes out. -/
def removals (r : Replacement) : List ℕ := List.range' r.start r.oldLen

end Replacement

open Replacement

variable (pos : ℕ) (len : ℕ) (segment : List Text)

theorem stretch_insertions :
    (stretch pos len segment).flatMap insertions = segment.map (pos, ·) := by
  unfold stretch
  split
  · next h => rw [h.2]; rfl
  · simp [insertions]

theorem stretch_removals :
    (stretch pos len segment).flatMap removals = List.range' pos len := by
  unfold stretch
  split
  · next h => rw [h.1]; rfl
  · simp [removals]

variable (changes : List Change)

theorem stretches_insertions :
    (stretches pos len segment changes).flatMap insertions =
      segment.map (pos, ·) ++ Change.insertions pos (pos + len) changes := by
  induction changes generalizing pos len segment with
  | nil => rw [stretches, stretch_insertions, Change.insertions, append_nil]
  | cons change _ ih =>
    rcases change with ⟨kind, text⟩
    cases kind with
    | context =>
      rw [stretches, flatMap_append, stretch_insertions, ih]
      rfl
    | added =>
      rw [stretches, ih, map_append, append_assoc]
      rfl
    | removed => rw [stretches, ih, Change.insertions, Nat.add_assoc]

theorem stretches_removals :
    (stretches pos len segment changes).flatMap removals =
      List.range' pos len ++ Change.removals (pos + len) changes := by
  induction changes generalizing pos len segment with
  | nil => rw [stretches, stretch_removals, Change.removals, append_nil]
  | cons change _ ih =>
    rcases change with ⟨kind, text⟩
    cases kind with
    | context =>
      rw [stretches, flatMap_append, stretch_removals, ih]
      rfl
    | added => rw [stretches, ih, Change.removals]
    | removed =>
      rw [stretches, ih, Change.removals, List.range'_concat, append_assoc, Nat.one_mul]
      rfl

/-! ### Dropping a trailing empty line -/

theorem exists_last_of_filter {α : Type} {p : α → Bool} {l : List α} {x : α}
    (h : (l.filter p).getLast? = some x) :
    ∃ before after, l = before ++ x :: after ∧ p x ∧ ∀ y ∈ after, ¬p y := by
  rw [getLast?_filter, find?_eq_some_iff_append] at h
  obtain ⟨hx, after, before, hl, hafter⟩ := h
  refine ⟨before.reverse, after.reverse, ?_, hx, by simpa using hafter⟩
  rw [← reverse_reverse l, hl]
  simp

variable {changes : List Change}

namespace Change

variable {after before : List Change} {text : Text}

theorem dropLastOf_append {kind : ChangeKind} (hafter : ∀ change ∈ after, change.kind ≠ kind) :
    dropLastOf kind (before ++ ⟨kind, text⟩ :: after) = before ++ after := by
  have hreverse : (before ++ ⟨kind, text⟩ :: after).reverse =
      after.reverse ++ ⟨kind, text⟩ :: before.reverse := by
    simp
  have hnone : ∀ change ∈ after.reverse, ¬decide (change.kind = kind) = true := fun change hmem => by
    simpa using hafter change (mem_reverse.mp hmem)
  rw [dropLastOf, hreverse, eraseP_append_right _ hnone]
  simp

/-- Changes behind the last context line do not move it. -/
theorem contextIndices_drop {change : Change}
    (hchange : change.kind ≠ .context) (hafter : ∀ change ∈ after, change.kind ≠ .context) :
    contextIndices 0 0 (before ++ change :: after) = contextIndices 0 0 (before ++ after) := by
  have hnone : ∀ change' ∈ change :: after, change'.kind ≠ .context := fun change' hmem => by
    rcases mem_cons.mp hmem with rfl | hmem
    · exact hchange
    · exact hafter change' hmem
  rw [contextIndices_append, contextIndices_append, contextIndices_of_none _ _ hnone,
    contextIndices_of_none _ _ hafter]

theorem getLast?_oldSide (changes : List Change) :
    (oldSide changes).getLast? = (lastOld changes).map (·.text) :=
  getLast?_map

theorem getLast?_newSide (changes : List Change) :
    (newSide changes).getLast? = (lastNew changes).map (·.text) :=
  getLast?_map

theorem oldSide_of_added (h : ∀ change ∈ changes, change.kind = .added) : oldSide changes = [] := by
  rw [oldSide, filter_eq_nil_iff.mpr fun change hmem => by simp [h change hmem]]
  rfl

theorem newSide_of_removed (h : ∀ change ∈ changes, change.kind = .removed) :
    newSide changes = [] := by
  rw [newSide, filter_eq_nil_iff.mpr fun change hmem => by simp [h change hmem]]
  rfl

/-- A context line that ends both sides is the last change. -/
theorem getLast?_of_context {text' : Text} (hold : lastOld changes = some ⟨.context, text⟩)
    (hnew : lastNew changes = some ⟨.context, text'⟩) :
    changes.getLast? = some ⟨.context, text⟩ := by
  rcases eq_nil_or_concat' changes with rfl | ⟨init, ⟨kind, last⟩, rfl⟩
  · cases hold
  rw [lastOld, filter_append] at hold
  rw [lastNew, filter_append] at hnew
  cases kind with
  | context =>
    rw [filter_cons_of_pos (by simp), filter_nil, getLast?_concat] at hold
    rw [getLast?_concat]
    exact hold
  | added =>
    rw [filter_cons_of_pos (by simp), filter_nil, getLast?_concat] at hnew
    cases hnew
  | removed =>
    rw [filter_cons_of_pos (by simp), filter_nil, getLast?_concat] at hold
    cases hold

/-- The last '-' line with only '+' lines behind it. -/
theorem drop_removed (h : lastOld changes = some ⟨.removed, text⟩) :
    oldSide (dropLastOf .removed changes) = (oldSide changes).dropLast ∧
      newSide (dropLastOf .removed changes) = newSide changes ∧
      lastNew (dropLastOf .removed changes) = lastNew changes ∧
      contextIndices 0 0 (dropLastOf .removed changes) = contextIndices 0 0 changes := by
  obtain ⟨before, after, rfl, -, hafter⟩ := exists_last_of_filter h
  have hadded : ∀ change ∈ after, change.kind = .added := fun change hmem => by
    simpa using hafter change hmem
  have hdrop : dropLastOf .removed (before ++ ⟨.removed, text⟩ :: after) = before ++ after :=
    dropLastOf_append fun change hmem => by simp [hadded change hmem]
  have hold : oldSide (⟨.removed, text⟩ :: after) = text :: oldSide after := rfl
  have hnew : newSide (⟨.removed, text⟩ :: after) = newSide after := rfl
  rw [hdrop]
  refine ⟨?_, ?_, ?_, ?_⟩
  · rw [oldSide_append, oldSide_append, hold, oldSide_of_added hadded, append_nil, dropLast_concat]
  · rw [newSide_append, newSide_append, hnew]
  · rw [lastNew, lastNew, filter_append, filter_append, filter_cons_of_neg (by simp)]
  · exact (contextIndices_drop (by simp) fun change hmem => by simp [hadded change hmem]).symm

/-- The last '+' line with only '-' lines behind it. -/
theorem drop_added (h : lastNew changes = some ⟨.added, text⟩) :
    oldSide (dropLastOf .added changes) = oldSide changes ∧
      newSide (dropLastOf .added changes) = (newSide changes).dropLast ∧
      contextIndices 0 0 (dropLastOf .added changes) = contextIndices 0 0 changes := by
  obtain ⟨before, after, rfl, -, hafter⟩ := exists_last_of_filter h
  have hremoved : ∀ change ∈ after, change.kind = .removed := fun change hmem => by
    simpa using hafter change hmem
  have hdrop : dropLastOf .added (before ++ ⟨.added, text⟩ :: after) = before ++ after :=
    dropLastOf_append fun change hmem => by simp [hremoved change hmem]
  have hold : oldSide (⟨.added, text⟩ :: after) = oldSide after := rfl
  have hnew : newSide (⟨.added, text⟩ :: after) = text :: newSide after := rfl
  rw [hdrop]
  refine ⟨?_, ?_, ?_⟩
  · rw [oldSide_append, oldSide_append, hold]
  · rw [newSide_append, newSide_append, hnew, newSide_of_removed hremoved, append_nil,
      dropLast_concat]
  · exact (contextIndices_drop (by simp) fun change hmem => by simp [hremoved change hmem]).symm

/-- What the retry leaves of both sides, and of the context lines. -/
theorem trimmed_spec (hlast : (oldSide changes).getLast? = some []) (heven : EndsEvenly changes) :
    oldSide (trimmed changes) = (oldSide changes).dropLast ∧
      newSide (trimmed changes) = dropTrailingEmpty (newSide changes) ∧
      (contextIndices 0 0 changes = contextIndices 0 0 (trimmed changes) ∨
        ∃ newIndex, contextIndices 0 0 changes = contextIndices 0 0 (trimmed changes) ++
          [((oldSide (trimmed changes)).length, newIndex)]) := by
  by_cases hcontext : changes.getLast? = some ⟨.context, []⟩
  · rw [trimmed, if_pos hcontext]
    obtain ⟨init, rfl⟩ : ∃ init, changes = init ++ [⟨.context, []⟩] :=
      getLast?_eq_some_iff.mp hcontext
    rw [dropLast_concat, oldSide_append, newSide_append, contextIndices_append]
    have hold : oldSide [⟨.context, []⟩] = [[]] := rfl
    have hnew : newSide [⟨.context, []⟩] = [[]] := rfl
    rw [hold, hnew, dropLast_concat, dropTrailingEmpty, getLast?_concat, if_pos rfl,
      dropLast_concat, Nat.zero_add]
    exact ⟨rfl, rfl, .inr ⟨_, rfl⟩⟩
  · -- the last old line is a '-' line
    have hold : lastOld changes = some ⟨.removed, []⟩ := by
      rw [getLast?_oldSide] at hlast
      obtain ⟨⟨kind, text⟩, hold, rfl⟩ := Option.map_eq_some_iff.mp hlast
      cases kind with
      | context => exact absurd (getLast?_of_context hold (heven.mp hold)) hcontext
      | added =>
        obtain ⟨_, _, -, hkind, -⟩ := exists_last_of_filter hold
        exact absurd hkind (by simp)
      | removed => exact hold
    have hnotContext : lastNew changes ≠ some ⟨.context, []⟩ := fun hnew => by
      rw [heven.mpr hnew] at hold
      cases hold
    obtain ⟨hdropOld, hdropNew, hdropLast, hdropContext⟩ := drop_removed hold
    rw [trimmed, if_neg hcontext]
    by_cases hnew : lastNew changes = some ⟨.added, []⟩
    · rw [if_pos hnew]
      obtain ⟨haddOld, haddNew, haddContext⟩ := drop_added (hdropLast.trans hnew)
      refine ⟨haddOld.trans hdropOld, ?_, .inl ?_⟩
      · rw [haddNew, hdropNew, dropTrailingEmpty, getLast?_newSide, hnew]
        rfl
      · rw [haddContext, hdropContext]
    · rw [if_neg hnew]
      refine ⟨hdropOld, ?_, .inl hdropContext.symm⟩
      have hkept : (newSide changes).getLast? ≠ some [] := fun hempty => by
        rw [getLast?_newSide] at hempty
        obtain ⟨⟨kind, text⟩, hlastNew, rfl⟩ := Option.map_eq_some_iff.mp hempty
        cases kind with
        | context => exact hnotContext hlastNew
        | added => exact hnew hlastNew
        | removed =>
          obtain ⟨_, _, -, hkind, -⟩ := exists_last_of_filter hlastNew
          exact absurd hkind (by simp)
      rw [hdropNew, dropTrailingEmpty, if_neg hkept]

end Change

/-! ### The replacements of a site -/

/-- A context position behind the old lines ends the walk like the end of the positions. -/
theorem chunkReplacements_append_out {startIdx oldContext newContext : ℕ}
    {pattern newSlice : List Text} {indices : List (ℕ × ℕ)} (hout : oldContext ≥ pattern.length) :
    chunkReplacements startIdx pattern newSlice oldStart newStart
        (indices ++ [(oldContext, newContext)]) =
      chunkReplacements startIdx pattern newSlice oldStart newStart indices := by
  induction indices generalizing oldStart newStart with
  | nil =>
    rw [nil_append, chunkReplacements, if_pos (.inl hout)]
    rfl
  | cons _ _ ih => rw [cons_append, chunkReplacements, chunkReplacements, ih]

theorem Change.additions (h : oldSide changes = []) :
    insertions pos pos changes = (newSide changes).map (pos, ·) ∧ removals pos changes = [] := by
  induction changes with
  | nil => exact ⟨rfl, rfl⟩
  | cons change _ ih =>
    rcases change with ⟨kind, text⟩
    cases kind with
    | context | removed => cases h
    | added =>
      obtain ⟨hinsertions, hremovals⟩ := ih h
      exact ⟨congrArg _ hinsertions, hremovals⟩

namespace Site

variable {site : Site} {changes : List Change} (h : site.chunk.HasChanges changes)
include h

theorem replacements_eq_stretches (hold : site.chunk.oldLines ≠ [])
    (heven : site.retried → site.chunk.oldLines.getLast? = some [] ∧ Change.EndsEvenly changes) :
    site.replacements = stretches site.start 0 [] (site.applied changes) := by
  have hwalk := fun changes => chunkReplacements_eq_stretches site.start changes [] []
    (Nat.le_refl 0) (Nat.le_refl 0)
  rw [replacements, if_neg hold, pattern, newSlice, applied]
  by_cases hretried : site.retried
  · obtain ⟨hlast, heven⟩ := heven hretried
    rw [h.oldLines] at hlast
    obtain ⟨holdSide, hnewSide, hcontext⟩ := Change.trimmed_spec hlast heven
    rw [if_pos hretried, if_pos hretried, if_pos hretried, h.oldLines, h.newLines,
      h.contextLineIndices, ← holdSide, ← hnewSide]
    rcases hcontext with hcontext | ⟨newIndex, hcontext⟩
    · rw [hcontext]
      exact hwalk _
    · rw [hcontext, chunkReplacements_append_out (Nat.le_refl _)]
      exact hwalk _
  · rw [if_neg hretried, if_neg hretried, if_neg hretried, h.oldLines, h.newLines,
      h.contextLineIndices]
    exact hwalk _

/-- **A site inserts and removes what its changes say.** -/
theorem replacements_effect
    (heven : site.retried → site.chunk.oldLines.getLast? = some [] ∧ Change.EndsEvenly changes) :
    site.replacements.flatMap insertions =
        Change.insertions site.start site.start (site.applied changes) ∧
      site.replacements.flatMap removals =
        Change.removals site.start (site.applied changes) := by
  by_cases hold : site.chunk.oldLines = []
  · have hretried : ¬site.retried := fun hretried => by
      have hlast := (heven hretried).1
      rw [hold] at hlast
      cases hlast
    obtain ⟨hinsertions, hremovals⟩ := Change.additions site.start (h.oldLines.symm.trans hold)
    rw [replacements, if_pos hold, applied, if_neg hretried, hinsertions, hremovals, h.newLines]
    exact ⟨append_nil _, rfl⟩
  · rw [replacements_eq_stretches h hold heven, stretches_insertions, stretches_removals]
    exact ⟨rfl, rfl⟩

end Site

/-! ### Rebuilding the file -/

/-- An inserted line with its ending. -/
def withEnding (ending : LineEnding) (insertion : ℕ × Text) : ℕ × SourceLine :=
  (insertion.1, ⟨insertion.2, some ending⟩)

variable {replacements : List Replacement}

theorem replaceLines_eq_rebuildFrom {first : ℕ}
    (preferredEnding : LineEnding) (source : List SourceLine)
    (h : Stretches first source.length replacements) :
    replaceLines preferredEnding first (source.drop first) replacements =
      Gaps.rebuildFrom first source
        ((replacements.flatMap insertions).map (withEnding preferredEnding))
        (replacements.flatMap removals) := by
  induction replacements generalizing first with
  | nil => exact (Gaps.rebuildFrom_nil first).symm
  | cons r replacements ih =>
    obtain ⟨hapart, hrest⟩ := pairwise_cons.mp h.apart
    obtain ⟨hfirst, hlast⟩ := h.inside r mem_cons_self
    have hlater : Stretches (r.start + r.oldLen) source.length replacements :=
      ⟨fun r' hmem => ⟨hapart r' hmem, (h.inside r' (mem_cons_of_mem _ hmem)).2⟩, hrest⟩
    have hinsertions : ∀ x ∈ (replacements.flatMap insertions).map
        (withEnding preferredEnding), r.start + r.oldLen ≤ x.1 := by
      intro x hx
      obtain ⟨insertion, hinsertion, rfl⟩ := mem_map.mp hx
      obtain ⟨r', hmem, hinsertion⟩ := mem_flatMap.mp hinsertion
      obtain ⟨_, -, rfl⟩ := mem_map.mp hinsertion
      exact hapart r' hmem
    have hremovals : ∀ i ∈ replacements.flatMap removals, r.start + r.oldLen ≤ i := by
      intro i hi
      obtain ⟨r', hmem, hi⟩ := mem_flatMap.mp hi
      exact (hapart r' hmem).trans (mem_range'_1.mp hi).1
    have hsegment : r.insertions.map (withEnding preferredEnding) =
        (r.newSegment.map (SourceLine.mk · (some preferredEnding))).map (r.start, ·) := by
      rw [insertions, map_map, map_map]
      rfl
    rw [flatMap_cons, flatMap_cons, map_append, hsegment, removals,
      Gaps.rebuildFrom_splice hfirst hlast hinsertions hremovals, ← ih hlater, replaceLines,
      drop_drop]
    rw [show first + (r.start - first + r.oldLen) = r.start + r.oldLen by omega]

/-- Sorting by start keeps the order of replacements that start together. -/
theorem filter_insertionSort (replacements : List Replacement) (gap : ℕ) :
    (replacements.insertionSort fun r r' => r.start ≤ r'.start).filter (·.start = gap) =
      replacements.filter (·.start = gap) := by
  have hsame : (replacements.filter (·.start = gap)).Pairwise fun r r' => r.start ≤ r'.start := by
    refine pairwise_of_forall_mem_list fun r hr r' hr' => ?_
    have hr := (mem_filter.mp hr).2
    have hr' := (mem_filter.mp hr').2
    simp only [decide_eq_true_eq] at hr hr'
    exact (hr.trans hr'.symm).le
  have hsublist := (sublist_insertionSort hsame filter_sublist).filter (·.start = gap)
  simp only [filter_filter, Bool.and_self] at hsublist
  refine (hsublist.eq_of_length ?_).symm
  exact ((perm_insertionSort _ replacements).filter _).length_eq.symm

theorem filter_flatMap_insertions (replacements : List Replacement) (gap : ℕ) :
    (replacements.flatMap insertions).filter (·.1 = gap) =
      (replacements.filter (·.start = gap)).flatMap insertions := by
  induction replacements with
  | nil => rfl
  | cons r _ ih =>
    rw [flatMap_cons, filter_append, ih]
    by_cases hgap : r.start = gap
    · rw [filter_cons_of_pos (by simpa using hgap)]
      refine congrArg (· ++ _) (filter_eq_self.mpr fun x hx => ?_)
      obtain ⟨_, -, rfl⟩ := mem_map.mp hx
      simpa using hgap
    · rw [filter_cons_of_neg (by simpa using hgap)]
      refine (congrArg (· ++ _) (filter_eq_nil_iff.mpr fun x hx => ?_)).trans
        (nil_append _)
      obtain ⟨_, -, rfl⟩ := mem_map.mp hx
      simpa using hgap

/-- Applying sorted replacements edits the file by what they insert and remove. -/
theorem applyReplacements_eq_edited (file : SourceFile)
    (h : Arranged file.lines.length replacements) :
    file.applyReplacements (replacements.insertionSort fun r r' => r.start ≤ r'.start) =
      file.edited (replacements.flatMap insertions)
        (replacements.flatMap removals) := by
  have hsorted := h.stretches_insertionSort
  have hrebuild := replaceLines_eq_rebuildFrom file.preferredEnding file.lines hsorted
  rw [drop_zero, Gaps.rebuildFrom_zero] at hrebuild
  have hcongr : Gaps.rebuild file.lines
      (((replacements.insertionSort fun r r' => r.start ≤ r'.start).flatMap
        insertions).map (withEnding file.preferredEnding))
      ((replacements.insertionSort fun r r' => r.start ≤ r'.start).flatMap removals) =
        Gaps.rebuild file.lines
          ((replacements.flatMap insertions).map (withEnding file.preferredEnding))
          (replacements.flatMap removals) := by
    refine Gaps.rebuild_congr (fun gap => ?_) fun i => ?_
    · have hmap : ∀ insertions : List (ℕ × Text),
          (insertions.map (withEnding file.preferredEnding)).filter (·.1 = gap) =
            (insertions.filter (·.1 = gap)).map (withEnding file.preferredEnding) := fun _ =>
        filter_map
      rw [hmap, hmap, filter_flatMap_insertions, filter_flatMap_insertions, filter_insertionSort]
    · simp
  rw [SourceFile.applyReplacements, hrebuild, hcongr]
  rfl

/-- **Update hunks change exactly what they say.**  The chunks of a parsed patch find their lines in
order, those without old lines at the end of the file.  The new file is the old one with the '+'
lines of the chunks inserted and their '-' lines removed; of a chunk that was found on the retry only
the changes before the trailing empty line apply.  A retried chunk that ends with an empty context
line on one side only is left open. -/
theorem newContents_rebuilds {patch path : Text} {movePath : Option Text}
    {chunks : List UpdateFileChunk} {args : ApplyPatchArgs} (hparse : parsePatch patch = .ok args)
    (hunk : .updateFile path movePath chunks ∈ args.hunks) {name contents result : Text}
    (h : newContents name chunks contents = .ok result) :
    ∃ sites, locate (SourceFile.parse contents).lineTexts name 0 chunks = .ok sites ∧
      sites.map (·.chunk) = chunks ∧
      (∀ site ∈ sites, site.Fits (SourceFile.parse contents).lineTexts) ∧
      sites.Pairwise Site.Before ∧
      (∀ site ∈ sites, ∃ changes, site.chunk.HasChanges changes) ∧
      ∀ changes : Site → List Change, (∀ site ∈ sites, site.chunk.HasChanges (changes site)) →
        (∀ site ∈ sites, site.retried → Change.EndsEvenly (changes site)) →
        result = ((SourceFile.parse contents).edited
          (sites.flatMap fun site =>
            Change.insertions site.start site.start (site.applied (changes site)))
          (sites.flatMap fun site =>
            Change.removals site.start (site.applied (changes site)))).intoContents := by
  have hparsed : ∀ chunk ∈ chunks, ∃ changes, chunk.HasChanges changes :=
    parsePatch_hasChanges hparse _ hunk
  obtain ⟨replacements, hcompute, hresult⟩ := bind_eq_ok.mp h
  obtain ⟨collected, hcollected, rfl⟩ := map_eq_ok.mp hcompute
  rw [collectReplacements_eq] at hcollected
  obtain ⟨sites, hlocate, rfl⟩ := map_eq_ok.mp hcollected
  obtain ⟨hchunks, hsites, hbefore⟩ := locate_ok (Nat.zero_le _) hlocate
  have hfits := fun site hmem => (hsites site hmem).2
  have hhas : ∀ site ∈ sites, ∃ changes, site.chunk.HasChanges changes := fun site hmem =>
    hparsed _ (hchunks ▸ mem_map_of_mem hmem)
  refine ⟨sites, hlocate, hchunks, hfits, hbefore, hhas, fun changes hchanges heven => ?_⟩
  have harranged := arranged_sites hhas hfits hbefore
  rw [SourceFile.lineTexts, length_map] at harranged
  rw [applyReplacements_eq_edited _ harranged, flatMap_assoc, flatMap_assoc] at hresult
  have heffect := fun site hmem => Site.replacements_effect (hchanges site hmem) fun hretried =>
    ⟨(hfits site hmem).endsEmpty hretried, heven site hmem hretried⟩
  rw [flatMap_congr fun site hmem => (heffect site hmem).1,
    flatMap_congr fun site hmem => (heffect site hmem).2] at hresult
  exact (Except.ok.inj hresult).symm

/-- A patch that adds a line and then replaces one. -/
def additionFirstPatch : Text :=
  "*** Begin Patch\n*** Update File: a\n@@\n+x\n@@\n-a\n+y\n*** End Patch\n".toList

def additionFirstChunks : List UpdateFileChunk :=
  [⟨none, [], ["x".toList], [], false⟩, ⟨none, ["a".toList], ["y".toList], [], false⟩]

theorem additionFirst_parsed :
    ∃ args, parsePatch additionFirstPatch = .ok args ∧
      .updateFile "a".toList none additionFirstChunks ∈ args.hunks := by
  have hhunks : (parsePatch additionFirstPatch).map (·.hunks) =
      .ok [.updateFile "a".toList none additionFirstChunks] := by decide +kernel
  obtain ⟨args, hparse, hhunks⟩ := map_eq_ok.mp hhunks
  exact ⟨args, hparse, hhunks ▸ mem_cons_self⟩

/-- The line of the first chunk goes behind the line of the second. -/
theorem addition_goes_last :
    ∃ args, parsePatch additionFirstPatch = .ok args ∧
      .updateFile "a".toList none additionFirstChunks ∈ args.hunks ∧
      newContents "a".toList additionFirstChunks "a\nb\n".toList = .ok "y\nb\nx\n".toList := by
  obtain ⟨args, hparse, hunk⟩ := additionFirst_parsed
  exact ⟨args, hparse, hunk, by decide⟩

/-- The lines of the two chunks. -/
def additionFirstChanges (site : Site) : List Change :=
  if site.chunk.oldLines = [] then [⟨.added, "x".toList⟩]
  else [⟨.removed, "a".toList⟩, ⟨.added, "y".toList⟩]

theorem additionFirst_rebuilds :
    ∃ args, parsePatch additionFirstPatch = .ok args ∧
      .updateFile "a".toList none additionFirstChunks ∈ args.hunks ∧
      ∃ sites : List Site, sites.map (·.chunk) = additionFirstChunks ∧
        "y\nb\nx\n".toList = ((SourceFile.parse "a\nb\n".toList).edited
          (sites.flatMap fun site =>
            Change.insertions site.start site.start (site.applied (additionFirstChanges site)))
          (sites.flatMap fun site =>
            Change.removals site.start
              (site.applied (additionFirstChanges site)))).intoContents := by
  obtain ⟨args, hparse, hunk⟩ := additionFirst_parsed
  have hnew : newContents "a".toList additionFirstChunks "a\nb\n".toList =
      .ok "y\nb\nx\n".toList := by decide
  obtain ⟨sites, -, hchunks, hfits, -, -, hresult⟩ := newContents_rebuilds hparse hunk hnew
  have hchunk : ∀ site ∈ sites, site.chunk.HasChanges (additionFirstChanges site) ∧
      site.chunk.oldLines.getLast? ≠ some [] := by
    intro site hmem
    have hmem : site.chunk ∈ additionFirstChunks := hchunks ▸ mem_map_of_mem hmem
    rw [additionFirstChunks, mem_pair] at hmem
    unfold additionFirstChanges
    rcases hmem with hchunk | hchunk
    · rw [hchunk]
      exact ⟨⟨rfl, rfl, rfl⟩, nofun⟩
    · rw [hchunk]
      exact ⟨⟨rfl, rfl, rfl⟩, by decide⟩
  refine ⟨args, hparse, hunk, sites, hchunks, hresult additionFirstChanges ?_ ?_⟩
  · exact fun site hmem => (hchunk site hmem).1
  · exact fun site hmem hretried => absurd ((hfits site hmem).endsEmpty hretried) (hchunk site hmem).2

end Patch

end CodexPlus
