/-
CodexPlus/PatchRoundTrip.lean

Writing a patch and parsing it.

The grammar of apply-patch/src/parser.rs gives every hunk its lines: a header,
the lines of an added file, the chunks of an updated one.  A chunk may interleave
its removed and added lines in any way, so `Hunk.WrittenAs` is a relation.  What
is written parses to the hunks it was written from (`parsePatch_written`).
-/
import CodexPlus.PatchStream
import Mathlib.Data.List.Forall2

namespace CodexPlus

open List

namespace Patch

/-! ### Writing a chunk -/

def ChangeKind.mark : ChangeKind → Char
  | .context => ' '
  | .added => '+'
  | .removed => '-'

theorem ChangeKind.mark_notMem (kind : ChangeKind) : kind.mark ∉ ['\n', '\r'] := by
  cases kind <;> decide

/-- A line of a chunk with its kind. -/
structure Change where
  kind : ChangeKind
  text : Text
  deriving DecidableEq, Repr

namespace Change

def write (change : Change) : Text := change.kind.mark :: change.text

def oldSide (changes : List Change) : List Text :=
  (changes.filter (·.kind ≠ .added)).map (·.text)

def newSide (changes : List Change) : List Text :=
  (changes.filter (·.kind ≠ .removed)).map (·.text)

/-- The positions of the context lines on both sides, from given positions on. -/
def contextIndices (oldIndex newIndex : ℕ) : List Change → List (ℕ × ℕ)
  | [] => []
  | ⟨.context, _⟩ :: changes =>
    (oldIndex, newIndex) :: contextIndices (oldIndex + 1) (newIndex + 1) changes
  | ⟨.added, _⟩ :: changes => contextIndices oldIndex (newIndex + 1) changes
  | ⟨.removed, _⟩ :: changes => contextIndices (oldIndex + 1) newIndex changes

variable (oldIndex newIndex : ℕ) (changes more : List Change)

theorem oldSide_append : oldSide (changes ++ more) = oldSide changes ++ oldSide more := by
  simp [oldSide]

theorem newSide_append : newSide (changes ++ more) = newSide changes ++ newSide more := by
  simp [newSide]

theorem contextIndices_append :
    contextIndices oldIndex newIndex (changes ++ more) =
      contextIndices oldIndex newIndex changes ++
        contextIndices (oldIndex + (oldSide changes).length) (newIndex + (newSide changes).length)
          more := by
  induction changes generalizing oldIndex newIndex with
  | nil => rfl
  | cons change _ ih =>
    rcases change with ⟨kind, text⟩
    cases kind with
    | context | added | removed =>
      simp only [cons_append, contextIndices, ih]
      simp [oldSide, newSide, Nat.add_assoc, Nat.add_comm]

variable {changes}

theorem contextIndices_of_none (h : ∀ change ∈ changes, change.kind ≠ .context) :
    contextIndices oldIndex newIndex changes = [] := by
  induction changes generalizing oldIndex newIndex with
  | nil => rfl
  | cons change _ ih =>
    rcases change with ⟨kind, text⟩
    have hrest := fun change hmem => h change (mem_cons_of_mem _ hmem)
    cases kind with
    | context => exact absurd rfl (h _ mem_cons_self)
    | added | removed => exact ih _ _ hrest

end Change

namespace UpdateFileChunk

/-- The chunk that a list of lines stands for. -/
structure HasChanges (chunk : UpdateFileChunk) (changes : List Change) : Prop where
  oldLines : chunk.oldLines = Change.oldSide changes
  newLines : chunk.newLines = Change.newSide changes
  contextLineIndices : chunk.contextLineIndices = Change.contextIndices 0 0 changes

def contextLine (changeContext : Option Text) : Text :=
  match changeContext with
  | none => emptyChangeContextMarker
  | some context => changeContextMarker ++ context

/-- The lines of a chunk: its context, its lines and the end of the file. -/
def write (chunk : UpdateFileChunk) (changes : List Change) : List Text :=
  contextLine chunk.changeContext :: changes.map Change.write ++
    if chunk.isEndOfFile then [eofMarker] else []

inductive WrittenAs (chunk : UpdateFileChunk) : List Text → Prop
  | mk (changes : List Change) (h : chunk.HasChanges changes) :
      WrittenAs chunk (chunk.write changes)

end UpdateFileChunk

/-! ### Writing a hunk -/

/-- The lines of an added file. -/
def contentLines (contents : Text) : List Text := (contents.splitOn '\n').dropLast

inductive Hunk.WrittenAs : Hunk → List Text → Prop
  | addFile (path contents : Text) :
      WrittenAs (.addFile path contents)
        ((addFileMarker ++ path) :: (contentLines contents).map ('+' :: ·))
  | deleteFile (path : Text) : WrittenAs (.deleteFile path) [deleteFileMarker ++ path]
  | updateFile (path : Text) (movePath : Option Text) {chunks : List UpdateFileChunk}
      {blocks : List (List Text)} (h : List.Forall₂ UpdateFileChunk.WrittenAs chunks blocks) :
      WrittenAs (.updateFile path movePath chunks)
        ((updateFileMarker ++ path) :: movePath.toList.map (moveToMarker ++ ·) ++ blocks.flatten)

structure PathText (path : Text) : Prop where
  nonempty : path ≠ []
  newline : '\n' ∉ path
  trimmed : trim path = path

theorem PathText.trimEnd_eq {path : Text} (h : PathText path) : trimEnd path = path := by
  rw [← h.trimmed]
  exact rdropWhile_idempotent _ _

theorem PathText.trimEnd_append {path : Text} (h : PathText path) (marker : Text) :
    trimEnd (marker ++ path) = marker ++ path := by
  have hne : trimEnd path ≠ [] := by
    rw [h.trimEnd_eq]
    exact h.nonempty
  rw [CodexPlus.trimEnd_append hne, h.trimEnd_eq]

/-- A line text: neither a newline nor a carriage return at its end. -/
structure LineText (text : Text) : Prop where
  newline : '\n' ∉ text
  carriageReturn : text.getLast? ≠ some '\r'

theorem LineText.cons {text : Text} (h : LineText text) {c : Char} (hc : c ∉ ['\n', '\r']) :
    LineText (c :: text) := by
  refine ⟨?_, ?_⟩
  · simp_all [h.newline, Ne.symm]
  · have htext := h.carriageReturn
    rcases text.eq_nil_or_concat with rfl | ⟨text, d, rfl⟩
    · simp_all
    · rw [concat_eq_append, getLast?_concat] at htext
      rwa [concat_eq_append, ← cons_append, getLast?_concat]

theorem PathText.lineText {path : Text} (h : PathText path) {marker : Text}
    (hmarker : '\n' ∉ marker) : LineText (marker ++ path) :=
  ⟨by simp [hmarker, h.newline], getLast?_ne_of_trimEnd (by decide) (h.trimEnd_append marker)⟩

structure ContextText (text : Text) : Prop where
  nonempty : text ≠ []
  newline : '\n' ∉ text
  trimmed : trimEnd text = text

structure UpdateFileChunk.Writable (chunk : UpdateFileChunk) : Prop where
  changeContext : ∀ context ∈ chunk.changeContext, ContextText context
  oldLines : ∀ text ∈ chunk.oldLines, LineText text
  newLines : ∀ text ∈ chunk.newLines, LineText text
  nonempty : chunk.oldLines ≠ [] ∨ chunk.newLines ≠ []

def Hunk.Writable : Hunk → Prop
  | .addFile path contents =>
    PathText path ∧ Terminated contents ∧ ∀ text ∈ contentLines contents, LineText text
  | .deleteFile path => PathText path
  | .updateFile path movePath chunks =>
    PathText path ∧ (∀ dest ∈ movePath, PathText dest) ∧ chunks ≠ [] ∧
      ∀ chunk ∈ chunks, chunk.Writable

/-! ### Every chunk can be written -/

/-- The context positions of a chunk name equal lines, in order on both sides. -/
inductive Aligned : ℕ → ℕ → List Text → List Text → List (ℕ × ℕ) → Prop
  | nil (oldIndex newIndex : ℕ) (oldLines newLines : List Text) :
      Aligned oldIndex newIndex oldLines newLines []
  | cons {oldIndex newIndex : ℕ} {oldLines newLines : List Text} {indices : List (ℕ × ℕ)}
      (removed added : List Text) (line : Text)
      (h : Aligned (oldIndex + removed.length + 1) (newIndex + added.length + 1) oldLines newLines
        indices) :
      Aligned oldIndex newIndex (removed ++ line :: oldLines) (added ++ line :: newLines)
        ((oldIndex + removed.length, newIndex + added.length) :: indices)

namespace Change

/-- The lines between two context lines: what is removed before what is added. -/
def between (removed added : List Text) : List Change :=
  removed.map (⟨.removed, ·⟩) ++ added.map (⟨.added, ·⟩)

variable (removed added : List Text)

theorem oldSide_between : oldSide (between removed added) = removed := by
  simp [oldSide, between, filter_map, Function.comp_def]

theorem newSide_between : newSide (between removed added) = added := by
  simp [newSide, between, filter_map, Function.comp_def]

theorem contextIndices_between (oldIndex newIndex : ℕ) :
    contextIndices oldIndex newIndex (between removed added) = [] :=
  contextIndices_of_none _ _ fun change hmem => by
    rcases mem_append.mp hmem with hmem | hmem <;> obtain ⟨_, -, rfl⟩ := mem_map.mp hmem <;> simp

end Change

open Change in
theorem Aligned.exists_changes {oldIndex newIndex : ℕ} {oldLines newLines : List Text}
    {indices : List (ℕ × ℕ)} (h : Aligned oldIndex newIndex oldLines newLines indices) :
    ∃ changes, oldSide changes = oldLines ∧ newSide changes = newLines ∧
      contextIndices oldIndex newIndex changes = indices := by
  induction h with
  | nil _ _ oldLines newLines =>
    exact ⟨_, oldSide_between .., newSide_between .., contextIndices_between oldLines newLines ..⟩
  | cons removed added line _ ih =>
    obtain ⟨changes, hold, hnew, hindices⟩ := ih
    refine ⟨between removed added ++ ⟨.context, line⟩ :: changes, ?_, ?_, ?_⟩
    · rw [oldSide_append, oldSide_between, ← hold]
      rfl
    · rw [newSide_append, newSide_between, ← hnew]
      rfl
    · rw [contextIndices_append, contextIndices_between, oldSide_between, newSide_between, ← hindices]
      rfl

/-- A chunk whose context positions are aligned has a writing. -/
theorem UpdateFileChunk.exists_writtenAs {chunk : UpdateFileChunk}
    (h : Aligned 0 0 chunk.oldLines chunk.newLines chunk.contextLineIndices) :
    ∃ lines, chunk.WrittenAs lines := by
  obtain ⟨changes, hold, hnew, hindices⟩ := h.exists_changes
  exact ⟨_, .mk changes ⟨hold.symm, hnew.symm, hindices.symm⟩⟩

/-! ### Reading the lines of a chunk -/

/-- Pushing the lines of a chunk one by one gives its two sides and the positions of its context. -/
theorem pushAll_eq (changes : List Change) (chunk : UpdateFileChunk) :
    changes.foldl (fun chunk change => change.kind.push change.text chunk) chunk =
      { chunk with
        oldLines := chunk.oldLines ++ Change.oldSide changes
        newLines := chunk.newLines ++ Change.newSide changes
        contextLineIndices := chunk.contextLineIndices ++
          Change.contextIndices chunk.oldLines.length chunk.newLines.length changes } := by
  induction changes generalizing chunk with
  | nil => simp [Change.oldSide, Change.newSide, Change.contextIndices]
  | cons change _ ih =>
    rcases change with ⟨kind, text⟩
    rw [foldl_cons, ih]
    cases kind <;>
      simp [ChangeKind.push, UpdateFileChunk.pushContextLine, Change.oldSide, Change.newSide,
        Change.contextIndices]

theorem UpdateFileChunk.HasChanges.pushAll {chunk : UpdateFileChunk} {changes : List Change}
    (h : chunk.HasChanges changes) :
    changes.foldl (fun chunk change => change.kind.push change.text chunk)
        { UpdateFileChunk.default with changeContext := chunk.changeContext } =
      { chunk with isEndOfFile := false } := by
  rw [pushAll_eq, h.oldLines, h.newLines, h.contextLineIndices]
  rfl

theorem afterMarker_append (marker rest : Text) : afterMarker marker (marker ++ rest) = some rest := by
  have hmarker : marker.isPrefixOf (marker ++ rest) = true :=
    isPrefixOf_iff_prefix.mpr (prefix_append _ _)
  rw [afterMarker, if_pos hmarker, drop_left]

theorem exists_of_forall₂ {α β : Type} {R : α → β → Prop} {as : List α} {bs : List β}
    (h : List.Forall₂ R as bs) {b : β} (hb : b ∈ bs) : ∃ a ∈ as, R a b := by
  induction h with
  | nil => cases hb
  | @cons a _ _ _ hab _ ih =>
    rcases mem_cons.mp hb with rfl | hb
    · exact ⟨a, mem_cons_self, hab⟩
    · obtain ⟨a', ha', hR⟩ := ih hb
      exact ⟨a', mem_cons_of_mem _ ha', hR⟩

namespace StreamingPatchParser

variable {p p' : StreamingPatchParser} {line : Text}

theorem afterMarker_eq_none {marker : Text} {c : Char} (hmarker : marker.head? = some c)
    (hline : line.head? ≠ some c) : afterMarker marker line = none := by
  rcases h : afterMarker marker line with - | rest
  · rfl
  · exact absurd (head?_of_afterMarker h hmarker) hline

/-- A line that does not start with a star is no header. -/
theorem handle_eq_none (hmode : p.mode ≠ .startedPatch) (hline : line.head? ≠ some '*') :
    p.handleHunkHeadersAndEndPatch line = .ok none := by
  have hend : line ≠ endPatchMarker := by
    rintro rfl
    exact hline rfl
  have hadd : afterMarker addFileMarker line = none := afterMarker_eq_none rfl hline
  have hdelete : afterMarker deleteFileMarker line = none := afterMarker_eq_none rfl hline
  have hupdate : afterMarker updateFileMarker line = none := afterMarker_eq_none rfl hline
  rw [handleHunkHeadersAndEndPatch, if_neg hmode]
  simp [handleHeadersAndEnd, if_neg hend, hadd, hdelete, hupdate]

variable {init : List Hunk} {chunk : UpdateFileChunk} {changeContext : Option Text} {chunks : List UpdateFileChunk} {movePath : Option Text} {lines : List Text} {hunk : Hunk}

theorem processLine_update {number : ℕ} {path : Text}
    {movePath movePath' : Option Text} {chunks chunks' : List UpdateFileChunk}
    (hmode : p.mode = .updateFile number)
    (hhunks : p.hunks = init ++ [.updateFile path movePath chunks])
    (hhandle : p.handleHunkHeadersAndEndPatch (trimEnd line) = .ok none)
    (h : updateFileLine p.lineNumber line movePath chunks = .ok (movePath', chunks')) :
    p.processLine line = .ok { p with hunks := init ++ [.updateFile path movePath' chunks'] } := by
  unfold processLine
  simp only [hmode, hhunks, getLast?_concat, dropLast_concat]
  rw [hhandle]
  rw [h]
  rfl

/-! ### The lines of an update hunk -/

open UpdateFileChunk

theorem trimEnd_mark (kind : ChangeKind) (text : Text) {c : Char}
    (h : (trimEnd (kind.mark :: text)).head? = some c) : c = kind.mark :=
  (Option.some.inj (head?_of_trimEnd h)).symm

variable (lineNumber : ℕ)

theorem changeLine_write (kind : ChangeKind) (text : Text) (chunks : List UpdateFileChunk) :
    changeLine lineNumber (kind.mark :: text) chunks = .ok (onLastChunk (kind.push text) chunks) := by
  cases kind <;> rfl

theorem updateFileLine_change (kind : ChangeKind) (text : Text)
    (movePath : Option Text) {init : List UpdateFileChunk}
    (heof : chunk.isEndOfFile = false) :
    updateFileLine lineNumber (kind.mark :: text) movePath (init ++ [chunk]) =
      .ok (movePath, init ++ [kind.push text chunk]) := by
  have hstar : (trimEnd (kind.mark :: text)).head? ≠ some '*' := fun h =>
    absurd (trimEnd_mark kind text h) (by cases kind <;> decide)
  have hat : (trimEnd (kind.mark :: text)).head? ≠ some '@' := fun h =>
    absurd (trimEnd_mark kind text h) (by cases kind <;> decide)
  have hempty : trimEnd (kind.mark :: text) ≠ emptyChangeContextMarker := fun h => hat (by rw [h]; rfl)
  have heofMarker : trimEnd (kind.mark :: text) ≠ eofMarker := fun h => hstar (by rw [h]; rfl)
  have hcontext : afterMarker changeContextMarker (trimEnd (kind.mark :: text)) = none :=
    afterMarker_eq_none rfl hat
  have hstarts : startsChunk (trimEnd (kind.mark :: text)) = false := by
    simp [startsChunk, hempty, afterMarker_eq_none_iff.mp hcontext]
  simp only [updateFileLine, getLast?_concat, Option.any_some, heof, hstarts, hcontext,
    if_neg hempty, if_neg heofMarker, changeLine_write, onLastChunk, modifyLast_concat]
  simp
  rfl

theorem trimEnd_contextLine (h : ∀ context ∈ changeContext, ContextText context) :
    trimEnd (contextLine changeContext) = contextLine changeContext := by
  rcases changeContext with - | context
  · rfl
  have hcontext := h context rfl
  have hne : trimEnd context ≠ [] := by
    rw [hcontext.trimmed]
    exact hcontext.nonempty
  show trimEnd (changeContextMarker ++ context) = changeContextMarker ++ context
  rw [trimEnd_append hne, hcontext.trimmed]

theorem updateFileLine_context (movePath : Option Text) (h : ∀ context ∈ changeContext, ContextText context) (hlines : chunks.getLast?.any (·.hasNoLines) = false) :
    updateFileLine lineNumber (contextLine changeContext) movePath chunks =
      .ok (movePath, chunks ++ [{ UpdateFileChunk.default with changeContext }]) := by
  have hmove : (if chunks = [] ∧ movePath = none then
      afterMarker moveToMarker (contextLine changeContext) else none) = none := by
    rw [afterMarker_eq_none (c := '*') rfl (by cases changeContext <;> simp [contextLine,
      emptyChangeContextMarker, changeContextMarker]), ite_self]
  have hne : contextLine changeContext ≠ [] := by
    cases changeContext <;> simp [contextLine, emptyChangeContextMarker,
      changeContextMarker]
  have hstarts : startsChunk (contextLine changeContext) = true := by
    cases changeContext <;> simp [contextLine, startsChunk]
  simp only [updateFileLine, trimEnd_contextLine h, hmove, hne, hstarts, hlines]
  rcases changeContext with - | context
  · simp [contextLine, UpdateFileChunk.default]
  · have hsome : changeContextMarker ++ context ≠ emptyChangeContextMarker := fun heq =>
      absurd (congrArg List.length heq) (by simp [changeContextMarker, emptyChangeContextMarker])
    simp [contextLine, afterMarker_append, hsome]

theorem updateFileLine_eof (movePath : Option Text)
    {init : List UpdateFileChunk} (heof : chunk.isEndOfFile = false)
    (hlines : chunk.hasNoLines = false) :
    updateFileLine lineNumber eofMarker movePath (init ++ [chunk]) =
      .ok (movePath, init ++ [{ chunk with isEndOfFile := true }]) := by
  have htrim : trimEnd eofMarker = eofMarker := by decide
  have hstarts : startsChunk eofMarker = false := by decide
  have hempty : eofMarker ≠ emptyChangeContextMarker := by decide
  have hcontext : afterMarker changeContextMarker eofMarker = none := by decide
  simp only [updateFileLine, htrim, getLast?_concat, Option.any_some, heof, hlines, hstarts,
    hcontext, if_neg hempty, modifyLast_concat]
  simp

theorem updateFileLine_move {dest : Text} (h : PathText dest) :
    updateFileLine lineNumber (moveToMarker ++ dest) none [] = .ok (some dest, []) := by
  have htrim : trimEnd (moveToMarker ++ dest) = moveToMarker ++ dest := h.trimEnd_append _
  simp only [updateFileLine, htrim, afterMarker_append]
  simp

/-! ### Feeding the lines of an update hunk -/

/-- The parser is in an update hunk, with this much of it read. -/
structure InUpdate (p : StreamingPatchParser) (init : List Hunk) (path : Text)
    (movePath : Option Text) (chunks : List UpdateFileChunk) : Prop where
  mode : ∃ number, p.mode = .updateFile number
  hunks : p.hunks = init ++ [.updateFile path movePath chunks]

theorem InUpdate.feedLine {path : Text} {movePath movePath' : Option Text}
    {chunks chunks' : List UpdateFileChunk} (h : p.InUpdate init path movePath chunks)
    (hcr : line.getLast? ≠ some '\r')
    (hhandle : ∀ q : StreamingPatchParser, q.mode ≠ .startedPatch →
      q.handleHunkHeadersAndEndPatch (trimEnd line) = .ok none)
    (hline : ∀ number, updateFileLine number line movePath chunks = .ok (movePath', chunks')) :
    ∃ p', p.feedLine line = .ok p' ∧ p'.InUpdate init path movePath' chunks' := by
  obtain ⟨number, hmode⟩ := h.mode
  have hnone := hhandle p.nextLine (by simp [nextLine, hmode])
  unfold StreamingPatchParser.feedLine
  rw [stripCr_eq_self_iff.mpr hcr,
    processLine_update (p := p.nextLine) hmode h.hunks hnone (hline _)]
  exact ⟨_, rfl, ⟨number, hmode⟩, rfl⟩

theorem InUpdate.feedChanges {path : Text} {changes : List Change}
    (h : p.InUpdate init path movePath (chunks ++ [chunk])) (heof : chunk.isEndOfFile = false)
    (hchanges : ∀ change ∈ changes, LineText change.text) :
    ∃ p', (changes.map Change.write).foldlM StreamingPatchParser.feedLine p = .ok p' ∧
      p'.InUpdate init path movePath (chunks ++
        [changes.foldl (fun chunk change => change.kind.push change.text chunk) chunk]) := by
  induction changes generalizing p chunk with
  | nil => exact ⟨p, rfl, h⟩
  | cons change _ ih =>
    rcases change with ⟨kind, text⟩
    have hcr := ((hchanges _ mem_cons_self).cons kind.mark_notMem).carriageReturn
    have hstar : (trimEnd (kind.mark :: text)).head? ≠ some '*' := fun hhead =>
      absurd (trimEnd_mark kind text hhead) (by cases kind <;> decide)
    obtain ⟨q, hq, hupdate⟩ := h.feedLine hcr (fun _ hmode => handle_eq_none hmode hstar)
      fun number => updateFileLine_change number kind text movePath heof
    have heof' : (kind.push text chunk).isEndOfFile = false := by cases kind <;> exact heof
    obtain ⟨p', hp', hfinal⟩ := ih hupdate heof' fun other hother =>
      hchanges other (mem_cons_of_mem _ hother)
    exact ⟨p', bind_eq_ok.mpr ⟨q, hq, hp'⟩, hfinal⟩

theorem lineText_of_writable (hchunk : chunk.Writable)
    {changes : List Change} (h : chunk.HasChanges changes) :
    ∀ change ∈ changes, LineText change.text := by
  intro change hmem
  by_cases hadded : change.kind = .added
  · refine hchunk.newLines _ ?_
    rw [h.newLines]
    exact mem_map_of_mem (mem_filter.mpr ⟨hmem, by simp [hadded]⟩)
  · refine hchunk.oldLines _ ?_
    rw [h.oldLines]
    exact mem_map_of_mem (mem_filter.mpr ⟨hmem, by simp [hadded]⟩)

theorem hasNoLines_of_writable (h : chunk.Writable) : chunk.hasNoLines = false := by
  rcases h.nonempty with hold | hnew
  · simp [hasNoLines, hold]
  · simp [hasNoLines, hnew]

theorem lineText_contextLine (h : ∀ context ∈ changeContext, ContextText context) :
    LineText (contextLine changeContext) := by
  refine ⟨?_, getLast?_ne_of_trimEnd (by decide) (trimEnd_contextLine h)⟩
  rcases changeContext with - | context
  · decide
  · show '\n' ∉ changeContextMarker ++ context
    simp [(h context rfl).newline, changeContextMarker]

theorem InUpdate.feedChunk {path : Text} (h : p.InUpdate init path movePath chunks)
    (hlast : chunks.getLast?.any (·.hasNoLines) = false) (hchunk : chunk.Writable)
    (hlines : chunk.WrittenAs lines) :
    ∃ p', lines.foldlM StreamingPatchParser.feedLine p = .ok p' ∧
      p'.InUpdate init path movePath (chunks ++ [chunk]) := by
  obtain ⟨changes, hchanges⟩ := hlines
  have hat : (contextLine chunk.changeContext).head? = some '@' := by
    cases chunk.changeContext <;> rfl
  obtain ⟨p₁, hp₁, hopen⟩ := h.feedLine (lineText_contextLine hchunk.changeContext).carriageReturn
    (fun _ hmode => handle_eq_none hmode (by
      rw [trimEnd_contextLine hchunk.changeContext, hat]
      decide))
    fun number => updateFileLine_context number movePath hchunk.changeContext hlast
  obtain ⟨p₂, hp₂, hfilled⟩ := hopen.feedChanges rfl (lineText_of_writable hchunk hchanges)
  rw [hchanges.pushAll] at hfilled
  unfold UpdateFileChunk.write
  rw [foldlM_append, foldlM_cons, hp₁]
  show ∃ p', ((changes.map Change.write).foldlM StreamingPatchParser.feedLine p₁ >>= _) = _ ∧ _
  rw [hp₂]
  by_cases heof : chunk.isEndOfFile = true
  · rw [if_pos heof]
    obtain ⟨p₃, hp₃, hdone⟩ := hfilled.feedLine (by decide)
      (fun q hmode => by rw [handleHunkHeadersAndEndPatch, if_neg hmode]; rfl)
      fun number => updateFileLine_eof number movePath rfl
        (show chunk.hasNoLines = false from hasNoLines_of_writable hchunk)
    refine ⟨p₃, ?_, ?_⟩
    · show (p₂.feedLine eofMarker >>= pure) = _
      rw [hp₃]
      rfl
    · rwa [← heof] at hdone
  · rw [if_neg heof]
    refine ⟨p₂, rfl, ?_⟩
    rwa [← Bool.eq_false_iff.mpr heof] at hfilled

theorem InUpdate.feedChunks {path : Text}
    {chunks done : List UpdateFileChunk} {blocks : List (List Text)}
    (h : p.InUpdate init path movePath done)
    (hlast : done.getLast?.any (·.hasNoLines) = false) (hchunks : ∀ chunk ∈ chunks, chunk.Writable)
    (hblocks : List.Forall₂ UpdateFileChunk.WrittenAs chunks blocks) :
    ∃ p', blocks.flatten.foldlM StreamingPatchParser.feedLine p = .ok p' ∧
      p'.InUpdate init path movePath (done ++ chunks) := by
  induction hblocks generalizing p done with
  | nil => exact ⟨p, rfl, by rwa [append_nil]⟩
  | @cons chunk _ _ _ hchunk _ ih =>
    have hwritable := hchunks chunk mem_cons_self
    obtain ⟨p₁, hp₁, hone⟩ := h.feedChunk hlast hwritable hchunk
    obtain ⟨p₂, hp₂, hall⟩ := ih hone (by simp [hasNoLines_of_writable hwritable])
      fun other hother => hchunks other (mem_cons_of_mem _ hother)
    refine ⟨p₂, ?_, by rwa [append_cons]⟩
    rw [flatten_cons, foldlM_append]
    exact bind_eq_ok.mpr ⟨p₁, hp₁, hp₂⟩

/-! ### Headers -/

/-- The parser may take the next header: its last hunk is complete. -/
structure Ready (p : StreamingPatchParser) : Prop where
  started : p.mode ≠ .notStarted
  ended : p.mode ≠ .endedPatch
  complete : ∀ path movePath chunks, p.hunks.getLast? = some (.updateFile path movePath chunks) →
    chunks ≠ [] ∧ chunks.getLast?.any (·.hasNoLines) = false

theorem Ready.ensure (h : p.Ready) (line : Text) :
    p.nextLine.ensureUpdateHunkIsNotEmpty line = .ok () := by
  unfold ensureUpdateHunkIsNotEmpty
  rw [show p.nextLine.hunks = p.hunks from rfl]
  rcases hlast : p.hunks.getLast? with - | ⟨path, contents⟩ | path | ⟨path, movePath, chunks⟩
  · rfl
  · rfl
  · rfl
  · obtain ⟨hne, hlines⟩ := h.complete path movePath chunks hlast
    obtain ⟨init, chunk, rfl⟩ := chunks.eq_nil_or_concat.resolve_left hne
    have hchunk : chunk.hasNoLines = false := by simpa using hlines
    simp [hchunk]

/-- A header line, once its marker is recognised. -/
theorem Ready.feedHeader (h : p.Ready) {marker path : Text}
    {mode : StreamingParserMode} (hpath : PathText path)
    (hstart : trimStart (marker ++ path) = marker ++ path)
    (hhandle : p.nextLine.handleHunkHeadersAndEndPatch (marker ++ path) =
      p.nextLine.startHunk (marker ++ path) hunk mode) :
    p.feedLine (marker ++ path) =
      .ok { p.nextLine with hunks := p.hunks ++ [hunk], mode := mode } := by
  have hend := hpath.trimEnd_append marker
  have htrimmed : p.nextLine.trimmed (marker ++ path) = marker ++ path := by
    unfold trimmed
    split
    · exact hend
    · rw [trim, hstart, hend]
  unfold StreamingPatchParser.feedLine
  rw [stripCr_eq_self_iff.mpr (getLast?_ne_of_trimEnd (by decide) hend)]
  refine processLine_of_handled h.started h.ended ?_
  rw [htrimmed, hhandle, startHunk, h.ensure]
  rfl

variable (p)

/-- No header is taken for the environment or for the end of the patch. -/
theorem handle_header (line : Text)
    (henv : afterMarker environmentIdMarker line = none) (hend : (line.drop 4).head? ≠ some 'E') :
    p.handleHunkHeadersAndEndPatch line =
      match afterMarker addFileMarker line with
      | some path => p.startHunk line (.addFile path []) .addFile
      | none =>
        match afterMarker deleteFileMarker line with
        | some path => p.startHunk line (.deleteFile path) .deleteFile
        | none =>
          match afterMarker updateFileMarker line with
          | some path => p.startHunk line (.updateFile path none []) (.updateFile p.lineNumber)
          | none => .ok none := by
  rw [handleHunkHeadersAndEndPatch, henv, ite_self]
  exact if_neg fun heq => hend (by rw [heq]; rfl)

variable (path : Text)

theorem handle_addFile : p.handleHunkHeadersAndEndPatch (addFileMarker ++ path) =
      p.startHunk (addFileMarker ++ path) (.addFile path []) .addFile := by
  rw [handle_header p (addFileMarker ++ path) rfl (show some 'A' ≠ some 'E' by decide), afterMarker_append]

theorem handle_deleteFile :
    p.handleHunkHeadersAndEndPatch (deleteFileMarker ++ path) =
      p.startHunk (deleteFileMarker ++ path) (.deleteFile path) .deleteFile := by
  rw [handle_header p (deleteFileMarker ++ path) rfl (show some 'D' ≠ some 'E' by decide)]
  rfl

theorem handle_updateFile :
    p.handleHunkHeadersAndEndPatch (updateFileMarker ++ path) =
      p.startHunk (updateFileMarker ++ path) (.updateFile path none []) (.updateFile p.lineNumber) := by
  rw [handle_header p (updateFileMarker ++ path) rfl (show some 'U' ≠ some 'E' by decide)]
  rfl

theorem handle_move (dest : Text) :
    p.handleHunkHeadersAndEndPatch (moveToMarker ++ dest) = .ok none := by
  rw [handle_header p (moveToMarker ++ dest) rfl (show some 'M' ≠ some 'E' by decide)]
  rfl

/-! ### Hunks -/

variable {p}

theorem feedAddLines {path contents : Text}
    (hmode : p.mode = .addFile) (hhunks : p.hunks = init ++ [.addFile path contents])
    (hlines : ∀ text ∈ lines, LineText text) :
    ∃ p', (lines.map ('+' :: ·)).foldlM StreamingPatchParser.feedLine p = .ok p' ∧
      p'.mode = .addFile ∧
      p'.hunks = init ++ [.addFile path (contents ++ lines.flatMap (· ++ ['\n']))] := by
  induction lines generalizing p contents with
  | nil => exact ⟨p, rfl, hmode, by simpa using hhunks⟩
  | cons text _ ih =>
    have hcr : Patch.stripCr ('+' :: text) = '+' :: text :=
      stripCr_eq_self_iff.mpr ((hlines text mem_cons_self).cons (by decide)).carriageReturn
    have hstar : (trim ('+' :: text)).head? ≠ some '*' := by
      intro hhead
      have hplus : some '+' = some '*' := head?_of_trimEnd hhead
      cases hplus
    have hline : p.feedLine ('+' :: text) = .ok { p.nextLine with
        hunks := init ++ [.addFile path (contents ++ text ++ ['\n'])] } := by
      have hnone : p.nextLine.handleHunkHeadersAndEndPatch (trim ('+' :: text)) = .ok none :=
        handle_eq_none (by simp [nextLine, hmode]) hstar
      unfold StreamingPatchParser.feedLine processLine
      rw [hcr]
      simp only [show p.nextLine.mode = .addFile from hmode, hnone,
        show p.nextLine.hunks = init ++ [.addFile path contents] from hhunks, getLast?_concat,
        dropLast_concat]
      rfl
    obtain ⟨p', hp', hmode', hhunks'⟩ := ih (p := { p.nextLine with
        hunks := init ++ [.addFile path (contents ++ text ++ ['\n'])] }) hmode rfl
      fun other hother => hlines other (mem_cons_of_mem _ hother)
    refine ⟨p', bind_eq_ok.mpr ⟨_, hline, hp'⟩, hmode', ?_⟩
    rw [hhunks']
    simp

theorem contentLines_flatMap {contents : Text} (h : Terminated contents) :
    (contentLines contents).flatMap (· ++ ['\n']) = contents := by
  obtain ⟨init, hinit⟩ : ∃ init, contents.splitOn '\n' = init ++ [[]] := by
    rcases h with rfl | h
    · exact ⟨[], rfl⟩
    · obtain ⟨text, rfl⟩ := getLast?_eq_some_iff.mp h
      exact ⟨text.splitOn '\n', by rw [splitOn_append_cons_self, splitOn_nil]⟩
  rw [contentLines, hinit, dropLast_concat, ← joined_nil, ← hinit, intercalate_splitOn]

/-- **One hunk.**  Its written lines take a parser that may begin a hunk to one that has read it. -/
theorem Ready.feedHunk (h : p.Ready) (hhunk : hunk.Writable) (hlines : hunk.WrittenAs lines) :
    ∃ p', lines.foldlM StreamingPatchParser.feedLine p = .ok p' ∧ p'.Ready ∧
      p'.hunks = p.hunks ++ [hunk] := by
  cases hlines with
  | addFile path =>
    obtain ⟨hpath, hterminated, htexts⟩ := hhunk
    have hheader := h.feedHeader hpath rfl (handle_addFile p.nextLine path)
    obtain ⟨p', hp', hmode, hhunks⟩ := feedAddLines (p := { p.nextLine with
      hunks := p.hunks ++ [.addFile path []], mode := .addFile }) rfl rfl htexts
    rw [contentLines_flatMap hterminated] at hhunks
    refine ⟨p', bind_eq_ok.mpr ⟨_, hheader, hp'⟩, ⟨by simp [hmode], by simp [hmode], ?_⟩, hhunks⟩
    simp [hhunks]
  | deleteFile path =>
    have hheader := h.feedHeader hhunk rfl (handle_deleteFile p.nextLine path)
    refine ⟨_, bind_eq_ok.mpr ⟨_, hheader, rfl⟩, ⟨by simp, by simp, by simp⟩, rfl⟩
  | @updateFile path movePath chunks _ hblocks =>
    obtain ⟨hpath, hmove, hne, hchunks⟩ := hhunk
    have hheader := h.feedHeader hpath rfl (handle_updateFile p.nextLine path)
    have hopened : InUpdate { p.nextLine with
        hunks := p.hunks ++ [.updateFile path none []], mode := .updateFile p.nextLine.lineNumber }
        p.hunks path none [] := ⟨⟨_, rfl⟩, rfl⟩
    -- the optional move path
    obtain ⟨p₁, hp₁, hmoved⟩ : ∃ p₁, (movePath.toList.map (moveToMarker ++ ·)).foldlM
        StreamingPatchParser.feedLine _ = .ok p₁ ∧ p₁.InUpdate p.hunks path movePath [] := by
      rcases movePath with - | dest
      · exact ⟨_, rfl, hopened⟩
      have hdest := hmove dest rfl
      have hend := hdest.trimEnd_append moveToMarker
      obtain ⟨p₁, hp₁, hmoved⟩ := hopened.feedLine (hdest.lineText (by decide)).carriageReturn
        (fun q _ => by rw [hend]; exact handle_move q dest)
        fun number => updateFileLine_move number hdest
      exact ⟨p₁, bind_eq_ok.mpr ⟨p₁, hp₁, rfl⟩, hmoved⟩
    obtain ⟨p₂, hp₂, hdone⟩ := hmoved.feedChunks rfl hchunks hblocks
    obtain ⟨number, hmode⟩ := hdone.mode
    refine ⟨p₂, ?_, ⟨by simp [hmode], by simp [hmode], ?_⟩, hdone.hunks⟩
    · rw [foldlM_append, foldlM_cons, hheader]
      exact bind_eq_ok.mpr ⟨p₁, hp₁, hp₂⟩
    · intro path' movePath' chunks' hlast
      rw [hdone.hunks, getLast?_concat] at hlast
      cases hlast
      obtain ⟨init, chunk, rfl⟩ := chunks.eq_nil_or_concat.resolve_left hne
      simp [hasNoLines_of_writable (hchunks chunk (by simp))]

theorem Ready.feedHunks (h : p.Ready) {hunks : List Hunk} {blocks : List (List Text)}
    (hhunks : ∀ hunk ∈ hunks, hunk.Writable) (hblocks : List.Forall₂ Hunk.WrittenAs hunks blocks) :
    ∃ p', blocks.flatten.foldlM StreamingPatchParser.feedLine p = .ok p' ∧ p'.Ready ∧
      p'.hunks = p.hunks ++ hunks := by
  induction hblocks generalizing p with
  | nil => exact ⟨p, rfl, h, by rw [append_nil]⟩
  | @cons hunk _ _ _ hhunk _ ih =>
    obtain ⟨p₁, hp₁, hready, hone⟩ := h.feedHunk (hhunks hunk mem_cons_self) hhunk
    obtain ⟨p₂, hp₂, hready', hall⟩ := ih hready fun other hother =>
      hhunks other (mem_cons_of_mem _ hother)
    refine ⟨p₂, ?_, hready', by rw [hall, hone, append_assoc, singleton_append]⟩
    rw [flatten_cons, foldlM_append]
    exact bind_eq_ok.mpr ⟨p₁, hp₁, hp₂⟩

theorem lineText_of_chunk (hchunk : chunk.Writable)
    (hlines : chunk.WrittenAs lines) : ∀ line ∈ lines, LineText line := by
  obtain ⟨changes, hchanges⟩ := hlines
  intro line hline
  rcases mem_append.mp hline with hline | hline
  · rcases mem_cons.mp hline with rfl | hline
    · exact lineText_contextLine hchunk.changeContext
    · obtain ⟨change, hchange, rfl⟩ := mem_map.mp hline
      exact (lineText_of_writable hchunk hchanges change hchange).cons change.kind.mark_notMem
  · split at hline
    · rw [mem_singleton.mp hline]
      exact ⟨by decide, by decide⟩
    · cases hline

theorem lineText_of_hunk (hhunk : hunk.Writable)
    (hlines : hunk.WrittenAs lines) : ∀ line ∈ lines, LineText line := by
  cases hlines with
  | addFile =>
    obtain ⟨hpath, -, htexts⟩ := hhunk
    intro line hline
    rcases mem_cons.mp hline with rfl | hline
    · exact hpath.lineText (by decide)
    · obtain ⟨text, htext, rfl⟩ := mem_map.mp hline
      exact (htexts text htext).cons (by decide)
  | deleteFile =>
    intro line hline
    rw [mem_singleton.mp hline]
    exact PathText.lineText hhunk (by decide)
  | @updateFile _ _ _ _ hblocks =>
    obtain ⟨hpath, hmove, -, hchunks⟩ := hhunk
    intro line hline
    rcases mem_append.mp hline with hline | hline
    · rcases mem_cons.mp hline with rfl | hline
      · exact hpath.lineText (by decide)
      · obtain ⟨dest, hdest, rfl⟩ := mem_map.mp hline
        exact (hmove dest (Option.mem_toList.mp hdest)).lineText (by decide)
    · obtain ⟨block, hblock, hmem⟩ := mem_flatten.mp hline
      obtain ⟨chunk, hchunk, hwritten⟩ := exists_of_forall₂ hblocks hblock
      exact lineText_of_chunk (hchunks chunk hchunk) hwritten line hmem

end StreamingPatchParser

/-! ### The round trip -/

/-- The text of a patch: its blocks of lines between the markers. -/
def writePatch (blocks : List (List Text)) : Text :=
  ['\n'].intercalate (beginPatchMarker :: (blocks.flatten ++ [endPatchMarker]))

/-- The lines of a written patch. -/
def writtenText (blocks : List (List Text)) (h : ∀ line ∈ blocks.flatten, LineText line) :
    PatchText where
  first := beginPatchMarker
  mid := blocks.flatten
  last := endPatchMarker
  begins := by decide
  ends := by decide
  plain := by
    intro line hline
    rcases mem_cons.mp hline with rfl | hline
    · decide
    · rcases mem_append.mp hline with hline | hline
      · exact (h line hline).newline
      · rw [mem_singleton.mp hline]
        decide

theorem writtenText_again {blocks : List (List Text)} (h : ∀ line ∈ blocks.flatten, LineText line) :
    (writtenText blocks h).again.lines = (writtenText blocks h).lines := by
  have hbegin : beginPatchMarker.getLast? ≠ some '\r' := by decide
  have hend : endPatchMarker.getLast? ≠ some '\r' := by decide
  refine (writtenText blocks h).again_lines_eq_iff.mpr ⟨?_, rfl, rfl⟩
  intro line hline
  rcases mem_cons.mp hline with rfl | hline
  · exact hbegin
  · rcases mem_append.mp hline with hline | hline
    · exact (h line hline).carriageReturn
    · rw [mem_singleton.mp hline]
      exact hend

/-- **The patch grammar round-trips**: a written patch, with or without a newline at its end, parses
to the hunks it was written from. -/
theorem parsePatch_written (hunks : List Hunk) (blocks : List (List Text)) (lineEnd : Text)
    (hhunks : ∀ hunk ∈ hunks, hunk.Writable) (hblocks : List.Forall₂ Hunk.WrittenAs hunks blocks)
    (hend : lineEnd = [] ∨ lineEnd = ['\n']) :
    ∃ args, parsePatch (writePatch blocks ++ lineEnd) = .ok args ∧ args.hunks = hunks := by
  have hlines : ∀ line ∈ blocks.flatten, LineText line := by
    intro line hline
    obtain ⟨block, hblock, hmem⟩ := mem_flatten.mp hline
    obtain ⟨hunk, hhunk, hwritten⟩ := exists_of_forall₂ hblocks hblock
    exact StreamingPatchParser.lineText_of_hunk (hhunks hunk hhunk) hwritten line hmem
  have htrim : trim (writePatch blocks ++ lineEnd) = trim (writePatch blocks) := by
    have hws : ∀ c ∈ lineEnd, isWhitespace c := by
      rcases hend with rfl | rfl
      · exact fun c hc => absurd hc not_mem_nil
      · exact forall_mem_singleton.mpr (by decide)
    rw [← trim_trimEnd, trimEnd_append_whitespace _ hws, trim_trimEnd]
  have hparse : parsePatch (writePatch blocks ++ lineEnd) =
      parseJoined (writtenText blocks hlines).lines := by
    rw [parsePatch_eq, htrim, ← writtenText_again]
    exact (writtenText blocks hlines).parsePatch_text
  have hready : PatchText.started.Ready :=
    ⟨by decide, by decide, by simp [PatchText.started, StreamingPatchParser.nextLine,
      StreamingPatchParser.default]⟩
  obtain ⟨q, hq, hready', hread⟩ := hready.feedHunks hhunks hblocks
  rw [hparse, PatchText.parseJoined_lines]
  refine ⟨_, bind_eq_ok.mpr ⟨q, hq, bind_eq_ok.mpr ⟨(), hready'.ensure _, rfl⟩⟩, ?_⟩
  exact hread

/-- A hunk with everything an update can have. -/
def renameHunk : Hunk :=
  .updateFile "a".toList (some "b".toList)
    [⟨some "f".toList, ["x".toList, "y".toList], ["x".toList, "z".toList], [(0, 0)], true⟩]

def renameLines : List Text :=
  ["*** Update File: a".toList, "*** Move to: b".toList, "@@ f".toList, " x".toList, "-y".toList,
    "+z".toList, "*** End of File".toList]

theorem renameHunk_writtenAs : renameHunk.WrittenAs renameLines :=
  .updateFile _ _ (.cons (.mk [⟨.context, "x".toList⟩, ⟨.removed, "y".toList⟩,
    ⟨.added, "z".toList⟩] ⟨rfl, rfl, rfl⟩) .nil)

theorem renameHunk_writable : renameHunk.Writable := by
  have hx : LineText "x".toList := ⟨by decide, by decide⟩
  have hy : LineText "y".toList := ⟨by decide, by decide⟩
  have hz : LineText "z".toList := ⟨by decide, by decide⟩
  refine ⟨⟨by decide, by decide, by decide⟩, ?_, by simp, ?_⟩
  · rintro dest ⟨⟩
    exact ⟨by decide, by decide, by decide⟩
  · intro chunk hchunk
    rw [mem_singleton.mp hchunk]
    refine ⟨?_, ?_, ?_, by simp⟩
    · rintro context ⟨⟩
      exact ⟨by decide, by decide, by decide⟩
    · exact forall_mem_cons.mpr ⟨hx, forall_mem_singleton.mpr hy⟩
    · exact forall_mem_cons.mpr ⟨hx, forall_mem_singleton.mpr hz⟩

theorem renameHunk_roundTrips :
    ∃ args, parsePatch (writePatch [renameLines] ++ ['\n']) = .ok args ∧
      args.hunks = [renameHunk] :=
  parsePatch_written [renameHunk] [renameLines] ['\n']
    (forall_mem_singleton.mpr renameHunk_writable) (.cons renameHunk_writtenAs .nil) (.inr rfl)

end Patch

end CodexPlus
