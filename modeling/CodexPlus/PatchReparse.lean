/-
CodexPlus/PatchReparse.lean

Parsing the text of a parsed patch again.

`parsePatch` joins the lines of the patch with plain newlines and keeps that text.
Both `str::lines` and the streaming parser take a carriage return off each line,
so reading the kept text takes one more off: the second parse succeeds, and its
hunks are those of the first without the carriage returns that still end their
lines (`parsePatch_again`).
-/
import CodexPlus.PatchSteps
import Mathlib.Data.List.ModifyLast

namespace CodexPlus

open List Patch.StreamingPatchParser

namespace Patch

/-! ### Lines without their carriage return -/

variable {c : Char}

theorem stripCr_cons {line : Text} (h : c ≠ '\r' ∨ line ≠ []) :
    stripCr (c :: line) = c :: stripCr line := by
  unfold stripCr
  rcases line.eq_nil_or_concat with rfl | ⟨line, d, rfl⟩
  · simp_all
  · simp only [concat_eq_append, ← cons_append, getLast?_concat, dropLast_concat]
    split <;> rfl

variable (line : Text)

theorem trimEnd_stripCr : trimEnd (stripCr line) = trimEnd line := by
  unfold stripCr
  split
  · next h =>
    obtain ⟨line, rfl⟩ := getLast?_eq_some_iff.mp h
    rw [dropLast_concat, trimEnd_append_whitespace _ (by simp [isWhitespace])]
  · rfl

theorem trim_stripCr : trim (stripCr line) = trim line := by
  rw [← trim_trimEnd, trimEnd_stripCr, trim_trimEnd]

theorem mem_of_mem_stripCr {line : Text} (h : c ∈ stripCr line) : c ∈ line := by
  unfold stripCr at h
  split at h
  · exact dropLast_subset _ h
  · exact h

theorem joined_cons (lines : List Text) (last : Text) :
    ['\n'].intercalate (line :: lines ++ [last]) =
      line ++ '\n' :: ['\n'].intercalate (lines ++ [last]) := by
  rw [cons_append, intercalate_cons_of_ne_nil (by simp), append_assoc, singleton_append]

/-- A text without the carriage return before each newline. -/
def stripLineEnds : Text → Text
  | [] => []
  | c :: rest =>
    if c = '\r' ∧ rest.head? = some '\n' then stripLineEnds rest else c :: stripLineEnds rest

theorem stripLineEnds_newline_append (text rest : Text) :
    stripLineEnds (text ++ '\n' :: rest) =
      stripLineEnds (text ++ ['\n']) ++ stripLineEnds rest := by
  induction text with
  | nil => simp [stripLineEnds]
  | cons c text ih =>
    have hhead : (text ++ '\n' :: rest).head? = (text ++ ['\n']).head? := by
      cases text <;> rfl
    simp only [cons_append, stripLineEnds, hhead, ih]
    split <;> rfl

theorem stripLineEnds_line {line : Text} (hline : '\n' ∉ line) :
    stripLineEnds (line ++ ['\n']) = stripCr line ++ ['\n'] := by
  induction line with
  | nil => rfl
  | cons c line ih =>
    have hc : '\n' ∉ line := fun h => hline (mem_cons_of_mem _ h)
    rw [cons_append, stripLineEnds, ih hc]
    rcases line with - | ⟨d, line⟩
    · by_cases hr : c = '\r'
      · subst hr
        rfl
      · simp [hr, stripCr]
    · have hd : d ≠ '\n' := fun h => hc (h ▸ mem_cons_self)
      rw [stripCr_cons (.inr (cons_ne_nil d line))]
      simp [hd]

/-- The contents of an added file are lines that end in a newline. -/
def Terminated (contents : Text) : Prop := contents = [] ∨ contents.getLast? = some '\n'

theorem stripLineEnds_push {contents line : Text} (h : Terminated contents) (hline : '\n' ∉ line) :
    stripLineEnds (contents ++ line ++ ['\n']) =
      stripLineEnds contents ++ stripCr line ++ ['\n'] := by
  rcases h with rfl | h
  · simpa [stripLineEnds] using stripLineEnds_line hline
  · obtain ⟨text, rfl⟩ := getLast?_eq_some_iff.mp h
    have := stripLineEnds_newline_append text (line ++ ['\n'])
    simpa [stripLineEnds_line hline] using this

/-! ### The hunks of a second parse -/

def UpdateFileChunk.stripCr (chunk : UpdateFileChunk) : UpdateFileChunk :=
  { chunk with
    oldLines := chunk.oldLines.map Patch.stripCr
    newLines := chunk.newLines.map Patch.stripCr }

/-- The hunk without the carriage returns its lines end in. -/
def Hunk.stripCr : Hunk → Hunk
  | .addFile path contents => .addFile path (stripLineEnds contents)
  | .deleteFile path => .deleteFile path
  | .updateFile path movePath chunks => .updateFile path movePath (chunks.map (·.stripCr))

variable (chunk : UpdateFileChunk)

@[simp] theorem UpdateFileChunk.stripCr_hasNoLines :
    chunk.stripCr.hasNoLines = chunk.hasNoLines := by
  simp [stripCr, hasNoLines]

theorem UpdateFileChunk.stripCr_pushContextLine (line : Text) :
    (chunk.pushContextLine line).stripCr = chunk.stripCr.pushContextLine (Patch.stripCr line) := by
  simp [stripCr, pushContextLine]

namespace StreamingPatchParser

variable {p p' : StreamingPatchParser} {line : Text}

def stripCr (p : StreamingPatchParser) : StreamingPatchParser :=
  { p with hunks := p.hunks.map (·.stripCr) }

theorem stripCr_ensure (p : StreamingPatchParser) (line : Text) :
    p.stripCr.ensureUpdateHunkIsNotEmpty line = p.ensureUpdateHunkIsNotEmpty line := by
  unfold ensureUpdateHunkIsNotEmpty
  rw [show p.stripCr.hunks.getLast? = p.hunks.getLast?.map (·.stripCr) from getLast?_map]
  rcases p.hunks.getLast? with - | ⟨path, contents⟩ | path | ⟨path, movePath, chunks⟩
  · rfl
  · rfl
  · rfl
  · simp [Hunk.stripCr]
    rcases chunks.getLast? with - | chunk
    · rfl
    · simp [stripCr]

theorem stripCr_startHunk (p : StreamingPatchParser) (line : Text) (hunk : Hunk)
    (mode : StreamingParserMode) :
    p.stripCr.startHunk line hunk.stripCr mode = (p.startHunk line hunk mode).map (·.map stripCr) := by
  unfold startHunk
  rw [stripCr_ensure]
  rcases p.ensureUpdateHunkIsNotEmpty line with error | -
  · rfl
  · show Except.ok _ = Except.ok _
    simp [stripCr]

theorem stripCr_handleHeadersAndEnd (p : StreamingPatchParser) (trimmed : Text) :
    p.stripCr.handleHeadersAndEnd trimmed =
      (p.handleHeadersAndEnd trimmed).map (·.map stripCr) := by
  unfold handleHeadersAndEnd
  split
  · rw [stripCr_ensure]
    rcases p.ensureUpdateHunkIsNotEmpty trimmed with error | - <;> rfl
  · split
    · exact stripCr_startHunk p _ (.addFile _ []) _
    · split
      · exact stripCr_startHunk p _ (.deleteFile _) _
      · split
        · exact stripCr_startHunk p _ (.updateFile _ none []) _
        · rfl

theorem stripCr_handle (p : StreamingPatchParser) (trimmed : Text) :
    p.stripCr.handleHunkHeadersAndEndPatch trimmed =
      (p.handleHunkHeadersAndEndPatch trimmed).map (·.map stripCr) := by
  unfold handleHunkHeadersAndEndPatch
  rw [show p.stripCr.mode = p.mode from rfl]
  split
  · next environmentId _ =>
    unfold handleEnvironmentId
    rw [show p.stripCr.environmentId = p.environmentId from rfl]
    split
    · rfl
    · split <;> rfl
  · exact stripCr_handleHeadersAndEnd p trimmed

variable {f g : UpdateFileChunk → UpdateFileChunk}

section

variable (h : ∀ chunk, (f chunk).stripCr = g chunk.stripCr)
include h

theorem stripCr_modifyLast (chunks : List UpdateFileChunk) :
    (chunks.modifyLast f).map (·.stripCr) = (chunks.map (·.stripCr)).modifyLast g := by
  rcases chunks.eq_nil_or_concat with rfl | ⟨chunks, chunk, rfl⟩
  · rfl
  · simp [modifyLast_concat, h]

theorem stripCr_onLastChunk (chunks : List UpdateFileChunk) :
    (onLastChunk f chunks).map (·.stripCr) = onLastChunk g (chunks.map (·.stripCr)) := by
  unfold onLastChunk
  simp only [map_eq_nil_iff]
  split
  · rw [map_cons, h]
    rfl
  · exact stripCr_modifyLast h chunks

end

variable {chunks chunks' : List UpdateFileChunk} {lineNumber : ℕ}

theorem stripCr_changeLine (h : changeLine lineNumber line chunks = .ok chunks') :
    changeLine lineNumber (Patch.stripCr line) (chunks.map (·.stripCr)) =
      .ok (chunks'.map (·.stripCr)) := by
  unfold changeLine at h
  split at h
  · cases h
    rw [stripCr_onLastChunk (g := (·.pushContextLine [])) fun chunk =>
      chunk.stripCr_pushContextLine []]
    rfl
  · next text =>
    cases h
    rw [stripCr_onLastChunk (g := (·.pushContextLine (Patch.stripCr text))) fun chunk =>
        chunk.stripCr_pushContextLine text, stripCr_cons (.inl (by decide))]
    rfl
  · next text =>
    cases h
    rw [stripCr_onLastChunk (g := fun chunk =>
        { chunk with newLines := chunk.newLines ++ [Patch.stripCr text] })
        fun chunk => by simp [UpdateFileChunk.stripCr],
      stripCr_cons (.inl (by decide))]
    rfl
  · next text =>
    cases h
    rw [stripCr_onLastChunk (g := fun chunk =>
        { chunk with oldLines := chunk.oldLines ++ [Patch.stripCr text] })
        fun chunk => by simp [UpdateFileChunk.stripCr],
      stripCr_cons (.inl (by decide))]
    rfl
  · split at h <;> cases h

theorem stripCr_updateFileLine {movePath movePath' : Option Text}
    (h : updateFileLine lineNumber line movePath chunks = .ok (movePath', chunks')) :
    updateFileLine lineNumber (Patch.stripCr line) movePath (chunks.map (·.stripCr)) =
      .ok (movePath', chunks'.map (·.stripCr)) := by
  have heof : (chunks.map (·.stripCr)).getLast?.any (·.isEndOfFile) =
      chunks.getLast?.any (·.isEndOfFile) := by
    rw [getLast?_map]
    cases chunks.getLast? <;> rfl
  have hempty : (chunks.map (·.stripCr)).getLast?.any (·.hasNoLines) =
      chunks.getLast?.any (·.hasNoLines) := by
    rw [getLast?_map]
    cases chunks.getLast? <;> simp
  unfold updateFileLine at h ⊢
  simp only [trimEnd_stripCr, heof, hempty, map_eq_nil_iff] at h ⊢
  split at h
  · next hc =>
    cases h
    rw [if_pos hc]
  · next hc =>
    rw [if_neg hc]
    split at h
    · cases h
    · next hc =>
      rw [if_neg hc]
      split at h
      · cases h
        rfl
      split at h
      · cases h
      · next hc =>
        rw [if_neg hc]
        split at h
        · next hc =>
          cases h
          rw [if_pos hc, map_append]
          rfl
        · next hc =>
          rw [if_neg hc]
          split at h
          · cases h
            rw [map_append]
            rfl
          split at h
          · next hc =>
            rw [if_pos hc]
            split at h
            · cases h
            · next hc =>
              cases h
              rw [if_neg hc, stripCr_modifyLast (g := fun chunk =>
                { chunk with isEndOfFile := true }) fun chunk => rfl]
          · next hc =>
            rw [if_neg hc]
            obtain ⟨chunks₁, hline, hok⟩ := bind_eq_ok.mp h
            cases hok
            rw [stripCr_changeLine hline]
            rfl

/-- The files a parser adds hold whole lines, and it is between two lines. -/
structure BetweenLines (p : StreamingPatchParser) : Prop where
  lineBuffer : p.lineBuffer = []
  terminated : ∀ path contents, .addFile path contents ∈ p.hunks → Terminated contents

section

variable (h : p.BetweenLines)
include h

theorem BetweenLines.push {hunks : List Hunk} {hunk : Hunk}
    (hsub : ∀ other ∈ hunks, other ∈ p.hunks)
    (hhunk : ∀ path contents, hunk = .addFile path contents → Terminated contents)
    (mode : StreamingParserMode) :
    BetweenLines { p with hunks := hunks ++ [hunk], mode := mode } := by
  refine ⟨h.lineBuffer, fun path contents hmem => ?_⟩
  rcases mem_append.mp hmem with hmem | hmem
  · exact h.terminated path contents (hsub _ hmem)
  · exact hhunk path contents (mem_singleton.mp hmem).symm

theorem BetweenLines.processLine (hline : p.processLine line = .ok p') : p'.BetweenLines := by
  rcases processLine_step hline with
    - | - | - | ⟨-, ⟨⟩, -⟩ | ⟨hmode, rfl, hhunks⟩ | ⟨hmode, hhunks, -⟩ | -
  · exact ⟨h.lineBuffer, h.terminated⟩
  · exact ⟨h.lineBuffer, h.terminated⟩
  · exact ⟨h.lineBuffer, h.terminated⟩
  · exact h.push (fun _ => id) (by rintro _ _ ⟨⟩; exact .inl rfl) _
  · exact h.push (fun _ => id) (by rintro _ _ ⟨⟩) _
  · exact h.push (fun _ => id) (by rintro _ _ ⟨⟩) _
  · refine h.push (fun _ hmem => by simp [hhunks, hmem]) ?_ p.mode
    rintro _ _ ⟨⟩
    exact .inr (by simp)
  · exact h.push (fun _ hmem => by simp [hhunks, hmem]) (by rintro _ _ ⟨⟩) p.mode
  · exact h

/-- **One line less one carriage return.**  A line that the parser takes is taken without its
carriage return as well, and leads to the hunks without theirs. -/
theorem stripCr_processLine (hn : '\n' ∉ line) (hline : p.processLine line = .ok p') :
    p.stripCr.processLine (Patch.stripCr line) = .ok p'.stripCr := by
  have hmode : p.stripCr.mode = p.mode := rfl
  have hnumber : p.stripCr.lineNumber = p.lineNumber := rfl
  have hlast : p.stripCr.hunks.getLast? = p.hunks.getLast?.map (·.stripCr) := getLast?_map
  have hdrop : p.stripCr.hunks.dropLast = p.hunks.dropLast.map (·.stripCr) := by
    simp [stripCr, map_dropLast]
  unfold processLine at hline ⊢
  simp only [trim_stripCr, trimEnd_stripCr, hmode, hnumber, hlast, hdrop, stripCr_handle]
    at hline ⊢
  split at hline
  · split at hline
    · next htrim =>
      cases hline
      rw [if_pos htrim]
      rfl
    · cases hline
  · obtain ⟨handled, hhandle, hrest⟩ := bind_eq_ok.mp hline
    rcases handled with - | p₁
    · cases hrest
    · cases hrest
      rw [hhandle]
      rfl
  · obtain ⟨handled, hhandle, hrest⟩ := bind_eq_ok.mp hline
    rcases handled with - | p₁
    · cases hrest
    · cases hrest
      rw [hhandle]
      rfl
  · obtain ⟨handled, hhandle, hrest⟩ := bind_eq_ok.mp hline
    rw [hhandle]
    rcases handled with - | p₁
    · simp only at hrest
      split at hrest
      · next lineToAdd path contents hhunk =>
        cases hrest
        have hpush := stripLineEnds_push (h.terminated path contents (mem_of_getLast? hhunk))
          (fun hmem => hn (mem_cons_of_mem _ hmem))
        rw [stripCr_cons (.inl (by decide)), hhunk]
        simp only [stripCr, map_append, map_cons, map_nil, Hunk.stripCr, hpush]
        rfl
      · cases hrest
    · cases hrest
      rfl
  · obtain ⟨handled, hhandle, hrest⟩ := bind_eq_ok.mp hline
    rw [hhandle]
    rcases handled with - | p₁
    · simp only at hrest
      split at hrest
      · next path movePath chunks hhunk =>
        obtain ⟨⟨movePath', chunks'⟩, hupdate, hok⟩ := bind_eq_ok.mp hrest
        cases hok
        rw [hhunk]
        show (updateFileLine p.lineNumber (Patch.stripCr line) movePath
          (chunks.map (·.stripCr)) >>= _) = _
        rw [stripCr_updateFileLine hupdate]
        simp only [stripCr, map_append]
        rfl
      · cases hrest
    · cases hrest
      rfl
  · split at hline
    · next htrim =>
      cases hline
      rw [if_pos htrim]
    · cases hline

end

/-! ### Feeding lines -/

def feedLine (p : StreamingPatchParser) (line : Text) : Except ParseError StreamingPatchParser :=
  p.nextLine.processLine (Patch.stripCr line)

theorem BetweenLines.nextLine (h : p.BetweenLines) : p.nextLine.BetweenLines := ⟨rfl, h.terminated⟩

theorem BetweenLines.feedLine (h : p.BetweenLines) (hline : p.feedLine line = .ok p') :
    p'.BetweenLines :=
  h.nextLine.processLine hline

theorem betweenLines_default : default.BetweenLines := ⟨rfl, by simp [default]⟩

/-- Characters of one line only fill the buffer. -/
theorem pushDelta_line (p : StreamingPatchParser) {line : Text} (hn : '\n' ∉ line) (rest : Text) :
    p.pushDelta (line ++ rest) =
      { p with lineBuffer := p.lineBuffer ++ line }.pushDelta rest := by
  induction line generalizing p with
  | nil => simp
  | cons c line ih =>
    have hc : c ≠ '\n' := fun h => hn (h ▸ mem_cons_self)
    have hline : '\n' ∉ line := fun h => hn (mem_cons_of_mem _ h)
    have hchar : p.pushChar c = .ok { p with lineBuffer := p.lineBuffer ++ [c] } := if_neg hc
    show (p.pushChar c >>= fun q => q.pushDelta (line ++ rest)) = _
    rw [hchar]
    show pushDelta _ (line ++ rest) = _
    rw [ih _ hline]
    simp

theorem pushDelta_joined (h : p.BetweenLines) {lines : List Text} {last : Text}
    (hlines : ∀ line ∈ lines, '\n' ∉ line) (hlast : '\n' ∉ last) :
    p.pushDelta (['\n'].intercalate (lines ++ [last])) =
      (lines.foldlM feedLine p >>= fun q => .ok { q with lineBuffer := last }) := by
  induction lines generalizing p with
  | nil =>
    have hpush := pushDelta_line p hlast []
    rw [append_nil, h.lineBuffer] at hpush
    rw [nil_append, intercalate_singleton, hpush]
    rfl
  | cons line lines ih =>
    have hline := hlines line mem_cons_self
    have hrest := fun other hother => hlines other (mem_cons_of_mem line hother)
    rw [joined_cons, pushDelta_line p hline, h.lineBuffer]
    show (p.feedLine line >>= fun q => q.pushDelta _) =
      ((p.feedLine line >>= fun q => lines.foldlM feedLine q) >>= _)
    rcases hfeed : p.feedLine line with error | q
    · rfl
    · exact ih (h.feedLine hfeed) hrest

theorem stripCr_feedLines (h : p.BetweenLines) {lines : List Text}
    (hlines : ∀ line ∈ lines, '\n' ∉ line) (hfeed : lines.foldlM feedLine p = .ok p') :
    (lines.map Patch.stripCr).foldlM feedLine p.stripCr = .ok p'.stripCr := by
  induction lines generalizing p with
  | nil =>
    cases hfeed
    rfl
  | cons line _ ih =>
    obtain ⟨q, hline, hrest⟩ := bind_eq_ok.mp hfeed
    have hn : '\n' ∉ Patch.stripCr line := fun hmem =>
      hlines line mem_cons_self (mem_of_mem_stripCr hmem)
    have hstrip : p.stripCr.feedLine (Patch.stripCr line) = .ok q.stripCr :=
      stripCr_processLine h.nextLine hn hline
    refine bind_eq_ok.mpr ⟨q.stripCr, hstrip, ?_⟩
    exact ih (h.feedLine hline) (fun other hother => hlines other (mem_cons_of_mem _ hother))
      hrest

end StreamingPatchParser

/-! ### Parsing again -/

/-- What `parsePatch` does with the lines of the patch. -/
def parseJoined (patchLines : List Text) : Except ParseError ApplyPatchArgs := do
  let patch := ['\n'].intercalate patchLines
  let parser ← StreamingPatchParser.default.pushDelta patch
  let parser ← parser.finish
  .ok ⟨patch, parser.hunks, none, parser.environmentId⟩

theorem parsePatch_eq (patch : Text) :
    parsePatch patch =
      (checkPatchBoundariesLenient (textLines [] (trim patch)) >>= parseJoined) := rfl

theorem finish_endPatch (q : StreamingPatchParser) {last : Text}
    (hlast : trim last = endPatchMarker) :
    { q with lineBuffer := last }.finish =
      (q.nextLine.ensureUpdateHunkIsNotEmpty endPatchMarker >>= fun _ =>
        .ok { q.nextLine with mode := .endedPatch }) := by
  have hne : last ≠ [] := by
    rintro rfl
    exact absurd hlast (by decide)
  unfold finish takeLastLine
  simp only [if_neg hne, hlast, if_true]
  rw [show ({ q with lineBuffer := last } : StreamingPatchParser).nextLine = q.nextLine from rfl]
  rcases q.nextLine.ensureUpdateHunkIsNotEmpty endPatchMarker with error | - <;> rfl

/-- The parse of a patch is the parse of its lines up to the end marker. -/
theorem parseJoined_eq {lines : List Text} {last : Text} (hlines : ∀ line ∈ lines, '\n' ∉ line)
    (hn : '\n' ∉ last) (hlast : trim last = endPatchMarker) :
    parseJoined (lines ++ [last]) =
      (lines.foldlM feedLine .default >>= fun q =>
        q.nextLine.ensureUpdateHunkIsNotEmpty endPatchMarker >>= fun _ =>
          .ok ⟨['\n'].intercalate (lines ++ [last]), q.hunks, none, q.environmentId⟩) := by
  show (StreamingPatchParser.default.pushDelta (['\n'].intercalate (lines ++ [last])) >>= _) = _
  rw [pushDelta_joined betweenLines_default hlines hn]
  rcases lines.foldlM feedLine .default with error | q
  · rfl
  · show ({ q with lineBuffer := last }.finish >>= _) = _
    rw [finish_endPatch q hlast]
    show _ = (q.nextLine.ensureUpdateHunkIsNotEmpty endPatchMarker >>= _)
    rcases q.nextLine.ensureUpdateHunkIsNotEmpty endPatchMarker with error | - <;> rfl

theorem checkStartAndEndLinesStrict_ok_iff {firstLine lastLine : Option Text} :
    checkStartAndEndLinesStrict firstLine lastLine = .ok () ↔
      ∃ first last, firstLine = some first ∧ lastLine = some last ∧
        trim first = beginPatchMarker ∧ trim last = endPatchMarker := by
  unfold checkStartAndEndLinesStrict
  rcases firstLine with - | first
  · simp
  rcases lastLine with - | last
  · simp
    split <;> simp
  · simp
    split
    · next hbegin => split <;> simp_all
    · next hbegin => simp_all

theorem checkPatchBoundariesStrict_ok {lines patchLines : List Text}
    (h : checkPatchBoundariesStrict lines = .ok patchLines) :
    ∃ first mid last, lines = first :: (mid ++ [last]) ∧ patchLines = lines ∧
      trim first = beginPatchMarker ∧ trim last = endPatchMarker := by
  obtain ⟨⟨⟩, hcheck, hok⟩ := bind_eq_ok.mp h
  obtain ⟨first, last, hhead, hlast, hbegin, hend⟩ := checkStartAndEndLinesStrict_ok_iff.mp hcheck
  cases hok
  obtain ⟨rest, rfl⟩ := head?_eq_some_iff.mp hhead
  rcases rest.eq_nil_or_concat with rfl | ⟨mid, last', rfl⟩
  · -- one line cannot be both markers
    cases hlast
    exact absurd (hbegin.symm.trans hend) (by decide)
  · rw [concat_eq_append, ← cons_append, getLast?_concat] at hlast
    cases hlast
    exact ⟨first, mid, last, by simp, rfl, hbegin, hend⟩

theorem checkPatchBoundariesLenient_ok {lines patchLines : List Text}
    (h : checkPatchBoundariesLenient lines = .ok patchLines) :
    ∃ first mid last, patchLines = first :: (mid ++ [last]) ∧ patchLines ⊆ lines ∧
      trim first = beginPatchMarker ∧ trim last = endPatchMarker := by
  unfold checkPatchBoundariesLenient at h
  split at h
  · next hstrict =>
    cases h
    obtain ⟨first, mid, last, hlines, rfl, hbegin, hend⟩ := checkPatchBoundariesStrict_ok hstrict
    exact ⟨first, mid, last, hlines, List.Subset.refl _, hbegin, hend⟩
  · split at h
    · split at h
      · obtain ⟨first, mid, last, hlines, rfl, hbegin, hend⟩ := checkPatchBoundariesStrict_ok h
        refine ⟨first, mid, last, hlines, ?_, hbegin, hend⟩
        exact fun line hline => mem_of_mem_tail (dropLast_subset _ hline)
      · cases h
    · cases h

theorem checkPatchBoundaries_of_markers {first last : Text} (mid : List Text)
    (hfirst : trim first = beginPatchMarker) (hlast : trim last = endPatchMarker) :
    checkPatchBoundariesLenient (first :: (mid ++ [last])) = .ok (first :: (mid ++ [last])) := by
  have hstrict : checkPatchBoundariesStrict (first :: (mid ++ [last])) =
      .ok (first :: (mid ++ [last])) := by
    refine bind_eq_ok.mpr ⟨(), checkStartAndEndLinesStrict_ok_iff.mpr ?_, rfl⟩
    exact ⟨first, last, rfl, by rw [← cons_append, getLast?_concat], hfirst, hlast⟩
  rw [checkPatchBoundariesLenient, hstrict]

theorem newline_notMem_textLines {line text : Text} (hline : '\n' ∉ line) :
    ∀ other ∈ textLines line text, '\n' ∉ other := by
  induction text generalizing line with
  | nil =>
    intro other hother
    unfold textLines at hother
    split at hother
    · cases hother
    · rwa [mem_singleton.mp hother]
  | cons _ _ ih =>
    intro other hother
    unfold textLines at hother
    split at hother
    · rcases mem_cons.mp hother with rfl | hother
      · exact fun hmem => hline (mem_of_mem_stripCr hmem)
      · exact ih (by simp) other hother
    · next hc => exact ih (by simp [hline, Ne.symm hc]) other hother

theorem textLines_line {line : Text} (hline : '\n' ∉ line) (before rest : Text) :
    textLines before (line ++ rest) = textLines (before ++ line) rest := by
  induction line generalizing before with
  | nil => rw [append_nil, nil_append]
  | cons c _ ih =>
    have hc : c ≠ '\n' := fun h => hline (h ▸ mem_cons_self)
    rw [cons_append, textLines, if_neg hc,
      ih (fun h => hline (mem_cons_of_mem _ h)), append_assoc, singleton_append]

/-- `str::lines` of joined lines takes a carriage return off each but the last. -/
theorem textLines_joined {lines : List Text} {last : Text} (hlines : ∀ line ∈ lines, '\n' ∉ line)
    (hlast : '\n' ∉ last) (hne : last ≠ []) :
    textLines [] (['\n'].intercalate (lines ++ [last])) = lines.map stripCr ++ [last] := by
  induction lines with
  | nil =>
    have hline := textLines_line hlast [] []
    rw [append_nil] at hline
    rw [nil_append, intercalate_singleton, hline]
    exact if_neg hne
  | cons line _ ih =>
    rw [cons_append, intercalate_cons_of_ne_nil (by simp), append_assoc,
      textLines_line (hlines line mem_cons_self), singleton_append,
      textLines, ih fun other hother => hlines other (mem_cons_of_mem _ hother)]
    rfl

theorem trimEnd_joined (lines : List Text) {last : Text} (hlast : trimEnd last ≠ []) :
    trimEnd (['\n'].intercalate (lines ++ [last])) =
      ['\n'].intercalate (lines ++ [trimEnd last]) := by
  induction lines with
  | nil => rw [nil_append, nil_append, intercalate_singleton, intercalate_singleton]
  | cons line lines ih =>
    have hne : trimEnd (['\n'].intercalate (lines ++ [last])) ≠ [] := by
      rw [ih]
      rcases lines with - | ⟨line, lines⟩
      · rwa [nil_append, intercalate_singleton]
      · rw [joined_cons]
        simp
    rw [joined_cons, joined_cons, append_cons, trimEnd_append hne, ih, append_assoc,
      singleton_append]

/-- Trimming the joined lines of a patch only trims its first and last line. -/
theorem trim_joined {first last : Text} (mid : List Text) (hfirst : trimStart first ≠ [])
    (hlast : trimEnd last ≠ []) :
    trim (['\n'].intercalate (first :: mid ++ [last])) =
      ['\n'].intercalate (trimStart first :: mid ++ [trimEnd last]) := by
  rw [trim, joined_cons, trimStart_append hfirst, ← joined_cons, trimEnd_joined _ hlast]

theorem mem_of_mem_trimStart {cs : Text} (h : c ∈ trimStart cs) : c ∈ cs :=
  (dropWhile_suffix isWhitespace).subset h

theorem mem_of_mem_trimEnd {cs : Text} (h : c ∈ trimEnd cs) : c ∈ cs :=
  ( rdropWhile_prefix isWhitespace cs).subset h

/-- A first line with the begin marker starts the patch, whatever surrounds the marker. -/
theorem feedLine_beginPatch {first : Text} (hfirst : trim first = beginPatchMarker) :
    StreamingPatchParser.default.feedLine first =
      .ok { StreamingPatchParser.default.nextLine with mode := .startedPatch } := by
  show processLine _ _ = _
  unfold processLine
  rw [trim_stripCr, hfirst]
  rfl

/-! ### Patches by their lines -/

/-- The lines of a patch, between its markers. -/
structure PatchText where
  first : Text
  mid : List Text
  last : Text
  begins : trim first = beginPatchMarker
  ends : trim last = endPatchMarker
  plain : ∀ line ∈ first :: (mid ++ [last]), '\n' ∉ line

namespace PatchText

variable (t : PatchText)

def lines : List Text := t.first :: (t.mid ++ [t.last])

def text : Text := ['\n'].intercalate t.lines

theorem first_ne_nil : trimStart t.first ≠ [] := by
  intro hnil
  have hbegins := t.begins
  rw [← trim_trimStart, hnil] at hbegins
  exact absurd hbegins (by decide)

theorem last_ne_nil : trimEnd t.last ≠ [] := by
  intro hnil
  have hends := t.ends
  rw [← trim_trimEnd, hnil] at hends
  exact absurd hends (by decide)

theorem plain_mid : ∀ line ∈ t.mid, '\n' ∉ line := fun line hline => t.plain line (by simp [hline])

/-- The lines of the text, read again. -/
def again : PatchText where
  first := stripCr (trimStart t.first)
  mid := t.mid.map stripCr
  last := trimEnd t.last
  begins := by rw [trim_stripCr, trim_trimStart, t.begins]
  ends := by rw [trim_trimEnd, t.ends]
  plain := by
    intro line hline
    rcases mem_cons.mp hline with rfl | hline
    · exact fun hmem => t.plain t.first (by simp) (mem_of_mem_trimStart (mem_of_mem_stripCr hmem))
    rcases mem_append.mp hline with hline | hline
    · obtain ⟨other, hother, rfl⟩ := mem_map.mp hline
      exact fun hmem => t.plain_mid other hother (mem_of_mem_stripCr hmem)
    · rw [mem_singleton.mp hline]
      exact fun hmem => t.plain t.last (by simp) (mem_of_mem_trimEnd hmem)

theorem textLines_text : textLines [] (trim t.text) = t.again.lines := by
  have hjoin : t.text = ['\n'].intercalate (t.first :: t.mid ++ [t.last]) := rfl
  rw [hjoin, trim_joined t.mid t.first_ne_nil t.last_ne_nil, textLines_joined ?_ ?_ t.last_ne_nil]
  · rfl
  · intro line hline
    rcases mem_cons.mp hline with rfl | hline
    · exact fun hmem => t.plain t.first (by simp) (mem_of_mem_trimStart hmem)
    · exact t.plain_mid line hline
  · exact fun hmem => t.plain t.last (by simp) (mem_of_mem_trimEnd hmem)

theorem parsePatch_text : parsePatch t.text = parseJoined t.again.lines := by
  rw [parsePatch_eq, textLines_text]
  exact congrArg (· >>= parseJoined)
    (checkPatchBoundaries_of_markers t.again.mid t.again.begins t.again.ends)

/-- The parser once it has read the first line. -/
def started : StreamingPatchParser :=
  { StreamingPatchParser.default.nextLine with mode := .startedPatch }

theorem betweenLines_started : started.BetweenLines :=
  ⟨rfl, by simp [started, StreamingPatchParser.default, nextLine]⟩

/-- The parse of a patch is the parse of the lines between its markers. -/
theorem parseJoined_lines :
    parseJoined t.lines =
      (t.mid.foldlM feedLine started >>= fun q =>
        q.nextLine.ensureUpdateHunkIsNotEmpty endPatchMarker >>= fun _ =>
          .ok ⟨t.text, q.hunks, none, q.environmentId⟩) := by
  show parseJoined (t.first :: t.mid ++ [t.last]) = _
  rw [parseJoined_eq ?_ (t.plain t.last (by simp)) t.ends, foldlM_cons,
    feedLine_beginPatch t.begins]
  · rfl
  · exact fun line hline => t.plain line (by
      exact mem_append_left _ hline)

theorem parseJoined_again {args : ApplyPatchArgs} (h : parseJoined t.lines = .ok args) :
    parseJoined t.again.lines =
      .ok ⟨t.again.text, args.hunks.map Hunk.stripCr, none, args.environmentId⟩ := by
  rw [parseJoined_lines] at h ⊢
  obtain ⟨q, hfeed, hrest⟩ := bind_eq_ok.mp h
  obtain ⟨⟨⟩, hensure, hok⟩ := bind_eq_ok.mp hrest
  cases hok
  have hfeed' := stripCr_feedLines betweenLines_started t.plain_mid hfeed
  refine bind_eq_ok.mpr ⟨q.stripCr, hfeed', bind_eq_ok.mpr ⟨(), ?_, rfl⟩⟩
  rw [show q.stripCr.nextLine = q.nextLine.stripCr from rfl, stripCr_ensure, hensure]

/-- A text determines its lines. -/
theorem lines_inj {t t' : PatchText} (h : t.text = t'.text) : t.lines = t'.lines := by
  have hsplit (t : PatchText) : t.text.splitOn '\n' = t.lines :=
    splitOn_intercalate '\n' t.plain (cons_ne_nil _ _)
  rw [← hsplit t, h, hsplit t']

end PatchText

theorem parsePatch_ok {patch : Text} {args : ApplyPatchArgs} (h : parsePatch patch = .ok args) :
    ∃ t : PatchText, checkPatchBoundariesLenient (textLines [] (trim patch)) = .ok t.lines ∧
      parseJoined t.lines = .ok args ∧ args.patch = t.text := by
  obtain ⟨patchLines, hcheck, hparse⟩ := bind_eq_ok.mp h
  obtain ⟨first, mid, last, rfl, hsub, hfirst, hlast⟩ := checkPatchBoundariesLenient_ok hcheck
  have hplain : ∀ line ∈ first :: (mid ++ [last]), '\n' ∉ line := fun line hline =>
    newline_notMem_textLines (by simp) line (hsub hline)
  refine ⟨⟨first, mid, last, hfirst, hlast, hplain⟩, hcheck, hparse, ?_⟩
  obtain ⟨q, -, hrest⟩ := bind_eq_ok.mp hparse
  obtain ⟨q', -, hok⟩ := bind_eq_ok.mp hrest
  cases hok
  rfl

/-- **The text of a parsed patch parses again**, to the same hunks up to the carriage returns their
lines still end in. -/
theorem parsePatch_again {patch : Text} {args : ApplyPatchArgs} (h : parsePatch patch = .ok args) :
    ∃ again, parsePatch args.patch =
      .ok ⟨again, args.hunks.map Hunk.stripCr, none, args.environmentId⟩ := by
  obtain ⟨t, -, hparse, htext⟩ := parsePatch_ok h
  rw [htext, t.parsePatch_text, t.parseJoined_again hparse]
  exact ⟨_, rfl⟩

/-- No line of the patch ends in a carriage return once `str::lines` has taken one off, and the
markers stand at the outer ends of their lines. Only a patch in a heredoc can fail the second part,
the rest being trimmed. -/
def KeepsLines (patch : Text) : Prop :=
  ∀ lines, checkPatchBoundariesLenient (textLines [] (trim patch)) = .ok lines →
    (∀ line ∈ lines, line.getLast? ≠ some '\r') ∧
      (∀ first ∈ lines.head?, trimStart first = first) ∧
      ∀ last ∈ lines.getLast?, trimEnd last = last

theorem stripCr_eq_self_iff {line : Text} : stripCr line = line ↔ line.getLast? ≠ some '\r' := by
  unfold stripCr
  split
  · next h =>
    obtain ⟨line, rfl⟩ := getLast?_eq_some_iff.mp h
    simp
  · next h => simp [h]

theorem getLast?_ne_of_trimEnd {line : Text} (hc : isWhitespace c)
    (h : trimEnd line = line) : line.getLast? ≠ some c := by
  intro hlast
  obtain ⟨init, rfl⟩ := getLast?_eq_some_iff.mp hlast
  rw [trimEnd_append_whitespace _ (by simp [hc])] at h
  have hle : (trimEnd init).length ≤ init.length :=
    ( rdropWhile_prefix isWhitespace init).length_le
  rw [h, length_append, length_singleton] at hle
  omega

theorem length_stripCr_le : (stripCr line).length ≤ line.length := by
  unfold stripCr
  split
  · simp
  · exact le_rfl

theorem stripCr_trimStart_eq_self_iff {line : Text} :
    stripCr (trimStart line) = line ↔ line.getLast? ≠ some '\r' ∧ trimStart line = line := by
  constructor
  · intro h
    have hsuffix : trimStart line <:+ line := dropWhile_suffix isWhitespace
    have hlength : (trimStart line).length = line.length :=
      le_antisymm hsuffix.length_le (by
        have hle := length_stripCr_le (trimStart line)
        rwa [h] at hle)
    have heq := hsuffix.eq_of_length hlength
    exact ⟨stripCr_eq_self_iff.mp (by rwa [heq] at h), heq⟩
  · rintro ⟨hcr, heq⟩
    rw [heq, stripCr_eq_self_iff.mpr hcr]

namespace PatchText

/-- Reading the lines again keeps them exactly when none ends in a carriage return and the markers
are not surrounded. -/
theorem again_lines_eq_iff (t : PatchText) :
    t.again.lines = t.lines ↔
      (∀ line ∈ t.lines, line.getLast? ≠ some '\r') ∧ trimStart t.first = t.first ∧
        trimEnd t.last = t.last := by
  have hlines : t.again.lines = t.lines ↔ stripCr (trimStart t.first) = t.first ∧
      t.mid.map stripCr = t.mid ∧ trimEnd t.last = t.last := by
    show stripCr (trimStart t.first) :: (t.mid.map stripCr ++ [trimEnd t.last]) =
      t.first :: (t.mid ++ [t.last]) ↔ _
    rw [List.cons.injEq, append_singleton_inj]
  have hmid : t.mid.map stripCr = t.mid ↔ ∀ line ∈ t.mid, line.getLast? ≠ some '\r' := by
    have hid : t.mid.map stripCr = t.mid.map id ↔ ∀ line ∈ t.mid, stripCr line = id line :=
      map_inj_left
    rw [map_id] at hid
    simpa only [id, stripCr_eq_self_iff] using hid
  have hall : (∀ line ∈ t.lines, line.getLast? ≠ some '\r') ↔ t.first.getLast? ≠ some '\r' ∧
      (∀ line ∈ t.mid, line.getLast? ≠ some '\r') ∧ t.last.getLast? ≠ some '\r' := by
    rw [lines, forall_mem_cons, forall_mem_append, forall_mem_singleton]
  rw [hlines, stripCr_trimStart_eq_self_iff, hmid, hall]
  constructor
  · rintro ⟨⟨hfirst, hstart⟩, hmid, hend⟩
    exact ⟨⟨hfirst, hmid, getLast?_ne_of_trimEnd (by decide) hend⟩, hstart, hend⟩
  · rintro ⟨⟨hfirst, hmid, -⟩, hstart, hend⟩
    exact ⟨⟨hfirst, hstart⟩, hmid, hend⟩

end PatchText

/-- **Parsing the text of a parsed patch again is stable exactly when its lines are kept.** -/
theorem reparse_stable_iff (patch : Text) (args : ApplyPatchArgs)
    (h : parsePatch patch = .ok args) :
    (∃ again, parsePatch args.patch = .ok again ∧ again.hunks = args.hunks ∧
        again.environmentId = args.environmentId ∧ again.patch = args.patch) ↔
      KeepsLines patch := by
  obtain ⟨t, hcheck, hparse, htext⟩ := parsePatch_ok h
  have hlast : t.lines.getLast? = some t.last := by
    rw [PatchText.lines, ← cons_append, getLast?_concat]
  have hkeeps : KeepsLines patch ↔ t.again.lines = t.lines := by
    rw [t.again_lines_eq_iff]
    unfold KeepsLines
    simp only [hcheck, Except.ok.injEq, forall_eq', hlast, Option.mem_some_iff]
    rw [show t.lines.head? = some t.first from rfl]
    simp
  have hagain := t.parseJoined_again hparse
  rw [hkeeps, htext, t.parsePatch_text]
  constructor
  · rintro ⟨again, hok, -, -, hpatch⟩
    cases hagain.symm.trans hok
    exact PatchText.lines_inj hpatch
  · intro hlines
    rw [hlines]
    exact ⟨args, hparse, rfl, rfl, htext⟩

def plainPatch : Text := "*** Begin Patch\n*** Add File: a\n+x\r\n*** End Patch\n".toList

def carriageReturnPatch : Text :=
  "*** Begin Patch\n*** Add File: a\n+x\r\r\r\n*** End Patch\n".toList

theorem plainPatch_reparse_stable :
    ∃ args, parsePatch plainPatch = .ok args ∧
      ∃ again, parsePatch args.patch = .ok again ∧ again.hunks = args.hunks ∧
        again.environmentId = args.environmentId ∧ again.patch = args.patch := by
  refine ⟨_, rfl, (reparse_stable_iff plainPatch _ rfl).mpr ?_⟩
  rintro lines ⟨⟩
  decide

/-- Three carriage returns end the line: `str::lines` takes one, the parser a second, and parsing the
text again the third. -/
theorem carriage_returns_are_lost_again :
    ∃ args again, parsePatch carriageReturnPatch = .ok args ∧ parsePatch args.patch = .ok again ∧
      args.hunks = [.addFile "a".toList "x\r\n".toList] ∧
      again.hunks = [.addFile "a".toList "x\n".toList] :=
  ⟨_, _, rfl, rfl, by decide, by decide⟩

end Patch

end CodexPlus
