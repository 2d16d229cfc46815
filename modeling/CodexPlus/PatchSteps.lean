/-
CodexPlus/PatchSteps.lean

What one line does to the patch parser, said once.

`LineStep p line p'` lists the ways in which a line can take the parser from `p`
to `p'`; `processLine_step` shows that there are no others.  The invariants of
the parser are read off these cases.
-/
import CodexPlus.PatchParser

namespace CodexPlus

open List

namespace Patch

theorem afterMarker_eq_none_iff {marker line : Text} :
    afterMarker marker line = none ↔ marker.isPrefixOf line = false := by
  unfold afterMarker
  rcases marker.isPrefixOf line <;> simp

/-- A line of an update hunk goes to both sides, to the new or to the old one. -/
inductive ChangeKind where
  | context
  | added
  | removed
  deriving DecidableEq, Repr

/-- The last chunk with one more line. -/
def ChangeKind.push (kind : ChangeKind) (text : Text) (chunk : UpdateFileChunk) : UpdateFileChunk :=
  match kind with
  | .context => chunk.pushContextLine text
  | .added => { chunk with newLines := chunk.newLines ++ [text] }
  | .removed => { chunk with oldLines := chunk.oldLines ++ [text] }

/-- The text of a line of an update hunk; an empty line is an empty context line. -/
inductive IsChangeLine : Text → ChangeKind → Text → Prop
  | empty : IsChangeLine [] .context []
  | context (text : Text) : IsChangeLine (' ' :: text) .context text
  | added (text : Text) : IsChangeLine ('+' :: text) .added text
  | removed (text : Text) : IsChangeLine ('-' :: text) .removed text

namespace StreamingPatchParser

/-- What a line of an update hunk does to its move path and chunks. -/
inductive UpdateStep (line : Text) :
    Option Text → List UpdateFileChunk → Option Text → List UpdateFileChunk → Prop
  | afterEof {movePath chunks} (hline : trimEnd line = [])
      (heof : chunks.getLast?.any (·.isEndOfFile) = true) :
      UpdateStep line movePath chunks movePath chunks
  | move (dest : Text) (hline : line.head? = some '*') : UpdateStep line none [] (some dest) []
  | openChunk {movePath chunks} (changeContext : Option Text) (hline : line.head? = some '@') :
      UpdateStep line movePath chunks movePath
        (chunks ++ [{ UpdateFileChunk.default with changeContext }])
  | endOfFile {movePath chunks} (hline : line.head? = some '*') :
      UpdateStep line movePath chunks movePath
        (chunks.modifyLast fun chunk => { chunk with isEndOfFile := true })
  | change {movePath chunks kind text} (hline : IsChangeLine line kind text)
      (heof : chunks.getLast?.any (·.isEndOfFile) = false) :
      UpdateStep line movePath chunks movePath (onLastChunk (kind.push text) chunks)

/-- The text that a line adds to the last hunk. -/
def payload (p : StreamingPatchParser) (line : Text) : Option Text :=
  match p.mode, p.hunks.getLast?, line with
  | .addFile, _, '+' :: text => some text
  | .updateFile _, some (.updateFile _ _ chunks), c :: text =>
    if c ∈ [' ', '+', '-'] ∧ chunks.getLast?.any (·.isEndOfFile) = false then some text else none
  | _, _, _ => none

/-- What is compared with the markers: inside an update hunk a leading space counts. -/
def trimmed (p : StreamingPatchParser) (line : Text) : Text :=
  match p.mode with
  | .updateFile _ => trimEnd line
  | _ => trim line

/-- A header with the mode it starts. -/
inductive IsHeader (p : StreamingPatchParser) : Hunk → StreamingParserMode → Prop
  | addFile (path : Text) : IsHeader p (.addFile path []) .addFile
  | deleteFile (path : Text) : IsHeader p (.deleteFile path) .deleteFile
  | updateFile (path : Text) : IsHeader p (.updateFile path none []) (.updateFile p.lineNumber)

inductive LineStep (p : StreamingPatchParser) (line : Text) : StreamingPatchParser → Prop
  | beginPatch (hmode : p.mode = .notStarted) : LineStep p line { p with mode := .startedPatch }
  | environment (hmode : p.mode = .startedPatch) (environmentId : Text) :
      LineStep p line { p with environmentId := some environmentId }
  | endPatch (hmode : p.mode ≠ .notStarted) (hline : p.trimmed line = endPatchMarker) :
      LineStep p line { p with mode := .endedPatch }
  | header {hunk mode} (hmode : p.mode ≠ .endedPatch) (hheader : IsHeader p hunk mode)
      (hline : (p.trimmed line).head? = some '*') :
      LineStep p line { p with hunks := p.hunks ++ [hunk], mode := mode }
  | addLine {init path contents text} (hmode : p.mode = .addFile) (hline : line = '+' :: text)
      (hhunks : p.hunks = init ++ [.addFile path contents]) :
      LineStep p line { p with hunks := init ++ [.addFile path (contents ++ text ++ ['\n'])] }
  | updateLine {number init path movePath chunks movePath' chunks'}
      (hmode : p.mode = .updateFile number)
      (hhunks : p.hunks = init ++ [.updateFile path movePath chunks])
      (hupdate : UpdateStep line movePath chunks movePath' chunks') :
      LineStep p line { p with hunks := init ++ [.updateFile path movePath' chunks'] }
  | blank (hmode : p.mode = .endedPatch) (hline : trim line = []) : LineStep p line p

variable {p p' : StreamingPatchParser} {line : Text}

theorem head?_of_afterMarker {marker rest : Text} {c : Char}
    (h : afterMarker marker line = some rest) (hc : marker.head? = some c) :
    line.head? = some c := by
  unfold afterMarker at h
  split at h
  · next hmarker =>
    obtain ⟨tail, rfl⟩ := isPrefixOf_iff_prefix.mp hmarker
    rw [head?_append, hc]
    rfl
  · cases h

theorem head?_of_trimEnd {c : Char} (h : (trimEnd line).head? = some c) : line.head? = some c := by
  obtain ⟨tail, htail⟩ := rdropWhile_prefix isWhitespace line
  rw [← htail, head?_append]
  unfold trimEnd at h
  rw [h]
  rfl

theorem payload_eq_none_of_head? {c : Char} (hmode : p.mode ≠ .addFile) (h : line.head? = some c)
    (hc : c ∉ [' ', '+', '-']) : p.payload line = none := by
  unfold payload
  split
  · next hadd => exact absurd hadd hmode
  · cases h
    rw [if_neg (fun hand => hc hand.1)]
  · rfl

/-- A line with a payload is not a marker. -/
theorem payload_eq_none (h : (p.trimmed line).head? = some '*') : p.payload line = none := by
  by_cases hmode : p.mode = .addFile
  · unfold trimmed payload at *
    rw [hmode] at h ⊢
    split
    · next text _ =>
      have hhead := head?_of_trimEnd h
      cases hhead
    · next hupdate _ => cases hupdate
    · rfl
  · unfold trimmed at h
    split at h
    · exact payload_eq_none_of_head? hmode (head?_of_trimEnd h) (by decide)
    · next hother =>
      unfold payload
      split
      · next hadd => exact absurd hadd hmode
      · next hupdate _ => exact absurd hupdate (hother _)
      · rfl

variable {chunks chunks' : List UpdateFileChunk} {lineNumber : ℕ}

theorem changeLine_step (h : changeLine lineNumber line chunks = .ok chunks') :
    ∃ kind text, IsChangeLine line kind text ∧ chunks' = onLastChunk (kind.push text) chunks := by
  unfold changeLine at h
  split at h
  · cases h
    exact ⟨_, _, .empty, rfl⟩
  · cases h
    exact ⟨_, _, .context _, rfl⟩
  · cases h
    exact ⟨_, _, .added _, rfl⟩
  · cases h
    exact ⟨_, _, .removed _, rfl⟩
  · split at h <;> cases h

theorem updateFileLine_step {movePath movePath' : Option Text}
    (h : updateFileLine lineNumber line movePath chunks = .ok (movePath', chunks')) :
    UpdateStep line movePath chunks movePath' chunks' := by
  unfold updateFileLine at h
  simp only at h
  split at h
  · next hblank =>
    cases h
    exact .afterEof hblank.2 hblank.1
  · next hblank =>
    split at h
    · cases h
    · next hmarker =>
      split at h
      · next dest hdest =>
        cases h
        split at hdest
        · next hempty =>
          obtain ⟨rfl, rfl⟩ := hempty
          exact .move dest (head?_of_trimEnd (head?_of_afterMarker hdest rfl))
        · cases hdest
      · split at h
        · cases h
        · split at h
          · next hempty =>
            cases h
            exact .openChunk none (head?_of_trimEnd (by rw [hempty]; rfl))
          · next hnotEmpty =>
            split at h
            · next hcontext =>
              cases h
              exact .openChunk (some _) (head?_of_trimEnd (head?_of_afterMarker hcontext rfl))
            · next hnotContext =>
              split at h
              · next heof =>
                split at h
                · cases h
                · cases h
                  exact .endOfFile (head?_of_trimEnd (by rw [heof]; rfl))
              · obtain ⟨chunks₁, hchange, hok⟩ := bind_eq_ok.mp h
                cases hok
                obtain ⟨kind, text, hline, rfl⟩ := changeLine_step hchange
                refine .change hline ?_
                -- after the end of the file only a context marker is taken
                by_contra heof
                refine hmarker ⟨by simpa using heof, ?_⟩
                simp [startsChunk, hnotEmpty, afterMarker_eq_none_iff.mp hnotContext]

theorem startHunk_step {hunk : Hunk} {mode : StreamingParserMode}
    (h : p.startHunk line hunk mode = .ok (some p')) :
    p' = { p with hunks := p.hunks ++ [hunk], mode := mode } := by
  obtain ⟨-, -, hok⟩ := bind_eq_ok.mp h
  cases hok
  rfl

theorem handle_step (hstarted : p.mode ≠ .notStarted) (hended : p.mode ≠ .endedPatch)
    (h : p.handleHunkHeadersAndEndPatch (p.trimmed line) = .ok (some p')) : LineStep p line p' := by
  unfold handleHunkHeadersAndEndPatch at h
  split at h
  · next environmentId hmarker =>
    have hmode : p.mode = .startedPatch := by
      by_contra hmode
      rw [if_neg hmode] at hmarker
      cases hmarker
    unfold handleEnvironmentId at h
    split at h
    · cases h
    · split at h
      · cases h
      · cases h
        exact .environment hmode _
  · unfold handleHeadersAndEnd at h
    split at h
    · next hend =>
      obtain ⟨-, -, hok⟩ := bind_eq_ok.mp h
      cases hok
      exact .endPatch hstarted hend
    · split at h
      · next hmarker =>
        rw [startHunk_step h]
        exact .header hended (.addFile _) (head?_of_afterMarker hmarker rfl)
      · split at h
        · next hmarker =>
          rw [startHunk_step h]
          exact .header hended (.deleteFile _) (head?_of_afterMarker hmarker rfl)
        · split at h
          · next hmarker =>
            rw [startHunk_step h]
            exact .header hended (.updateFile _) (head?_of_afterMarker hmarker rfl)
          · cases h

/-- Within a patch a line that is no marker is left to the hunk at hand. -/
theorem processLine_eq (line : Text) (hstarted : p.mode ≠ .notStarted)
    (hended : p.mode ≠ .endedPatch) :
    ∃ body, (∀ p', body = .ok p' → LineStep p line p') ∧
      p.processLine line = (p.handleHunkHeadersAndEndPatch (p.trimmed line) >>= fun
        | some p' => .ok p'
        | none => body) := by
  unfold processLine trimmed
  rcases hmode : p.mode with - | - | - | - | number | -
  · exact absurd hmode hstarted
  · exact ⟨_, fun _ hbody => (by cases hbody), rfl⟩
  · refine ⟨_, fun p' hbody => ?_, rfl⟩
    split at hbody
    · next lineToAdd path contents hlast =>
      cases hbody
      obtain ⟨init, hinit⟩ := getLast?_eq_some_iff.mp hlast
      rw [hinit, dropLast_concat, ← hmode]
      exact .addLine hmode rfl hinit
    · cases hbody
  · exact ⟨_, fun _ hbody => (by cases hbody), rfl⟩
  · refine ⟨_, fun p' hbody => ?_, rfl⟩
    split at hbody
    · next path movePath chunks hlast =>
      obtain ⟨⟨movePath', chunks'⟩, hupdate, hok⟩ := bind_eq_ok.mp hbody
      cases hok
      obtain ⟨init, hinit⟩ := getLast?_eq_some_iff.mp hlast
      rw [hinit, dropLast_concat, ← hmode]
      exact .updateLine hmode hinit (updateFileLine_step hupdate)
    · cases hbody
  · exact absurd hmode hended

/-- **The ways a line can be taken.** -/
theorem processLine_step (h : p.processLine line = .ok p') : LineStep p line p' := by
  by_cases hstarted : p.mode = .notStarted
  · unfold processLine at h
    simp only [hstarted] at h
    split at h
    · cases h
      exact .beginPatch hstarted
    · cases h
  by_cases hended : p.mode = .endedPatch
  · unfold processLine at h
    simp only [hended] at h
    split at h
    · next hblank =>
      cases h
      exact .blank hended hblank
    · cases h
  obtain ⟨body, hbody, heq⟩ := processLine_eq line hstarted hended
  rw [heq] at h
  obtain ⟨handled, hhandle, hrest⟩ := bind_eq_ok.mp h
  rcases handled with - | p₁
  · exact hbody p' hrest
  · cases hrest
    exact handle_step hstarted hended hhandle

theorem processLine_of_handled (hstarted : p.mode ≠ .notStarted) (hended : p.mode ≠ .endedPatch)
    (h : p.handleHunkHeadersAndEndPatch (p.trimmed line) = .ok (some p')) :
    p.processLine line = .ok p' := by
  obtain ⟨body, -, heq⟩ := processLine_eq line hstarted hended
  rw [heq, h]
  rfl

/-- **What every line keeps, a run keeps**: a preorder on the hunks. -/
theorem hunks_of_run {R : List Hunk → List Hunk → Prop} (hrefl : ∀ hunks, R hunks hunks)
    (htrans : ∀ {a b c}, R a b → R b c → R a c)
    (hline : ∀ {p p' : StreamingPatchParser} {line : Text}, p.processLine line = .ok p' →
      R p.hunks p'.hunks)
    {delta : Text} {q : StreamingPatchParser} (hpush : p.pushDelta delta = .ok q)
    (hfinish : q.finish = .ok p') : R p.hunks p'.hunks := by
  have hdelta : R p.hunks q.hunks := by
    induction delta generalizing p with
    | nil =>
      cases hpush
      exact hrefl _
    | cons _ _ ih =>
      obtain ⟨p₁, hchar, hrest⟩ := bind_eq_ok.mp hpush
      refine htrans ?_ (ih hrest)
      unfold pushChar at hchar
      split at hchar
      · exact hline (p := p.nextLine) hchar
      · cases hchar
        exact hrefl _
  refine htrans hdelta ?_
  obtain ⟨q', hlast, hrest⟩ := bind_eq_ok.mp hfinish
  have hq : q' = p' := by
    split at hrest
    · cases hrest
      rfl
    · cases hrest
  subst hq
  unfold takeLastLine at hlast
  split at hlast
  · cases hlast
    exact hrefl _
  · split at hlast
    · obtain ⟨-, -, hok⟩ := bind_eq_ok.mp hlast
      cases hok
      exact hrefl _
    · exact hline (p := q.nextLine) hlast

end StreamingPatchParser

end Patch

end CodexPlus
