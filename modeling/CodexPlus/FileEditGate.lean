/-
CodexPlus/FileEditGate.lean

An Edit of a file is allowed after a Read of it: the text part of file_read.rs,
file_edit_history.rs, and the check file_edit.rs makes before an edit.

Read keeps the content it shows.  The check selects the same range of the current
content, either against the kept state or, where that is gone, against what the
output of a Read in the history showed.  The two splitters differ: Read takes the
carriage returns off the lines it shows and the check does not.
-/
import CodexPlus.FileState
import CodexPlus.ResponseItem

namespace CodexPlus

open List FileRead.FileStateCache

namespace FileRead

open EncodedLines

/-! ### Reading a text file -/

/-- A file that can be read whole and, unless its file system does not support it, as a stream. -/
structure StoredFile where
  bytes : Bytes
  modifiedAtMs : ℤ
  chunks : Option (List Bytes)
  flatten_chunks : ∀ parts ∈ chunks, parts.flatten = bytes

namespace StoredFile

def source (file : StoredFile) : FileSource where
  readFile := .ok file.bytes
  readFileStream :=
    match file.chunks with
    | some chunks => .ok (chunks.map .ok)
    | none => .error .unsupported

def defaultMaxFileSize : ℕ := 256 * 1024

def maxSize (limit : Option ℕ) : ℕ :=
  if limit.isSome then maxExplicitRangeFileSize else defaultMaxFileSize

/-- The output with the content to keep: a range with a limit is streamed. -/
def readText (file : StoredFile) (range : ReadRange) : Except ReadError (Text × Text) :=
  if range.limit.isSome then readTextRangeStream file.source range
  else do
    validateActualReadSize file.bytes.length defaultMaxFileSize
    let decoded ← decodeTextFile file.bytes
    readTextRangeWithState (normalizeFileContent decoded.content) range.offset none
      range.maxOutputTokens

end StoredFile

def fileUnchangedStub : Text :=
  "File unchanged since last read. ".toList ++
    "The content from the earlier Read tool_result in this conversation is still current — ".toList ++
    "refer to that instead of re-reading.".toList

section Handlers

variable {PathUri : Type} [DecidableEq PathUri]

/-- The output of a Read and the cache after it; `byteBudget` is what the history retains of an
output. -/
def keepRead (cache : FileStateCache PathUri) (key : FileStateKey PathUri) (file : StoredFile)
    (range : ReadRange) (byteBudget : ℕ) (result content : Text) : Text × FileStateCache PathUri :=
  if byteLen result ≤ byteBudget then
    let (unchanged, cache) :=
      cache.readIsUnchanged key file.modifiedAtMs range.offset range.limit content
    if unchanged then (fileUnchangedStub, cache)
    else (result, cache.recordRead key content file.modifiedAtMs range.offset range.limit)
  else (result, cache.remove key)

/-- `handle_file_read` on a text file. -/
def handleFileRead (cache : FileStateCache PathUri) (historyVersion : ℕ)
    (key : FileStateKey PathUri) (file : StoredFile) (range : ReadRange) (byteBudget : ℕ) :
    Except ReadError (Text × FileStateCache PathUri) :=
  if range.limit = some 0 then .error .zeroLimit
  else do
    validateActualReadSize file.bytes.length (StoredFile.maxSize range.limit)
    let cache := cache.prepareHistoryVersion historyVersion
    let (result, content) ← file.readText range
    .ok (keepRead cache key file range byteBudget result content)

end Handlers

/-! ### Reads in the history -/

structure FileReadArgs where
  filePath : String
  environmentId : Option String
  offset : Option ℕ
  limit : Option ℕ
  pages : Option String
  deriving DecidableEq, Repr

/-- `split_once` -/
def splitOnce (separator : Char) : Text → Option (Text × Text)
  | [] => none
  | c :: rest =>
    if c = separator then some ([], rest)
    else (splitOnce separator rest).map fun (before, after) => (c :: before, after)

/-- The content of a numbered line. -/
def contentOfLine (line : Text) : Option Text := do
  let (lineNumber, content) ← splitOnce '\t' line
  if lineNumber.all Char.isDigit then some content else none

def contentFromReadOutput (output : Text) : Option Text :=
  if output = emptyFileReminder then some []
  else if "<system-reminder>".toList.isPrefixOf output then none
  else ((output.splitOn '\n').mapM contentOfLine).map joinLines

/-- What the scan of the history asks of the session: how the arguments of a call are read, and
which file they name. -/
structure ReadResolver (PathUri Cwd : Type) where
  parseArguments : String → Option FileReadArgs
  isAbsoluteFilePath : String → Bool
  resolveEnvironment : Option String → Option (String × Cwd)
  resolveToolPath : Cwd → String → Option PathUri

structure HistoryScan where
  readCalls : List (String × FileReadArgs)
  restoredContents : List (ℕ × Option ℕ × Text)

namespace HistoryScan

variable {PathUri Cwd : Type} [DecidableEq PathUri]

def args (s : HistoryScan) (callId : String) : Option FileReadArgs :=
  (s.readCalls.find? (·.1 = callId)).map (·.2)

/-- What the output of a Read of the file showed. -/
def restored (resolver : ReadResolver PathUri Cwd) (key : FileStateKey PathUri)
    (args : FileReadArgs) (output : FunctionCallOutputPayload) : Option (ℕ × Option ℕ × Text) := do
  guard (resolver.isAbsoluteFilePath args.filePath)
  let .text text := output.body | none
  guard (! fileUnchangedStub.isPrefixOf text.toList)
  let (environmentId, cwd) ← resolver.resolveEnvironment args.environmentId
  guard (environmentId = key.environmentId)
  let path ← resolver.resolveToolPath cwd args.filePath
  guard (path = key.path)
  let content ← contentFromReadOutput text.toList
  some (args.offset.getD 1, args.limit, content)

def step (resolver : ReadResolver PathUri Cwd) (key : FileStateKey PathUri) (s : HistoryScan) :
    ResponseItem → HistoryScan
  | .functionCall _ name _ arguments callId =>
    if name = "Read" then
      match resolver.parseArguments arguments with
      | some args =>
        if args.pages = none then { s with readCalls := (callId, args) :: s.readCalls } else s
      | none => s
    else s
  | .functionCallOutput _ (some callId) _ _ output _ =>
    if output.success ≠ some false then
      match s.args callId with
      | some args =>
        { s with restoredContents := s.restoredContents ++ (restored resolver key args output).toList }
      | none => s
    else s
  | _ => s

end HistoryScan

def historyContainsCurrentRead {PathUri Cwd : Type} [DecidableEq PathUri]
    (resolver : ReadResolver PathUri Cwd) (history : List ResponseItem)
    (key : FileStateKey PathUri) (currentContent : Text) : Bool :=
  (history.foldl (HistoryScan.step resolver key) ⟨[], []⟩).restoredContents.reverse.any
    fun (offset, limit, content) => content = selectReadContent currentContent offset limit

/-- The lines of a content in a range. -/
def rangeLines (range : ReadRange) (content : Text) : List Text :=
  takeLimit range.limit ((content.splitOn '\n').drop (range.offset - 1))

/-- The lines from which Read takes a carriage return that the check before an edit leaves on them,
if they end in one: of a streamed file only the last line, which has no line end. -/
def trimmedLines (streamed : Bool) (range : ReadRange) (content : Text) : List Text :=
  let lines := content.splitOn '\n'
  let first := if streamed then lines.length - 1 else 0
  select range first (lines.drop first)

/-- An output of Read and the content kept with it, for the current content of the file. -/
inductive Shown (range : ReadRange) (content : Text) : Text → Text → Prop
  | empty (h : content = []) : Shown range content emptyFileReminder []
  | short (h : rangeLines range content = []) (totalLines : ℕ) :
      Shown range content (shorterThanOffset range.offset totalLines) []
  | lines (h : rangeLines range content ≠ []) :
      Shown range content (renderLines range.offset (rangeLines range content))
        (joinLines (rangeLines range content))

variable {range : ReadRange} {content output state : Text}

theorem rangeLines_eq_select (range : ReadRange) (content : Text) :
    rangeLines range content = select range 0 (content.splitOn '\n') := (select_eq _).symm

theorem takeLimit_isPrefix {α : Type} (limit : Option ℕ) (l : List α) : takeLimit limit l <+: l := by
  rcases limit with - | limit
  · exact prefix_rfl
  · exact take_prefix limit l

theorem newline_notMem_rangeLines : ∀ line ∈ rangeLines range content, '\n' ∉ line :=
  fun _ hline => LineLog.not_mem_of_mem_splitOn _ _ _
    (mem_of_mem_drop ((takeLimit_isPrefix _ _).subset hline))

theorem Shown.of_readOutput (range : ReadRange) (content : Text) (totalLines : ℕ) :
    Shown range content (readOutput range (rangeLines range content) totalLines).1
      (readOutput range (rangeLines range content) totalLines).2 := by
  unfold readOutput
  split
  · next h => exact .short h totalLines
  · next h => exact .lines h

/-- The check selects what the output shows. -/
theorem Shown.state_eq (h : Shown range content output state) :
    state = selectReadContent content range.offset range.limit := by
  rcases h with hnil | ⟨hshort, -⟩ | -
  · -- the only line of an empty content is empty
    subst hnil
    show [] = joinLines (rangeLines range [])
    rw [rangeLines_eq_select]
    show [] = joinLines (if range.contains 0 then [[]] else [])
    split <;> rfl
  · show [] = joinLines (rangeLines range content)
    rw [hshort]
    rfl
  · rfl

theorem splitOnce_append {separator : Char} {before : Text} (h : separator ∉ before) (after : Text) :
    splitOnce separator (before ++ separator :: after) = some (before, after) := by
  induction before with
  | nil => simp [splitOnce]
  | cons c _ ih =>
    have hc : c ≠ separator := fun heq => h (heq ▸ mem_cons_self)
    rw [cons_append, splitOnce, if_neg hc, ih fun hmem => h (mem_cons_of_mem _ hmem)]
    rfl

theorem isDigit_of_mem_lineNumber {number : ℕ} {c : Char} (h : c ∈ Nat.toDigits 10 number) :
    c.isDigit = true := Nat.isDigit_of_mem_toDigits (by decide) (by decide) h

theorem contentOfLine_numberedLine (number : ℕ) (line : Text) :
    contentOfLine (numberedLine number line) = some line := by
  have htab : '\t' ∉ Nat.toDigits 10 number := fun hmem =>
    absurd (isDigit_of_mem_lineNumber hmem) (by decide)
  rw [contentOfLine, numberedLine, splitOnce_append htab]
  exact if_pos (all_eq_true.mpr fun _ hc => isDigit_of_mem_lineNumber hc)

variable (offset : ℕ)

theorem mapM_contentOfLine (lines : List Text) :
    ((lines.zipIdx offset).map fun (line, number) => numberedLine number line).mapM contentOfLine =
      some lines := by
  induction lines generalizing offset with
  | nil => rfl
  | cons _ _ ih =>
    rw [zipIdx_cons, map_cons, mapM_cons, contentOfLine_numberedLine, ih]
    rfl

variable {lines : List Text}

/-- An output with lines starts with a line number. -/
theorem renderLines_eq_cons (hne : lines ≠ []) :
    ∃ c rest, c.isDigit ∧ renderLines offset lines = c :: rest := by
  rcases lines with - | ⟨line, lines⟩
  · exact absurd rfl hne
  rcases hdigits : Nat.toDigits 10 offset with - | ⟨c, digits⟩
  · exact absurd hdigits Nat.toDigits_ne_nil
  have hc : c.isDigit = true := isDigit_of_mem_lineNumber (hdigits ▸ mem_cons_self)
  have hline : numberedLine offset line = c :: (digits ++ '\t' :: line) := by
    rw [numberedLine, hdigits, cons_append]
  show ∃ d tail, _ ∧ ['\n'].intercalate (numberedLine offset line :: _) = d :: tail
  rw [hline]
  generalize (lines.zipIdx (offset + 1)).map _ = rest
  rcases rest with - | ⟨next, rest⟩ <;> exact ⟨c, _, hc, rfl⟩

theorem splitOn_renderLines (hne : lines ≠ []) (hlines : ∀ line ∈ lines, '\n' ∉ line) :
    (renderLines offset lines).splitOn '\n' =
      (lines.zipIdx offset).map fun (line, number) => numberedLine number line := by
  refine splitOn_intercalate _ (fun numbered hnumbered => ?_) (by simpa using hne)
  obtain ⟨⟨line, number⟩, hmem, rfl⟩ := mem_map.mp hnumbered
  have hdigits : '\n' ∉ Nat.toDigits 10 number := fun hmem =>
    absurd (isDigit_of_mem_lineNumber hmem) (by decide)
  have hline : '\n' ∉ line := hlines line (fst_mem_of_mem_zipIdx hmem)
  simp [numberedLine, hdigits, hline]

/-- Numbered lines are read back. -/
theorem contentFromReadOutput_renderLines (hne : lines ≠ [])
    (hlines : ∀ line ∈ lines, '\n' ∉ line) :
    contentFromReadOutput (renderLines offset lines) = some (joinLines lines) := by
  obtain ⟨c, rest, hc, hcons⟩ := renderLines_eq_cons offset hne
  have hangle : c ≠ '<' := fun heq => absurd (heq ▸ hc) (by decide)
  have hempty : renderLines offset lines ≠ emptyFileReminder := by
    intro heq
    have hhead : emptyFileReminder.head? = some '<' := by decide
    rw [← heq, hcons] at hhead
    exact hangle (Option.some.inj hhead)
  have hreminder : "<system-reminder>".toList.isPrefixOf (renderLines offset lines) = false := by
    have htag : "<system-reminder>".toList = '<' :: "system-reminder>".toList := by decide
    rw [hcons, htag, isPrefixOf_cons_cons, beq_eq_false_iff_ne.mpr (Ne.symm hangle), Bool.false_and]
  rw [contentFromReadOutput, if_neg hempty, if_neg (Bool.eq_false_iff.mp hreminder),
    splitOn_renderLines offset hne hlines, mapM_contentOfLine]
  rfl

/-- **A read is parsed back.**  A read that starts within the text gives an output with the content
that is kept for it, and from offset 1 on each line of the output is a line of the text, stripped of
its carriage return, behind its number.  The handler refuses the limit 0. -/
theorem readOutput_parses_back (text : Text) (offset : ℕ) (limit : Option ℕ) (maxOutputTokens : ℕ)
    (output state : Text) (hlimit : limit ≠ some 0)
    (hread : readTextRangeWithState text offset limit maxOutputTokens = .ok (output, state))
    (hend : text = [] ∨ offset ≤ (text.splitOn '\n').length) :
    contentFromReadOutput output = some state ∧
      (text ≠ [] → 1 ≤ offset → ∀ k shown, (output.splitOn '\n')[k]? = some shown →
        ∃ line, (text.splitOn '\n')[offset + k - 1]? = some line ∧
          shown = numberedLine (offset + k) (popLast '\r' line)) := by
  by_cases htext : text = []
  · rw [readTextRangeWithState, if_pos htext] at hread
    cases hread
    exact ⟨if_pos rfl, fun h => absurd htext h⟩
  set lines := (text.splitOn '\n').map (popLast '\r') with hlines
  set selected := takeLimit limit (lines.drop (offset - 1)) with hselected
  have hne : selected ≠ [] := by
    have hpos := length_pos_of_ne_nil (splitOn_ne_nil '\n' text)
    have hdrop : lines.drop (offset - 1) ≠ [] := by
      rw [Ne, drop_eq_nil_iff, hlines, length_map]
      have := hend.resolve_left htext
      omega
    rcases limit with - | limit
    · exact hdrop
    · simpa [hselected, takeLimit, hdrop] using hlimit
  have hbreak : ∀ line ∈ selected, '\n' ∉ line := fun line hline hmem => by
    obtain ⟨whole, hwhole, rfl⟩ :=
      mem_map.mp (mem_of_mem_drop ((takeLimit_isPrefix _ _).subset hline))
    exact LineLog.not_mem_of_mem_splitOn _ _ _ hwhole (mem_of_mem_popLast hmem)
  rw [readTextRangeWithState, if_neg htext] at hread
  simp only [← hlines, ← hselected, if_neg hne] at hread
  obtain ⟨-, -, hok⟩ := bind_eq_ok.mp hread
  cases hok
  refine ⟨contentFromReadOutput_renderLines offset hne hbreak, fun _ hoffset k shown hshown => ?_⟩
  rw [splitOn_renderLines offset hne hbreak, getElem?_map] at hshown
  obtain ⟨⟨line, number⟩, hget, rfl⟩ := Option.map_eq_some_iff.mp hshown
  rw [getElem?_zipIdx] at hget
  obtain ⟨line, hline, heq⟩ := Option.map_eq_some_iff.mp hget
  cases heq
  have hindex : lines[offset + k - 1]? = some line := by
    obtain ⟨rest, hrest⟩ := takeLimit_isPrefix limit (lines.drop (offset - 1))
    obtain ⟨hlt, -⟩ := List.getElem?_eq_some_iff.mp hline
    rw [show offset + k - 1 = offset - 1 + k by omega, ← getElem?_drop, ← hrest,
      getElem?_append_left hlt, hline]
  rw [hlines, getElem?_map] at hindex
  obtain ⟨whole, hwhole, rfl⟩ := Option.map_eq_some_iff.mp hindex
  exact ⟨whole, hwhole, rfl⟩

theorem secondLine_parses_back : contentFromReadOutput "2\tb".toList = some "b".toList :=
  (readOutput_parses_back "a\nb".toList 2 none 100 "2\tb".toList "b".toList (by simp) (by decide)
    (by decide)).1

/-- A read past the end has no content to parse, and from offset 0 on the first line has number 0. -/
theorem pastEnd_and_zero_offsets :
    readTextRangeWithState "a\nb".toList 5 none 100 = .ok (shorterThanOffset 5 2, []) ∧
      contentFromReadOutput (shorterThanOffset 5 2) = none ∧
      readTextRangeWithState "a\nb".toList 0 none 100 = .ok ("0\ta\n1\tb".toList, "a\nb".toList) := by
  decide

theorem Shown.restored (h : Shown range content output state)
    (hshort : ∀ totalLines, output ≠ shorterThanOffset range.offset totalLines) :
    contentFromReadOutput output = some state := by
  rcases h with hnil | ⟨-, totalLines⟩ | hlines
  · rw [contentFromReadOutput, if_pos rfl]
  · exact absurd rfl (hshort totalLines)
  · exact contentFromReadOutput_renderLines _ hlines newline_notMem_rangeLines

/-! ### Reading shows the range -/

theorem select_map {α β : Type} (f : α → β) (index : ℕ) (lines : List α) :
    select range index (lines.map f) = (select range index lines).map f := by
  induction lines generalizing index with
  | nil => rfl
  | cons _ _ ih =>
    rw [map_cons, select, select]
    split
    · rw [ih, map_cons]
    · exact ih _

/-- The buffered read shows the range, unless a line of it ends in a carriage return. -/
theorem shown_of_readTextRangeWithState
    (hread : readTextRangeWithState content range.offset range.limit range.maxOutputTokens =
      .ok (output, state))
    (hreturns : ∀ line ∈ trimmedLines false range content, line.getLast? ≠ some '\r') :
    Shown range content output state := by
  have htrimmed : (rangeLines range content).map (popLast '\r') = rangeLines range content := by
    rw [rangeLines_eq_select]
    exact (map_congr_left fun line hline => popLast_of_ne (hreturns line hline)).trans
      (map_id _)
  have hselected : takeLimit range.limit
      (((content.splitOn '\n').map (popLast '\r')).drop (range.offset - 1)) =
      rangeLines range content := by
    rw [← htrimmed, rangeLines_eq_select, ← select_map, select_eq]
    rfl
  unfold readTextRangeWithState at hread
  simp only [hselected] at hread
  split at hread
  · next hnil =>
    cases hread
    exact .empty hnil
  · split at hread
    · next hnil =>
      cases hread
      exact .short hnil _
    · next hlines =>
      unfold validateReadOutputSize at hread
      split at hread
      · cases hread
      · cases hread
        exact .lines hlines

/-- The last line of a streamed file, if it is in the range. -/
theorem last_of_trimmedLines {P : Text → Prop} (h : ∀ line ∈ trimmedLines true range content, P line)
    {last : Text} (hlast : last ∈ (content.splitOn '\n').getLast?)
    (hin : range.contains ((content.splitOn '\n').length - 1)) : P last := by
  obtain ⟨init, hinit⟩ := getLast?_eq_some_iff.mp (Option.mem_def.mp hlast)
  refine h last ?_
  have hdrop : (content.splitOn '\n').drop ((content.splitOn '\n').length - 1) = [last] := by
    rw [hinit]
    simp
  show last ∈ select range ((content.splitOn '\n').length - 1)
    ((content.splitOn '\n').drop ((content.splitOn '\n').length - 1))
  rw [hdrop, select, if_pos hin]
  exact mem_cons_self

/-- The lines of the normalised text after the first are what the stream selects. -/
theorem select_popInit {index : ℕ}
    (hlast : ∀ last ∈ lines.getLast?, range.contains (index + lines.length) →
      last.getLast? ≠ some '\r') :
    select range (index + 1) (popInit lines) = selectedTexts range (index + 1) lines := by
  induction lines generalizing index with
  | nil => rfl
  | cons line lines ih =>
    rcases lines with - | ⟨next, lines⟩
    · rw [popInit, select, selectedTexts]
      split
      · next hin => rw [popLast_of_ne (hlast line rfl hin)]; rfl
      · rfl
    · have hrest : select range (index + 1 + 1) (popInit (next :: lines)) =
          selectedTexts range (index + 1 + 1) (next :: lines) := by
        refine ih fun last hmem hin => hlast last (by simpa using hmem) ?_
        rwa [length_cons, Nat.add_comm _ 1, ← Nat.add_assoc]
      rw [popInit, select, selectedTexts, hrest]
      rfl

theorem length_popInit (lines : List Text) : (popInit lines).length = lines.length := by
  fun_induction popInit lines <;> simp_all

theorem getLast?_popInit (lines : List Text) : (popInit lines).getLast? = lines.getLast? := by
  fun_induction popInit lines with
  | case1 | case2 => rfl
  | case3 _ next lines ih =>
    have hne : popInit (next :: lines) ≠ [] := fun hnil => by
      simpa [hnil] using length_popInit (next :: lines)
    rw [getLast?_cons_of_ne_nil hne, ih, getLast?_cons_cons]

variable {text : Text}

/-- The stream shows the range, unless the last line of the file is in it and ends in a carriage
return. -/
theorem selectedTexts_eq_rangeLines
    (hreturns : ∀ line ∈ trimmedLines true range (normalizeFileContent text),
      line.getLast? ≠ some '\r') :
    selectedTexts range 0 (text.splitOn '\n') = rangeLines range (normalizeFileContent text) := by
  have hnorm : (normalizeFileContent text).splitOn '\n' =
      popInit ((text.splitOn '\n').modifyHead stripBom) := by
    rw [normalizeFileContent, splitOn_replaceCrlf, splitOn_stripBom]
  have hlast : ∀ last ∈ ((text.splitOn '\n').modifyHead stripBom).getLast?,
      range.contains ((text.splitOn '\n').length - 1) = true → last.getLast? ≠ some '\r' := by
    intro last hmem hin
    refine last_of_trimmedLines hreturns ?_ ?_
    · rwa [hnorm, getLast?_popInit]
    · rwa [hnorm, length_popInit, length_modifyHead]
  rw [rangeLines_eq_select, hnorm]
  generalize text.splitOn '\n' = lines at hlast ⊢
  rcases lines with - | ⟨line, - | ⟨next, lines⟩⟩
  · rfl
  · rw [modifyHead_cons, popInit, select, selectedTexts]
    split
    · next hin =>
      show [stripBom (popLast '\r' line)] = [stripBom line]
      rw [← popLast_stripBom, popLast_of_ne (hlast (stripBom line) rfl hin)]
    · rfl
  · have hrest : select range (0 + 1) (popInit (next :: lines)) =
        selectedTexts range (0 + 1) (next :: lines) := by
      refine select_popInit fun last hmem hin => hlast last (by simpa using hmem) ?_
      rwa [Nat.zero_add] at hin
    rw [modifyHead_cons, popInit, select, selectedTexts, hrest, popLast_stripBom]
    rfl

/-- A stream of empty chunks has no bytes. -/
theorem sawBytes_of_empty {chunks : List Bytes} (h : chunks.flatten = []) {s s' : StreamState}
    {totalBytes : ℕ} {sawBytes : Bool}
    (hread : s.readChunks range totalBytes false (chunks.map .ok) = .ok (s', sawBytes)) :
    sawBytes = false := by
  induction chunks generalizing s totalBytes with
  | nil => exact (Prod.mk.inj (Except.ok.inj hread)).2.symm
  | cons _ _ ih =>
    obtain ⟨rfl, hrest⟩ := append_eq_nil_iff.mp h
    rw [map_cons, StreamState.readChunks] at hread
    split at hread
    · cases hread
    · obtain ⟨⟨s₁, complete⟩, hread₁, hread⟩ := bind_eq_ok.mp hread
      obtain ⟨s₂, -, hread₁⟩ := bind_eq_ok.mp hread₁
      cases hread₁
      exact ih hrest hread

theorem shown_of_readTextRangeStream {chunks : List Bytes}
    (hchunks : chunks.flatten = utf8 text) (hsize : byteLen text ≤ maxExplicitRangeFileSize)
    (hlimit : range.limit ≠ some 0)
    (hread : readTextRangeStream (streamedFile (utf8 text) chunks) range = .ok (output, state))
    (hreturns : ∀ line ∈ trimmedLines true range (normalizeFileContent text),
      line.getLast? ≠ some '\r') :
    Shown range (normalizeFileContent text) output state := by
  rcases eq_or_ne text [] with rfl | htext
  · rw [readTextRangeStream_eq range hchunks (isUtf16Le_utf8 [])] at hread
    rcases hstream : StreamState.start.readChunks range 0 false (chunks.map .ok) with
      error | ⟨s, sawBytes⟩
    · rw [hstream] at hread
      cases hread
    · obtain rfl := sawBytes_of_empty hchunks hstream
      rw [hstream] at hread
      cases hread
      exact .empty rfl
  · rcases readTextRangeStream_reads hchunks hsize hlimit htext with hreads | ⟨-, _, -, -, -, herror⟩
    · by_cases hgt : range.maxOutputTokens <
          outputTokens range (selectedTexts range 0 (text.splitOn '\n'))
      · obtain ⟨_, -, herror⟩ := hreads.exceeds hgt
        rw [hread] at herror
        cases herror
      · have hok := hreads.fits (Nat.not_lt.mp hgt)
        rw [hread, selectedTexts_eq_rangeLines hreturns] at hok
        have hpair := Except.ok.inj hok
        have hshown := Shown.of_readOutput range (normalizeFileContent text) (text.splitOn '\n').length
        rwa [← hpair] at hshown
    · rw [hread] at herror
      cases herror

variable {bytes : Bytes}

theorem utf8_of_fromUtf8 (h : fromUtf8 bytes = some text) : utf8 text = bytes := by
  obtain ⟨chars, hchars, rfl⟩ := Option.map_eq_some_iff.mp h
  have hsome : bytes.toByteArray.utf8Decode?.isSome = true := by rw [hchars]; rfl
  have hencode : (bytes.toByteArray.utf8Decode?.get hsome).toList.utf8Encode = bytes.toByteArray :=
    ByteArray.utf8Encode_get_utf8Decode?
  have hget : bytes.toByteArray.utf8Decode?.get hsome = chars := Option.get_of_eq_some _ hchars
  rw [hget] at hencode
  have hdata := congrArg (fun array : ByteArray => array.data.toList) hencode
  simpa [List.utf8Encode, utf8] using hdata

variable {decoded : DecodedFile}

theorem utf8_of_decodeTextFile
    (h : decodeTextFile bytes = .ok decoded) (hutf16 : isUtf16Le bytes = false) :
    utf8 decoded.content = bytes := by
  rw [decodeTextFile, if_neg (by simp [hutf16])] at h
  split at h
  · next hcontent =>
    cases h
    exact utf8_of_fromUtf8 hcontent
  · cases h

theorem readTextRangeWithState_of_buffered (hdecode : decodeTextFile bytes = .ok decoded)
    (hread : readTextRangeBuffered (.ok bytes) range.offset range.limit range.maxOutputTokens =
      .ok (output, state)) :
    readTextRangeWithState (normalizeFileContent decoded.content) range.offset range.limit
      range.maxOutputTokens = .ok (output, state) := by
  unfold readTextRangeBuffered at hread
  simp only [hdecode] at hread
  obtain ⟨-, -, hread⟩ := bind_eq_ok.mp hread
  exact hread

variable {limit : Option ℕ} {file : StoredFile}

namespace StoredFile

/-- Whether a range of the file is read line by line. -/
def streamed (file : StoredFile) (limit : Option ℕ) : Bool :=
  limit.isSome && file.chunks.isSome && ! isUtf16Le file.bytes

theorem maxSize_of_isSome (h : limit.isSome) :
    maxSize limit = maxExplicitRangeFileSize := if_pos h

/-- **What Read shows.**  A successful read of a text file shows the range of its normalised
content, where no carriage return is taken off a line. -/
theorem shown_of_readText
    (hdecode : decodeTextFile file.bytes = .ok decoded) (hlimit : range.limit ≠ some 0)
    (hsize : file.bytes.length ≤ maxSize range.limit)
    (hread : file.readText range = .ok (output, state))
    (hreturns : ∀ line ∈ trimmedLines (file.streamed range.limit) range
      (normalizeFileContent decoded.content), line.getLast? ≠ some '\r') :
    Shown range (normalizeFileContent decoded.content) output state := by
  rcases hsome : range.limit.isSome with - | -
  · -- the whole file is read
    have hnone : range.limit = none := by simpa using hsome
    rw [streamed, hsome, Bool.false_and, Bool.false_and] at hreturns
    rw [readText, if_neg (by simp [hsome])] at hread
    refine shown_of_readTextRangeWithState ?_ hreturns
    rw [hnone]
    obtain ⟨-, -, hread⟩ := bind_eq_ok.mp hread
    rw [hdecode] at hread
    exact hread
  · rw [readText, if_pos hsome] at hread
    rw [maxSize_of_isSome hsome] at hsize
    rcases hchunks : file.chunks with - | chunks
    · -- the file system cannot stream the file
      rw [streamed, hchunks, Option.isSome_none, Bool.and_false, Bool.false_and] at hreturns
      rw [readTextRangeStream, source, hchunks] at hread
      exact shown_of_readTextRangeWithState (readTextRangeWithState_of_buffered hdecode hread) hreturns
    · have hflatten : chunks.flatten = file.bytes := file.flatten_chunks chunks hchunks
      have hsource : file.source = streamedFile file.bytes chunks := by
        rw [source, hchunks]
        rfl
      rw [streamed, hsome, hchunks, Option.isSome_some, Bool.and_true, Bool.true_and] at hreturns
      rw [hsource] at hread
      rcases hutf16 : isUtf16Le file.bytes with - | -
      · rw [hutf16, Bool.not_false] at hreturns
        have hbytes := utf8_of_decodeTextFile hdecode hutf16
        rw [← hbytes] at hread hflatten hsize
        exact shown_of_readTextRangeStream hflatten hsize hlimit hread hreturns
      · rw [hutf16, Bool.not_true] at hreturns
        rw [readTextRangeStream_streamedFile range hflatten, if_pos hutf16] at hread
        exact shown_of_readTextRangeWithState (readTextRangeWithState_of_buffered hdecode hread) hreturns

end StoredFile

/-! ### The state a Read keeps -/

section Handlers

variable {PathUri Cwd : Type} [DecidableEq PathUri] {resolver : ReadResolver PathUri Cwd}
variable {key : FileStateKey PathUri} {cache : FileStateCache PathUri}

theorem readIsUnchanged_eq_true {modifiedAtMs : ℤ} {offset : ℕ}
    (h : (cache.readIsUnchanged key modifiedAtMs offset limit content).1) :
    cache.lookup key = some ⟨content, modifiedAtMs, .read offset limit⟩ := by
  unfold readIsUnchanged at h
  simp only [get_fst] at h
  rcases hlookup : cache.lookup key with - | ⟨content', modifiedAtMs', source'⟩
  · rw [hlookup] at h
    cases h
  · rw [hlookup] at h
    simp only [Option.any_some, Bool.and_eq_true, decide_eq_true_eq] at h
    obtain ⟨⟨rfl, rfl⟩, rfl⟩ := h
    rfl

/-- The state kept for the file, if any, is that of the Read. -/
theorem keepRead_spec (cache : FileStateCache PathUri) (key : FileStateKey PathUri)
    (file : StoredFile) (range : ReadRange) (byteBudget : ℕ) (result content : Text) :
    ((keepRead cache key file range byteBudget result content).1 = result ∨
        (keepRead cache key file range byteBudget result content).1 = fileUnchangedStub) ∧
      ∀ state, (keepRead cache key file range byteBudget result content).2.lookup key = some state →
        state = ⟨content, file.modifiedAtMs, .read range.offset range.limit⟩ := by
  unfold keepRead
  split
  · rcases hchecked : cache.readIsUnchanged key file.modifiedAtMs range.offset range.limit content with
      ⟨unchanged, checked⟩
    rcases unchanged with - | -
    · -- the new state takes the place of the old one
      refine ⟨.inl rfl, fun state hstate => ?_⟩
      change (checked.insert key _).lookup key = some state at hstate
      rw [lookup_insert] at hstate
      split at hstate
      · cases hstate
      · exact (Option.some.inj hstate).symm
    · -- the old state stays, and is the same
      simp only [if_true]
      refine ⟨.inr trivial, fun state hstate => ?_⟩
      have hkept := readIsUnchanged_eq_true (congrArg Prod.fst hchecked)
      have hget : (cache.get key).2 = checked := congrArg Prod.snd hchecked
      have hlookup : checked.lookup key = cache.lookup key := by
        rw [← hget, lookup_get]
      rw [hlookup, hkept] at hstate
      exact (Option.some.inj hstate).symm
  · refine ⟨.inl rfl, fun state hstate => ?_⟩
    rw [lookup_remove] at hstate
    cases hstate

/-- What a successful Read has done. -/
theorem handleFileRead_ok {cache' : FileStateCache PathUri} {historyVersion byteBudget : ℕ}
    (h : handleFileRead cache historyVersion key file range byteBudget = .ok (output, cache')) :
    range.limit ≠ some 0 ∧ file.bytes.length ≤ StoredFile.maxSize range.limit ∧
      ∃ result content, file.readText range = .ok (result, content) ∧
        (output = result ∨ output = fileUnchangedStub) ∧
        ∀ state, cache'.lookup key = some state →
          state = ⟨content, file.modifiedAtMs, .read range.offset range.limit⟩ := by
  unfold handleFileRead at h
  split at h
  · cases h
  · next hlimit =>
    obtain ⟨⟨⟩, hsize, h⟩ := bind_eq_ok.mp h
    obtain ⟨⟨result, content⟩, hread, h⟩ := bind_eq_ok.mp h
    have hle : file.bytes.length ≤ StoredFile.maxSize range.limit := by
      by_contra hgt
      rw [validateActualReadSize, if_pos (Nat.not_le.mp hgt)] at hsize
      cases hsize
    have hkeep : keepRead (cache.prepareHistoryVersion historyVersion) key file range byteBudget
        result content = (output, cache') := Except.ok.inj h
    have hspec := keepRead_spec (cache.prepareHistoryVersion historyVersion) key file range
      byteBudget result content
    rw [hkeep] at hspec
    exact ⟨hlimit, hle, result, content, hread, hspec.1, hspec.2⟩

/-! ### The Read in the history -/

/-- A history that has the call of a Read of the file, by an absolute path and without pages, and
after it the whole output. -/
structure HistoryRead (resolver : ReadResolver PathUri Cwd) (key : FileStateKey PathUri)
    (range : ReadRange) (output : Text) where
  before : List ResponseItem
  call : ResponseItem
  between : List ResponseItem
  outputItem : ResponseItem
  after : List ResponseItem
  callId : String
  args : FileReadArgs
  call_eq : ∃ id toolNamespace arguments, call = .functionCall id "Read" toolNamespace arguments callId ∧
    resolver.parseArguments arguments = some args
  output_eq : ∃ id name toolNamespace success passthrough, success ≠ some false ∧
    outputItem = .functionCallOutput id (some callId) name toolNamespace
      ⟨.text (String.ofList output), success⟩ passthrough
  between_ids : ∀ item ∈ between, item.toolCallId ≠ some callId
  pages : args.pages = none
  offset : args.offset.getD 1 = range.offset
  limit : args.limit = range.limit
  isAbsolute : resolver.isAbsoluteFilePath args.filePath = true
  resolved : ∃ cwd, resolver.resolveEnvironment args.environmentId = some (key.environmentId, cwd) ∧
    resolver.resolveToolPath cwd args.filePath = some key.path

def HistoryRead.history (entry : HistoryRead resolver key range output) : List ResponseItem :=
  entry.before ++ entry.call :: entry.between ++ entry.outputItem :: entry.after

namespace HistoryScan

variable (s : HistoryScan)

theorem step_restoredContents (item : ResponseItem) :
    s.restoredContents ⊆ (s.step resolver key item).restoredContents := by
  unfold step
  repeat' split
  all_goals first | exact subset_append_left _ _ | exact fun _ h => h

theorem foldl_restoredContents (items : List ResponseItem) :
    s.restoredContents ⊆ (items.foldl (step resolver key) s).restoredContents := by
  induction items generalizing s with
  | nil => exact fun _ h => h
  | cons item _ ih =>
    exact List.Subset.trans (s.step_restoredContents item) (ih (s.step resolver key item))

/-- Only a call changes the arguments kept for its id. -/
theorem step_args {item : ResponseItem} {callId : String}
    (h : item.toolCallId ≠ some callId) : (s.step resolver key item).args callId = s.args callId := by
  unfold step
  split
  · next callId' =>
    have hne : callId' ≠ callId := fun heq => h (by rw [heq]; rfl)
    repeat' split
    all_goals first | rfl | simp [args, hne]
  · repeat' split
    all_goals rfl
  · rfl

theorem foldl_args {items : List ResponseItem} {callId : String}
    (h : ∀ item ∈ items, item.toolCallId ≠ some callId) :
    (items.foldl (step resolver key) s).args callId = s.args callId := by
  induction items generalizing s with
  | nil => rfl
  | cons item _ ih =>
    rw [foldl_cons, ih _ fun next hnext => h next (mem_cons_of_mem _ hnext),
      s.step_args (h item mem_cons_self)]

/-- The output of a Read of the file is restored. -/
theorem restored_eq {args : FileReadArgs} (success : Option Bool) {content : Text}
    (habsolute : resolver.isAbsoluteFilePath args.filePath)
    (hresolved : ∃ cwd, resolver.resolveEnvironment args.environmentId = some (key.environmentId, cwd) ∧
      resolver.resolveToolPath cwd args.filePath = some key.path)
    (hstub : fileUnchangedStub.isPrefixOf output = false)
    (hcontent : contentFromReadOutput output = some content) :
    restored resolver key args ⟨.text (String.ofList output), success⟩ =
      some (args.offset.getD 1, args.limit, content) := by
  obtain ⟨cwd, henvironment, hpath⟩ := hresolved
  simp only [restored, habsolute, guard_true, String.toList_ofList, hstub, Bool.not_false,
    henvironment, hpath, hcontent, Option.bind_eq_bind, Option.bind_some, Option.pure_def]

end HistoryScan

/-- **Reads in the history.**  What the output of a Read showed is found. -/
theorem HistoryRead.contains (entry : HistoryRead resolver key range output)
    (hstub : fileUnchangedStub.isPrefixOf output = false)
    (hcontent : contentFromReadOutput output = some state)
    (hstate : state = selectReadContent content range.offset range.limit) :
    historyContainsCurrentRead resolver entry.history key content := by
  obtain ⟨id, toolNamespace, arguments, hcall, hparse⟩ := entry.call_eq
  obtain ⟨id', name, toolNamespace', success, passthrough, hsuccess, houtput⟩ := entry.output_eq
  -- the scan has the arguments when it comes to the output
  have hargs : ((entry.before ++ entry.call :: entry.between).foldl (HistoryScan.step resolver key)
      ⟨[], []⟩).args entry.callId = some entry.args := by
    rw [foldl_append, foldl_cons, HistoryScan.foldl_args _ entry.between_ids, hcall]
    simp [HistoryScan.step, hparse, entry.pages, HistoryScan.args]
  have hrestored := HistoryScan.restored_eq success entry.isAbsolute entry.resolved hstub hcontent
  rw [historyContainsCurrentRead, any_reverse, any_eq_true]
  refine ⟨(range.offset, range.limit, state), ?_, by simpa using hstate⟩
  rw [HistoryRead.history, foldl_append, foldl_cons]
  refine HistoryScan.foldl_restoredContents _ _ ?_
  rw [houtput]
  simp only [HistoryScan.step, if_pos hsuccess, hargs, hrestored, entry.offset, entry.limit]
  simp

/-! ### Editing after a Read -/

/-- No output is taken for the note that nothing has changed. -/
theorem Shown.not_stub (h : Shown range content output state) :
    fileUnchangedStub.isPrefixOf output = false := by
  have hstub : fileUnchangedStub.head? = some 'F' := by decide
  obtain ⟨rest, hrest⟩ := head?_eq_some_iff.mp hstub
  have hne : ∀ c tail, c ≠ 'F' → output = c :: tail → fileUnchangedStub.isPrefixOf output = false := by
    intro c tail hc heq
    rw [hrest, heq, isPrefixOf_cons_cons, beq_eq_false_iff_ne.mpr (Ne.symm hc), Bool.false_and]
  rcases h with - | ⟨-, totalLines⟩ | hlines
  · exact hne '<' _ (by decide) rfl
  · exact hne '<' _ (by decide) rfl
  · obtain ⟨c, tail, hc, hcons⟩ := renderLines_eq_cons range.offset hlines
    exact hne c tail (fun heq => absurd (heq ▸ hc) (by decide)) hcons

/-- **A file that was read can be edited.**  While the state of a Read is kept, the check accepts
an edit of the unchanged file; and so does the check of the history, where the output of the Read
is in it and shows content. -/
theorem read_allows_edit (resolver : ReadResolver PathUri Cwd) (cache cache' : FileStateCache PathUri)
    (historyVersion : ℕ) (key : FileStateKey PathUri) (file : StoredFile) (range : ReadRange)
    (byteBudget : ℕ) (decoded : DecodedFile) (output : Text)
    (hdecode : decodeTextFile file.bytes = .ok decoded)
    (hread : handleFileRead cache historyVersion key file range byteBudget = .ok (output, cache'))
    (hreturns : ∀ line ∈ trimmedLines (file.streamed range.limit) range
      (normalizeFileContent decoded.content), line.getLast? ≠ some '\r') :
    (∀ (later : FileStateCache PathUri) (state : FileState), cache'.lookup key = some state →
      later.lookup key = some state →
      (later.validateEdit key file.modifiedAtMs (normalizeFileContent decoded.content)).1 = .ok ()) ∧
    (output ≠ fileUnchangedStub → (∀ totalLines, output ≠ shorterThanOffset range.offset totalLines) →
      ∀ entry : HistoryRead resolver key range output,
        historyContainsCurrentRead resolver entry.history key
          (normalizeFileContent decoded.content) = true) := by
  obtain ⟨hlimit, hsize, result, content, htext, houtput, hkept⟩ := handleFileRead_ok hread
  have hshown := StoredFile.shown_of_readText hdecode hlimit hsize htext hreturns
  refine ⟨fun later state hstate hlater => ?_, fun hstub hshort entry => ?_⟩
  · rw [hkept state hstate] at hlater
    exact FileStateCache.validateEdit_of_read _ hlater hshown.state_eq.symm
  · obtain rfl : output = result := houtput.resolve_right hstub
    exact entry.contains hshown.not_stub (hshown.restored hshort) hshown.state_eq

end Handlers

/-- A file of two lines, and a session in which every path names it. -/
def twoLines : StoredFile where
  bytes := utf8 "a\nb".toList
  modifiedAtMs := 7
  chunks := none
  flatten_chunks := by simp

def twoLinesKey : FileStateKey String := ⟨"local", "/a"⟩

def twoLinesResolver (offset : ℕ) : ReadResolver String Unit where
  parseArguments := fun _ => some ⟨"/a", none, some offset, none, none⟩
  isAbsoluteFilePath := fun _ => true
  resolveEnvironment := fun _ => some ("local", ())
  resolveToolPath := fun _ path => some path

def readCall : ResponseItem := .functionCall none "Read" none "" "call"

def readCallOutput (output : Text) : ResponseItem :=
  .functionCallOutput none (some "call") none none ⟨.text (String.ofList output), some true⟩ none

/-- The Read of the second line, in the history. -/
def secondLineRead : HistoryRead (twoLinesResolver 2) twoLinesKey ⟨2, none, 100⟩ "2\tb".toList where
  before := []
  call := readCall
  between := []
  outputItem := readCallOutput "2\tb".toList
  after := []
  callId := "call"
  args := ⟨"/a", none, some 2, none, none⟩
  call_eq := ⟨none, none, "", rfl, rfl⟩
  output_eq := ⟨none, none, none, some true, none, by simp, rfl⟩
  between_ids := by simp
  pages := rfl
  offset := rfl
  limit := rfl
  isAbsolute := rfl
  resolved := ⟨(), rfl, rfl⟩

theorem secondLine_handleFileRead :
    handleFileRead empty 0 twoLinesKey twoLines ⟨2, none, 100⟩ 1000 =
      .ok ("2\tb".toList, recordRead ⟨[], [], 0, some 0⟩ twoLinesKey "b".toList 7 2 none) := by
  have hread : twoLines.readText ⟨2, none, 100⟩ = .ok ("2\tb".toList, "b".toList) := by
    decide
  rfl

theorem secondLine_allows_edit :
    ((FileStateCache.recordRead ⟨[], [], 0, some 0⟩ twoLinesKey "b".toList 7 2 none).validateEdit
        twoLinesKey 7 (normalizeFileContent "a\nb".toList)).1 = .ok () ∧
      historyContainsCurrentRead (twoLinesResolver 2) secondLineRead.history twoLinesKey
        (normalizeFileContent "a\nb".toList) = true := by
  have hallows := read_allows_edit (twoLinesResolver 2) FileStateCache.empty _ 0 twoLinesKey twoLines
    ⟨2, none, 100⟩ 1000 ⟨"a\nb".toList, .utf8⟩ "2\tb".toList (decodeTextFile_utf8 _)
    secondLine_handleFileRead (by decide)
  refine ⟨hallows.1 _ ⟨"b".toList, 7, .read 2 none⟩ (by decide) (by decide), ?_⟩
  refine hallows.2 (by decide) (fun totalLines heq => ?_) secondLineRead
  have hhead : some '2' = some '<' := congrArg List.head? heq
  exact absurd hhead (by decide)

/-- **A Read past the end.**  Its state is kept and allows an edit; its output in the history does
not, as it shows no content. -/
theorem pastEnd_read_not_restored :
    (∃ cache', handleFileRead FileStateCache.empty 0 twoLinesKey twoLines ⟨5, none, 100⟩ 1000 =
      .ok (shorterThanOffset 5 2, cache')) ∧
    historyContainsCurrentRead (twoLinesResolver 5)
      [readCall, readCallOutput (shorterThanOffset 5 2)] twoLinesKey
      (normalizeFileContent "a\nb".toList) = false := by
  constructor
  · have hread : twoLines.readText ⟨5, none, 100⟩ = .ok (shorterThanOffset 5 2, []) := by
      decide
    have hlen : byteLen (shorterThanOffset 5 2) ≤ 1000 := by decide +kernel
    refine ⟨FileStateCache.recordRead ⟨[], [], 0, some 0⟩ twoLinesKey [] 7 5 none, ?_⟩
    rw [handleFileRead, if_neg (by decide), hread]
    show Except.ok (keepRead _ _ _ _ _ _ _) = _
    rw [keepRead, if_pos hlen]
    rfl
  · have hnone : contentFromReadOutput (shorterThanOffset 5 2) = none := by decide
    have hrestored : HistoryScan.restored (twoLinesResolver 5) twoLinesKey
        ⟨"/a", none, some 5, none, none⟩ ⟨.text (String.ofList (shorterThanOffset 5 2)), some true⟩ =
        none := by
      simp [HistoryScan.restored, hnone]
    -- the scan keeps the call and restores nothing
    have hscan : [readCall, readCallOutput (shorterThanOffset 5 2)].foldl
        (HistoryScan.step (twoLinesResolver 5) twoLinesKey) ⟨[], []⟩ =
        ⟨[("call", ⟨"/a", none, some 5, none, none⟩)], []⟩ := by
      show HistoryScan.mk _ ([] ++ (HistoryScan.restored (twoLinesResolver 5) twoLinesKey
        ⟨"/a", none, some 5, none, none⟩ _).toList) = _
      rw [hrestored]
      rfl
    rw [historyContainsCurrentRead, hscan]
    rfl

end FileRead

end CodexPlus
