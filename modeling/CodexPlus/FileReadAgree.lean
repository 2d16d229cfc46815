/-
CodexPlus/FileReadAgree.lean

The buffered read, and where it agrees with the stream.

The buffered read normalises the text, which takes one carriage return off each
line end, and then takes another off each line; the stream takes one.  On files
without a doubled carriage return both select the same texts, and the stream
succeeds exactly with the output of the buffered read (`readTextRangeStream_agrees`).
-/
import CodexPlus.FileReadStream

namespace CodexPlus

open List FileRead.StreamState

namespace FileRead

open EncodedLines

/-! ### The lines of the normalised text -/

variable {line : Text}

theorem replaceCrlf_last (h : '\n' ∉ line) : replaceCrlf line = line := by
  fun_induction replaceCrlf line with
  | case1 => simp at h
  | case2 _ _ _ ih =>
    rw [ih fun hmem => h (mem_cons_of_mem _ hmem)]
  | case3 => rfl

theorem replaceCrlf_line (h : '\n' ∉ line) (rest : Text) :
    replaceCrlf (line ++ '\n' :: rest) = popLast '\r' line ++ '\n' :: replaceCrlf rest := by
  induction line with
  | nil => rfl
  | cons c line ih =>
    have hrest : '\n' ∉ line := fun hmem => h (mem_cons_of_mem _ hmem)
    rcases line with - | ⟨d, line⟩
    · by_cases hc : c = '\r'
      · subst hc
        rfl
      · have hpop : popLast '\r' [c] = [c] := popLast_of_ne (by simpa using hc)
        have hstep : replaceCrlf (c :: '\n' :: rest) = c :: replaceCrlf ('\n' :: rest) := by
          rw [replaceCrlf]
          exact fun _ hcr _ => hc hcr
        rw [hpop]
        exact hstep
    · have hd : d ≠ '\n' := fun heq => hrest (heq ▸ mem_cons_self)
      have hstep : replaceCrlf (c :: (d :: line ++ '\n' :: rest)) =
          c :: replaceCrlf (d :: line ++ '\n' :: rest) := by
        rw [replaceCrlf]
        exact fun _ _ hcons => hd (List.cons.inj hcons).1
      rw [cons_append, hstep, ih hrest, popLast_cons _ _ (cons_ne_nil _ _), cons_append]

/-- The lines of a text, each but the last without the carriage return of its line end. -/
def popInit : List Text → List Text
  | [] => []
  | [last] => [last]
  | line :: next :: lines => popLast '\r' line :: popInit (next :: lines)

theorem splitOn_replaceCrlf (text : Text) :
    (replaceCrlf text).splitOn '\n' = popInit (text.splitOn '\n') := by
  induction text using line_induction (a := '\n') with
  | last _ hline =>
    rw [replaceCrlf_last hline, splitOn_eq_singleton hline]
    rfl
  | cons line rest hline ih =>
    have hpop : '\n' ∉ popLast '\r' line := fun hmem => hline (mem_of_mem_popLast hmem)
    rw [replaceCrlf_line hline, splitOn_append_cons_self_of_not_mem hpop,
      splitOn_append_cons_self_of_not_mem hline, ih]
    rcases hsplit : rest.splitOn '\n' with - | ⟨next, lines⟩
    · exact absurd hsplit (splitOn_ne_nil _ _)
    · rfl

theorem splitOn_stripBom (text : Text) :
    (stripBom text).splitOn '\n' = (text.splitOn '\n').modifyHead stripBom := by
  rcases text with - | ⟨c, rest⟩
  · rfl
  rw [splitOn_cons_eq_if_modifyHead]
  by_cases hc : c = byteOrderMark
  · subst hc
    rw [show stripBom (byteOrderMark :: rest) = rest from rfl]
    rcases rest.splitOn '\n' with - | ⟨line, lines⟩ <;> rfl
  · have hstrip : ∀ tail, stripBom (c :: tail) = c :: tail := fun tail => if_neg hc
    rw [hstrip, splitOn_cons_eq_if_modifyHead]
    split
    · rfl
    · rcases rest.splitOn '\n' with - | ⟨line, lines⟩
      · rfl
      · simp [hstrip]

/-! ### What the buffered read selects -/

theorem popLast_stripBom (text : Text) :
    popLast '\r' (stripBom text) = stripBom (popLast '\r' text) := by
  by_cases hhead : text.head? = some byteOrderMark
  · obtain ⟨rest, rfl⟩ := head?_eq_some_iff.mp hhead
    rcases eq_or_ne rest [] with rfl | hne
    · decide
    · rw [popLast_cons _ _ hne]
      rfl
  · rw [stripBom_eq_self hhead, stripBom_eq_self (head?_popLast_ne hhead)]

/-- The lines of the normalised text without their carriage returns: all lines but the last lose
two. -/
def bufferedTexts (index : ℕ) : List Text → List Text
  | [] => []
  | [last] => [StreamState.shownText index (popLast '\r' last)]
  | line :: next :: lines =>
    StreamState.shownText index (popLast '\r' (popLast '\r' line)) ::
      bufferedTexts (index + 1) (next :: lines)

theorem length_bufferedTexts (index : ℕ) (lines : List Text) :
    (bufferedTexts index lines).length = lines.length := by
  fun_induction bufferedTexts index lines <;> simp_all

theorem popInit_eq (index : ℕ) (lines : List Text) :
    (popInit lines).map (popLast '\r') = bufferedTexts (index + 1) lines := by
  induction lines generalizing index with
  | nil => rfl
  | cons _ lines ih =>
    rcases lines with - | ⟨next, lines⟩
    · rfl
    · exact congrArg _ (ih (index + 1))

theorem normalized_lines (text : Text) :
    ((normalizeFileContent text).splitOn '\n').map (popLast '\r') =
      bufferedTexts 0 (text.splitOn '\n') := by
  rw [normalizeFileContent, splitOn_replaceCrlf, splitOn_stripBom]
  rcases text.splitOn '\n' with - | ⟨line, lines⟩
  · rfl
  rcases lines with - | ⟨next, lines⟩
  · show [popLast '\r' (stripBom line)] = [stripBom (popLast '\r' line)]
    rw [popLast_stripBom]
  · show popLast '\r' (popLast '\r' (stripBom line)) :: (popInit (next :: lines)).map (popLast '\r') =
      stripBom (popLast '\r' (popLast '\r' line)) :: bufferedTexts 1 (next :: lines)
    rw [popLast_stripBom, popLast_stripBom, popInit_eq 0]

/-- Where no selected line ends in a second carriage return, both reads select the same texts. -/
theorem select_bufferedTexts {range : ReadRange} {index : ℕ} {lines : List Text}
    (h : ∀ line ∈ select range index lines.dropLast, (popLast '\r' line).getLast? ≠ some '\r') :
    select range index (bufferedTexts index lines) = selectedTexts range index lines := by
  induction lines generalizing index with
  | nil => rfl
  | cons line lines ih =>
    rcases lines with - | ⟨next, lines⟩
    · rfl
    have hstep : select range index (line :: next :: lines).dropLast =
        if range.contains index then line :: select range (index + 1) (next :: lines).dropLast
        else select range (index + 1) (next :: lines).dropLast := rfl
    rw [hstep] at h
    rw [bufferedTexts, select, selectedTexts]
    split
    · next hin =>
      rw [if_pos hin] at h
      rw [popLast_of_ne (h line mem_cons_self),
        ih fun other hother => h other (mem_cons_of_mem _ hother)]
    · next hout =>
      rw [if_neg hout] at h
      exact ih h

variable {text : Text}

theorem normalizeFileContent_eq_nil :
    normalizeFileContent text = [] ↔ text = [] ∨ text = [byteOrderMark] := by
  have hreplace : ∀ text : Text, replaceCrlf text = [] ↔ text = [] := fun text => by
    fun_cases replaceCrlf text <;> simp
  rw [normalizeFileContent, hreplace]
  rcases text with - | ⟨c, rest⟩
  · simp [stripBom]
  · by_cases hc : c = byteOrderMark
    all_goals simp [stripBom, hc]

variable (range : ReadRange)

/-- The outcome of the buffered selection. -/
theorem readTextRangeWithState_eq (htext : normalizeFileContent text ≠ [])
    (h : ∀ line ∈ select range 0 (text.splitOn '\n').dropLast,
      (popLast '\r' line).getLast? ≠ some '\r') :
    readTextRangeWithState (normalizeFileContent text) range.offset range.limit
        range.maxOutputTokens =
      if outputTokens range (selectedTexts range 0 (text.splitOn '\n')) > range.maxOutputTokens then
        .error (.outputTooLarge (outputTokens range (selectedTexts range 0 (text.splitOn '\n')))
          range.maxOutputTokens)
      else .ok (readOutput range (selectedTexts range 0 (text.splitOn '\n'))
        (text.splitOn '\n').length) := by
  have hselected : takeLimit range.limit
      ((((normalizeFileContent text).splitOn '\n').map (popLast '\r')).drop (range.offset - 1)) =
      selectedTexts range 0 (text.splitOn '\n') := by
    rw [normalized_lines, ← select_bufferedTexts h, select_eq]
    rfl
  have hlength : (((normalizeFileContent text).splitOn '\n').map (popLast '\r')).length =
      (text.splitOn '\n').length := by
    rw [normalized_lines, length_bufferedTexts]
  rw [readTextRangeWithState, if_neg htext]
  simp only [hselected, hlength]
  by_cases hnil : selectedTexts range 0 (text.splitOn '\n') = []
  · rw [if_pos hnil, hnil, outputTokens_nil]
    rfl
  · rw [if_neg hnil, readOutput]
    show (if outputTokens range _ > _ then _ else _) >>= _ = _
    split <;> rfl

/-! ### Agreement -/

theorem ff_notMem_utf8 (text : Text) : 0xff ∉ utf8 text := by
  intro hmem
  obtain ⟨c, -, hc⟩ := mem_flatMap.mp hmem
  have hbyte : (0xff : UInt8).toNat = 255 := rfl
  unfold String.utf8EncodeChar at hc
  simp only at hc
  -- whatever the number of bytes, none of them is 255
  split_ifs at hc
  all_goals
    simp only [mem_cons, not_mem_nil, or_false] at hc
    repeat' rcases hc with hc | hc
    all_goals
      rw [hc, UInt8.toNat_ofNat'] at hbyte
      omega

theorem isUtf16Le_utf8 (text : Text) : isUtf16Le (utf8 text) = false := by
  rw [Bool.eq_false_iff]
  intro h
  obtain ⟨rest, hrest⟩ := isPrefixOf_iff_prefix.mp h
  exact ff_notMem_utf8 text (by rw [← hrest]; simp [utf16LeBom])

theorem prefetch_eq {start : Bytes} (chunks : List Bytes) :
    prefetch start (chunks.map .ok) = .ok (start ++ chunks.flatten.take (2 - start.length)) := by
  induction chunks generalizing start with
  | nil => simp [prefetch]
  | cons chunk _ ih =>
    rw [map_cons, prefetch]
    split
    · have hlen : 2 - (start ++ chunk.take (2 - start.length)).length =
          2 - start.length - chunk.length := by
        rw [length_append, length_take]
        omega
      rw [ih, flatten_cons, take_append, append_assoc, hlen]
    · next hlong => rw [show 2 - start.length = 0 by omega, take_zero, append_nil]

theorem isUtf16Le_take_two (bytes : Bytes) : isUtf16Le (bytes.take 2) = isUtf16Le bytes := by
  rcases bytes with - | ⟨a, - | ⟨b, rest⟩⟩ <;> rfl

/-- A file of UTF-8 text in a file system that streams it in the given chunks. -/
def streamedFile (bytes : Bytes) (chunks : List Bytes) : FileSource := ⟨.ok bytes, .ok (chunks.map .ok)⟩

variable {bytes : Bytes} {chunks : List Bytes}

/-- A UTF-16 file is read whole, every other stream line by line. -/
theorem readTextRangeStream_streamedFile (hchunks : chunks.flatten = bytes) :
    readTextRangeStream (streamedFile bytes chunks) range =
      if isUtf16Le bytes then
        readTextRangeBuffered (.ok bytes) range.offset range.limit range.maxOutputTokens
      else start.readChunks range 0 false (chunks.map .ok) >>= fun (s, sawBytes) =>
        s.finish range sawBytes := by
  show (prefetch [] (chunks.map .ok) >>= _) = _
  rw [prefetch_eq, hchunks, ← isUtf16Le_take_two]
  rfl

theorem readTextRangeStream_eq
    (hchunks : chunks.flatten = bytes) (hutf16 : isUtf16Le bytes = false) :
    readTextRangeStream (streamedFile bytes chunks) range =
      (start.readChunks range 0 false (chunks.map .ok) >>= fun (s, sawBytes) =>
        s.finish range sawBytes) := by
  rw [readTextRangeStream_streamedFile range hchunks, hutf16]
  rfl

theorem decodeTextFile_utf8 (text : Text) : decodeTextFile (utf8 text) = .ok ⟨text, .utf8⟩ := by
  rw [decodeTextFile, if_neg (by simp [isUtf16Le_utf8]), fromUtf8_utf8]

theorem readTextRangeBuffered_utf8 (hsize : byteLen text ≤ maxExplicitRangeFileSize) :
    readTextRangeBuffered (.ok (utf8 text)) range.offset range.limit range.maxOutputTokens =
      readTextRangeWithState (normalizeFileContent text) range.offset range.limit
        range.maxOutputTokens := by
  have hactual : validateActualReadSize (utf8 text).length maxExplicitRangeFileSize = .ok () :=
    if_neg (Nat.not_lt.mpr hsize)
  show (validateActualReadSize (utf8 text).length maxExplicitRangeFileSize >>= fun _ =>
    decodeTextFile (utf8 text) >>= _) = _
  rw [hactual, decodeTextFile_utf8]
  rfl

namespace StreamState

variable {range : ReadRange}

theorem start_atLine (hlimit : range.limit ≠ some 0) : start.AtLine range := by
  refine ⟨rfl, rfl, .inl ⟨Nat.zero_le _, rfl⟩, ?_⟩
  rw [Bool.eq_false_iff]
  intro hpast
  obtain ⟨limit, hsome, hle⟩ := pastEnd_iff.mp hpast
  have hzero : start.currentIndex = 0 := rfl
  obtain rfl : limit = 0 := by omega
  exact hlimit hsome

variable (hbudget : 0 < range.maxOutputTokens)
include hbudget

/-- An empty chunk at the start of the file has the line number to count, one digit and a tab. -/
theorem start_endChunk : start.endChunk range [] = .ok start := by
  unfold endChunk
  split
  · next hin =>
    have hfirst : range.offset = 0 ∨ range.offset = 1 := by
      have hle : range.startIndex ≤ 0 := startIndex_le hin
      unfold ReadRange.startIndex at hle
      omega
    have htokens : approxTokensFromByteCount (start.bytesWithLine range 0) = 1 := by
      show approxTokensFromByteCount (0 + (byteLen (Nat.toDigits 10 range.offset) + 1 + 0 + 0)) = 1
      rcases hfirst with h | h <;> rw [h] <;> decide
    show (if approxTokensFromByteCount (start.bytesWithLine range 0) > _ then _ else _) = _
    rw [if_neg (by omega)]
    rfl
  · rfl

/-- The chunks of an empty file leave the state as it is. -/
theorem readChunks_empty (chunks : List Bytes) (h : chunks.flatten = []) :
    start.readChunks range 0 false (chunks.map .ok) = .ok (start, false) := by
  induction chunks with
  | nil => rfl
  | cons _ _ ih =>
    obtain ⟨rfl, hrest⟩ := append_eq_nil_iff.mp h
    show (start.endChunk range [] >>= _) >>= _ = _
    rw [start_endChunk hbudget]
    exact ih hrest

end StreamState

/-- What the first line starts with, the text starts with. -/
theorem head?_of_first_line {c : Char} (hline : line ∈ (text.splitOn '\n').head?)
    (hc : line.head? = some c) : text.head? = some c := by
  obtain ⟨lines, hlines⟩ := head?_eq_some_iff.mp (Option.mem_def.mp hline)
  obtain ⟨rest, rfl⟩ := head?_eq_some_iff.mp hc
  have htext : ['\n'].intercalate (text.splitOn '\n') = text := intercalate_splitOn '\n'
  rw [← htext, hlines]
  rcases lines with - | ⟨next, lines⟩ <;> simp [List.intercalate]

/-- What the stream returns for a file of UTF-8 text that is not empty. -/
theorem readTextRangeStream_reads {range : ReadRange}
    (hchunks : chunks.flatten = utf8 text) (hsize : byteLen text ≤ maxExplicitRangeFileSize)
    (hlimit : range.limit ≠ some 0) (htext : text ≠ []) :
    StreamState.Reads range (selectedTexts range 0 (text.splitOn '\n')) (text.splitOn '\n').length
        (readTextRangeStream (streamedFile (utf8 text) chunks) range) ∨
      selectedTexts range 0 (text.splitOn '\n') ≠ [] ∧
      ∃ count, range.maxOutputTokens < count ∧
        count ≤ outputTokens range (selectedTexts range 0 (text.splitOn '\n')) + 1 ∧
        ((∀ chunk ∈ chunks, chunk.getLast? ≠ some 0x0D) →
          (range.startIndex = 0 → text.head? ≠ some byteOrderMark) →
          count ≤ outputTokens range (selectedTexts range 0 (text.splitOn '\n'))) ∧
        readTextRangeStream (streamedFile (utf8 text) chunks) range =
          .error (.outputTooLarge count range.maxOutputTokens) := by
  have hlines : chunks.flatten.splitOn 0x0A = (text.splitOn '\n').map utf8 := by
    rw [hchunks, utf8_splitOn]
  have hstart := start_atLine hlimit
  have hsize' : 0 + chunks.flatten.length ≤ maxExplicitRangeFileSize := by
    rw [Nat.zero_add, hchunks]
    exact hsize
  have hsaw : false = true ∨ chunks.flatten ≠ [] := by
    refine .inr fun hnil => htext ?_
    rw [hchunks] at hnil
    rw [← Option.some.injEq, ← fromUtf8_utf8, hnil]
    exact fromUtf8_utf8 []
  have hstream : _ = start.finishLines range _ ∨ _ :=
    readChunks_finish chunks hsize' hsaw (fun _ => by decide)
      fun hclean : ∀ chunk ∈ chunks, chunk.getLast? ≠ some 0x0D => hclean
  rw [readTextRangeStream_eq range hchunks (isUtf16Le_utf8 text)]
  rw [hlines] at hstream
  rcases hstream with heq | ⟨count, herror, hover⟩
  · rw [heq]
    refine .inl ?_
    have hreads := finishLines_reads hlimit (splitOn_ne_nil '\n' text) hstart
    rwa [show start.currentIndex = 0 from rfl, Nat.zero_add] at hreads
  · obtain ⟨hgt, hne, hle, hexact⟩ := hover.bound hlimit hstart
    refine .inr ⟨hne, count, hgt, hle, fun hclean hmark => hexact hclean ?_, ?_⟩
    · exact fun _ hzero line hline hhead => hmark hzero (head?_of_first_line hline hhead)
    · rw [herror]
      rfl

/-- The stream agrees with the buffered read: it returns what that returns, and fails where that
fails, for the same reason but with the count at which it stopped.  An output of exactly the budget
is left out where an unfinished line may have been measured with its carriage return or with the
byte order mark. -/
def AgreesWith (range : ReadRange) (text : Text) (chunks : List Bytes)
    (stream buffered : Except ReadError (Text × Text)) : Prop :=
  match buffered with
  | .ok result =>
    (approxTokenCount result.1 = range.maxOutputTokens →
      (∀ chunk ∈ chunks, chunk.getLast? ≠ some 0x0D) ∧
        (range.startIndex = 0 → text.head? ≠ some byteOrderMark)) →
    stream = .ok result
  | .error _ =>
    ∃ count total, range.maxOutputTokens < count ∧ range.maxOutputTokens < total ∧
      buffered = .error (.outputTooLarge total range.maxOutputTokens) ∧
      stream = .error (.outputTooLarge count range.maxOutputTokens)

/-- **Streaming Read and buffered Read.**  For every text and every way its bytes are cut, the
stream agrees with the buffered read of the whole file. -/
theorem readTextRangeStream_agrees (range : ReadRange) (text : Text) (chunks : List Bytes)
    (hchunks : chunks.flatten = utf8 text) (hsize : byteLen text ≤ maxExplicitRangeFileSize)
    (hlimit : range.limit ≠ some 0) (hempty : text = [] → 0 < range.maxOutputTokens)
    (hmark : text ≠ [byteOrderMark])
    (hreturns : ∀ line ∈ select range 0 (text.splitOn '\n').dropLast,
      (popLast '\r' line).getLast? ≠ some '\r') :
    AgreesWith range text chunks (readTextRangeStream (streamedFile (utf8 text) chunks) range)
      (readTextRangeBuffered (.ok (utf8 text)) range.offset range.limit range.maxOutputTokens) := by
  rw [readTextRangeBuffered_utf8 range hsize]
  rcases eq_or_ne text [] with rfl | htext
  · -- an empty file
    intro _
    rw [readTextRangeStream_eq range hchunks rfl, StreamState.readChunks_empty (hempty rfl) chunks hchunks]
    rfl
  · have hnorm : normalizeFileContent text ≠ [] := fun hnil =>
      (normalizeFileContent_eq_nil.mp hnil).elim htext hmark
    have hbuffered := readTextRangeWithState_eq range hnorm hreturns
    have hstream := readTextRangeStream_reads hchunks hsize hlimit htext
    by_cases hgt : outputTokens range (selectedTexts range 0 (text.splitOn '\n')) >
        range.maxOutputTokens
    · rw [if_pos hgt] at hbuffered
      rw [hbuffered]
      rcases hstream with hreads | ⟨-, count, hcount, -, -, herror⟩
      · obtain ⟨count, hcount, herror⟩ := hreads.exceeds hgt
        exact ⟨count, _, hcount, hgt, rfl, herror⟩
      · exact ⟨count, _, hcount, hgt, rfl, herror⟩
    · rw [if_neg hgt] at hbuffered
      rw [hbuffered]
      intro hexact
      rcases hstream with hreads | ⟨hne, count, hcount, hle, hclean, -⟩
      · exact hreads.fits (Nat.not_lt.mp hgt)
      -- the check at the end of a chunk fails only for an output of exactly the budget
      have htokens : approxTokenCount (readOutput range
          (selectedTexts range 0 (text.splitOn '\n')) (text.splitOn '\n').length).1 =
          outputTokens range (selectedTexts range 0 (text.splitOn '\n')) := by
        rw [readOutput, if_neg hne]
        rfl
      obtain ⟨hcr, hbom⟩ := hexact (htokens.trans (by omega))
      have := hclean hcr hbom
      omega

/-- Two lines read in two chunks, the second of them the end of the first line. -/
theorem crlfLines_agree :
    AgreesWith ⟨1, some 2, 4⟩ "one\r\ntwo".toList [utf8 "on".toList, utf8 "e\r\ntwo".toList]
      (readTextRangeStream (streamedFile (utf8 "one\r\ntwo".toList)
        [utf8 "on".toList, utf8 "e\r\ntwo".toList]) ⟨1, some 2, 4⟩)
      (readTextRangeBuffered (.ok (utf8 "one\r\ntwo".toList)) 1 (some 2) 4) :=
  readTextRangeStream_agrees ⟨1, some 2, 4⟩ _ _ (by decide) (by decide) (by decide) (by decide)
    (by decide) (by decide)

/-- **The counts differ.**  The stream stops at the first of two lines, which already exceeds the
budget; the buffered read counts both. -/
theorem token_counts_differ :
    readTextRangeStream (streamedFile (utf8 "aaaa\nbbbb".toList) [utf8 "aaaa\nbbbb".toList])
        ⟨1, none, 1⟩ = .error (.outputTooLarge 2 1) ∧
      readTextRangeBuffered (.ok (utf8 "aaaa\nbbbb".toList)) 1 none 1 =
        .error (.outputTooLarge 4 1) := by
  constructor
  · rw [readTextRangeStream_eq _ (append_nil _) (isUtf16Le_utf8 _)]
    have hend : StreamState.start.endLine ⟨1, none, 1⟩ (utf8 "aaaa".toList) =
        .error (.outputTooLarge 2 1) := by
      decide
    rfl
  · rw [readTextRangeBuffered_utf8 ⟨1, none, 1⟩ (by decide)]
    decide

end FileRead

end CodexPlus
