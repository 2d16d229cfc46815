/-
CodexPlus/FileReadStream.lean

The streamed read against the buffered one.

The chunks of a stream may end anywhere, inside a line and inside a character.
What the stream computes is nevertheless determined by the lines of the whole
file (`finishLines`), up to the check at the end of each chunk, which measures an
unfinished line with the byte order mark and the carriage return that its text
will lose (`CutOverflow`).
-/
import CodexPlus.FileRead
import CodexPlus.Text

namespace CodexPlus

open List

namespace FileRead

open EncodedLines

/-! ### The bytes of a line -/

variable {c : Char} {byte : UInt8}

/-- A byte below `0x80` is a character of its own. -/
theorem toNat_of_mem_utf8EncodeChar
    (h : byte ∈ String.utf8EncodeChar c) (hbyte : byte.toNat < 0x80) :
    c.val.toNat = byte.toNat := by
  unfold String.utf8EncodeChar at h
  simp only at h
  split at h
  · next hascii =>
    rw [mem_singleton.mp h, UInt8.toNat_ofNat']
    omega
  · -- every other byte has its highest bit set
    split at h
    · simp only [mem_cons, not_mem_nil, or_false] at h
      rcases h with rfl | rfl <;> simp only [UInt8.toNat_ofNat'] at hbyte <;> omega
    · split at h
      · simp only [mem_cons, not_mem_nil, or_false] at h
        rcases h with rfl | rfl | rfl <;> simp only [UInt8.toNat_ofNat'] at hbyte <;> omega
      · simp only [mem_cons, not_mem_nil, or_false] at h
        rcases h with rfl | rfl | rfl | rfl <;> simp only [UInt8.toNat_ofNat'] at hbyte <;> omega

theorem utf8_marks (hc : String.utf8EncodeChar c = [byte])
    (hbyte : byte.toNat < 0x80) : Marks String.utf8EncodeChar c byte where
  nonempty := fun _ => String.utf8EncodeChar_ne_nil
  self := hc
  other := fun d hd hmem => by
    have hcval := toNat_of_mem_utf8EncodeChar (c := c) (by rw [hc]; simp) hbyte
    have hdval := toNat_of_mem_utf8EncodeChar hmem hbyte
    exact hd (Char.ext (UInt32.toNat_inj.mp (hdval.trans hcval.symm)))

theorem newline_marks : Marks String.utf8EncodeChar '\n' 0x0A := utf8_marks rfl (by decide)

theorem carriageReturn_marks : Marks String.utf8EncodeChar '\r' 0x0D := utf8_marks rfl (by decide)

variable (text : Text)

theorem utf8_splitOn : (utf8 text).splitOn 0x0A = (text.splitOn '\n').map utf8 :=
  splitOn_flatMap newline_marks text

theorem popLast_utf8 : popLast 0x0D (utf8 text) = utf8 (popLast '\r' text) :=
  popLast_flatMap carriageReturn_marks text

theorem fromUtf8_utf8 : fromUtf8 (utf8 text) = some text := by
  have hdecode : (utf8 text).toByteArray.utf8Decode? = some text.toArray :=
    utf8Decode?_utf8Encode
  rw [fromUtf8, hdecode]
  rfl

/-! ### The lines behind the chunks -/

variable {clean : Prop} {text : Text} {count : ℕ}

namespace StreamState

variable {range : ReadRange} {s s' : StreamState}

/-- The output for the selected lines. -/
def result (range : ReadRange) (s : StreamState) : Except ReadError (Text × Text) :=
  if s.selectedLines = [] then .ok (shorterThanOffset range.offset (s.currentIndex + 1), [])
  else do
    validateReadOutputSize (renderLines range.offset s.selectedLines) range.maxOutputTokens
    .ok (renderLines range.offset s.selectedLines, joinLines s.selectedLines)

theorem finish_eq (range : ReadRange) (s : StreamState) :
    s.finish range true = (s.endLine range [] >>= fun s => s.result range) := rfl

def nextIndex (s : StreamState) : StreamState := { s with currentIndex := s.currentIndex + 1 }

/-- The read of the rest of a file, given by its lines; the first one continues the line that the
state has begun. -/
def finishLines (range : ReadRange) (s : StreamState) : List Bytes → Except ReadError (Text × Text)
  | [] => s.result range
  | [last] => s.endLine range last >>= fun s => s.result range
  | line :: next :: lines => do
    let s ← s.endLine range line
    if range.pastEnd s.nextIndex.currentIndex then s.nextIndex.result range
    else s.nextIndex.finishLines range (next :: lines)

variable {lines : List Bytes} {segment : Bytes}

theorem finishLines_cons (line : Bytes) (h : lines ≠ []) :
    s.finishLines range (line :: lines) =
      (s.endLine range line >>= fun s =>
        if range.pastEnd s.nextIndex.currentIndex then s.nextIndex.result range
        else s.nextIndex.finishLines range lines) := by
  rcases lines with - | ⟨next, lines⟩
  · exact absurd rfl h
  · rfl

/-- The state with the first bytes of its line. -/
def absorb (range : ReadRange) (s : StreamState) (segment : Bytes) : StreamState :=
  if range.contains s.currentIndex then { s with selectedLine := s.selectedLine ++ segment } else s

theorem endLine_absorb (segment line : Bytes) :
    (s.absorb range segment).endLine range line = s.endLine range (segment ++ line) := by
  unfold absorb endLine
  by_cases h : range.contains s.currentIndex = true <;> simp [h]

theorem finishLines_absorb (segment : Bytes) (h : lines ≠ []) :
    (s.absorb range segment).finishLines range lines =
      s.finishLines range (lines.modifyHead (segment ++ ·)) := by
  rcases lines with - | ⟨line, lines⟩
  · exact absurd rfl h
  · rcases lines with - | ⟨next, lines⟩
    all_goals exact congrArg (· >>= _) (endLine_absorb segment line)

theorem splitOn_segment (h : 0x0A ∉ segment) (more : Bytes) :
    (segment ++ more).splitOn 0x0A = (more.splitOn 0x0A).modifyHead (segment ++ ·) := by
  induction segment with
  | nil =>
    rcases hsplit : more.splitOn 0x0A with - | ⟨line, lines⟩
    · exact absurd hsplit (splitOn_ne_nil _ _)
    · rw [nil_append, hsplit]
      rfl
  | cons byte _ ih =>
    have hbyte : byte ≠ 0x0A := fun heq => h (heq ▸ mem_cons_self)
    rw [cons_append, splitOn_cons_eq_if_modifyHead, if_neg (by simpa using hbyte),
      ih fun hmem => h (mem_cons_of_mem _ hmem)]
    rcases more.splitOn 0x0A with - | ⟨line, lines⟩ <;> rfl

/-- A check at the end of a chunk failed: the bytes of the unfinished line exceed the budget with
the lines before it.  `clean` says that no chunk ends in a carriage return. -/
inductive CutOverflow (range : ReadRange) (clean : Prop) : StreamState → List Bytes → ℕ → Prop
  | here {s : StreamState} {line part : Bytes} {lines : List Bytes} {count : ℕ}
      (hpart : part <+: line) (hin : range.contains s.currentIndex = true)
      (hcount : count =
        approxTokensFromByteCount (s.bytesWithLine range (s.selectedLine ++ part).length))
      (hgt : range.maxOutputTokens < count)
      (hclean : clean → (s.selectedLine ++ part).getLast? ≠ some 0x0D) :
      CutOverflow range clean s (line :: lines) count
  | later {s s' : StreamState} {line : Bytes} {lines : List Bytes} {count : ℕ}
      (hline : s.endLine range line = .ok s')
      (hpast : range.pastEnd s'.nextIndex.currentIndex = false)
      (h : CutOverflow range clean s'.nextIndex lines count) :
      CutOverflow range clean s (line :: lines) count

variable {α β : Type}

theorem bind_error (error : ReadError) (f : α → Except ReadError β) :
    ((.error error : Except ReadError α) >>= f) = .error error := rfl

/-- What remains to be done after a chunk. -/
def resume (range : ReadRange) (more : Bytes) (outcome : StreamState × Bool) :
    Except ReadError (Text × Text) :=
  if outcome.2 then outcome.1.result range
  else outcome.1.finishLines range (more.splitOn 0x0A)

/-- The line text at an index of the file. -/
def shownText (index : ℕ) (text : Text) : Text := if index = 0 then stripBom text else text

theorem endLine_of_not_contains (h : range.contains s.currentIndex = false) (segment : Bytes) :
    s.endLine range segment = .ok s := if_neg (by simp [h])

/-- A line in the range, once its bytes are decoded. -/
theorem endLine_of_contains (h : range.contains s.currentIndex)
    (htext : fromUtf8 (popLast 0x0D (s.selectedLine ++ segment)) = some text) :
    s.endLine range segment =
      if approxTokensFromByteCount
          (s.bytesWithLine range (byteLen (shownText s.currentIndex text))) > range.maxOutputTokens
      then .error (.outputTooLarge (approxTokensFromByteCount
        (s.bytesWithLine range (byteLen (shownText s.currentIndex text)))) range.maxOutputTokens)
      else .ok (s.addLine range (shownText s.currentIndex text)) := by
  rw [endLine, if_pos h, pushStreamedLine]
  simp only [htext]
  rfl

theorem endLine_selectedLine (h : s.endLine range segment = .ok s') :
    s'.selectedLine = [] ∨ s' = s := by
  rcases hin : range.contains s.currentIndex with - | -
  · rw [endLine_of_not_contains hin] at h
    cases h
    exact .inr rfl
  · rcases htext : fromUtf8 (popLast 0x0D (s.selectedLine ++ segment)) with - | text
    · rw [endLine, if_pos hin, pushStreamedLine] at h
      simp only [htext] at h
      cases h
    · rw [endLine_of_contains hin htext] at h
      split at h
      · cases h
      · cases h
        exact .inl rfl

theorem endLine_clean (h : s.endLine range segment = .ok s')
    (hline : s.selectedLine.getLast? ≠ some 0x0D) : s'.selectedLine.getLast? ≠ some 0x0D := by
  rcases endLine_selectedLine h with hnil | rfl
  · rw [hnil]
    simp
  · exact hline

variable {bytes segment : Bytes}

theorem getLast?_after_newline
    (h : (segment ++ 0x0A :: bytes).getLast? ≠ some 0x0D) : bytes.getLast? ≠ some 0x0D := by
  rcases eq_or_ne bytes [] with rfl | hne
  · simp
  · rwa [getLast?_append_of_ne_nil _ (cons_ne_nil _ _), getLast?_cons_of_ne_nil hne] at h

/-- The end of a chunk keeps what there is of a line, unless that is too large already. -/
theorem endChunk_cases (range : ReadRange) (s : StreamState) (segment : Bytes) :
    s.endChunk range segment = .ok (s.absorb range segment) ∨
      ∃ count, s.endChunk range segment = .error (.outputTooLarge count range.maxOutputTokens) ∧
        range.contains s.currentIndex ∧ count = approxTokensFromByteCount
          (s.bytesWithLine range (s.selectedLine ++ segment).length) ∧
        count > range.maxOutputTokens := by
  unfold endChunk absorb
  split
  · next hin =>
    dsimp only
    split
    · next hgt => exact .inr ⟨_, rfl, hin, rfl, hgt⟩
    · exact .inl rfl
  · exact .inl rfl

theorem getLast?_append_ne (hline : s.selectedLine.getLast? ≠ some 0x0D)
    (hsegment : segment.getLast? ≠ some 0x0D) :
    (s.selectedLine ++ segment).getLast? ≠ some 0x0D := by
  rcases eq_or_ne segment [] with rfl | hne
  · rwa [append_nil]
  · rwa [getLast?_append_of_ne_nil _ hne]

/-- **One chunk.**  Reading the bytes of a chunk and then the rest is reading the lines of both,
unless the check at the end of the chunk fails. -/
theorem readBytes_resume (bytes more : Bytes)
    (hsegment : 0x0A ∉ segment) (hline : clean → s.selectedLine.getLast? ≠ some 0x0D)
    (hbytes : clean → (segment ++ bytes).getLast? ≠ some 0x0D) :
    (s.readBytes range segment bytes >>= resume range more) =
        s.finishLines range ((segment ++ bytes ++ more).splitOn 0x0A) ∨
      ∃ count, s.readBytes range segment bytes =
          .error (.outputTooLarge count range.maxOutputTokens) ∧
        CutOverflow range clean s ((segment ++ bytes ++ more).splitOn 0x0A) count := by
  induction bytes generalizing s segment with
  | nil =>
    rw [append_nil] at hbytes ⊢
    rw [splitOn_segment hsegment, ← finishLines_absorb segment (splitOn_ne_nil _ _)]
    have hread : s.readBytes range segment [] =
        (s.endChunk range segment >>= fun s => .ok (s, false)) := rfl
    rcases endChunk_cases range s segment with hend | ⟨count, hend, hin, hcount, hgt⟩
    · rw [hread, hend]
      exact .inl rfl
    · -- the check fails
      refine .inr ⟨count, by rw [hread, hend, bind_error], ?_⟩
      rcases hsplit : more.splitOn 0x0A with - | ⟨line, lines⟩
      · exact absurd hsplit (splitOn_ne_nil _ _)
      · exact .here (prefix_append segment line) hin hcount hgt fun hclean =>
          getLast?_append_ne (hline hclean) (hbytes hclean)
  | cons byte bytes ih =>
    by_cases hbyte : byte = 0x0A
    · -- a line ends
      subst hbyte
      have hsplit : (segment ++ 0x0A :: bytes ++ more).splitOn 0x0A =
          segment :: (bytes ++ more).splitOn 0x0A := by
        rw [append_assoc, cons_append, splitOn_append_cons_self_of_not_mem hsegment]
      have hread : s.readBytes range segment (0x0A :: bytes) =
          (s.endLine range segment >>= fun s =>
            if range.pastEnd s.nextIndex.currentIndex then .ok (s.nextIndex, true)
            else s.nextIndex.readBytes range [] bytes) := rfl
      rw [hsplit, hread, finishLines_cons segment (splitOn_ne_nil _ _)]
      rcases hend : s.endLine range segment with error | s'
      · exact .inl rfl
      simp [ok_bind]
      by_cases hpast : range.pastEnd s'.nextIndex.currentIndex = true
      · rw [if_pos hpast, if_pos hpast]
        exact .inl rfl
      · rw [if_neg hpast, if_neg hpast]
        rcases ih (s := s'.nextIndex) not_mem_nil
            (fun hclean => show s'.selectedLine.getLast? ≠ _ from endLine_clean hend (hline hclean))
            (fun hclean => getLast?_after_newline (hbytes hclean)) with
          heq | ⟨count, herror, hover⟩
        · exact .inl heq
        · exact .inr ⟨count, herror, .later hend (by simpa using hpast) hover⟩
    · have hstep : s.readBytes range segment (byte :: bytes) =
          s.readBytes range (segment ++ [byte]) bytes := if_pos hbyte
      have happend : segment ++ byte :: bytes = segment ++ [byte] ++ bytes :=
        append_cons segment byte bytes
      rw [hstep, happend]
      rw [happend] at hbytes
      exact ih (by simp [hsegment, Ne.symm hbyte]) hline hbytes

theorem eq_absorb_of_endChunk (h : s.endChunk range segment = .ok s') :
    s' = s.absorb range segment := by
  rcases endChunk_cases range s segment with hend | ⟨count, hend, -⟩
  · exact Except.ok.inj (h.symm.trans hend)
  · cases h.symm.trans hend

/-- What a chunk leaves behind: nothing more is read after the range, and an unfinished line ends
as the chunks do. -/
theorem readBytes_ok {complete : Bool} (hline : clean → s.selectedLine.getLast? ≠ some 0x0D)
    (hbytes : clean → (segment ++ bytes).getLast? ≠ some 0x0D)
    (h : s.readBytes range segment bytes = .ok (s', complete)) :
    (complete → range.pastEnd s'.currentIndex ∧ bytes ≠ []) ∧
      (clean → s'.selectedLine.getLast? ≠ some 0x0D) := by
  induction bytes generalizing s segment with
  | nil =>
    rw [append_nil] at hbytes
    obtain ⟨s₁, hend, h⟩ := bind_eq_ok.mp h
    cases h
    rw [eq_absorb_of_endChunk hend]
    refine ⟨fun hfalse => absurd hfalse (by simp), fun hclean => ?_⟩
    unfold absorb
    split
    · exact getLast?_append_ne (hline hclean) (hbytes hclean)
    · exact hline hclean
  | cons byte _ ih =>
    by_cases hbyte : byte = 0x0A
    · subst hbyte
      obtain ⟨s₁, hend, h⟩ := bind_eq_ok.mp h
      have hline₁ : clean → s₁.selectedLine.getLast? ≠ some 0x0D := fun hclean =>
        endLine_clean hend (hline hclean)
      dsimp only at h
      split at h
      · next hpast =>
        cases h
        exact ⟨fun _ => ⟨hpast, by simp⟩, hline₁⟩
      · obtain ⟨hcomplete, hclean⟩ := ih (s := s₁.nextIndex) hline₁
          (fun hclean => getLast?_after_newline (hbytes hclean)) h
        exact ⟨fun htrue => ⟨(hcomplete htrue).1, by simp⟩, hclean⟩
    · rw [readBytes, if_pos hbyte] at h
      rw [append_cons] at hbytes
      obtain ⟨hcomplete, hclean⟩ := ih hline hbytes h
      exact ⟨fun htrue => ⟨(hcomplete htrue).1, by simp⟩, hclean⟩

theorem absorb_currentIndex (segment : Bytes) :
    (s.absorb range segment).currentIndex = s.currentIndex := by
  unfold absorb
  split <;> rfl

theorem CutOverflow.of_absorb (h : CutOverflow range clean (s.absorb range segment) lines count) :
    CutOverflow range clean s (lines.modifyHead (segment ++ ·)) count := by
  rcases h with ⟨hpart, hin, hcount, hgt, hclean⟩ | ⟨hline, hpast, h⟩
  · rw [absorb_currentIndex] at hin
    rw [show s.absorb range segment = { s with selectedLine := s.selectedLine ++ segment } from
      if_pos hin] at hcount hclean
    simp only [append_assoc] at hcount hclean
    exact .here ((prefix_append_right_inj segment).mpr hpart) hin hcount hgt hclean
  · rw [endLine_absorb] at hline
    exact .later hline hpast h

/-- A check that fails in a later chunk. -/
theorem CutOverflow.of_readBytes {more : Bytes}
    (hsegment : 0x0A ∉ segment) (hread : s.readBytes range segment bytes = .ok (s', false))
    (h : CutOverflow range clean s' (more.splitOn 0x0A) count) :
    CutOverflow range clean s ((segment ++ bytes ++ more).splitOn 0x0A) count := by
  induction bytes generalizing s segment with
  | nil =>
    rw [append_nil, splitOn_segment hsegment]
    obtain ⟨s₁, hend, hread⟩ := bind_eq_ok.mp hread
    cases hread
    rw [eq_absorb_of_endChunk hend] at h
    exact h.of_absorb
  | cons byte _ ih =>
    by_cases hbyte : byte = 0x0A
    · subst hbyte
      rw [append_assoc, cons_append, splitOn_append_cons_self_of_not_mem hsegment]
      obtain ⟨s₁, hend, hread⟩ := bind_eq_ok.mp hread
      dsimp only at hread
      split at hread
      · cases hread
      · next hpast =>
        exact .later hend (by simpa [nextIndex] using hpast)
          (ih (s := s₁.nextIndex) not_mem_nil hread)
    · rw [readBytes, if_pos hbyte] at hread
      rw [append_cons]
      exact ih (by simp [hsegment, Ne.symm hbyte]) hread

/-- **All chunks.**  The stream reads the lines of the file, unless the check at the end of a chunk
fails. -/
theorem readChunks_finish {totalBytes : ℕ} {sawBytes : Bool} (chunks : List Bytes)
    (hsize : totalBytes + chunks.flatten.length ≤ maxExplicitRangeFileSize)
    (hsaw : sawBytes ∨ chunks.flatten ≠ [])
    (hline : clean → s.selectedLine.getLast? ≠ some 0x0D)
    (hchunks : clean → ∀ chunk ∈ chunks, chunk.getLast? ≠ some 0x0D) :
    (s.readChunks range totalBytes sawBytes (chunks.map .ok) >>= fun (s, sawBytes) =>
        s.finish range sawBytes) = s.finishLines range (chunks.flatten.splitOn 0x0A) ∨
      ∃ count, s.readChunks range totalBytes sawBytes (chunks.map .ok) =
          .error (.outputTooLarge count range.maxOutputTokens) ∧
        CutOverflow range clean s (chunks.flatten.splitOn 0x0A) count := by
  induction chunks generalizing s totalBytes sawBytes with
  | nil =>
    obtain rfl : sawBytes = true := hsaw.resolve_right (by simp)
    exact .inl rfl
  | cons chunk chunks ih =>
    rw [flatten_cons, length_append, ← Nat.add_assoc] at hsize
    rw [flatten_cons] at hsaw ⊢
    have hbytes : clean → ([] ++ chunk).getLast? ≠ some 0x0D := fun hclean =>
      hchunks hclean chunk mem_cons_self
    have hrest : clean → ∀ other ∈ chunks, other.getLast? ≠ some 0x0D := fun hclean other hother =>
      hchunks hclean other (mem_cons_of_mem _ hother)
    have hread : s.readChunks range totalBytes sawBytes ((chunk :: chunks).map .ok) =
        (s.readBytes range [] chunk >>= fun (s, complete) =>
          if complete then .ok (s, sawBytes || ! chunk.isEmpty)
          else s.readChunks range (totalBytes + chunk.length) (sawBytes || ! chunk.isEmpty)
            (chunks.map .ok)) := if_neg (by omega)
    have hchunk : (s.readBytes range [] chunk >>= resume range chunks.flatten) = _ ∨ _ :=
      readBytes_resume chunk chunks.flatten not_mem_nil hline hbytes
    rw [nil_append] at hchunk
    rw [hread]
    rcases hchunk with heq | ⟨count, herror, hover⟩
    · rw [← heq]
      rcases houtcome : s.readBytes range [] chunk with error | ⟨s₁, complete⟩
      · exact .inl rfl
      obtain ⟨hcomplete, hclean⟩ := readBytes_ok hline hbytes houtcome
      rcases complete with - | -
      · -- the next chunk goes on
        have hsaw₁ : (sawBytes || ! chunk.isEmpty) = true ∨ chunks.flatten ≠ [] := by
          rcases hsaw with hsaw | hsaw
          · exact .inl (by simp [hsaw])
          · rcases eq_or_ne chunk [] with rfl | hne
            · exact .inr (by simpa using hsaw)
            · exact .inl (by simp [hne])
        rcases ih (s := s₁) hsize hsaw₁ hclean hrest with heq₁ | ⟨count, herror, hover⟩
        · exact .inl heq₁
        · refine .inr ⟨count, herror, ?_⟩
          have hover' := CutOverflow.of_readBytes not_mem_nil houtcome hover
          rwa [nil_append] at hover'
      · -- the range is complete
        obtain ⟨hpast, hne⟩ := hcomplete rfl
        refine .inl ?_
        have hout : range.contains s₁.currentIndex = false := by
          simp [ReadRange.contains, hpast]
        have hsaw₁ : (sawBytes || ! chunk.isEmpty) = true := by simp [hne]
        show s₁.finish range (sawBytes || ! chunk.isEmpty) = s₁.result range
        rw [hsaw₁, finish_eq, endLine_of_not_contains hout]
        rfl
    · refine .inr ⟨count, ?_, hover⟩
      rw [herror]
      rfl

end StreamState

/-! ### The lines of the range -/

/-- The elements of a list at the indices of the range, the first element being at `index`. -/
def select {α : Type} (range : ReadRange) (index : ℕ) : List α → List α
  | [] => []
  | x :: xs =>
    if range.contains index then x :: select range (index + 1) xs else select range (index + 1) xs

variable {range : ReadRange} {index : ℕ}

theorem pastEnd_iff :
    range.pastEnd index ↔ ∃ limit, range.limit = some limit ∧ range.startIndex + limit ≤ index := by
  simp [ReadRange.pastEnd, Option.any_eq_true]

theorem startIndex_le (h : range.contains index) : range.startIndex ≤ index := by
  simp only [ReadRange.contains, Bool.and_eq_true, decide_eq_true_eq] at h
  exact h.1

theorem contains_of_lt (h : index < range.startIndex) : range.contains index = false := by
  simp [ReadRange.contains, Nat.not_le.mpr h]

theorem pastEnd_succ (h : range.pastEnd index) : range.pastEnd (index + 1) := by
  obtain ⟨limit, hlimit, hle⟩ := pastEnd_iff.mp h
  exact pastEnd_iff.mpr ⟨limit, hlimit, by omega⟩

section Select

variable {α : Type} {range : ReadRange}

theorem select_of_pastEnd (h : range.pastEnd index) (xs : List α) : select range index xs = [] := by
  induction xs generalizing index with
  | nil => rfl
  | cons _ _ ih => rw [select, if_neg (by simp [ReadRange.contains, h]), ih (pastEnd_succ h)]

theorem select_before (h : index ≤ range.startIndex) (xs : List α) :
    select range index xs = select range range.startIndex (xs.drop (range.startIndex - index)) := by
  induction xs generalizing index with
  | nil => rw [drop_nil, select, select]
  | cons _ _ ih =>
    rcases Nat.eq_or_lt_of_le h with rfl | hlt
    · rw [Nat.sub_self, drop_zero]
    · obtain ⟨k, hk⟩ : ∃ k, range.startIndex - index = k + 1 := ⟨range.startIndex - index - 1, by omega⟩
      rw [select, if_neg (by simp [contains_of_lt hlt]), ih hlt, hk, drop_succ_cons,
        show range.startIndex - (index + 1) = k by omega]

theorem select_from (k : ℕ) (xs : List α) :
    select range (range.startIndex + k) xs = takeLimit (range.limit.map (· - k)) xs := by
  induction xs generalizing k with
  | nil => cases hlimit : range.limit <;> simp [select, takeLimit]
  | cons _ _ ih =>
    have hnext := ih (k + 1)
    rw [← Nat.add_assoc] at hnext
    rcases hlimit : range.limit with - | limit
    · rw [select, if_pos (by simp [ReadRange.contains, ReadRange.pastEnd, hlimit]), hnext, hlimit]
      rfl
    · by_cases hk : k < limit
      · obtain ⟨j, hj⟩ : ∃ j, limit - k = j + 1 := ⟨limit - k - 1, by omega⟩
        rw [select, if_pos (by simp [ReadRange.contains, ReadRange.pastEnd, hlimit, hk]), hnext,
          hlimit]
        simp [takeLimit, hj, show limit - (k + 1) = j by omega]
      · rw [select_of_pastEnd (pastEnd_iff.mpr ⟨limit, hlimit, by omega⟩)]
        simp [takeLimit, Nat.sub_eq_zero_of_le (Nat.not_lt.mp hk)]

/-- The range is what `skip` and `take` leave. -/
theorem select_eq (xs : List α) :
    select range 0 xs = takeLimit range.limit (xs.drop range.startIndex) := by
  have hfrom : select range (range.startIndex + 0) (xs.drop range.startIndex) = _ := select_from 0 _
  rw [select_before (Nat.zero_le _), Nat.sub_zero]
  rw [Nat.add_zero] at hfrom
  rw [hfrom]
  cases range.limit <;> rfl

end Select

/-! ### The bytes of the output -/

theorem byteLen_append (a b : Text) : byteLen (a ++ b) = byteLen a + byteLen b := by
  rw [byteLen, utf8, flatMap_append, length_append]
  rfl

variable {lines : List Text}

theorem joinLines_concat (h : lines ≠ []) (line : Text) :
    joinLines (lines ++ [line]) = joinLines lines ++ '\n' :: line := by
  induction lines with
  | nil => exact absurd rfl h
  | cons _ lines ih =>
    rcases eq_or_ne lines [] with rfl | hne
    · rw [joinLines, joinLines, cons_append, nil_append,
        intercalate_cons_of_ne_nil (by simp), intercalate_singleton,
        intercalate_singleton, append_assoc, singleton_append]
    · unfold joinLines at ih ⊢
      rw [cons_append, intercalate_cons_of_ne_nil (by simp), ih hne, intercalate_cons_of_ne_nil hne]
      simp

variable (offset : ℕ)

theorem renderLines_concat (lines : List Text) (line : Text) :
    renderLines offset (lines ++ [line]) =
      if lines = [] then numberedLine offset line
      else renderLines offset lines ++ '\n' :: numberedLine (offset + lines.length) line := by
  unfold renderLines
  rw [zipIdx_append, map_append]
  split
  · next hnil =>
    subst hnil
    show joinLines [numberedLine offset line] = _
    rw [joinLines, intercalate_singleton]
  · next hne => exact joinLines_concat (by simpa using hne) _

theorem byteLen_renderLines_concat (lines : List Text) (line : Text) :
    byteLen (renderLines offset (lines ++ [line])) =
      byteLen (renderLines offset lines) +
        formattedLineBytes (offset + lines.length) (byteLen line) (! lines.isEmpty) := by
  have htab : byteLen ['\t'] = 1 := by decide
  have hnewline : byteLen ['\n'] = 1 := by decide
  have hnumbered : ∀ number, byteLen (numberedLine number line) =
      byteLen (Nat.toDigits 10 number) + 1 + byteLen line := fun number => by
    rw [numberedLine, byteLen_append, ← singleton_append, byteLen_append, htab, Nat.add_assoc]
  rw [renderLines_concat, formattedLineBytes]
  split
  · next hnil =>
    subst hnil
    have hzero : byteLen (renderLines offset []) = 0 := rfl
    rw [hnumbered, hzero]
    simp
  · next hne =>
    rw [byteLen_append, ← singleton_append, byteLen_append, hnumbered]
    simp [hne]
    omega

theorem byteLen_renderLines_le (lines more : List Text) :
    byteLen (renderLines offset lines) ≤ byteLen (renderLines offset (lines ++ more)) := by
  induction more using List.reverseRecOn with
  | nil => rw [append_nil]
  | append_singleton =>
    rw [← append_assoc, byteLen_renderLines_concat]
    omega

theorem approxTokens_mono {a b : ℕ} (h : a ≤ b) :
    approxTokensFromByteCount a ≤ approxTokensFromByteCount b := by
  unfold approxTokensFromByteCount
  omega

/-! ### What the stream computes from the lines -/

/-- The texts of the lines in the range. -/
def selectedTexts (range : ReadRange) (index : ℕ) : List Text → List Text
  | [] => []
  | line :: lines =>
    if range.contains index then
      StreamState.shownText index (popLast '\r' line) :: selectedTexts range (index + 1) lines
    else selectedTexts range (index + 1) lines

theorem selectedTexts_of_pastEnd (h : range.pastEnd index)
    (lines : List Text) : selectedTexts range index lines = [] := by
  induction lines generalizing index with
  | nil => rfl
  | cons _ _ ih =>
    rw [selectedTexts, if_neg (by simp [ReadRange.contains, h]), ih (pastEnd_succ h)]

/-- The output for the selected texts of a file with a number of lines. -/
def readOutput (range : ReadRange) (texts : List Text) (totalLines : ℕ) : Text × Text :=
  if texts = [] then (shorterThanOffset range.offset totalLines, [])
  else (renderLines range.offset texts, joinLines texts)

def outputTokens (range : ReadRange) (texts : List Text) : ℕ :=
  approxTokenCount (renderLines range.offset texts)

theorem outputTokens_nil (range : ReadRange) : outputTokens range [] = 0 := by
  show approxTokensFromByteCount 0 = 0
  decide

theorem outputTokens_mono (range : ReadRange) (texts more : List Text) :
    outputTokens range texts ≤ outputTokens range (texts ++ more) :=
  approxTokens_mono (byteLen_renderLines_le range.offset texts more)

namespace StreamState

variable {range : ReadRange} {s s' : StreamState}

/-- The state at the start of a line: the bytes counted are those of the output so far, and lines
have been selected once the range has begun. -/
structure AtLine (range : ReadRange) (s : StreamState) : Prop where
  selectedLine : s.selectedLine = []
  outputBytes : s.selectedOutputBytes = byteLen (renderLines range.offset s.selectedLines)
  position : s.currentIndex ≤ range.startIndex ∧ s.selectedLines = [] ∨
    range.startIndex < s.currentIndex ∧ s.selectedLines ≠ []
  notPast : range.pastEnd s.currentIndex = false

section

variable (h : s.AtLine range)
include h

theorem AtLine.bytesWithLine (text : Text) :
    s.bytesWithLine range (byteLen text) =
      byteLen (renderLines range.offset (s.selectedLines ++ [text])) := by
  rw [byteLen_renderLines_concat, ← h.outputBytes]
  rfl

theorem AtLine.lt_start (hout : range.contains s.currentIndex = false) :
    s.currentIndex < range.startIndex := by
  simpa [ReadRange.contains, h.notPast] using hout

/-- A line of the file that is not in the range. -/
theorem AtLine.skip (hlimit : range.limit ≠ some 0)
    (hout : range.contains s.currentIndex = false) : s.nextIndex.AtLine range := by
  have hlt := h.lt_start hout
  have hnil : s.selectedLines = [] := by
    rcases h.position with ⟨-, hnil⟩ | ⟨hgt, -⟩
    · exact hnil
    · omega
  refine ⟨h.selectedLine, h.outputBytes, .inl ⟨hlt, hnil⟩, ?_⟩
  rw [Bool.eq_false_iff]
  intro hpast
  obtain ⟨limit, hsome, hle⟩ := pastEnd_iff.mp hpast
  have hpos : limit ≠ 0 := fun hzero => hlimit (hzero ▸ hsome)
  have hidx : s.nextIndex.currentIndex = s.currentIndex + 1 := rfl
  omega

variable (hin : range.contains s.currentIndex)
include hin

/-- A line in the range, with its bytes in the encoding of its text. -/
theorem AtLine.endLine (line : Text) :
    s.endLine range (utf8 line) =
      if outputTokens range (s.selectedLines ++ [shownText s.currentIndex (popLast '\r' line)]) >
          range.maxOutputTokens
      then .error (.outputTooLarge (outputTokens range (s.selectedLines ++
        [shownText s.currentIndex (popLast '\r' line)])) range.maxOutputTokens)
      else .ok (s.addLine range (shownText s.currentIndex (popLast '\r' line))) := by
  have htext : fromUtf8 (popLast 0x0D (s.selectedLine ++ utf8 line)) = some (popLast '\r' line) := by
    rw [h.selectedLine, nil_append, popLast_utf8, fromUtf8_utf8]
  rw [endLine_of_contains hin htext, h.bytesWithLine]
  rfl

theorem AtLine.take (text : Text) (hpast : range.pastEnd (s.currentIndex + 1) = false) :
    (s.addLine range text).nextIndex.AtLine range := by
  refine ⟨rfl, h.bytesWithLine text, .inr ⟨?_, ?_⟩, hpast⟩
  · exact Nat.lt_succ_of_le (startIndex_le hin)
  · show s.selectedLines ++ [text] ≠ []
    simp

end

/-- The outcome of a read whose selected texts are known: the output if it fits the budget, and
otherwise the error, with a count that exceeds it. -/
structure Reads (range : ReadRange) (texts : List Text) (totalLines : ℕ)
    (outcome : Except ReadError (Text × Text)) : Prop where
  fits : outputTokens range texts ≤ range.maxOutputTokens →
    outcome = .ok (readOutput range texts totalLines)
  exceeds : range.maxOutputTokens < outputTokens range texts →
    ∃ count, range.maxOutputTokens < count ∧
      outcome = .error (.outputTooLarge count range.maxOutputTokens)

theorem Reads.of_ne_nil {texts : List Text} {total : ℕ} {outcome : Except ReadError (Text × Text)}
    (h : Reads range texts total outcome) (hne : texts ≠ []) (total' : ℕ) :
    Reads range texts total' outcome := by
  have hsame : readOutput range texts total = readOutput range texts total' := by
    rw [readOutput, if_neg hne, readOutput, if_neg hne]
  exact ⟨fun hfits => hsame ▸ h.fits hfits, h.exceeds⟩

theorem result_reads (s : StreamState) :
    Reads range s.selectedLines (s.currentIndex + 1) (s.result range) := by
  refine ⟨fun hfits => ?_, fun hexceeds => ?_⟩
  · unfold result readOutput
    split
    · rfl
    · have hvalid : validateReadOutputSize (renderLines range.offset s.selectedLines)
          range.maxOutputTokens = .ok () := if_neg (Nat.not_lt.mpr hfits)
      rw [hvalid]
      rfl
  · have hne : s.selectedLines ≠ [] := by
      intro hnil
      rw [hnil, outputTokens_nil] at hexceeds
      omega
    have hvalid : validateReadOutputSize (renderLines range.offset s.selectedLines)
        range.maxOutputTokens = .error _ := if_pos hexceeds
    refine ⟨_, hexceeds, ?_⟩
    rw [result, if_neg hne, hvalid]
    rfl

/-- **The read of the lines.**  It succeeds with the selected texts when these fit the budget, and
otherwise stops at the first one that does not. -/
theorem finishLines_reads (hlimit : range.limit ≠ some 0) (hne : lines ≠ []) (h : s.AtLine range) :
    Reads range (s.selectedLines ++ selectedTexts range s.currentIndex lines)
      (s.currentIndex + lines.length) (s.finishLines range (lines.map utf8)) := by
  induction lines generalizing s with
  | nil => exact absurd rfl hne
  | cons line lines ih =>
    rcases hin : range.contains s.currentIndex with - | -
    · -- the line is not selected
      rw [selectedTexts, if_neg (by simp [hin])]
      have hnext := h.skip hlimit hin
      rcases eq_or_ne lines [] with rfl | hmore
      · show Reads _ _ _ (s.endLine range (utf8 line) >>= _)
        rw [endLine_of_not_contains hin, selectedTexts, append_nil]
        exact result_reads s
      · rw [map_cons, finishLines_cons _ (by simpa using hmore), endLine_of_not_contains hin,
          ok_bind, if_neg (by simp [hnext.notPast]), length_cons, ← Nat.add_assoc,
          Nat.add_right_comm]
        exact ih hmore hnext
    · rw [selectedTexts, if_pos hin]
      by_cases hgt : outputTokens range (s.selectedLines ++
          [shownText s.currentIndex (popLast '\r' line)]) > range.maxOutputTokens
      · -- the budget is exceeded here, whatever follows
        have herror : s.finishLines range ((line :: lines).map utf8) =
            .error (.outputTooLarge (outputTokens range (s.selectedLines ++
              [shownText s.currentIndex (popLast '\r' line)])) range.maxOutputTokens) := by
          rcases lines with - | ⟨next, lines⟩
          all_goals
            show (s.endLine range (utf8 line) >>= _) = _
            rw [h.endLine hin, if_pos hgt, bind_error]
        refine ⟨fun hfits => absurd hfits (Nat.not_le.mpr ?_), fun _ => ⟨_, hgt, herror⟩⟩
        rw [append_cons]
        exact Nat.lt_of_lt_of_le hgt (outputTokens_mono range _ _)
      · rcases eq_or_ne lines [] with rfl | hmore
        · show Reads _ _ _ (s.endLine range (utf8 line) >>= _)
          rw [h.endLine hin, if_neg hgt]
          exact result_reads (s.addLine range _)
        · rw [map_cons, finishLines_cons _ (by simpa using hmore), h.endLine hin, if_neg hgt,
            ok_bind, show (s.addLine range (shownText s.currentIndex
              (popLast '\r' line))).nextIndex.currentIndex = s.currentIndex + 1 from rfl]
          by_cases hpast : range.pastEnd (s.currentIndex + 1) = true
          · -- the range ends with this line
            rw [if_pos hpast, selectedTexts_of_pastEnd hpast]
            refine (result_reads (s.addLine range _).nextIndex).of_ne_nil ?_ _
            show s.selectedLines ++ [_] ≠ []
            simp
          · have hpast' : range.pastEnd (s.currentIndex + 1) = false := by simpa using hpast
            rw [if_neg hpast, append_cons, length_cons, ← Nat.add_assoc, Nat.add_right_comm]
            exact ih hmore (h.take hin _ hpast')

/-! ### A failed check at the end of a chunk -/

theorem byteLen_stripBom (text : Text) : byteLen text ≤ byteLen (stripBom text) + 3 := by
  rcases text with - | ⟨c, rest⟩
  · exact Nat.zero_le _
  unfold stripBom
  simp only
  split
  · next hc =>
    subst hc
    have hmark : byteLen [byteOrderMark] = 3 := by decide
    rw [← singleton_append, byteLen_append]
    omega
  · omega

theorem byteLen_shownText (index : ℕ) (text : Text) :
    byteLen text ≤ byteLen (shownText index text) + 3 := by
  unfold shownText
  split
  · exact byteLen_stripBom text
  · omega

theorem length_le_popLast {line : Text} {part : Bytes} (hpart : part <+: utf8 line) :
    part.length ≤ byteLen (popLast '\r' line) + 1 ∧
      (part.getLast? ≠ some 0x0D → part.length ≤ byteLen (popLast '\r' line)) := by
  rcases popLast_cases '\r' line with ⟨-, heq⟩ | ⟨init, rfl, heq⟩
  · rw [heq]
    have hle : part.length ≤ byteLen line := hpart.length_le
    exact ⟨by omega, fun _ => hle⟩
  · have hutf8 : utf8 (init ++ ['\r']) = utf8 init ++ [0x0D] := by
      rw [utf8, flatMap_append]
      rfl
    rw [heq]
    rw [hutf8] at hpart
    rcases prefix_concat_iff.mp hpart with rfl | hinit
    · refine ⟨?_, fun hlast => absurd getLast?_concat hlast⟩
      rw [length_append]
      exact le_rfl
    · have hle : part.length ≤ byteLen init := hinit.length_le
      exact ⟨by omega, fun _ => hle⟩

theorem bytesWithLine_le {m n k : ℕ} (h : n ≤ m + k) :
    s.bytesWithLine range n ≤ s.bytesWithLine range m + k := by
  unfold bytesWithLine formattedLineBytes
  omega

theorem approxTokens_add_four (n : ℕ) :
    approxTokensFromByteCount (n + 4) = approxTokensFromByteCount n + 1 := by
  unfold approxTokensFromByteCount
  omega

theorem stripBom_eq_self (h : text.head? ≠ some byteOrderMark) : stripBom text = text := by
  rcases text with - | ⟨c, rest⟩
  · rfl
  · exact if_neg fun hc => h (by rw [hc]; rfl)

theorem shownText_eq_self
    (h : index = 0 → text.head? ≠ some byteOrderMark) : shownText index text = text := by
  unfold shownText
  split
  · next hzero => exact stripBom_eq_self (h hzero)
  · rfl

theorem head?_popLast_ne {line : Text} (h : line.head? ≠ some byteOrderMark) :
    (popLast '\r' line).head? ≠ some byteOrderMark := by
  intro hhead
  obtain ⟨rest, hrest⟩ := head?_eq_some_iff.mp hhead
  obtain ⟨tail, htail⟩ := popLast_isPrefix '\r' line
  rw [hrest] at htail
  exact h (by rw [← htail]; rfl)

/-- **The failed check.**  It counts at most four bytes more than the output will have, and none
where no chunk ends in a carriage return and no byte order mark is in the range. -/
theorem CutOverflow.bound (hlimit : range.limit ≠ some 0)
    (h : CutOverflow range clean s (lines.map utf8) count) (hs : s.AtLine range) :
    range.maxOutputTokens < count ∧
      s.selectedLines ++ selectedTexts range s.currentIndex lines ≠ [] ∧
      count ≤ outputTokens range (s.selectedLines ++ selectedTexts range s.currentIndex lines) + 1 ∧
      (clean → (s.currentIndex = 0 → range.startIndex = 0 → ∀ line ∈ lines.head?,
          line.head? ≠ some byteOrderMark) →
        count ≤ outputTokens range (s.selectedLines ++ selectedTexts range s.currentIndex lines)) := by
  induction lines generalizing s with
  | nil => cases h
  | cons line lines ih =>
    rcases h with ⟨hpart, hin, hcount, hgt, hclean⟩ | ⟨hline, hpast, h⟩
    · rw [hs.selectedLine, nil_append] at hcount hclean
      obtain ⟨hle, hleClean⟩ := length_le_popLast hpart
      have hshown := byteLen_shownText s.currentIndex (popLast '\r' line)
      -- the line is part of the output
      have hall := byteLen_renderLines_le range.offset
        (s.selectedLines ++ [shownText s.currentIndex (popLast '\r' line)])
        (selectedTexts range (s.currentIndex + 1) lines)
      rw [← hs.bytesWithLine, ← append_cons] at hall
      rw [selectedTexts, if_pos hin]
      refine ⟨hgt, by simp, ?_, fun hcl hmark => ?_⟩
      · rw [hcount, outputTokens, approxTokenCount, ← approxTokens_add_four]
        refine approxTokens_mono (Nat.le_trans (bytesWithLine_le (k := 4) ?_)
          (Nat.add_le_add_right hall 4))
        omega
      · have hstart := startIndex_le hin
        have hsame : shownText s.currentIndex (popLast '\r' line) = popLast '\r' line :=
          shownText_eq_self fun hzero => head?_popLast_ne (hmark hzero (by omega) line rfl)
        rw [hcount, outputTokens]
        refine approxTokens_mono (Nat.le_trans (bytesWithLine_le (k := 0) ?_) hall)
        rw [hsame]
        exact hleClean (hclean hcl)
    · rcases hin : range.contains s.currentIndex with - | -
      · rw [endLine_of_not_contains hin] at hline
        cases hline
        rw [selectedTexts, if_neg (by simp [hin])]
        obtain ⟨hgt, hne, hle, hcl⟩ := ih h (hs.skip hlimit hin)
        exact ⟨hgt, hne, hle, fun hclean _ => hcl hclean fun hzero => absurd hzero (by simp [nextIndex])⟩
      · rw [hs.endLine hin] at hline
        split at hline
        · cases hline
        · cases hline
          rw [selectedTexts, if_pos hin, append_cons]
          obtain ⟨hgt, hne, hle, hcl⟩ := ih h (hs.take hin _ hpast)
          exact ⟨hgt, hne, hle, fun hclean _ => hcl hclean fun hzero => absurd hzero (by simp [nextIndex])⟩

end StreamState

end FileRead

end CodexPlus
