/-
CodexPlus/FileRead.lean

Reading a range of lines of a text file: core/src/tools/handlers/file_encoding.rs
and file_read_text.rs.

`readTextRangeBuffered` decodes the whole file and selects lines of its text.
`readTextRangeStream` reads the file in chunks of bytes, keeps the bytes of the
lines in the range only, and stops after the last of them.
-/
import CodexPlus.EncodedLines

namespace CodexPlus

namespace FileRead

open EncodedLines

abbrev Bytes := List UInt8
abbrev Text := List Char

/-! ### Encodings -/

/-- The bytes of a `str`. -/
def utf8 (text : Text) : Bytes := text.flatMap String.utf8EncodeChar

/-- `str::len` -/
def byteLen (text : Text) : ℕ := (utf8 text).length

/-- `String::from_utf8` -/
def fromUtf8 (bytes : Bytes) : Option Text := bytes.toByteArray.utf8Decode?.map (·.toList)

/-- The code units of `chunks_exact(2)` read with `u16::from_le_bytes`. -/
def leUnits : Bytes → List ℕ
  | low :: high :: rest => (low.toNat + 256 * high.toNat) :: leUnits rest
  | _ => []

def isHighSurrogate (unit : ℕ) : Bool := 0xD800 ≤ unit && unit < 0xDC00
def isLowSurrogate (unit : ℕ) : Bool := 0xDC00 ≤ unit && unit < 0xE000

/-- `String::from_utf16` -/
def fromUtf16 : List ℕ → Option Text
  | [] => some []
  | [unit] =>
    if isHighSurrogate unit || isLowSurrogate unit then none else some [Char.ofNat unit]
  | unit :: next :: rest =>
    if isHighSurrogate unit then
      if isLowSurrogate next then do
        let text ← fromUtf16 rest
        some (Char.ofNat (0x10000 + (unit - 0xD800) * 0x400 + (next - 0xDC00)) :: text)
      else none
    else if isLowSurrogate unit then none
    else do
      let text ← fromUtf16 (next :: rest)
      some (Char.ofNat unit :: text)

def utf16LeBom : Bytes := [0xff, 0xfe]

def isUtf16Le (bytes : Bytes) : Bool := utf16LeBom.isPrefixOf bytes

inductive FileEncoding where
  | utf8
  | utf16Le
  deriving DecidableEq, Repr

structure DecodedFile where
  content : Text
  encoding : FileEncoding
  deriving DecidableEq, Repr

/-- The errors of a read; a decoding error keeps what could not be decoded. -/
inductive ReadError where
  | failedToRead (error : Text)
  | fileTooLarge (size maxSize : ℕ)
  | streamTooLarge (maxSize : ℕ)
  | incompleteCodeUnit
  | invalidUtf16 (units : List ℕ)
  | invalidUtf8 (bytes : Bytes)
  | invalidUtf8Line (line : Bytes)
  | outputTooLarge (tokenCount maxOutputTokens : ℕ)
  | zeroLimit
  deriving DecidableEq, Repr

def decodeTextFile (bytes : Bytes) : Except ReadError DecodedFile :=
  if isUtf16Le bytes then
    if bytes.length % 2 ≠ 0 then .error .incompleteCodeUnit
    else
      match fromUtf16 (leUnits bytes) with
      | some content => .ok ⟨content, .utf16Le⟩
      | none => .error (.invalidUtf16 (leUnits bytes))
  else
    match fromUtf8 bytes with
    | some content => .ok ⟨content, .utf8⟩
    | none => .error (.invalidUtf8 bytes)

def byteOrderMark : Char := '\uFEFF'

/-- `text.strip_prefix('\u{feff}').unwrap_or(text)` -/
def stripBom (text : Text) : Text :=
  match text with
  | c :: rest => if c = byteOrderMark then rest else text
  | [] => []

/-- `replace("\r\n", "\n")` -/
def replaceCrlf : Text → Text
  | '\r' :: '\n' :: rest => '\n' :: replaceCrlf rest
  | c :: rest => c :: replaceCrlf rest
  | [] => []

def normalizeFileContent (content : Text) : Text := replaceCrlf (stripBom content)

/-! ### Selecting lines of a text -/

def maxExplicitRangeFileSize : ℕ := 512 * 1024 * 1024

def emptyFileReminder : Text :=
  ("<system-reminder>Warning: the file exists but the contents are empty." ++
    "</system-reminder>").toList

def shorterThanOffset (offset totalLines : ℕ) : Text :=
  "<system-reminder>Warning: the file exists but is shorter than the provided offset (".toList ++
    Nat.toDigits 10 offset ++ "). The file has ".toList ++ Nat.toDigits 10 totalLines ++
    " lines.</system-reminder>".toList

/-- `take(limit.unwrap_or(usize::MAX))` -/
def takeLimit {α : Type} (limit : Option ℕ) (lines : List α) : List α :=
  match limit with
  | some limit => lines.take limit
  | none => lines

/-- The lines with their numbers. -/
def numberedLine (number : ℕ) (line : Text) : Text := Nat.toDigits 10 number ++ '\t' :: line

def joinLines (lines : List Text) : Text := ['\n'].intercalate lines

def renderLines (offset : ℕ) (lines : List Text) : Text :=
  joinLines ((lines.zipIdx offset).map fun (line, number) => numberedLine number line)

def approxTokensFromByteCount (bytes : ℕ) : ℕ := (bytes + 3) / 4

def approxTokenCount (text : Text) : ℕ := approxTokensFromByteCount (byteLen text)

def validateReadOutputSize (output : Text) (maxOutputTokens : ℕ) : Except ReadError Unit :=
  if approxTokenCount output > maxOutputTokens then
    .error (.outputTooLarge (approxTokenCount output) maxOutputTokens)
  else .ok ()

/-- The output with the content that is kept as the state of the file. -/
def readTextRangeWithState (text : Text) (offset : ℕ) (limit : Option ℕ) (maxOutputTokens : ℕ) :
    Except ReadError (Text × Text) :=
  if text = [] then .ok (emptyFileReminder, [])
  else
    let lines := (text.splitOn '\n').map (popLast '\r')
    let selected := takeLimit limit (lines.drop (offset - 1))
    if selected = [] then .ok (shorterThanOffset offset lines.length, [])
    else do
      let output := renderLines offset selected
      validateReadOutputSize output maxOutputTokens
      .ok (output, joinLines selected)

def validateActualReadSize (size maxSize : ℕ) : Except ReadError Unit :=
  if size > maxSize then .error (.fileTooLarge size maxSize) else .ok ()

def readTextRangeBuffered (readFile : Except Text Bytes) (offset : ℕ) (limit : Option ℕ)
    (maxOutputTokens : ℕ) : Except ReadError (Text × Text) :=
  match readFile with
  | .error error => .error (.failedToRead error)
  | .ok bytes => do
    validateActualReadSize bytes.length maxExplicitRangeFileSize
    let decoded ← decodeTextFile bytes
    readTextRangeWithState (normalizeFileContent decoded.content) offset limit maxOutputTokens

/-! ### Selecting lines of a stream -/

/-- What is asked of a read. -/
structure ReadRange where
  offset : ℕ
  limit : Option ℕ
  maxOutputTokens : ℕ
  deriving DecidableEq, Repr

namespace ReadRange

variable (range : ReadRange)

def startIndex : ℕ := range.offset - 1

/-- `current_index >= end_index`; without a limit there is no end. -/
def pastEnd (index : ℕ) : Bool := range.limit.any fun limit => range.startIndex + limit ≤ index

/-- `(start_index..end_index).contains(&index)` -/
def contains (index : ℕ) : Bool := range.startIndex ≤ index && ! range.pastEnd index

end ReadRange

def formattedLineBytes (lineNumber lineBytes : ℕ) (hasPrevious : Bool) : ℕ :=
  byteLen (Nat.toDigits 10 lineNumber) + 1 + lineBytes + if hasPrevious then 1 else 0

structure StreamState where
  currentIndex : ℕ
  selectedLine : Bytes
  selectedLines : List Text
  selectedOutputBytes : ℕ
  deriving DecidableEq, Repr

namespace StreamState

def start : StreamState := ⟨0, [], [], 0⟩

variable (range : ReadRange) (s : StreamState)

/-- The bytes of the output, were the line the last one. -/
def bytesWithLine (lineBytes : ℕ) : ℕ :=
  s.selectedOutputBytes + formattedLineBytes (range.offset + s.selectedLines.length) lineBytes
    (! s.selectedLines.isEmpty)

/-- The state with one more line. -/
def addLine (text : Text) : StreamState :=
  { s with
    selectedLine := []
    selectedLines := s.selectedLines ++ [text]
    selectedOutputBytes := s.bytesWithLine range (byteLen text) }

def pushStreamedLine : Except ReadError StreamState :=
  let line := popLast 0x0D s.selectedLine
  match fromUtf8 line with
  | none => .error (.invalidUtf8Line line)
  | some text =>
    -- only the first line of the file can start with the mark
    let s := s.addLine range (if s.currentIndex = 0 then stripBom text else text)
    let tokenCount := approxTokensFromByteCount s.selectedOutputBytes
    if tokenCount > range.maxOutputTokens then
      .error (.outputTooLarge tokenCount range.maxOutputTokens)
    else .ok s

/-- The line that ends here, if it is in the range. -/
def endLine (s : StreamState) (segment : Bytes) : Except ReadError StreamState :=
  if range.contains s.currentIndex then
    pushStreamedLine range { s with selectedLine := s.selectedLine ++ segment }
  else .ok s

/-- The part of a line that a chunk ends with. -/
def endChunk (s : StreamState) (segment : Bytes) : Except ReadError StreamState :=
  if range.contains s.currentIndex then
    let s := { s with selectedLine := s.selectedLine ++ segment }
    let tokenCount := approxTokensFromByteCount (s.bytesWithLine range s.selectedLine.length)
    if tokenCount > range.maxOutputTokens then
      .error (.outputTooLarge tokenCount range.maxOutputTokens)
    else .ok s
  else .ok s

/-- The bytes of a chunk; `segment` is what the chunk has of the current line, and the flag says
that the range is complete. -/
def readBytes (s : StreamState) (segment : Bytes) : Bytes → Except ReadError (StreamState × Bool)
  | [] => do
    let s ← s.endChunk range segment
    .ok (s, false)
  | byte :: bytes =>
    if byte ≠ 0x0A then s.readBytes (segment ++ [byte]) bytes
    else do
      let s ← s.endLine range segment
      let s := { s with currentIndex := s.currentIndex + 1 }
      if range.pastEnd s.currentIndex then .ok (s, true) else s.readBytes [] bytes

/-- The chunks of the file, with the bytes read so far and whether there were any. -/
def readChunks (s : StreamState) (totalBytes : ℕ) (sawBytes : Bool) :
    List (Except Text Bytes) → Except ReadError (StreamState × Bool)
  | [] => .ok (s, sawBytes)
  | .error error :: _ => .error (.failedToRead error)
  | .ok chunk :: chunks =>
    let totalBytes := totalBytes + chunk.length
    let sawBytes := sawBytes || ! chunk.isEmpty
    if totalBytes > maxExplicitRangeFileSize then .error (.streamTooLarge maxExplicitRangeFileSize)
    else do
      let (s, complete) ← s.readBytes range [] chunk
      if complete then .ok (s, sawBytes) else s.readChunks totalBytes sawBytes chunks

/-- After the last chunk: the last line has no line end. -/
def finish (sawBytes : Bool) : Except ReadError (Text × Text) :=
  if sawBytes then do
    let s ← s.endLine range []
    if s.selectedLines = [] then .ok (shorterThanOffset range.offset (s.currentIndex + 1), [])
    else
      let output := renderLines range.offset s.selectedLines
      validateReadOutputSize output range.maxOutputTokens
      .ok (output, joinLines s.selectedLines)
  else .ok (emptyFileReminder, [])

end StreamState

/-- The first two bytes, read ahead. -/
def prefetch (start : Bytes) : List (Except Text Bytes) → Except ReadError Bytes
  | [] => .ok start
  | chunk :: chunks =>
    if start.length < 2 then
      match chunk with
      | .error error => .error (.failedToRead error)
      | .ok chunk => prefetch (start ++ chunk.take (2 - start.length)) chunks
    else .ok start

inductive StreamOpenError where
  | unsupported
  | other (error : Text)
  deriving DecidableEq, Repr

/-- A file, whole and as a stream of chunks. -/
structure FileSource where
  readFile : Except Text Bytes
  readFileStream : Except StreamOpenError (List (Except Text Bytes))

def readTextRangeStream (file : FileSource) (range : ReadRange) :
    Except ReadError (Text × Text) :=
  let buffered :=
    readTextRangeBuffered file.readFile range.offset range.limit range.maxOutputTokens
  match file.readFileStream with
  | .error .unsupported => buffered
  | .error (.other error) => .error (.failedToRead error)
  | .ok chunks => do
    let start ← prefetch [] chunks
    -- the chunks read ahead are read again first
    if isUtf16Le start then buffered
    else
      let (s, sawBytes) ← StreamState.start.readChunks range 0 false chunks
      s.finish range sawBytes

end FileRead

end CodexPlus
