/-
CodexPlus/FileEdit.lean

The replacement of the Edit tool: core/src/tools/handlers/file_edit_content.rs, with
what file_edit.rs says about it and the summaries of arguments in file_path.rs.

The string to replace is looked for as it is, then with the line ends of the file, and
then with all quotes taken for straight ones.  What is replaced is the text of the file
that was found in this way.
-/
import CodexPlus.FileRead
import CodexPlus.Occurrences
import CodexPlus.Text

namespace CodexPlus

namespace FileEdit

open FileRead StreamSearch Occurrences

def maxEditFileSize : ℕ := 512 * 1024 * 1024
def maxArgumentDisplayBytes : ℕ := 1024

inductive FunctionCallError where
  | respondToModel (message : Text)
  deriving DecidableEq, Repr

/-! ### Texts -/

/-- `str::contains` -/
def contains (text needle : Text) : Bool := (find needle text).isSome

/-- `replace('\n', "\r\n")` -/
def lfToCrlf (text : Text) : Text := text.flatMap fun c => if c = '\n' then ['\r', '\n'] else [c]

/-- A number in a message. -/
def decimal (n : ℕ) : Text := Nat.toDigits 10 n

def splitBudget (budget : ℕ) : ℕ × ℕ := (budget / 2, budget - budget / 2)

/-- The variables of the loop in `split_string`. -/
structure SplitState where
  prefixEnd : ℕ
  suffixStart : ℕ
  removedChars : ℕ
  suffixStarted : Bool

section

variable (beginningBytes tailStartTarget : ℕ)

def SplitState.step (s : SplitState) (idx : ℕ) (c : Char) : SplitState :=
  let charEnd := idx + c.utf8Size
  if charEnd ≤ beginningBytes then { s with prefixEnd := charEnd }
  else if tailStartTarget ≤ idx then
    if s.suffixStarted then s else { s with suffixStart := idx, suffixStarted := true }
  else { s with removedChars := s.removedChars + 1 }

/-- The loop over the characters, from the byte `idx` on. -/
def SplitState.scan : SplitState → ℕ → Text → SplitState
  | s, _, [] => s
  | s, idx, c :: rest =>
    (s.step beginningBytes tailStartTarget idx c).scan (idx + c.utf8Size) rest

end

/-- The slice `&s[i..]`; `&s[..i]` is `takeUtf8Bytes i s`. -/
def sliceFrom (s : Text) (i : ℕ) : Text := s.drop (takeUtf8Bytes i s).length

def splitString (s : Text) (beginningBytes endBytes : ℕ) : ℕ × Text × Text :=
  if s = [] then (0, [], [])
  else
    let len := byteLen s
    let found := SplitState.scan beginningBytes (len - endBytes) ⟨0, len, 0, false⟩ 0 s
    let suffixStart :=
      if found.suffixStart < found.prefixEnd then found.prefixEnd else found.suffixStart
    (found.removedChars, takeUtf8Bytes found.prefixEnd s, sliceFrom s suffixStart)

def truncateMiddleChars (s : Text) (maxBytes : ℕ) : Text :=
  if byteLen s ≤ maxBytes then s
  else
    let (leftBudget, rightBudget) := splitBudget maxBytes
    let (removedChars, left, right) := splitString s leftBudget rightBudget
    left ++ ('…' :: decimal removedChars ++ " chars truncated…".toList) ++ right

def summarizeToolArgument (value : Text) : Text := truncateMiddleChars value maxArgumentDisplayBytes

/-! ### Quotes -/

def straightSingle : Char := '\x27'
def straightDouble : Char := '\x22'

def isCurlySingle (c : Char) : Bool := c = '‘' || c = '’'
def isCurlyDouble (c : Char) : Bool := c = '“' || c = '”'

/-- `normalize_quotes` of one character -/
def normalizeQuote (c : Char) : Char :=
  if isCurlySingle c then straightSingle else if isCurlyDouble c then straightDouble else c

def normalizeQuotes (value : Text) : Text := value.map normalizeQuote

def isOpeningQuote (value : Text) (charIndex : ℕ) : Bool :=
  if charIndex = 0 then true
  else
    (value[charIndex - 1]?).any fun c =>
      isWhitespace c || c = '(' || c = '[' || c = '\x7b' || c = '—' || c = '–'

def preserveQuoteStyle (oldString actualOldString newString : Text) : Text :=
  if oldString = actualOldString then newString
  else
    let useCurlyDouble := actualOldString.any isCurlyDouble
    let useCurlySingle := actualOldString.any isCurlySingle
    newString.zipIdx.map fun (c, index) =>
      if c = straightDouble && useCurlyDouble then
        if isOpeningQuote newString index then '“' else '”'
      else if c = straightSingle && useCurlySingle then
        if isOpeningQuote newString index then '‘' else '’'
      else c

def preserveLineEndings (oldString actualOldString newString : Text) : Text :=
  if !contains oldString ['\r', '\n'] && contains actualOldString ['\r', '\n'] then
    lfToCrlf newString
  else newString

/-! ### Searching -/

/-- What is looked for when the string itself is not in the file. -/
def adaptedSearch (fileContent searchString : Text) : Text :=
  if contains fileContent ['\r', '\n'] then lfToCrlf searchString else searchString

def findActualString (fileContent searchString : Text) : Option Text :=
  if contains fileContent searchString then some searchString
  else
    let adapted := adaptedSearch fileContent searchString
    if contains fileContent adapted then some adapted
    else
      (find (normalizeQuotes adapted) (normalizeQuotes fileContent)).map fun startChar =>
        (fileContent.drop startChar).take (normalizeQuotes adapted).length

/-! ### Replacing -/

structure EditContentRequest where
  oldString : Text
  newString : Text
  replaceAll : Bool
  deriving DecidableEq, Repr

structure PreparedEdit where
  updatedContent : Text
  deriving DecidableEq, Repr

variable (request : EditContentRequest)

/-- The string that is put in, with the quotes and line ends of what it replaces. -/
def actualNewString (actualOldString : Text) : Text :=
  preserveLineEndings request.oldString actualOldString
    (preserveQuoteStyle request.oldString actualOldString request.newString)

/-- The line end that a deletion looks for behind the string. -/
def lineEnding (original actualOldString : Text) : Text :=
  if contains original (actualOldString ++ ['\r', '\n']) then ['\r', '\n'] else ['\n']

/-- What is searched for and what is put in its place. -/
def searchAndReplacement (original actualOldString actualNewString : Text) : Text × Text :=
  if actualNewString.isEmpty && actualOldString.getLast? ≠ some '\n' then
    let searchWithLineEnding := actualOldString ++ lineEnding original actualOldString
    if contains original searchWithLineEnding then (searchWithLineEnding, [])
    else (actualOldString, actualNewString)
  else (actualOldString, actualNewString)

/-- The checked operations overflow only where the size is too large as well. -/
def validateUpdatedSize (originalSize searchSize replacementSize replacementCount : ℕ) :
    Except FunctionCallError Unit :=
  let removedSize := searchSize * replacementCount
  if removedSize ≤ originalSize ∧
      originalSize - removedSize + replacementSize * replacementCount ≤ maxEditFileSize then
    .ok ()
  else .error (.respondToModel
    ("The edited file would exceed the maximum editable file size of ".toList ++
      decimal maxEditFileSize ++
      " bytes. Use smaller replacements or another editing strategy.".toList))

/-- `updated_content` of a request, for what is searched for. -/
def updatedContent (original search replacement : Text) (all : Bool) :
    Except FunctionCallError Text :=
  if all then
    (validateUpdatedSize (byteLen original) (byteLen search) (byteLen replacement)
      (count search original)).map fun _ => replaceAll search replacement original
  else
    (validateUpdatedSize (byteLen original) (byteLen search) (byteLen replacement) 1).map fun _ =>
      replaceFirst search replacement original

def tooLarge (size : ℕ) : FunctionCallError :=
  .respondToModel ("Replacement content is too large (".toList ++ decimal size ++
    " bytes). Maximum editable file size is ".toList ++ decimal maxEditFileSize ++
    " bytes.".toList)

def notFound (oldString : Text) : FunctionCallError :=
  .respondToModel ("String to replace not found in file.\nString: ".toList ++
    summarizeToolArgument oldString)

def ambiguous (found : ℕ) (oldString : Text) : FunctionCallError :=
  .respondToModel ("Found ".toList ++ decimal found ++
    " matches of the string to replace, but replace_all is false. To replace all occurrences, set replace_all to true. To replace only one occurrence, please provide more context to uniquely identify the instance.\nString: ".toList ++
    summarizeToolArgument oldString)

def unchanged : FunctionCallError :=
  .respondToModel
    "No changes to make: the requested replacement leaves the file unchanged.".toList

/-- The replacement of a string of the file, once it is found. -/
def replaceFound (original actualOldString : Text) : Except FunctionCallError PreparedEdit :=
  let found := count actualOldString original
  if found > 1 ∧ request.replaceAll = false then .error (ambiguous found request.oldString)
  else do
    let (search, replacement) :=
      searchAndReplacement original actualOldString (actualNewString request actualOldString)
    let updated ← updatedContent original search replacement request.replaceAll
    if updated = original then .error unchanged else .ok ⟨updated⟩

def prepareEdit (original : Option Text) : Except FunctionCallError PreparedEdit :=
  if byteLen request.newString > maxEditFileSize then
    .error (tooLarge (byteLen request.newString))
  else
    match original with
    | none =>
      if request.oldString.isEmpty then .ok ⟨request.newString⟩
      else .error (.respondToModel "File does not exist.".toList)
    | some original =>
      if request.oldString.isEmpty then
        if (trim (normalizeFileContent original)).isEmpty then .ok ⟨request.newString⟩
        else .error (.respondToModel "Cannot create new file - file already exists.".toList)
      else
        match findActualString original request.oldString with
        | none => .error (notFound request.oldString)
        | some actualOldString => replaceFound request original actualOldString

def editMessage (filePath : Text) (all : Bool) : Text :=
  let filePath := summarizeToolArgument filePath
  if all then
    "The file ".toList ++ filePath ++
      " has been updated. All occurrences were successfully replaced.".toList
  else "The file ".toList ++ filePath ++ " has been updated successfully.".toList

/-- `handle_file_edit` from the text of the file to the text that is written and the message: the
file is open and may be edited. -/
def handleFileEdit (filePath : Text) (request : EditContentRequest) (original : Option Text) :
    Except FunctionCallError (Text × Text) :=
  if request.oldString = request.newString then
    .error (.respondToModel
      "No changes to make: old_string and new_string are exactly the same.".toList)
  else
    (prepareEdit request original).map fun edit =>
      (edit.updatedContent, editMessage filePath request.replaceAll)

end FileEdit

end CodexPlus
