/-
CodexPlus/Hashline.lean

The fuzz_view_edit tool: core/src/tools/handlers/hashline.rs.

A file is a `Document`: its lines, the line end it is written with, and whether the
last line has one.  A line is named by an anchor, its number and a hash of its text,
and an edit is refused when the anchors of its range no longer match.
-/
import CodexPlus.FileRead
import CodexPlus.PairSplit
import CodexPlus.Text

namespace CodexPlus

namespace Hashline

open EncodedLines FileRead PairSplit

def defaultContextLines : ℕ := 2
def fuzzyRelocateRadius : ℕ := 3
def maxReadLines : ℕ := 500
def maxFormattedLineChars : ℕ := 4000

inductive HashlineAction where
  | read
  | edit
  | insert
  | delete
  deriving DecidableEq, Repr

/-- The arguments of a call; its `path` and `environment_id` are those of the file that is read. -/
structure HashlineArgs where
  action : HashlineAction
  anchor : Option Text
  content : Option Text
  before : Bool
  context : Option ℕ
  deriving DecidableEq, Repr

inductive FunctionCallError where
  | respondToModel (message : Text)
  deriving DecidableEq, Repr

/-! ### Numbers in texts -/

/-- A number in decimal. -/
def decimal (n : ℕ) : Text := Nat.toDigits 10 n

/-- The last `width` hexadecimal digits of a number, in lower case. -/
def hexDigits : ℕ → ℕ → Text
  | 0, _ => []
  | width + 1, n => hexDigits width (n / 16) ++ [Nat.digitChar (n % 16)]

/-- `str::parse::<usize>` -/
def parseUsize (text : Text) : Option ℕ :=
  let digits := match text with
    | '+' :: rest => rest
    | _ => text
  if digits.isEmpty || !digits.all Char.isDigit then none else some (Nat.ofDigitChars 10 digits 0)

/-- `parse::<usize>().ok().filter(|line| *line > 0)` -/
def parseLine (text : Text) : Option ℕ := (parseUsize text).filter (0 < ·)

/-- `u8::is_ascii_hexdigit` -/
def isHexDigit (c : Char) : Bool :=
  c.isDigit || ('a' ≤ c && c ≤ 'f') || ('A' ≤ c && c ≤ 'F')

/-- `char::to_digit(16)` of a hexadecimal digit -/
def hexValue (c : Char) : ℕ :=
  if c.isDigit then c.toNat - '0'.toNat
  else if 'a' ≤ c && c ≤ 'f' then c.toNat - 'a'.toNat + 10
  else c.toNat - 'A'.toNat + 10

/-- `from_str_radix(text, 16)` of hexadecimal digits -/
def fromHex (text : Text) : ℕ := text.foldl (fun n c => 16 * n + hexValue c) 0

/-! ### Hashes of lines -/

section Xxh32

def prime1 : UInt32 := 0x9e3779b1
def prime2 : UInt32 := 0x85ebca77
def prime3 : UInt32 := 0xc2b2ae3d
def prime4 : UInt32 := 0x27d4eb2f
def prime5 : UInt32 := 0x165667b1

/-- `u32::rotate_left` -/
def rotateLeft (x n : UInt32) : UInt32 := (x <<< n) ||| (x >>> (32 - n))

/-- `read_u32` -/
def readU32 (input : Bytes) (offset : ℕ) : UInt32 :=
  let byte (i : ℕ) : UInt32 := (input.getD (offset + i) 0).toUInt32
  byte 0 ||| (byte 1 <<< 8) ||| (byte 2 <<< 16) ||| (byte 3 <<< 24)

def round (acc input : UInt32) : UInt32 := rotateLeft (acc + input * prime2) 13 * prime1

def avalanche (hash : UInt32) : UInt32 :=
  let hash := hash ^^^ (hash >>> 15)
  let hash := hash * prime2
  let hash := hash ^^^ (hash >>> 13)
  let hash := hash * prime3
  hash ^^^ (hash >>> 16)

/-- The first loop of `xxh32`: one round of the four lanes for every 16 bytes. -/
def lanes (input : Bytes) : ℕ → ℕ → UInt32 × UInt32 × UInt32 × UInt32 →
    UInt32 × UInt32 × UInt32 × UInt32
  | 0, _, v => v
  | count + 1, offset, (v1, v2, v3, v4) =>
    lanes input count (offset + 16)
      (round v1 (readU32 input offset), round v2 (readU32 input (offset + 4)),
        round v3 (readU32 input (offset + 8)), round v4 (readU32 input (offset + 12)))

/-- The second loop of `xxh32`: the words behind the last 16 bytes. -/
def words (input : Bytes) : ℕ → ℕ → UInt32 → UInt32
  | 0, _, hash => hash
  | count + 1, offset, hash =>
    words input count (offset + 4)
      (rotateLeft (hash + readU32 input offset * prime3) 17 * prime4)

/-- The third loop of `xxh32`: the bytes behind the last word. -/
def bytes : Bytes → UInt32 → UInt32
  | [], hash => hash
  | byte :: rest, hash => bytes rest (rotateLeft (hash + byte.toUInt32 * prime5) 11 * prime1)

def xxh32 (input : Bytes) (seed : UInt32) : UInt32 :=
  let stripes := input.length / 16
  let offset := 16 * stripes
  let hash :=
    if 16 ≤ input.length then
      let (v1, v2, v3, v4) :=
        lanes input stripes 0 (seed + prime1 + prime2, seed + prime2, seed, seed - prime1)
      rotateLeft v1 1 + rotateLeft v2 7 + rotateLeft v3 12 + rotateLeft v4 18
    else seed + prime5
  let hash := hash + UInt32.ofNat input.length
  let count := (input.length - offset) / 4
  let hash := words input count offset hash
  avalanche (bytes (input.drop (offset + 4 * count)) hash)

example : xxh32 [] 0 = 0x02cc5d05 := by decide
example : xxh32 (utf8 ['a', 'b', 'c']) 0 = 0x32d153ff := by decide

end Xxh32

inductive LineHash where
  | short (hash : UInt8)
  | full (hash : UInt16)
  deriving DecidableEq, Repr

/-- `LineHash::short` -/
def LineHash.toShort : LineHash → LineHash
  | .short hash => .short hash
  | .full hash => .short hash.toUInt8

/-- `LineHash::matches` -/
def LineHash.isMatch (hash actual : LineHash) : Bool :=
  match hash with
  | .short _ => hash = actual.toShort
  | .full _ => hash = actual

/-- `full_hash`: trailing whitespace is not hashed. -/
def fullHash (line : Text) : LineHash := .full (xxh32 (utf8 (trimEnd line)) 0).toUInt16

def formatShortHash : LineHash → Text
  | .short hash => hexDigits 2 hash.toNat
  | .full hash => hexDigits 4 hash.toNat

/-! ### Documents -/

inductive Newline where
  | lf
  | crlf
  deriving DecidableEq, Repr

def Newline.text : Newline → Text
  | .lf => ['\n']
  | .crlf => ['\r', '\n']

structure Document where
  lines : List Text
  newline : Newline
  trailingNewline : Bool
  deriving DecidableEq, Repr

/-- A text without the line end behind its last line. -/
def body (text : Text) : Text := popLast '\r' (popLast '\n' text)

/-- The lines of a body with Unix line ends; of `split_content` as well. -/
def lfLines (body : Text) : List Text := (body.splitOn '\n').map (popLast '\r')

def Document.parse (text : Text) : Document :=
  let newline : Newline := if hasPair '\r' '\n' text then .crlf else .lf
  let lines :=
    if (body text).isEmpty then []
    else if newline = .crlf then splitPair '\r' '\n' (body text)
    else lfLines (body text)
  { lines, newline, trailingNewline := text.getLast? = some '\n' }

variable (doc : Document)

def Document.render : Text :=
  let rendered := doc.newline.text.intercalate doc.lines
  if doc.trailingNewline then rendered ++ doc.newline.text else rendered

/-- The text of a line; every caller stays within the lines. -/
def Document.lineAt (index : ℕ) : Text := doc.lines.getD index []

def Document.hashAt (index : ℕ) : LineHash := fullHash (doc.lineAt index)

/-- What `hash_index` holds for a hash: the lines with it, in order. -/
def Document.hashIndex (hash : LineHash) : List ℕ :=
  doc.lines.zipIdx.flatMap fun (line, index) =>
    (if fullHash line = hash then [index] else []) ++
      (if (fullHash line).toShort = hash then [index] else [])

/-! ### Anchors -/

inductive Anchor where
  | hash (hash : LineHash)
  | lineHash (line : ℕ) (hash : LineHash)
  | line (line : ℕ)
  deriving DecidableEq, Repr

structure ResolvedAnchor where
  index : ℕ
  hash : LineHash
  deriving DecidableEq, Repr

inductive ResolveMode where
  | strict
  | fuzzy
  deriving DecidableEq, Repr

def invalidAnchor (anchor : Text) : FunctionCallError :=
  .respondToModel ("invalid fuzz_view_edit anchor `".toList ++ anchor ++
    "`; expected `12:abcd`, `abcd`, `12` for read only, or `12:abcd..15:ef01`".toList)

def parseHash (hash anchor : Text) : Except FunctionCallError LineHash :=
  if !(hash.length = 2 || hash.length = 4) || !hash.all isHexDigit then .error (invalidAnchor anchor)
  else if hash.length = 2 then .ok (.short (UInt8.ofNat (fromHex hash)))
  else .ok (.full (UInt16.ofNat (fromHex hash)))

/-- `split_once` at a character -/
def splitOnce (sep : Char) : Text → Option (Text × Text)
  | [] => none
  | c :: rest =>
    if c = sep then some ([], rest)
    else (splitOnce sep rest).map fun (left, right) => (c :: left, right)

/-- `split_once("..")` -/
def splitRange : Text → Option (Text × Text)
  | [] => none
  | [_] => none
  | c :: d :: rest =>
    if c = '.' ∧ d = '.' then some ([], rest)
    else (splitRange (d :: rest)).map fun (left, right) => (c :: left, right)

def parseAnchor (anchor : Text) (allowBareLine : Bool) : Except FunctionCallError Anchor :=
  let anchor := trim anchor
  if anchor.isEmpty || hasPair '.' '.' anchor then .error (invalidAnchor anchor)
  else
    match splitOnce ':' anchor with
    | some (line, hash) =>
      match parseLine line with
      | none => .error (invalidAnchor anchor)
      | some line => (parseHash hash anchor).map (.lineHash line)
    | none =>
      match if allowBareLine then parseLine anchor else none with
      | some line => .ok (.line line)
      | none => (parseHash anchor anchor).map .hash

/-! ### Shown lines -/

def contextWindow (lineCount startIndex endIndex context : ℕ) : ℕ × ℕ :=
  if lineCount = 0 then (0, 0)
  else (startIndex - context, min (endIndex + context + 1) lineCount)

def formatLineContent (line : Text) : Text :=
  if maxFormattedLineChars < line.length then
    line.take maxFormattedLineChars ++ "... [truncated to first ".toList ++
      decimal maxFormattedLineChars ++ " of ".toList ++ decimal line.length ++ " chars]".toList
  else line

/-- The anchor that is shown before a line. -/
def Document.anchorText (index : ℕ) : Text :=
  decimal (index + 1) ++ ':' :: formatShortHash (doc.hashAt index)

def formatLines (first last : ℕ) (markerIndex : Option ℕ) : Text :=
  if doc.lines.isEmpty then "<empty file>".toList
  else
    (List.range' first (last - first)).flatMap fun index =>
      (if markerIndex = some index then ">>> ".toList else []) ++ doc.anchorText index ++
        '|' :: formatLineContent (doc.lineAt index) ++ ['\n']

def joinLineNumbers (indices : List ℕ) : Text :=
  ", ".toList.intercalate (indices.map fun index => decimal (index + 1))

/-! ### Resolving anchors -/

def absDiff (m n : ℕ) : ℕ := max m n - min m n

/-- `min_by_key`: the first of the candidates that are closest. -/
def closest (requestedIndex first : ℕ) (rest : List ℕ) : ℕ :=
  rest.foldl (fun best candidate =>
    if absDiff candidate requestedIndex < absDiff best requestedIndex then candidate else best) first

def relocateAnchor (requestedIndex : ℕ) : List ℕ → Option ℕ
  | [] => none
  | first :: rest =>
    let found := closest requestedIndex first rest
    if absDiff found requestedIndex ≤ fuzzyRelocateRadius then some found else none

def staleAnchor (line : ℕ) (expectedHash : LineHash) : FunctionCallError :=
  let requestedIndex := line - 1
  let actual :=
    if requestedIndex < doc.lines.length then formatShortHash (doc.hashAt requestedIndex)
    else "missing".toList
  let (first, last) := contextWindow doc.lines.length requestedIndex requestedIndex 2
  .respondToModel ("line ".toList ++ decimal line ++
    " content changed since last read (expected hash ".toList ++ formatShortHash expectedHash ++
    ", got ".toList ++ actual ++ ")\n".toList ++ formatLines doc first last (some requestedIndex))

def resolveAnchor (anchor : Anchor) (mode : ResolveMode) :
    Except FunctionCallError ResolvedAnchor :=
  match anchor with
  | .hash hash =>
    match doc.hashIndex hash with
    | [] => .error (.respondToModel
        ("fuzz_view_edit hash `".toList ++ formatShortHash hash ++ "` was not found".toList))
    | [line] => .ok ⟨line, hash⟩
    | found => .error (.respondToModel
        ("fuzz_view_edit hash `".toList ++ formatShortHash hash ++
          "` is ambiguous; it appears on lines ".toList ++ joinLineNumbers found))
  | .lineHash line hash =>
    let requestedIndex := line - 1
    if requestedIndex < doc.lines.length ∧ hash.isMatch (doc.hashAt requestedIndex) then
      .ok ⟨requestedIndex, hash⟩
    else if mode = .strict then .error (staleAnchor doc line hash)
    else
      match relocateAnchor requestedIndex (doc.hashIndex hash) with
      | some index => .ok ⟨index, hash⟩
      | none => .error (staleAnchor doc line hash)
  | .line line =>
    let index := line - 1
    if index < doc.lines.length then .ok ⟨index, doc.hashAt index⟩
    else .error (.respondToModel
      ("fuzz_view_edit line ".toList ++ decimal line ++ " is out of range (file has ".toList ++
        decimal doc.lines.length ++ " lines)".toList))

def rejectBareLineWriteAnchor (anchor anchorOrRange : Text) : Except FunctionCallError Unit :=
  if (parseLine (trim anchor)).isSome then
    .error (.respondToModel ("invalid fuzz_view_edit write anchor `".toList ++ anchorOrRange ++
      "`; edit/insert/delete require `LINE:HASH` anchors or unique bare hashes, not bare line numbers".toList))
  else .ok ()

def resolvesBackwards (range : Text) : FunctionCallError :=
  .respondToModel ("fuzz_view_edit range `".toList ++ range ++ "` resolves backwards".toList)

/-- The anchor of a write, resolved. -/
def resolveStrict (anchor : Text) : Except FunctionCallError ResolvedAnchor := do
  resolveAnchor doc (← parseAnchor anchor false) .strict

def resolveAnchorOrRange (anchorOrRange : Text) : Except FunctionCallError (ℕ × ℕ) :=
  match splitRange anchorOrRange with
  | some (left, right) => do
    if hasPair '.' '.' right then throw (invalidAnchor anchorOrRange)
    rejectBareLineWriteAnchor left anchorOrRange
    rejectBareLineWriteAnchor right anchorOrRange
    let first ← resolveStrict doc left
    let last ← resolveStrict doc right
    if first.index > last.index then throw (resolvesBackwards anchorOrRange)
    return (first.index, last.index)
  | none => do
    rejectBareLineWriteAnchor anchorOrRange anchorOrRange
    let resolved ← resolveStrict doc anchorOrRange
    return (resolved.index, resolved.index)

/-! ### Reading -/

def readAnchorIndex (anchor : Text) : Except FunctionCallError ℕ := do
  match ← parseAnchor anchor true with
  | .line line => return min (line - 1) doc.lines.length
  | anchor => return (← resolveAnchor doc anchor .fuzzy).index

def readRequestedEndLine (rightAnchor : Text) (endIndex : ℕ) : ℕ :=
  (parseLine (trim rightAnchor)).getD endIndex

/-- The first line of a range to read. -/
def readStart (left : Text) : Except FunctionCallError ℕ :=
  if left.isEmpty then .ok 0 else readAnchorIndex doc left

/-- The line behind the last one of a range to read. -/
def readEnd (startIndex : ℕ) (right : Text) : Except FunctionCallError ℕ :=
  if right.isEmpty then .ok (min (startIndex + maxReadLines) doc.lines.length)
  else (readAnchorIndex doc right).map (· + 1)

/-- The lines that a read shows, and the note below them; or a note alone. -/
def readWindow (anchor : Option Text) (context : ℕ) :
    Except FunctionCallError (Text ⊕ (ℕ × ℕ) × List Text) :=
  let count := doc.lines.length
  match anchor with
  | none => .ok (.inr ((0, min count maxReadLines), []))
  | some anchor =>
    match splitRange anchor with
    | some (left, right) => do
      if hasPair '.' '.' right then throw (invalidAnchor anchor)
      let startIndex ← readStart doc left
      let endIndex ← readEnd doc startIndex right
      let requestedEndLine := readRequestedEndLine right endIndex
      if startIndex ≥ count then
        return .inl ("(no lines: requested range starts past end of file; file has ".toList ++
          decimal count ++ " lines)".toList)
      let clampedEndIndex := min endIndex count
      if startIndex > endIndex then throw (resolvesBackwards anchor)
      let notes :=
        if endIndex > clampedEndIndex then
          ["(showing through end of file; requested range extends past line ".toList ++
            decimal requestedEndLine ++ " but file has ".toList ++ decimal count ++ " lines)".toList]
        else []
      return .inr ((startIndex, clampedEndIndex), notes)
    | none => do
      let parsed ← parseAnchor anchor true
      match parsed with
      | .line line =>
        if line > count then
          return .inl ("(no lines: requested line ".toList ++ decimal line ++
            " is past end of file; file has ".toList ++ decimal count ++ " lines)".toList)
      | _ => pure ()
      let resolved ← resolveAnchor doc parsed .fuzzy
      return .inr (contextWindow count resolved.index resolved.index context, [])

def readOutput (anchor : Option Text) (context : ℕ) :
    Except FunctionCallError Text := do
  match ← readWindow doc anchor context with
  | .inl note => return note
  | .inr ((first, last), notes) =>
    let output := formatLines doc first last none
    let output :=
      if anchor.isNone && doc.lines.length > maxReadLines then
        output ++ "\n(showing first ".toList ++ decimal maxReadLines ++ " of ".toList ++
          decimal doc.lines.length ++ " lines; use anchor with line range to read more)".toList
      else output
    return notes.foldl (fun output note =>
      (if output.isEmpty then output else output ++ ['\n']) ++ note) output

/-! ### Mutations -/

def actionName : HashlineAction → Text
  | .read => "read".toList
  | .edit => "edit".toList
  | .insert => "insert".toList
  | .delete => "delete".toList

def requires (action : HashlineAction) (field : Text) : FunctionCallError :=
  .respondToModel ("fuzz_view_edit action `".toList ++ actionName action ++ "` requires `".toList ++
    field ++ ['`'])

variable (args : HashlineArgs)

def requireAnchor : Except FunctionCallError Text :=
  args.anchor.elim (.error (requires args.action "anchor".toList)) .ok

def requireContent : Except FunctionCallError Text :=
  args.content.elim (.error (requires args.action "content".toList)) .ok

def contextLines (context : Option ℕ) : ℕ := min (context.getD defaultContextLines) 20

def splitContent (content : Text) : List Text :=
  let normalized := popLast '\n' content
  if normalized.isEmpty then [] else lfLines normalized

/-- `drain` and `splice`: the lines from `first` up to `last` are replaced. -/
def Document.splice (first last : ℕ) (inserted : List Text) : Document :=
  { doc with lines := doc.lines.take first ++ inserted ++ doc.lines.drop last }

/-- A changed document with the lines to show and the verb of the report. -/
structure Changed where
  doc : Document
  first : ℕ
  last : ℕ
  verb : Text
  deriving DecidableEq, Repr

def multiLineEdit (first : ℕ) : FunctionCallError :=
  .respondToModel ("fuzz_view_edit action `edit` with multi-line `content` requires an anchor range such as `12:abcd..15:ef01`; a single-line anchor would only replace line ".toList ++
    decimal (first + 1) ++ " and can leave stale trailing lines. Use a range to replace an existing block, or delete the old range before inserting new content.".toList)

def applyMutation (content : Option Text) : Except FunctionCallError Changed :=
  match args.action with
  | .edit => do
    let anchor ← requireAnchor args
    let content ← requireContent args
    let replacement := splitContent content
    let (first, last) ← resolveAnchorOrRange doc anchor
    if first = last ∧ replacement.length > 1 then throw (multiLineEdit first)
    let doc := doc.splice first (last + 1) replacement
    let changedEnd :=
      if replacement.isEmpty then min first (doc.lines.length - 1)
      else first + (replacement.length - 1)
    return ⟨doc, first, changedEnd, "Edited".toList⟩
  | .insert => do
    let anchor ← requireAnchor args
    let content ← content.elim (.error (requires .insert "content".toList)) .ok
    let resolved ← resolveStrict doc anchor
    let inserted := splitContent content
    let insertAt := if args.before then resolved.index else resolved.index + 1
    let doc := doc.splice insertAt insertAt inserted
    return ⟨doc, insertAt, insertAt + (inserted.length - 1), "Inserted".toList⟩
  | .delete => do
    let anchor ← requireAnchor args
    let (first, last) ← resolveAnchorOrRange doc anchor
    let doc := doc.splice first (last + 1) []
    let snippetIndex := min first (doc.lines.length - 1)
    return ⟨doc, snippetIndex, snippetIndex, "Deleted".toList⟩
  | .read => .error (.respondToModel "internal fuzz_view_edit mutation dispatch error".toList)

def mutationOutput (changed : Changed) (context : ℕ) (path : Option Text) : Text :=
  let (snippetStart, snippetEnd) :=
    contextWindow changed.doc.lines.length changed.first changed.last context
  let pathSuffix := path.elim [] fun path => " in `".toList ++ path ++ ['`']
  changed.verb ++ pathSuffix ++ ".\n".toList ++
    formatLines changed.doc snippetStart snippetEnd none

/-- `handle_call` on the file at `path`: its text afterwards, and the output. -/
def handleCall (path : Text) (args : HashlineArgs) (original : Text) :
    Except FunctionCallError (Text × Text) := do
  let doc := Document.parse original
  if args.action = .read then
    return (original, ← readOutput doc args.anchor (contextLines args.context))
  let changed ← applyMutation doc args args.content
  let after := changed.doc.render
  let shown := if original = after then none else some path
  return (after, mutationOutput changed (contextLines args.context) shown)

end Hashline

end CodexPlus
