/-
CodexPlus/JournalSegment.lean

One segment file of the workflow journal (`ext/workflow/src/journal.rs`), byte by byte:
the record format, the reader `read_state` and the writer's repair `truncate_torn_tail`.

A record is its SHA-256 checksum in hexadecimal, a space, the JSON of the key state, and
a newline.  The reader skips an unterminated last line and gives up on a final line whose
checksum does not match; the writer cuts the unterminated line off before it appends.

Serialization and SHA-256 are external: a `Codec` carries them together with what is used
of them.  A segment that was only appended to and cut is `LineLog.render` of its complete
records followed by a torn tail (`SegmentOf`), and on such bytes reader and writer are
functions of the records alone (`readState_segmentOf`, `appendRecord_segmentOf`).
-/
import CodexPlus.LineLog
import Mathlib.Data.List.Infix

namespace CodexPlus

open List LineLog

namespace Journal

/-! ### Records -/

/-- `DurableKeyState`, over the type of journaled results. -/
inductive DurableKeyState (R : Type) where
  | started (key : String)
  | result (key : String) (result : R)

/-- `state_key` -/
def DurableKeyState.key {R : Type} : DurableKeyState R → String
  | started key => key
  | result key _ => key

def newline : UInt8 := 10

def space : UInt8 := 32

/-- `serde_json` and SHA-256, with the properties of them that the journal relies on. -/
structure Codec (R : Type) where
  /-- `serde_json::to_vec` -/
  toVec : DurableKeyState R → List UInt8
  /-- `serde_json::from_slice` -/
  fromSlice : List UInt8 → Except String (DurableKeyState R)
  /-- SHA-256 as hexadecimal text -/
  sha256Hex : List UInt8 → List UInt8
  /-- the first byte of the SHA-256 of a key -/
  keyDigestByte : String → Nat
  fromSlice_toVec : ∀ state, fromSlice (toVec state) = .ok state
  newline_notMem_toVec : ∀ state, newline ∉ toVec state
  newline_notMem_sha256Hex : ∀ payload, newline ∉ sha256Hex payload
  space_notMem_sha256Hex : ∀ payload, space ∉ sha256Hex payload

def journalSegmentCount : Nat := 64

@[irreducible] def tailScanBytes : Nat := 8 * 1024

def checksumMismatchError : String :=
  "workflow journal record checksum does not match its payload"

variable {R : Type} (c : Codec R)

/-- `key_segment` -/
def keySegment (key : String) : Nat := c.keyDigestByte key % journalSegmentCount

/-- The line of a record, without its newline. -/
def frame (state : DurableKeyState R) : List UInt8 :=
  c.sha256Hex (c.toVec state) ++ space :: c.toVec state

/-- `parse_record` -/
def parseRecord (record : List UInt8) (expectedSegment : Nat) :
    Except String (DurableKeyState R) :=
  match record.dropWhile (· ≠ space) with
  | [] => .error "workflow journal record is missing its checksum"
  | _ :: payload =>
    if record.takeWhile (· ≠ space) ≠ c.sha256Hex payload then .error checksumMismatchError
    else
      match c.fromSlice payload with
      | .error e => .error e
      | .ok state =>
        if keySegment c state.key ≠ expectedSegment then
          .error "workflow journal record is stored in the wrong segment"
        else .ok state

/-! ### Reading -/

/-- `ReadState` -/
inductive ReadState (R : Type) where
  | complete (matched : Option (DurableKeyState R))
  | corruptTail

/-- The loop of `read_state` over the terminated lines; `tail` is what follows the last
newline, and the final record is the one with nothing behind it. -/
def readRecords (expectedSegment : Nat) (key : String) (tail : List UInt8) :
    List (List UInt8) → Option (DurableKeyState R) → Except String (ReadState R)
  | [], matched => .ok (.complete matched)
  | record :: rest, matched =>
    match parseRecord c record expectedSegment with
    | .error e =>
      if rest = [] && tail = [] && e = checksumMismatchError then .ok .corruptTail else .error e
    | .ok state =>
      readRecords expectedSegment key tail rest (if state.key = key then some state else matched)

/-- `read_state` on the bytes of the key's segment -/
def readState (bytes : List UInt8) (key : String) : Except String (ReadState R) :=
  let lines := bytes.splitOn newline
  readRecords c (keySegment c key) key (lines.getLast?.getD []) lines.dropLast none

/-! ### Writing -/

/-- The loop of `find_line_start`; every block is at least one byte, so that `fuel = fin`
blocks reach the beginning of the file. -/
def findLineStartFrom (bytes : List UInt8) : Nat → Nat → Nat
  | 0, _ => 0
  | fuel + 1, fin =>
    if fin = 0 then 0
    else
      let start := fin - tailScanBytes
      let buffer := (bytes.take fin).drop start
      match buffer.reverse.findIdx? (· = newline) with
      | some i => start + (buffer.length - 1 - i) + 1
      | none => findLineStartFrom bytes fuel start

/-- `find_line_start`: scan back from `fin` in blocks for the last newline. -/
def findLineStart (bytes : List UInt8) (fin : Nat) : Nat := findLineStartFrom bytes fin fin

/-- `truncate_torn_tail` -/
def truncateTornTail (bytes : List UInt8) (expectedSegment : Nat) : Except String (List UInt8) :=
  match bytes.getLast? with
  | none => .ok bytes
  | some last =>
    if last ≠ newline then .ok (bytes.take (findLineStart bytes bytes.length))
    else
      let recordEnd := bytes.length - 1
      let recordStart := findLineStart bytes recordEnd
      match parseRecord c ((bytes.take recordEnd).drop recordStart) expectedSegment with
      | .error e => .error e
      | .ok _ => .ok bytes

/-- The bytes after `write_state_locked` has written its record. -/
def appendRecord (bytes : List UInt8) (state : DurableKeyState R) : Except String (List UInt8) :=
  match truncateTornTail c bytes (keySegment c state.key) with
  | .error e => .error e
  | .ok kept => .ok (kept ++ (frame c state ++ [newline]))

/-! ### The records of a segment -/

/-- The bytes hold exactly the complete records `log`, and a torn tail behind them. -/
structure SegmentOf (segment : Nat) (log : List (DurableKeyState R)) (bytes : List UInt8) : Prop where
  placed : ∀ state ∈ log, keySegment c state.key = segment
  bytes_eq : ∃ tail, newline ∉ tail ∧ bytes = LineLog.render newline (frame c) log ++ tail

/-- The newest record of a key in a list of records. -/
def newestIn (log : List (DurableKeyState R)) (key : String) : Option (DurableKeyState R) :=
  (log.filter (·.key = key)).getLast?

section Segment

variable {c} {segment : Nat} {log : List (DurableKeyState R)} {bytes : List UInt8}
  {state : DurableKeyState R} {key : String}

theorem newline_notMem_frame (state : DurableKeyState R) : newline ∉ frame c state := by
  have hspace : newline ≠ space := by decide
  simp [frame, c.newline_notMem_sha256Hex, c.newline_notMem_toVec, hspace]

theorem SegmentOf.nil : SegmentOf c segment [] [] :=
  ⟨by simp, [], by simp, rfl⟩

variable (h : SegmentOf c segment log bytes)
include h

/-- An append that is interrupted before its newline adds no record. -/
theorem SegmentOf.torn {n : Nat} (hn : n ≤ (frame c state).length) :
    SegmentOf c segment log
      (render newline (frame c) log ++ (frame c state ++ [newline]).take n) := by
  refine ⟨h.placed, (frame c state).take n, ?_, ?_⟩
  · exact fun hmem => newline_notMem_frame state (mem_of_mem_take hmem)
  · rw [take_append_of_le_length hn]

/-- A cut keeps the records that end before it. -/
theorem SegmentOf.cut (n : Nat) :
    SegmentOf c segment (keepWithin (frame c) n log) (bytes.take n) := by
  obtain ⟨tail, htail, rfl⟩ := h.bytes_eq
  refine ⟨fun s hs => h.placed s (( keepWithin_prefix n log).subset hs), ?_⟩
  exact take_render newline_notMem_frame htail log n

end Segment

end Journal

end CodexPlus
