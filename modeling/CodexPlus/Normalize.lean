/-
CodexPlus/Normalize.lean

Prompt normalization of context_manager/normalize.rs: outputs are moved back to
their calls, missing outputs are synthesized, orphans are removed, and media
the model cannot read is replaced.

`reorderDelayedToolOutputsAfterCalls` works on positions of the unedited list.
What it decides, which positions leave and where they go, is a relocation plan;
the single pass that rebuilds the list is `Relocation.Plan.rebuilt`.  The source
keeps the outputs whose insertion point was itself moved in a hash map and
appends them in the map's order, which is a parameter here.
-/
import CodexPlus.ResponseItem
import CodexPlus.Relocation

namespace CodexPlus

namespace Normalize

/-! ### Positions -/

/-- The source's `while end + 1 < len && p(end + 1) { end += 1 }` with `fuel` positions left. -/
def extendWhile (p : ℕ → Bool) : (fuel i : ℕ) → ℕ
  | 0, i => i
  | fuel + 1, i => if p (i + 1) then extendWhile p fuel (i + 1) else i

section Positions

variable (items : List ResponseItemEnvelope)

def callIdAt (i : ℕ) : Option String := items[i]?.bind (·.item.toolCallId)

def outputIdAt (i : ℕ) : Option String := items[i]?.bind (·.item.outputCallId)

def isCallAt (i : ℕ) : Bool := (callIdAt items i).isSome

def isCoalescingAt (i : ℕ) : Bool := items[i]?.any (·.item.isAssistantCoalescingItem)

/-- `call_index_by_id`: the first call with an id. -/
def callIndexById (callId : String) : Option ℕ :=
  items.findIdx? fun envelope => envelope.item.toolCallId == some callId

/-- `output_positions`: the index of the call an output matches. -/
def outputPositions (i : ℕ) : Option ℕ := (outputIdAt items i).bind (callIndexById items)

def extend (p : ℕ → Bool) (i : ℕ) : ℕ := extendWhile p (items.length - (i + 1)) i

/-- The end of the contiguous call run that starts at `i`. -/
def batchEnd (i : ℕ) : ℕ := extend items (isCallAt items) i

/-- Assistant text and reasoning after the calls stay in the same assistant message. -/
def assistantBlockEnd (i : ℕ) : ℕ := extend items (isCoalescingAt items) i

/-- Whether position `i` holds an output of a call from `first` to `last`. -/
def answersBetween (first last i : ℕ) : Bool :=
  (outputPositions items i).any fun call => decide (first ≤ call ∧ call ≤ last)

/-! ### Reordering -/

/-- The insertions into `move_target` for the batch that starts at `start`. -/
def batchMoves (start : ℕ) : List (ℕ × ℕ) :=
  if isCallAt items start then
    let last := batchEnd items start
    let outputIndices := (List.range items.length).filter (answersBetween items start last)
    match outputIndices with
    | [] => []
    | firstOutput :: _ =>
      let blockEnd := assistantBlockEnd items last
      let contiguousEnd := extend items (answersBetween items start last) firstOutput
      if firstOutput > blockEnd + 1 then
        -- something split the assistant message from its outputs: all of them move
        outputIndices.map fun i => (i, blockEnd)
      else
        (outputIndices.filter fun i => decide (i > contiguousEnd)).map fun i => (i, contiguousEnd)
  else []

def insertTarget (targets : ℕ → Option ℕ) (move : ℕ × ℕ) : ℕ → Option ℕ :=
  Function.update targets move.1 (some move.2)

/-- `move_target`: every call index is the start of a batch, and a later insertion replaces an
earlier one. -/
def moveTarget : ℕ → Option ℕ :=
  (List.range items.length).foldl (fun targets start => (batchMoves items start).foldl insertTarget
    targets) fun _ => none

/-- `dropped_positions`: an output whose id an earlier output has. -/
def isDuplicateOutput (i : ℕ) : Bool :=
  (outputIdAt items i).any fun callId =>
    (List.range i).any fun j => outputIdAt items j == some callId

def reorderPlan : Relocation.Plan := ⟨items.length, isDuplicateOutput items, moveTarget items⟩

end Positions

/-- What normalization takes from elsewhere: UUIDs, and the order in which a hash map with these
keys is iterated. -/
structure Env where
  uuidV5 : String → String
  drain : List ℕ → List ℕ
  drain_perm : ∀ l, (drain l).Perm l

def reorderDelayedToolOutputsAfterCalls (env : Env) (items : List ResponseItemEnvelope) :
    List ResponseItemEnvelope :=
  if (List.range items.length).all fun i => !isCallAt items i then items
  else if (List.range items.length).all fun i => !(reorderPlan items).skips i then items
  else ((reorderPlan items).rebuilt env.drain).filterMap (items[·]?)

/-! ### Missing outputs and orphans -/

section Outputs

variable (items : List ResponseItemEnvelope)

def functionOutputIds : List String :=
  items.filterMap fun envelope =>
    match envelope.item with
    | .functionCallOutput _ callId _ _ _ _ => callId
    | _ => none

def toolSearchOutputIds : List String :=
  items.filterMap fun envelope =>
    match envelope.item with
    | .toolSearchOutput _ callId _ _ _ _ => callId
    | _ => none

def customToolOutputIds : List String :=
  items.filterMap fun envelope =>
    match envelope.item with
    | .customToolCallOutput _ callId _ _ _ => some callId
    | _ => none

/-- The ids of the outputs that can answer a call of this kind. -/
def outputIdsFor : ResponseItem → List String
  | .functionCall .. | .localShellCall .. => functionOutputIds items
  | .toolSearchCall .. => toolSearchOutputIds items
  | .customToolCall .. => customToolOutputIds items
  | _ => []

/-- The synthetic output of a call that has none. -/
def missingOutput (uuidV5 : String → String) (envelope : ResponseItemEnvelope) :
    Option ResponseItemEnvelope :=
  match envelope.item.toolCallId with
  | none => none
  | some callId =>
    if callId ∈ outputIdsFor items envelope.item then none
    else (abortedOutput uuidV5 callId envelope.item).map ResponseItemEnvelope.new

def missingOutputsToInsert (uuidV5 : String → String) : List (ℕ × ResponseItemEnvelope) :=
  items.zipIdx.filterMap fun entry =>
    (missingOutput items uuidV5 entry.1).map fun output => (entry.2, output)

def functionCallIds : List String :=
  items.filterMap fun envelope =>
    match envelope.item with
    | .functionCall _ _ _ _ callId => some callId
    | .localShellCall _ callId _ => callId
    | _ => none

def toolSearchCallIds : List String :=
  items.filterMap fun envelope =>
    match envelope.item with
    | .toolSearchCall _ callId _ _ => callId
    | _ => none

def customToolCallIds : List String :=
  items.filterMap fun envelope =>
    match envelope.item with
    | .customToolCall _ callId _ _ _ => some callId
    | _ => none

def isOrphan (envelope : ResponseItemEnvelope) : Bool :=
  match envelope.item with
  | .functionCallOutput _ (some callId) _ _ _ _ => callId ∉ functionCallIds items
  | .customToolCallOutput _ callId _ _ _ => callId ∉ customToolCallIds items
  | .toolSearchOutput _ (some callId) _ execution _ _ =>
    execution ≠ "server" ∧ callId ∉ toolSearchCallIds items
  | _ => false

end Outputs

/-- Synthetic outputs go in directly behind their calls, from the last to the first. -/
def ensureCallOutputsPresent (env : Env) (items : List ResponseItemEnvelope) :
    List ResponseItemEnvelope :=
  (missingOutputsToInsert items env.uuidV5).reverse.foldl
    (fun items entry => items.insertIdx (entry.1 + 1) entry.2) items

def removeOrphanOutputs (items : List ResponseItemEnvelope) : List ResponseItemEnvelope :=
  items.filter fun envelope => !isOrphan items envelope

/-! ### Media -/

inductive InputModality where
  | text
  | image
  | audio
  deriving DecidableEq, Repr

def unsupportedImage : String := "image content omitted because you do not support image input"

def unsupportedAudio : String := "audio content omitted because you do not support audio input"

def stripImage : ResponseItem → ResponseItem
  | .message id role content =>
    .message id role (content.map fun
      | .inputImage _ _ => .inputText unsupportedImage
      | item => item)
  | .functionCallOutput id callId name toolNamespace ⟨.contentItems content, success⟩ pass =>
    .functionCallOutput id callId name toolNamespace
      ⟨.contentItems (content.map fun
        | .inputImage _ _ => .inputText unsupportedImage
        | item => item), success⟩ pass
  | .customToolCallOutput id callId name ⟨.contentItems content, success⟩ pass =>
    .customToolCallOutput id callId name
      ⟨.contentItems (content.map fun
        | .inputImage _ _ => .inputText unsupportedImage
        | item => item), success⟩ pass
  | .imageGenerationCall id _ => .imageGenerationCall id ""
  | item => item

def stripAudio : ResponseItem → ResponseItem
  | .message id role content =>
    .message id role (content.map fun
      | .inputAudio _ => .inputText unsupportedAudio
      | item => item)
  | .functionCallOutput id callId name toolNamespace ⟨.contentItems content, success⟩ pass =>
    .functionCallOutput id callId name toolNamespace
      ⟨.contentItems (content.map fun
        | .inputAudio _ => .inputText unsupportedAudio
        | item => item), success⟩ pass
  | .customToolCallOutput id callId name ⟨.contentItems content, success⟩ pass =>
    .customToolCallOutput id callId name
      ⟨.contentItems (content.map fun
        | .inputAudio _ => .inputText unsupportedAudio
        | item => item), success⟩ pass
  | item => item

def stripImagesWhenUnsupported (inputModalities : List InputModality)
    (items : List ResponseItemEnvelope) : List ResponseItemEnvelope :=
  if .image ∈ inputModalities then items
  else items.map fun envelope => { envelope with item := stripImage envelope.item }

def stripAudioWhenUnsupported (inputModalities : List InputModality)
    (items : List ResponseItemEnvelope) : List ResponseItemEnvelope :=
  if .audio ∈ inputModalities then items
  else items.map fun envelope => { envelope with item := stripAudio envelope.item }

/-- The items of `ContextManager::normalize_history`. -/
def normalizeHistory (env : Env) (inputModalities : List InputModality)
    (items : List ResponseItemEnvelope) : List ResponseItemEnvelope :=
  let items := reorderDelayedToolOutputsAfterCalls env items
  let items := ensureCallOutputsPresent env items
  let items := removeOrphanOutputs items
  let items := stripImagesWhenUnsupported inputModalities items
  stripAudioWhenUnsupported inputModalities items

end Normalize

end CodexPlus
