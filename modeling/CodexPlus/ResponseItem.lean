/-
CodexPlus/ResponseItem.lean

The items of a conversation: `ResponseItem` of protocol/src/models.rs with the
envelope codex_history wraps around it, and the small predicates that
context_manager/history.rs and context_manager/normalize.rs read items with.

JSON values (tool arguments, declarations, shell actions, passthrough metadata)
are kept as their serialized text: nothing here looks inside them.
-/
import CodexPlus.OpenCalls

namespace CodexPlus

/-! ### Content -/

inductive ImageReference where
  | inline (imageUrl : String)
  | file (fileId : String)
  deriving DecidableEq, Repr

inductive AudioReference where
  | inline (audioUrl : String)
  | file (fileId : String)
  deriving DecidableEq, Repr

inductive ImageDetail where
  | auto
  | low
  | high
  | original
  deriving DecidableEq, Repr

inductive ContentItem where
  | inputText (text : String)
  | inputImage (image : ImageReference) (detail : Option ImageDetail)
  | inputAudio (audio : AudioReference)
  | outputText (text : String)
  deriving DecidableEq, Repr

inductive AgentMessageInputContent where
  | inputText (text : String)
  | encryptedContent (encryptedContent : String)
  deriving DecidableEq, Repr

inductive FunctionCallOutputContentItem where
  | inputText (text : String)
  | inputImage (image : ImageReference) (detail : Option ImageDetail)
  | inputAudio (audioUrl : String)
  | encryptedContent (encryptedContent : String)
  deriving DecidableEq, Repr

inductive FunctionCallOutputBody where
  | text (text : String)
  | contentItems (items : List FunctionCallOutputContentItem)
  deriving DecidableEq, Repr

structure FunctionCallOutputPayload where
  body : FunctionCallOutputBody
  success : Option Bool
  deriving DecidableEq, Repr

def FunctionCallOutputPayload.fromText (content : String) : FunctionCallOutputPayload :=
  ⟨.text content, none⟩

/-! ### Items -/

/-- One item of a conversation. The two spellings of a reasoning text are read alike everywhere,
so `reasoning` keeps the texts only. -/
inductive ResponseItem where
  | additionalTools (id : Option String) (role : String) (tools : List String)
  | message (id : Option String) (role : String) (content : List ContentItem)
  | agentMessage (id : Option String) (author recipient : String)
      (content : List AgentMessageInputContent)
  | reasoning (id : Option String) (content : Option (List String))
      (encryptedContent : Option String)
  | localShellCall (id callId : Option String) (action : String)
  | functionCall (id : Option String) (name : String) (toolNamespace : Option String)
      (arguments callId : String)
  | toolSearchCall (id callId : Option String) (execution arguments : String)
  | functionCallOutput (id callId name toolNamespace : Option String)
      (output : FunctionCallOutputPayload) (passthrough : Option String)
  | customToolCall (id : Option String) (callId name : String) (toolNamespace : Option String)
      (input : String)
  | customToolCallOutput (id : Option String) (callId : String) (name : Option String)
      (output : FunctionCallOutputPayload) (passthrough : Option String)
  | toolSearchOutput (id callId : Option String) (status execution : String)
      (tools : List String) (passthrough : Option String)
  | webSearchCall (id : Option String) (action : Option String)
  | imageGenerationCall (id : Option String) (result : String)
  | compaction (id : Option String) (encryptedContent : String)
  | configurationUpdate (reasoning : String)
  | compactionTrigger
  | contextCompaction (id : Option String) (encryptedContent : Option String)
  | other
  deriving DecidableEq, Repr

/-- Metadata the harness keeps beside an item: the fields the recorder reads. -/
structure CodexHarnessMetadata where
  historyTruncationTokenLimit : Option Nat
  harnessAuthoredConfiguration : Bool
  deriving DecidableEq, Repr

structure ResponseItemEnvelope where
  item : ResponseItem
  metadata : Option CodexHarnessMetadata
  deriving DecidableEq, Repr

def ResponseItemEnvelope.new (item : ResponseItem) : ResponseItemEnvelope := ⟨item, none⟩

/-! ### Call ids -/

namespace ResponseItem

/-- normalize.rs `tool_call_id`: the call id of a tool call that has one. -/
def toolCallId : ResponseItem → Option String
  | functionCall _ _ _ _ callId => some callId
  | customToolCall _ callId _ _ _ => some callId
  | toolSearchCall _ callId _ _ => callId
  | localShellCall _ callId _ => callId
  | _ => none

/-- normalize.rs `output_call_id`: the call id of a tool output that has one. -/
def outputCallId : ResponseItem → Option String
  | functionCallOutput _ callId _ _ _ _ => callId
  | toolSearchOutput _ callId _ _ _ _ => callId
  | customToolCallOutput _ callId _ _ _ => some callId
  | _ => none

def isToolCallItem : ResponseItem → Bool
  | functionCall .. | customToolCall .. | toolSearchCall .. | localShellCall .. => true
  | _ => false

def isToolOutputItem : ResponseItem → Bool
  | functionCallOutput .. | toolSearchOutput .. | customToolCallOutput .. => true
  | _ => false

/-- history.rs `tool_pair_call_id`: the call id of a tool call or of a tool output. -/
def toolPairCallId : ResponseItem → Option String
  | functionCall _ _ _ _ callId => some callId
  | customToolCall _ callId _ _ _ => some callId
  | toolSearchCall _ callId _ _ => callId
  | localShellCall _ callId _ => callId
  | functionCallOutput _ callId _ _ _ _ => callId
  | toolSearchOutput _ callId _ _ _ _ => callId
  | customToolCallOutput _ callId _ _ _ => some callId
  | _ => none

/-- normalize.rs `is_assistant_coalescing_item`: what the converters fold into the assistant
message that carries the calls before it. -/
def isAssistantCoalescingItem : ResponseItem → Bool
  | message _ role _ => role = "assistant"
  | reasoning .. => true
  | _ => false

/-- Whether an output is of the kind a call of this kind asks for. -/
def isAnsweredBy : (call output : ResponseItem) → Bool
  | functionCall .., functionCallOutput .. => true
  | localShellCall .., functionCallOutput .. => true
  | toolSearchCall .., toolSearchOutput .. => true
  | customToolCall .., customToolCallOutput .. => true
  | _, _ => false

/-- What an item does to the calls that wait for an output: an output without a call id answers
the call that has waited longest. -/
def pairMark (item : ResponseItem) : OpenCalls.Mark String :=
  match item.toolPairCallId with
  | none => .inert
  | some callId =>
    if item.isToolCallItem then .opens callId
    else if item.isToolOutputItem then
      if callId = "" then .closesOldest else .closes callId
    else .inert

end ResponseItem

/-! ### Synthetic outputs -/

/-- normalize.rs `synthetic_output_id`, with the version 5 UUID of a name in the synthetic-output
namespace as a parameter. -/
def syntheticOutputId (uuidV5 : String → String) (kind : String) (itemId : Option String) :
    Option String :=
  match itemId.filter (· ≠ "") with
  | none => none
  | some sourceId => some (kind ++ "_" ++ uuidV5 (kind ++ ":" ++ sourceId))

/-- The canonical answer to a call that has none, for each kind of call. -/
def abortedOutput (uuidV5 : String → String) (callId : String) : ResponseItem → Option ResponseItem
  | .functionCall id _ _ _ _ | .localShellCall id _ _ =>
    some (.functionCallOutput (syntheticOutputId uuidV5 "fco" id) (some callId) none none
      (.fromText "aborted") none)
  | .toolSearchCall id _ _ _ =>
    some (.toolSearchOutput (syntheticOutputId uuidV5 "tso" id) (some callId) "completed" "client"
      [] none)
  | .customToolCall id _ _ _ _ =>
    some (.customToolCallOutput (syntheticOutputId uuidV5 "ctco" id) callId none
      (.fromText "aborted") none)
  | _ => none

end CodexPlus
