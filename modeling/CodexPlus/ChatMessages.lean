/-
CodexPlus/ChatMessages.lean

The Chat Completions projection of codex-api/src/endpoint/chat.rs: items become
messages, calls are gathered into assistant messages, and the tool-call history
of the result is validated.

`Converter` holds the local variables of `chat_messages_from_items`; one item
is one `Converter.step`.
-/
import CodexPlus.ResponseItem
import CodexPlus.CallGroups

namespace CodexPlus

namespace Chat

/-! ### Messages -/

structure ChatToolCall where
  id : String
  name : String
  arguments : String
  deriving DecidableEq, Repr

inductive ChatContentPart where
  | text (text : String)
  | imageUrl (url : String) (detail : Option ImageDetail)
  deriving DecidableEq, Repr

inductive ChatContent where
  | text (text : String)
  | parts (parts : List ChatContentPart)
  deriving DecidableEq, Repr

inductive ChatMessage where
  | system (content : String)
  | user (content : ChatContent)
  | assistant (content : String) (reasoningContent : Option String)
      (toolCalls : List ChatToolCall)
  | tool (toolCallId content : String)
  deriving DecidableEq, Repr

def ChatContent.intoText : ChatContent → String
  | .text content => content
  | .parts content => "\n".intercalate (content.filterMap fun
      | .text content => some content
      | .imageUrl _ _ => none)

/-- The Chat Completions API only accepts inline image URLs. -/
def imagePart : ImageReference → Option ImageDetail → Option ChatContentPart
  | .inline imageUrl, detail => some (.imageUrl imageUrl detail)
  | .file _, _ => none

def chatContentFromItems (content : List ContentItem) : ChatContent :=
  let parts : List ChatContentPart := content.filterMap fun
    | .inputText text | .outputText text => some (.text text)
    | .inputImage image detail => imagePart image detail
    | .inputAudio _ => none
  match parts with
  | [.text text] => .text text
  | parts => .parts parts

def functionOutputToChatContent : FunctionCallOutputBody → String × List ChatContentPart
  | .text text => (text, [])
  | .contentItems items =>
    let text := items.filterMap fun
      | .inputText text => some text
      | _ => none
    let images := items.filterMap fun
      | .inputImage image detail => imagePart image detail
      | _ => none
    if text.isEmpty && !images.isEmpty then
      ("Image output is included in the following user message.", images)
    else ("\n".intercalate text, images)

def chatFunctionName (toolNamespace : Option String) (name : String) : String :=
  match toolNamespace with
  | some toolNamespace =>
    if toolNamespace.endsWith "_" || name.startsWith "_" then toolNamespace ++ name
    else toolNamespace ++ "_" ++ name
  | none => name

/-! ### Conversion -/

/-- The serializers the conversion takes from serde_json: the arguments object of a custom tool
call, and the array of tool declarations. -/
structure Serializer where
  inputArguments : String → String
  toolArray : List String → String

/-- The local variables of `chat_messages_from_items`. The source keeps `unmatched_tool_calls` as a
hash set. -/
structure Converter where
  messages : List ChatMessage
  pendingToolCalls : List ChatToolCall
  pendingToolOutputImages : List ChatContentPart
  pendingReasoning : Option String
  pendingAssistantContent : Option String
  unmatchedToolCalls : List String
  deriving DecidableEq, Repr

namespace Converter

def new : Converter := ⟨[], [], [], none, none, []⟩

variable (c : Converter)

/-- `flush_pending_assistant`. -/
def flushPendingAssistant : Converter :=
  if c.pendingToolCalls.isEmpty && c.pendingReasoning.isNone && c.pendingAssistantContent.isNone then
    c
  else
    { c with
      messages := c.messages ++
        [.assistant (c.pendingAssistantContent.getD "") c.pendingReasoning c.pendingToolCalls]
      pendingToolCalls := []
      pendingReasoning := none
      pendingAssistantContent := none
      unmatchedToolCalls := c.unmatchedToolCalls ++ c.pendingToolCalls.map ChatToolCall.id }

/-- `flush_pending_tool_output_images`. -/
def flushPendingToolOutputImages : Converter :=
  if c.pendingToolOutputImages.isEmpty || !c.unmatchedToolCalls.isEmpty then c
  else
    { c with
      messages := c.messages ++ [.user (.parts c.pendingToolOutputImages)]
      pendingToolOutputImages := [] }

def push (message : ChatMessage) : Converter :=
  { c with messages := c.messages ++ [message] }

def pushCall (call : ChatToolCall) : Converter :=
  { c with pendingToolCalls := c.pendingToolCalls ++ [call] }

/-- Text that arrives while calls wait for their outputs joins the message of those calls. -/
def joinText (existing : Option String) (text : String) : Option String :=
  match existing with
  | some existing =>
    if existing ≠ "" ∧ text ≠ "" then some (existing ++ "\n" ++ text)
    else if existing = "" then some text
    else some existing
  | none => if text ≠ "" then some text else none

def pushAssistantText (text : String) : Converter :=
  if c.pendingToolCalls ≠ [] then
    { c with pendingAssistantContent := joinText c.pendingAssistantContent text }
  else
    -- a deferred assistant message is emitted first
    let c : Converter :=
      match c.pendingAssistantContent with
      | some content =>
        { c with
          messages := c.messages ++ [.assistant content c.pendingReasoning c.pendingToolCalls]
          pendingReasoning := none
          pendingToolCalls := [] }
      | none => c
    { c with pendingAssistantContent := some text }

def pushTool (callId content : String) (images : List ChatContentPart) : Converter :=
  { c with
    messages := c.messages ++ [.tool callId content]
    unmatchedToolCalls := c.unmatchedToolCalls.filter (· ≠ callId)
    pendingToolOutputImages :=
      if images.isEmpty then c.pendingToolOutputImages
      else c.pendingToolOutputImages ++
        .text ("Images returned by tool call `" ++ callId ++ "`:") :: images }

def pushReasoning (content : Option (List String)) : Converter :=
  -- once an output has sealed the message of its calls, later reasoning cannot join it
  if c.unmatchedToolCalls ≠ [] ∧ c.pendingToolCalls = [] then c
  else
    let c := if c.pendingToolCalls = [] ∧ c.pendingAssistantContent ≠ none then
      c.flushPendingAssistant else c
    match content with
    | none => c
    | some texts =>
      let text := String.join texts
      if text = "" then c
      else { c with pendingReasoning := some (c.pendingReasoning.getD "" ++ text) }

def step (ser : Serializer) (c : Converter) : ResponseItem → Converter
  | .message _ role content =>
    let c := c.flushPendingToolOutputImages
    if role = "developer" ∨ role = "system" then
      c.flushPendingAssistant.push (.system (chatContentFromItems content).intoText)
    else if role = "assistant" then c.pushAssistantText (chatContentFromItems content).intoText
    else c.flushPendingAssistant.push (.user (chatContentFromItems content))
  | .functionCallOutput _ (some callId) _ _ output _ =>
    let (content, images) := functionOutputToChatContent output.body
    c.flushPendingAssistant.pushTool callId content images
  | .customToolCallOutput _ callId _ output _ =>
    let (content, images) := functionOutputToChatContent output.body
    c.flushPendingAssistant.pushTool callId content images
  | .functionCall _ name toolNamespace arguments callId =>
    c.pushCall ⟨callId, chatFunctionName toolNamespace name, arguments⟩
  | .customToolCall _ callId name _ input => c.pushCall ⟨callId, name, ser.inputArguments input⟩
  | .localShellCall _ (some callId) action => c.pushCall ⟨callId, "shell", action⟩
  | .toolSearchCall _ (some callId) _ arguments => c.pushCall ⟨callId, "tool_search", arguments⟩
  | .toolSearchOutput _ (some callId) _ execution tools _ =>
    if execution = "client" then
      c.flushPendingAssistant.pushTool callId (ser.toolArray tools) []
    else c.flushPendingAssistant
  | .reasoning _ content _ => c.pushReasoning content
  | .compaction _ encryptedContent => c.flushPendingAssistant.push (.system encryptedContent)
  | .contextCompaction _ (some encryptedContent) =>
    c.flushPendingAssistant.push (.system encryptedContent)
  | _ => c.flushPendingAssistant

end Converter

/-! ### Validation -/

/-- The local variables of `validate_tool_call_history`. -/
structure Validator where
  seenToolCalls : List String
  pendingToolCalls : List String
  pendingAssistantIndex : Option ℕ
  deriving DecidableEq, Repr

def unanswered (v : Validator) (messageIndex : ℕ) : String :=
  "assistant message at index " ++ toString (v.pendingAssistantIndex.getD messageIndex) ++
    " has tool calls without matching tool outputs before message index " ++ toString messageIndex

/-- The calls of one assistant message. -/
def Validator.addCalls (messageIndex : ℕ) : Validator → List ChatToolCall → Except String Validator
  | v, [] => .ok v
  | v, call :: calls =>
    if call.id = "" then
      .error ("assistant tool call at message index " ++ toString messageIndex ++ " has an empty id")
    else if call.id ∈ v.seenToolCalls then
      .error ("duplicate assistant tool call id '" ++ call.id ++ "' at message index " ++
        toString messageIndex)
    else
      addCalls messageIndex
        { v with
          seenToolCalls := call.id :: v.seenToolCalls
          pendingToolCalls := v.pendingToolCalls ++ [call.id] } calls

def Validator.check (v : Validator) (messageIndex : ℕ) : ChatMessage → Except String Validator
  | .assistant _ _ (call :: calls) =>
    if v.pendingToolCalls ≠ [] then .error (unanswered v messageIndex)
    else do
      let v ← v.addCalls messageIndex (call :: calls)
      .ok { v with pendingAssistantIndex := some messageIndex }
  | .tool toolCallId _ =>
    if toolCallId = "" then
      .error ("tool message at index " ++ toString messageIndex ++ " has an empty tool_call_id")
    else if v.pendingToolCalls = [] then
      .error ("tool message at index " ++ toString messageIndex ++ " references '" ++ toolCallId ++
        "' without a preceding assistant tool call")
    else if toolCallId ∉ v.pendingToolCalls then
      .error ("tool message at index " ++ toString messageIndex ++ " references '" ++ toolCallId ++
        "' but expected one of [" ++ ", ".intercalate v.pendingToolCalls ++ "]")
    else
      let pending := v.pendingToolCalls.erase toolCallId
      .ok (if pending = [] then ⟨[], [], none⟩ else { v with pendingToolCalls := pending })
  | _ => if v.pendingToolCalls ≠ [] then .error (unanswered v messageIndex) else .ok v

def checkFrom : (messageIndex : ℕ) → Validator → List ChatMessage → Except String Validator
  | _, v, [] => .ok v
  | messageIndex, v, message :: messages => do
    let v ← v.check messageIndex message
    checkFrom (messageIndex + 1) v messages

def invalidChatToolHistory (message : String) : String :=
  "invalid chat tool call history: " ++ message

def validateToolCallHistory (messages : List ChatMessage) : Except String Unit :=
  match checkFrom 0 ⟨[], [], none⟩ messages with
  | .error message => .error (invalidChatToolHistory message)
  | .ok v =>
    if v.pendingToolCalls ≠ [] then
      .error (invalidChatToolHistory ("assistant message at index " ++
        toString (v.pendingAssistantIndex.getD messages.length) ++
        " has tool calls without matching tool outputs"))
    else .ok ()

def chatMessagesFromItems (ser : Serializer) (items : List ResponseItem) :
    Except String (List ChatMessage) :=
  let c := items.foldl (Converter.step ser) .new
  let c := c.flushPendingAssistant.flushPendingToolOutputImages
  match validateToolCallHistory c.messages with
  | .error message => .error message
  | .ok () => .ok c.messages

end Chat

end CodexPlus
