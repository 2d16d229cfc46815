/-
CodexPlus/ChatStream.lean

The decoder of a streamed Chat completion: codex-api/src/sse/chat.rs.

A chunk may carry content, reasoning and deltas of any number of tool calls.  The
decoder accumulates each kind on its own and sends the events of its items: an
item is added with its first delta and done when a finish reason, or the end of
the stream, closes it.
-/
import Mathlib
import CodexPlus.ResponseItem

namespace CodexPlus

/-! ### Events -/

structure TokenUsage where
  inputTokens : ℤ
  cachedInputTokens : ℤ
  cacheCreationInputTokens : ℤ
  outputTokens : ℤ
  reasoningOutputTokens : ℤ
  totalTokens : ℤ
  deriving DecidableEq, Repr

/-- The events of a response stream that the decoders send. -/
inductive ResponseEvent where
  | created (responseId : Option String)
  | outputItemAdded (item : ResponseItem)
  | outputItemDone (item : ResponseItem)
  | outputTextDelta (delta : String)
  | reasoningContentDelta (delta : String) (contentIndex : ℕ)
  | toolCallInputDelta (itemId : String) (callId : Option String) (delta : String)
  | completed (responseId : String) (tokenUsage : Option TokenUsage) (endTurn : Option Bool)
  deriving DecidableEq, Repr

/-- `ApiError::Stream` -/
inductive ApiError where
  | stream (message : String)
  deriving DecidableEq, Repr

/-- What is sent to the receiver. -/
abbrev Sent := Except ApiError ResponseEvent

/-- The bytes of a string from an offset that a character starts at. -/
def dropBytes : ℕ → List Char → List Char
  | 0, text => text
  | _, [] => []
  | bytes + 1, c :: text => dropBytes (bytes + 1 - c.utf8Size) text

/-- `text[bytes..].to_string()` -/
def sliceFrom (text : String) (bytes : ℕ) : String := String.ofList (dropBytes bytes text.toList)

namespace ChatStream

/-! ### Chunks -/

structure ChatFunctionDelta where
  name : Option String
  arguments : Option String
  deriving DecidableEq, Repr

structure ChatToolCallDelta where
  index : ℕ
  id : Option String
  function : Option ChatFunctionDelta
  deriving DecidableEq, Repr

structure ChatDelta where
  content : Option String
  reasoningContent : Option String
  toolCalls : Option (List ChatToolCallDelta)
  deriving DecidableEq, Repr

structure ChatChoice where
  delta : ChatDelta
  finishReason : Option String
  deriving DecidableEq, Repr

structure ChatUsage where
  promptTokens : ℤ
  completionTokens : ℤ
  totalTokens : ℤ
  cachedTokens : Option ℤ
  reasoningTokens : Option ℤ
  deriving DecidableEq, Repr

structure ChatChunk where
  id : Option String
  choices : List ChatChoice
  usage : Option ChatUsage
  deriving DecidableEq, Repr

def ChatUsage.toTokenUsage (usage : ChatUsage) : TokenUsage where
  inputTokens := usage.promptTokens
  cachedInputTokens := usage.cachedTokens.getD 0
  cacheCreationInputTokens := 0
  outputTokens := usage.completionTokens
  reasoningOutputTokens := usage.reasoningTokens.getD 0
  totalTokens := usage.totalTokens

structure ChatToolName where
  toolNamespace : Option String
  name : String
  custom : Bool
  deriving DecidableEq, Repr

abbrev ChatToolNameMap := String → Option ChatToolName

def nonEmpty (value : Option String) : Option String := value.filter (· ≠ "")

def appendNonEmpty (target : String) (value : Option String) : String :=
  match nonEmpty value with
  | some value => target ++ value
  | none => target

/-! ### Text and reasoning -/

inductive StreamItemState where
  | pending
  | streaming
  deriving DecidableEq, Repr

/-- The text of a message or of a reasoning, and whether its item has been added. -/
structure TextAccumulator where
  text : String
  state : StreamItemState
  deriving DecidableEq, Repr

/-- An item kind that accumulates text: its two items and its delta. -/
structure TextItem where
  added : ResponseItem
  delta : String → ResponseEvent
  done : String → ResponseItem

namespace TextAccumulator

def empty : TextAccumulator := ⟨"", .pending⟩

/-- Both `push` functions: the item is added with its first text. -/
def push (kind : TextItem) (a : TextAccumulator) (content : String) : TextAccumulator × List Sent :=
  (⟨a.text ++ content, .streaming⟩,
    (if a.state = .streaming then [] else [.ok (.outputItemAdded kind.added)]) ++
      [.ok (kind.delta content)])

def send (kind : TextItem) (a : TextAccumulator) : TextAccumulator × List Sent :=
  (empty, [.ok (.outputItemDone (kind.done a.text))])

end TextAccumulator

def message : TextItem where
  added := .message none "assistant" []
  delta := .outputTextDelta
  done := fun text => .message none "assistant" [.outputText text]

def reasoningId : String := "rs_chat_reasoning_0"

def reasoning : TextItem where
  added := .reasoning (some reasoningId) (some []) none
  delta := fun delta => .reasoningContentDelta delta 0
  done := fun text => .reasoning (some reasoningId) (some [text]) none

/-- `TextAccumulator::finish` asks for a text. -/
def finishContent (a : TextAccumulator) : TextAccumulator × List Sent :=
  if a.text = "" then (a, []) else a.send message

/-- `ReasoningAccumulator::finish` asks for the state. -/
def finishReasoning (a : TextAccumulator) : TextAccumulator × List Sent :=
  if a.state ≠ .streaming then (a, []) else a.send reasoning

/-! ### Tool calls -/

structure PendingToolCall where
  id : String
  rawName : String
  arguments : String
  deriving DecidableEq, Repr

structure StartedToolCall where
  id : String
  syntheticId : Bool
  toolNamespace : Option String
  name : String
  custom : Bool
  arguments : String
  emittedArgumentBytes : ℕ
  deriving DecidableEq, Repr

inductive ToolCallAccumulator where
  | pending (call : PendingToolCall)
  | started (call : StartedToolCall)
  deriving DecidableEq, Repr

/-- `ToolCallAccumulator::default` -/
def ToolCallAccumulator.default : ToolCallAccumulator := .pending ⟨"", "", ""⟩

def ChatToolCallDelta.name (delta : ChatToolCallDelta) : Option String := delta.function.bind (·.name)

def ChatToolCallDelta.arguments (delta : ChatToolCallDelta) : Option String :=
  delta.function.bind (·.arguments)

/-- What the decoder is given: the names of the tools, and how the input of a custom tool is read
from the arguments (`custom_tool_input_from_arguments`). -/
structure ChatContext where
  toolNames : ChatToolNameMap
  customToolInput : String → String

namespace PendingToolCall

def appendDeltaFields (call : PendingToolCall) (delta : ChatToolCallDelta) : PendingToolCall where
  id := appendNonEmpty call.id delta.id
  rawName := appendNonEmpty call.rawName delta.name
  arguments := appendNonEmpty call.arguments delta.arguments

/-- The call once it has a name; without an id it gets one from its index. -/
def start (context : ChatContext) (call : PendingToolCall) (index : ℕ) : Option StartedToolCall :=
  if call.rawName = "" then none
  else
    let tool := (context.toolNames call.rawName).getD ⟨none, call.rawName, false⟩
    let syntheticId : Bool := call.id = ""
    some
      { id := if syntheticId then "call_" ++ toString index else call.id
        syntheticId
        toolNamespace := tool.toolNamespace
        name := tool.name
        custom := tool.custom
        arguments := call.arguments
        emittedArgumentBytes := 0 }

end PendingToolCall

namespace StartedToolCall

variable (call : StartedToolCall)

def appendDeltaFields (delta : ChatToolCallDelta) : StartedToolCall :=
  { call with
    id := if call.syntheticId then call.id else appendNonEmpty call.id delta.id
    arguments := appendNonEmpty call.arguments delta.arguments }

/-- The item of the call with given arguments, or given input. -/
def item (arguments : String) : ResponseItem :=
  if call.custom then .customToolCall none call.id call.name call.toolNamespace arguments
  else .functionCall none call.name call.toolNamespace arguments call.id

def emitStart : List Sent := [.ok (.outputItemAdded (call.item ""))]

def emitNewArguments (index : ℕ) : StartedToolCall × List Sent :=
  if call.emittedArgumentBytes = call.arguments.utf8ByteSize then (call, [])
  else
    ({ call with emittedArgumentBytes := call.arguments.utf8ByteSize },
      [.ok (.toolCallInputDelta (if call.id = "" then "chat_tool_" ++ toString index else call.id)
        (some call.id) (sliceFrom call.arguments call.emittedArgumentBytes))])

def finish (context : ChatContext) (call : StartedToolCall) : List Sent :=
  [.ok (.outputItemDone (call.item
    (if call.custom then context.customToolInput call.arguments else call.arguments)))]

end StartedToolCall

namespace ToolCallAccumulator

def pushDelta (context : ChatContext) (index : ℕ) (delta : ChatToolCallDelta) :
    ToolCallAccumulator → ToolCallAccumulator × List Sent
  | .pending call =>
    let call := call.appendDeltaFields delta
    match call.start context index with
    | none => (.pending call, [])
    | some startedCall =>
      let (emitted, events) := startedCall.emitNewArguments index
      (.started emitted, startedCall.emitStart ++ events)
  | .started call =>
    let (call, events) := (call.appendDeltaFields delta).emitNewArguments index
    (.started call, events)

def finish (context : ChatContext) : ToolCallAccumulator → Except ApiError (List Sent)
  | .pending _ => .error (.stream "chat tool call missing function name")
  | .started call => .ok (call.finish context)

end ToolCallAccumulator

/-! ### The state of the stream -/

structure ChatStreamState where
  responseId : Option String
  content : TextAccumulator
  reasoning : TextAccumulator
  toolCalls : Std.TreeMap ℕ ToolCallAccumulator
  finished : Bool
  tokenUsage : Option TokenUsage

/-- One delta of a tool call. -/
def pushToolCall (context : ChatContext) (calls : Std.TreeMap ℕ ToolCallAccumulator)
    (delta : ChatToolCallDelta) : Std.TreeMap ℕ ToolCallAccumulator × List Sent :=
  let (call, events) := ((calls.get? delta.index).getD .default).pushDelta context delta.index delta
  (calls.insert delta.index call, events)

def pushToolCalls (context : ChatContext) (calls : Std.TreeMap ℕ ToolCallAccumulator) :
    List ChatToolCallDelta → Std.TreeMap ℕ ToolCallAccumulator × List Sent
  | [] => (calls, [])
  | delta :: deltas =>
    let (calls, events) := pushToolCall context calls delta
    let (calls, more) := pushToolCalls context calls deltas
    (calls, events ++ more)

namespace ChatStreamState

def start : ChatStreamState := ⟨none, .empty, .empty, ∅, false, none⟩

variable (s : ChatStreamState)

def pushReasoning (text : Option String) : ChatStreamState × List Sent :=
  match nonEmpty text with
  | some text =>
    let (reasoning, events) := s.reasoning.push ChatStream.reasoning text
    ({ s with reasoning }, events)
  | none => (s, [])

def endReasoning : ChatStreamState × List Sent :=
  let (reasoning, events) := finishReasoning s.reasoning
  ({ s with reasoning }, events)

def pushContent (text : Option String) : ChatStreamState × List Sent :=
  match nonEmpty text with
  | some text =>
    let (content, events) := s.content.push message text
    ({ s with content }, events)
  | none => (s, [])

def endContent : ChatStreamState × List Sent :=
  let (content, events) := finishContent s.content
  ({ s with content }, events)

end ChatStreamState

def ChatDelta.hasAnswerOutput (delta : ChatDelta) : Bool :=
  (nonEmpty delta.content).isSome || ! (delta.toolCalls.getD []).isEmpty

namespace ChatStreamState

variable (context : ChatContext) (s : ChatStreamState)

/-- Reasoning is done before the first answer output. -/
def applyDelta (delta : ChatDelta) : ChatStreamState × List Sent :=
  let (s, thought) := s.pushReasoning delta.reasoningContent
  let (s, closed) := if delta.hasAnswerOutput then s.endReasoning else (s, [])
  let (s, said) := s.pushContent delta.content
  let (toolCalls, called) := pushToolCalls context s.toolCalls (delta.toolCalls.getD [])
  ({ s with toolCalls }, thought ++ closed ++ said ++ called)

/-- The tool calls in the order of their indices, up to one without a name; the events before the
error have been sent. -/
def finishToolCalls : List (ℕ × ToolCallAccumulator) → List Sent × Except ApiError Unit
  | [] => ([], .ok ())
  | (_, call) :: calls =>
    match call.finish context with
    | .error error => ([], .error error)
    | .ok events =>
      let (more, result) := finishToolCalls calls
      (events ++ more, result)

def finishItems (finishReason : String) : ChatStreamState × List Sent × Except ApiError Unit :=
  let (s, thought) := s.endReasoning
  let (s, said) := s.endContent
  if finishReason = "tool_calls" then
    let (called, result) := finishToolCalls context s.toolCalls.toList
    ({ s with toolCalls := ∅ }, thought ++ said ++ called, result)
  else (s, thought ++ said, .ok ())

/-- One choice, with whether it completes the response. -/
def applyChoice (s : ChatStreamState) (choice : ChatChoice) :
    ChatStreamState × List Sent × Except ApiError (Option Bool) :=
  let (s, events) := s.applyDelta context choice.delta
  match choice.finishReason with
  | none => (s, events, .ok none)
  | some finishReason =>
    if finishReason = "stop" ∨ finishReason = "tool_calls" then
      let (s, closing, result) := { s with finished := true }.finishItems context finishReason
      (s, events ++ closing, result.map fun _ => some (finishReason ≠ "tool_calls"))
    else if finishReason = "length" ∨ finishReason = "content_filter" then
      (s, events, .error (.stream ("chat completion finished with " ++ finishReason)))
    else
      (s, events,
        .error (.stream ("chat completion finished with unknown finish reason " ++ finishReason)))

def applyChoices (s : ChatStreamState) (completed : Bool) :
    List ChatChoice → ChatStreamState × List Sent × Except ApiError Bool
  | [] => (s, [], .ok completed)
  | choice :: choices =>
    match s.applyChoice context choice with
    | (s, events, .error error) => (s, events, .error error)
    | (s, events, .ok last) =>
      let (s, more, result) := s.applyChoices (last.getD completed) choices
      (s, events ++ more, result)

/-- The id and the usage of a chunk. -/
def receive (chunk : ChatChunk) : ChatStreamState :=
  { s with
    responseId := chunk.id.orElse fun _ => s.responseId
    tokenUsage := (chunk.usage.map ChatUsage.toTokenUsage).orElse fun _ => s.tokenUsage }

def applyChunk (chunk : ChatChunk) : ChatStreamState × List Sent × Except ApiError Bool :=
  let (s, events, result) := (s.receive chunk).applyChoices context false chunk.choices
  (s, events, result.map fun completed => completed && s.tokenUsage.isSome)

def complete : List Sent :=
  [.ok (.completed (s.responseId.getD "chatcmpl") s.tokenUsage none)]

def finishFromDone : ChatStreamState × List Sent × Except ApiError Unit :=
  if s.finished then (s, [], .ok ())
  else
    let finishReason := if s.toolCalls.isEmpty then "stop" else "tool_calls"
    { s with finished := true }.finishItems context finishReason

end ChatStreamState

/-! ### The stream -/

/-- What the event source yields: the data of an event as it is parsed, or a failure. -/
inductive SseEvent where
  | done
  | chunk (chunk : ChatChunk)
  | error (message : String)
  | unparsed
  | transportError (message : String)
  | idleTimeout
  deriving DecidableEq, Repr

/-- The loop of `process_chat_sse`; the end of the list is the end of the connection. -/
def process (context : ChatContext) (s : ChatStreamState) : List SseEvent → List Sent
  | [] =>
    if s.finished then s.complete
    else [.error (.stream "stream closed before chat completion finished")]
  | .transportError message :: _ => [.error (.stream message)]
  | .idleTimeout :: _ => [.error (.stream "idle timeout waiting for SSE")]
  | .done :: _ =>
    match s.finishFromDone context with
    | (s, events, .ok ()) => events ++ s.complete
    | (_, events, .error error) => events ++ [.error error]
  | .error message :: _ => [.error (.stream message)]
  | .unparsed :: inputs => process context s inputs
  | .chunk chunk :: inputs =>
    match s.applyChunk context chunk with
    | (s, events, .ok true) => events ++ s.complete
    | (s, events, .ok false) => events ++ process context s inputs
    | (_, events, .error error) => events ++ [.error error]

def processChatSse (context : ChatContext) (inputs : List SseEvent) : List Sent :=
  .ok (.created none) :: process context .start inputs

end ChatStream

end CodexPlus
