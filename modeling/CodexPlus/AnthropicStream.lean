/-
CodexPlus/AnthropicStream.lean

The decoder of a streamed Anthropic message: codex-api/src/sse/anthropic.rs.

The blocks of a message arrive one after the other, each with its index.  Text
and thinking are collected over all blocks, tool calls by index; the items are
done when the message stops.
-/
import CodexPlus.ChatStream
import CodexPlus.Json

namespace CodexPlus

namespace Anthropic

/-! ### Stream events -/

structure AnthropicUsage where
  inputTokens : Option ℤ
  outputTokens : Option ℤ
  cacheCreationInputTokens : Option ℤ
  cacheReadInputTokens : Option ℤ
  deriving DecidableEq, Repr

inductive ContentBlockStart where
  | text (text : Option String)
  | toolUse (id name : String) (input : Option Json)
  | redactedThinking (data : String)
  | unknown

inductive ContentBlockDelta where
  | textDelta (text : String)
  | inputJsonDelta (partialJson : String)
  | thinkingDelta (thinking : String)
  | signatureDelta (signature : String)
  | unknown

inductive StreamEvent where
  | messageStart (id : String) (usage : Option AnthropicUsage)
  | contentBlockStart (index : ℕ) (block : ContentBlockStart)
  | contentBlockDelta (index : ℕ) (delta : ContentBlockDelta)
  | contentBlockStop (index : ℕ)
  | messageDelta (stopReason : Option String) (usage : Option AnthropicUsage)
  | messageStop
  | ping
  | error (message : String)

structure AnthropicToolName where
  toolNamespace : Option String
  name : String
  deriving DecidableEq, Repr

/-- `anthropic_tool_name`: the name of a tool on the wire. -/
def anthropicToolName (toolNamespace : Option String) (name : String) : String :=
  match toolNamespace with
  | some toolNamespace =>
    if toolNamespace.toList.getLast? = some '_' || name.toList.head? = some '_' then
      toolNamespace ++ name
    else toolNamespace ++ "_" ++ name
  | none => name

/-- The names of the tools by their names on the wire. -/
structure AnthropicToolNameMap where
  get : String → Option AnthropicToolName
  wire : ∀ name tool, get name = some tool → anthropicToolName tool.toolNamespace tool.name = name

namespace AnthropicToolNameMap

def empty : AnthropicToolNameMap := ⟨fun _ => none, fun _ _ h => by cases h⟩

/-- `insert_tool_name_mapping`, as `anthropic_function_tool` and, without a namespace,
`anthropic_custom_tool` call it. -/
def insert (map : AnthropicToolNameMap) (tool : AnthropicToolName) :
    Except ApiError AnthropicToolNameMap :=
  let name := anthropicToolName tool.toolNamespace tool.name
  match map.get name with
  | some existing =>
    if existing ≠ tool then
      .error (.stream ("duplicate Anthropic tool name after namespace encoding: " ++ name))
    else .ok map
  | none => .ok
    { get := fun other => if other = name then some tool else map.get other
      wire := fun other found h => by
        split at h
        · next heq =>
          cases h
          exact heq.symm
        · exact map.wire other found h }

end AnthropicToolNameMap

/-! ### The state -/

structure ToolCallState where
  id : Option String
  toolNamespace : Option String
  name : Option String
  arguments : String
  emittedArgumentBytes : ℕ
  started : Bool
  deriving DecidableEq, Repr

def ToolCallState.default : ToolCallState := ⟨none, none, none, "", 0, false⟩

structure AnthropicStreamState where
  responseId : Option String
  content : String
  contentStarted : Bool
  toolCalls : Std.TreeMap ℕ ToolCallState
  reasoning : String
  reasoningSignature : String
  redactedReasoning : Option String
  reasoningStarted : Bool
  completedToolCalls : Bool
  tokenUsage : TokenUsage
  rawInputTokens : ℤ
  cacheCreationInputTokens : ℤ
  seenUsage : Bool
  stopReason : Option String

/-- What the decoder is given: the tool names, and the text of a JSON value (`to_string`). -/
structure DecoderContext where
  toolNames : AnthropicToolNameMap
  jsonText : Json → String

def reasoningId : String := "rs_anthropic_reasoning_0"

namespace AnthropicStreamState

def start : AnthropicStreamState :=
  ⟨none, "", false, ∅, "", "", none, false, false, ⟨0, 0, 0, 0, 0, 0⟩, 0, 0, false, none⟩

variable (s : AnthropicStreamState)

def applyUsage (usage : AnthropicUsage) : AnthropicStreamState :=
  let rawInputTokens := usage.inputTokens.getD s.rawInputTokens
  let cacheCreation := usage.cacheCreationInputTokens.getD s.cacheCreationInputTokens
  let cached := usage.cacheReadInputTokens.getD s.tokenUsage.cachedInputTokens
  let output := usage.outputTokens.getD s.tokenUsage.outputTokens
  let input := rawInputTokens + cacheCreation + cached
  { s with
    rawInputTokens
    cacheCreationInputTokens := cacheCreation
    tokenUsage :=
      { s.tokenUsage with
        inputTokens := input
        cachedInputTokens := cached
        cacheCreationInputTokens :=
          usage.cacheCreationInputTokens.getD s.tokenUsage.cacheCreationInputTokens
        outputTokens := output
        totalTokens := input + output }
    seenUsage := true }

def startReasoning : AnthropicStreamState × List Sent :=
  if s.reasoningStarted then (s, [])
  else ({ s with reasoningStarted := true },
    [.ok (.outputItemAdded (.reasoning (some reasoningId) (some []) none))])

def emitReasoningDelta (thinking : String) : AnthropicStreamState × List Sent :=
  let (s, events) := s.startReasoning
  ({ s with reasoning := s.reasoning ++ thinking },
    events ++ [.ok (.reasoningContentDelta thinking 0)])

def emitRedactedReasoning (data : String) : AnthropicStreamState × List Sent :=
  if data = "" then (s, [])
  else
    let (s, events) := s.startReasoning
    ({ s with redactedReasoning := some data }, events)

def emitTextDelta (text : String) : AnthropicStreamState × List Sent :=
  ({ s with contentStarted := true, content := s.content ++ text },
    (if s.contentStarted then [] else [.ok (.outputItemAdded (.message none "assistant" []))]) ++
      [.ok (.outputTextDelta text)])

/-- `start_tool_call` on the call at an index. -/
def startToolCall (call : ToolCallState) : ToolCallState × List Sent :=
  match call.started, call.name with
  | false, some name => ({ call with started := true },
    [.ok (.outputItemAdded (.functionCall none name call.toolNamespace "" (call.id.getD "")))])
  | _, _ => (call, [])

def emitToolDelta (index : ℕ) (call : ToolCallState) : ToolCallState × List Sent :=
  if ! call.started || call.emittedArgumentBytes ≥ call.arguments.utf8ByteSize then (call, [])
  else ({ call with emittedArgumentBytes := call.arguments.utf8ByteSize },
    [.ok (.toolCallInputDelta (call.id.getD ("anthropic_tool_" ++ toString index)) call.id
      (sliceFrom call.arguments call.emittedArgumentBytes))])

variable (context : DecoderContext)

def applyContentBlockStart (s : AnthropicStreamState) (index : ℕ) :
    ContentBlockStart → AnthropicStreamState × List Sent
  | .text text =>
    match text with
    | some text => if text = "" then (s, []) else s.emitTextDelta text
    | none => (s, [])
  | .toolUse id name input =>
    let call := (s.toolCalls.get? index).getD .default
    let tool := (context.toolNames.get name).getD ⟨none, name⟩
    let arguments :=
      match input with
      | none | some (.object []) => call.arguments
      | some input => call.arguments ++ context.jsonText input
    let (call, events) := startToolCall
      { call with id := some id, toolNamespace := tool.toolNamespace, name := some tool.name, arguments }
    ({ s with toolCalls := s.toolCalls.insert index call }, events)
  | .redactedThinking data => s.emitRedactedReasoning data
  | .unknown => (s, [])

def applyContentBlockDelta (index : ℕ) : ContentBlockDelta → AnthropicStreamState × List Sent
  | .textDelta text => if text = "" then (s, []) else s.emitTextDelta text
  | .inputJsonDelta partialJson =>
    if partialJson = "" then (s, [])
    else
      let call := (s.toolCalls.get? index).getD .default
      let (call, startEvents) := startToolCall { call with arguments := call.arguments ++ partialJson }
      let (call, deltaEvents) := emitToolDelta index call
      ({ s with toolCalls := s.toolCalls.insert index call }, startEvents ++ deltaEvents)
  | .thinkingDelta thinking => if thinking = "" then (s, []) else s.emitReasoningDelta thinking
  | .signatureDelta signature =>
    let (s, events) := s.startReasoning
    ({ s with reasoningSignature := s.reasoningSignature ++ signature }, events)
  | .unknown => (s, [])

/-- The reasoning item: the redacted data, or the thinking with its signature. -/
def reasoningItem : ResponseItem :=
  match s.redactedReasoning with
  | some data => .reasoning (some reasoningId) none (some data)
  | none => .reasoning (some reasoningId) (some [s.reasoning])
      (if s.reasoningSignature = "" then none else some s.reasoningSignature)

/-- The calls in the order of their indices, up to one without a name. -/
def finishToolCalls : List (ℕ × ToolCallState) → List Sent × Except ApiError Unit
  | [] => ([], .ok ())
  | (_, call) :: calls =>
    match call.name with
    | none => ([], .error (.stream "Anthropic tool call missing function name"))
    | some name =>
      let (more, result) := finishToolCalls calls
      (.ok (.outputItemDone
        (.functionCall none name call.toolNamespace call.arguments (call.id.getD ""))) :: more, result)

def finishItems : AnthropicStreamState × List Sent × Except ApiError Unit :=
  let thought : List Sent := if s.reasoningStarted then [.ok (.outputItemDone s.reasoningItem)] else []
  let said : List Sent :=
    if s.content = "" then []
    else [.ok (.outputItemDone (.message none "assistant" [.outputText s.content]))]
  let (called, result) := finishToolCalls s.toolCalls.toList
  ({ s with
      reasoning := if s.reasoningStarted && s.redactedReasoning.isNone then "" else s.reasoning
      reasoningSignature :=
        if s.reasoningStarted && s.redactedReasoning.isNone then "" else s.reasoningSignature
      redactedReasoning := if s.reasoningStarted then none else s.redactedReasoning
      reasoningStarted := false
      content := ""
      contentStarted := if s.content = "" then s.contentStarted else false
      completedToolCalls := ! s.toolCalls.isEmpty
      toolCalls := ∅ },
    thought ++ said ++ called, result)

def complete : List Sent :=
  [.ok (.completed (s.responseId.getD "anthropic_msg")
    (if s.seenUsage then some s.tokenUsage else none)
    (some (! s.completedToolCalls && s.stopReason = some "end_turn")))]

def applyEvent (s : AnthropicStreamState) :
    StreamEvent → AnthropicStreamState × List Sent × Except ApiError Bool
  | .messageStart id usage =>
    let s := { s with responseId := some id }
    ((usage.map s.applyUsage).getD s, [], .ok false)
  | .contentBlockStart index block =>
    let (s, events) := s.applyContentBlockStart context index block
    (s, events, .ok false)
  | .contentBlockDelta index delta =>
    let (s, events) := s.applyContentBlockDelta index delta
    (s, events, .ok false)
  | .contentBlockStop _ => (s, [], .ok false)
  | .messageDelta stopReason usage =>
    ({ (usage.map s.applyUsage).getD s with stopReason }, [], .ok false)
  | .messageStop =>
    match s.finishItems with
    | (s, events, .ok ()) => (s, events ++ s.complete, .ok true)
    | (s, events, .error error) => (s, events, .error error)
  | .ping => (s, [], .ok false)
  | .error message => (s, [], .error (.stream message))

end AnthropicStreamState

/-! ### The stream -/

/-- What the event source yields: an event, data that is not one, or a failure. -/
inductive SseEvent where
  | event (event : StreamEvent)
  | unparsed
  | transportError (message : String)
  | idleTimeout

def process (context : DecoderContext) (s : AnthropicStreamState) : List SseEvent → List Sent
  | [] => [.error (.stream "stream closed before Anthropic message_stop")]
  | .transportError message :: _ => [.error (.stream message)]
  | .idleTimeout :: _ => [.error (.stream "idle timeout waiting for SSE")]
  | .unparsed :: inputs => process context s inputs
  | .event event :: inputs =>
    match s.applyEvent context event with
    | (_, events, .ok true) => events
    | (s, events, .ok false) => events ++ process context s inputs
    | (_, events, .error error) => events ++ [.error error]

def processAnthropicSse (context : DecoderContext) (inputs : List SseEvent) : List Sent :=
  .ok (.created none) :: process context .start inputs

/-- The items of the `OutputItemDone` events. -/
def doneItems (events : List Sent) : List ResponseItem :=
  events.filterMap fun
    | .ok (.outputItemDone item) => some item
    | _ => none

end Anthropic

end CodexPlus
