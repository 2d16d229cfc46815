/-
CodexPlus/AnthropicMessages.lean

The messages of an Anthropic request: `anthropic_messages_from_items` of
codex-api/src/endpoint/anthropic.rs.

Consecutive items of the assistant become one assistant message, with its
thinking first, and consecutive tool outputs one user message.
-/
import CodexPlus.AnthropicStream

namespace CodexPlus

namespace Anthropic

inductive AnthropicImageSource where
  | url (url : String)
  | base64 (mediaType data : String)
  deriving DecidableEq, Repr

/-- A block of a message; cache control is set later. -/
inductive ContentBlock where
  | text (text : String)
  | image (source : AnthropicImageSource)
  | toolUse (id name : String) (input : Json)
  | toolResult (toolUseId : String) (content : Json) (isError : Option Bool)
  | thinking (thinking : String) (signature : Option String)
  | redactedThinking (data : String)

inductive AnthropicRole where
  | user
  | assistant
  deriving DecidableEq, Repr

structure AnthropicMessage where
  role : AnthropicRole
  content : List ContentBlock

/-- What the encoder is given: JSON parsing, the source of an inline image, and the content of a
tool result. -/
structure EncoderContext where
  parseJson : String → Option Json
  imageSource : String → AnthropicImageSource
  outputContent : FunctionCallOutputBody → Json

/-- `anthropic_content_from_items` -/
def contentFromItems (context : EncoderContext) (content : List ContentItem) : List ContentBlock :=
  content.filterMap fun
    | .inputText text | .outputText text => some (.text text)
    | .inputImage (.inline imageUrl) _ => some (.image (context.imageSource imageUrl))
    | .inputImage (.file _) _ => none
    | .inputAudio _ => none

/-- `AnthropicContent::into_text` -/
def intoText (blocks : List ContentBlock) : String :=
  "\n".intercalate (blocks.filterMap fun
    | .text text => some text
    | _ => none)

def reasoningContentToText (content : Option (List String)) : String :=
  String.join (content.getD [])

def ContentBlock.isThinking : ContentBlock → Bool
  | .thinking .. | .redactedThinking _ => true
  | _ => false

structure EncoderState where
  system : List String
  messages : List AnthropicMessage
  pendingAssistantContent : List ContentBlock
  pendingToolResults : List ContentBlock

namespace EncoderState

def start : EncoderState := ⟨[], [], [], []⟩

variable (s : EncoderState)

/-- Thinking goes first. -/
def flushPendingAssistantContent : EncoderState :=
  if s.pendingAssistantContent.isEmpty then s
  else
    { s with
      messages := s.messages ++ [⟨.assistant, s.pendingAssistantContent.filter (·.isThinking) ++
        s.pendingAssistantContent.filter (! ·.isThinking)⟩]
      pendingAssistantContent := [] }

def flushPendingToolResults : EncoderState :=
  if s.pendingToolResults.isEmpty then s
  else
    { s with
      messages := s.messages ++ [⟨.user, s.pendingToolResults⟩]
      pendingToolResults := [] }

def flushAll : EncoderState :=
  s.flushPendingAssistantContent.flushPendingToolResults

/-- A block of the assistant. -/
def pushAssistant (block : ContentBlock) : EncoderState :=
  { s with pendingAssistantContent := s.pendingAssistantContent ++ [block] }

def pushSystem (text : String) : EncoderState := { s with system := s.system ++ [text] }

variable (context : EncoderContext)

def pushToolResult (s : EncoderState) (callId : String) (output : FunctionCallOutputPayload) :
    EncoderState :=
  let s := s.flushPendingAssistantContent
  { s with
    pendingToolResults := s.pendingToolResults ++ [.toolResult callId
      (context.outputContent output.body) (if output.success = some false then some true else none)] }

def pushReasoning (content : Option (List String))
    (encryptedContent : Option String) : EncoderState :=
  let s := s.flushPendingToolResults
  let thinking := reasoningContentToText content
  match encryptedContent, content with
  | some data, none => s.pushAssistant (.redactedThinking data)
  | _, _ =>
    if thinking ≠ "" || encryptedContent.isSome then
      s.pushAssistant (.thinking thinking encryptedContent)
    else s

def pushMessage (s : EncoderState) (role : String) (content : List ContentItem) : EncoderState :=
  let blocks := contentFromItems context content
  if role = "system" ∨ role = "developer" then
    let s := s.flushAll
    if intoText blocks = "" then s else s.pushSystem (intoText blocks)
  else if role = "assistant" then
    let s := s.flushPendingToolResults
    if intoText blocks = "" then s else s.pushAssistant (.text (intoText blocks))
  else
    let s := s.flushAll
    { s with messages := s.messages ++ [⟨.user, blocks⟩] }

def step (s : EncoderState) : ResponseItem → EncoderState
  | .message _ role content => s.pushMessage context role content
  | .functionCall _ name toolNamespace arguments callId =>
    s.flushPendingToolResults.pushAssistant (.toolUse callId (anthropicToolName toolNamespace name)
      ((context.parseJson arguments).getD (.string arguments)))
  | .customToolCall _ callId name _ input =>
    s.flushPendingToolResults.pushAssistant
      (.toolUse callId name (.object [("input", .string input)]))
  | .reasoning _ content encryptedContent => s.pushReasoning content encryptedContent
  | .functionCallOutput _ (some callId) _ _ output _ => s.pushToolResult context callId output
  | .customToolCallOutput _ callId _ output _ => s.pushToolResult context callId output
  | .compaction _ encryptedContent => s.flushAll.pushSystem encryptedContent
  | .contextCompaction _ (some encryptedContent) => s.flushAll.pushSystem encryptedContent
  | _ => s.flushAll

end EncoderState

/-- The system texts, if any, and the messages. -/
def anthropicMessagesFromItems (context : EncoderContext) (items : List ResponseItem) :
    Option (List String) × List AnthropicMessage :=
  let s := (items.foldl (EncoderState.step context) .start).flushAll
  (if s.system.isEmpty then none else some s.system, s.messages)

end Anthropic

end CodexPlus
