/-
CodexPlus/ToolNames.lean

Tool names survive both wire formats.

A tool has three names on the wire: the one its declaration carries, the one the decoder
looks up in the name map when the model calls it, and the one that a call in the history is
sent with.  For an accepted list of tools the three agree (`Survives`): the name map holds
the tools of the list and nothing else, and every converter writes the call of an item into
some message.

The Anthropic name map has no kind, and its decoder reports every call as a function call.
-/
import CodexPlus.ResponsesTools
import CodexPlus.ProviderSwitch

namespace CodexPlus

open List

open Registry

variable {ν : Type}

/-- A custom tool has no namespace. -/
theorem toolNamespace_of_custom {φ : Type} {fromValue : ν → Except String (ResponsesTool φ)}
    {nameOf : φ → String} {values : List ν} {tool : Tool}
    (hmem : tool ∈ toolsOf fromValue nameOf values) (hkind : tool.kind = .custom) :
    tool.toolNamespace = none := by
  obtain ⟨value, -, hmem⟩ := mem_flatMap.mp hmem
  rcases hvalue : fromValue value with err | element
  · simp only [hvalue] at hmem
    cases hmem
  simp only [hvalue] at hmem
  cases element with
  | function =>
    rw [mem_singleton.mp hmem]
  | namespaced =>
    obtain ⟨function, -, rfl⟩ := mem_map.mp hmem
    cases hkind
  | custom => rw [mem_singleton.mp hmem]
  | unknown => cases hmem

/-! ### Chat Completions -/

variable {items : List ResponseItem} {tools : List Tool} {item : ResponseItem} {callId : String}

namespace Chat

open ChatStream

def wireName (tool : Tool) : String := chatFunctionName tool.toolNamespace tool.name

/-- What the name map records of a tool. -/
def recorded (tool : Tool) : ChatToolName := ⟨tool.toolNamespace, tool.name, tool.kind = .custom⟩

theorem recorded_injective {tool other : Tool} (h : recorded tool = recorded other) :
    tool = other := by
  rcases tool with ⟨toolNamespace, name, kind⟩
  rcases other with ⟨toolNamespace', name', kind'⟩
  rcases kind <;> rcases kind' <;> simp_all [recorded]

/-- The name map holds the tools and nothing else. -/
def Named (toolNames : ChatToolNameMap) (tools : List Tool) : Prop :=
  Records toolNames (tools.map fun tool => (wireName tool, recorded tool))

variable {toolNames toolNames' : ChatToolNameMap}

theorem insertToolNameMapping_ok {chatName : String} {toolName : ChatToolName}
    (h : insertToolNameMapping toolNames chatName toolName = .ok toolNames') :
    toolNames' = Function.update toolNames chatName (some toolName) ∧
      ∀ existing, toolNames chatName = some existing → existing = toolName := by
  rw [insertToolNameMapping] at h
  rcases hget : toolNames chatName with - | existing
  · simp only [hget] at h
    cases h
    exact ⟨rfl, nofun⟩
  · simp only [hget] at h
    by_cases heq : existing = toolName
    · rw [if_neg (not_not.mpr heq)] at h
      cases h
      exact ⟨rfl, fun found hfound => (Option.some.inj hfound).symm.trans heq⟩
    · rw [if_pos heq] at h
      cases h

variable {tool : Tool} {toolNames : ChatToolNameMap}

theorem Named.insert (h : Named toolNames tools)
    (hinsert : insertToolNameMapping toolNames (wireName tool) (recorded tool) = .ok toolNames') :
    Named toolNames' (tools ++ [tool]) := by
  obtain ⟨rfl, hsame⟩ := insertToolNameMapping_ok hinsert
  rw [Named, map_append]
  exact Records.update h hsame

variable {converted : List ChatTool}

theorem chatTools_named
    (fromValue : ν → Except String (ResponsesTool ResponsesFunctionTool)) (values : List ν)
    (h : chatToolsFromResponsesTools fromValue values = .ok (converted, toolNames)) :
    converted.map ChatTool.name = (toolsOf fromValue (·.name) values).map wireName ∧
      Named toolNames (toolsOf fromValue (·.name) values) := by
  refine Endpoint.toolsFromResponsesTools_converts ?_ ?_ fromValue values _ [] _ records_nil h
  -- a function tool, and a custom tool, which goes by its plain name
  all_goals
    intros
    intro _ _ _ hnamed hok
    obtain ⟨names', hinsert, hok⟩ := bind_eq_ok.mp hok
    cases hok
    exact ⟨rfl, hnamed.insert hinsert⟩

/-! ### Chat Completions: calls in the history -/

/-- The item is a call to the tool. -/
def IsCallTo (tool : Tool) (callId : String) : ResponseItem → Prop
  | .functionCall _ name toolNamespace _ id =>
    tool = ⟨toolNamespace, name, .function⟩ ∧ id = callId
  | .customToolCall _ id name toolNamespace _ =>
    tool = ⟨toolNamespace, name, .custom⟩ ∧ id = callId
  | _ => False

/-- An assistant message has the call. -/
def Sends (messages : List ChatMessage) (call : ChatToolCall) : Prop :=
  ∃ content reasoning calls, .assistant content reasoning calls ∈ messages ∧ call ∈ calls

/-- The call is in a message, or in the one that is held back. -/
def Converter.Keeps (c : Converter) (call : ChatToolCall) : Prop :=
  Sends c.messages call ∨ call ∈ c.pendingToolCalls

variable {messages : List ChatMessage}

section Keeps

variable {c : Converter} {call : ChatToolCall}

theorem Sends.append (h : Sends messages call)
    (more : List ChatMessage) : Sends (messages ++ more) call := by
  obtain ⟨content, reasoning, calls, hmem, hcall⟩ := h
  exact ⟨content, reasoning, calls, mem_append_left _ hmem, hcall⟩

theorem Converter.Keeps.flush (h : c.Keeps call) : Sends c.flushPendingAssistant.messages call := by
  by_cases hold : c.Holding
  · rw [flush_eq hold]
    rcases h with h | h
    · exact h.append _
    · exact ⟨_, _, _, mem_append_right _ (mem_singleton.mpr rfl), h⟩
  · rw [flush_eq_self hold]
    refine h.resolve_right fun hmem => hold (.inl ?_)
    exact ne_nil_of_mem hmem

theorem Sends.flushImages (h : Sends c.messages call) :
    Sends c.flushPendingToolOutputImages.messages call := by
  rcases flushImages_eq c with heq | ⟨-, content, heq⟩
  · rwa [heq]
  · rw [heq]
    exact h.append _

theorem Converter.Keeps.flushImages (h : c.Keeps call) :
    c.flushPendingToolOutputImages.Keeps call := by
  rcases h with h | h
  · exact .inl h.flushImages
  rcases flushImages_eq c with heq | ⟨-, content, heq⟩
  all_goals
    rw [heq]
    exact .inr h

theorem Converter.Keeps.pushAssistantText (h : c.Keeps call) (text : String) :
    (c.pushAssistantText text).Keeps call := by
  rw [Converter.pushAssistantText]
  split
  · exact h
  · next hcalls =>
    -- no call is held back
    have hsent : Sends c.messages call :=
      h.resolve_right fun hmem => hcalls (ne_nil_of_mem hmem)
    rcases c.pendingAssistantContent with - | content
    · exact .inl hsent
    · exact .inl (hsent.append _)

theorem Converter.Keeps.pushReasoning (h : c.Keeps call) (content : Option (List String)) :
    (c.pushReasoning content).Keeps call := by
  rw [Converter.pushReasoning]
  split
  · exact h
  have hflush : (if c.pendingToolCalls = [] ∧ c.pendingAssistantContent ≠ none then
      c.flushPendingAssistant else c).Keeps call := by
    split
    · exact .inl h.flush
    · exact h
  rcases content with - | texts
  · exact hflush
  · dsimp only
    split <;> exact hflush

theorem Converter.Keeps.effect {token : CallGroups.Token String} {c' : Converter}
    (heffect : Effect token c c') (h : c.Keeps call) : c'.Keeps call := by
  cases heffect with
  | call _ => exact h.imp_right (mem_append_left _)
  | output _ => exact .inl (h.flush.append _)
  | assistant _ text => exact h.flushImages.pushAssistantText text
  | reasoning _ content => exact h.pushReasoning content
  | cut => exact .inl h.flush
  | message _ => exact .inl (h.flushImages.flush.append _)
  | compaction _ => exact .inl (h.flush.append _)

theorem Converter.Keeps.run (ser : Serializer) (h : c.Keeps call) (items : List ResponseItem) :
    (items.foldl (Converter.step ser) c).Keeps call := by
  induction items generalizing c with
  | nil => exact h
  | cons item _ ih => exact ih (h.effect (step_effect ser c item))

theorem step_keeps (ser : Serializer) (c : Converter) {tool : Tool} (h : IsCallTo tool callId item)
    (hcustom : tool.kind = .custom → tool.toolNamespace = none) :
    ∃ arguments, (c.step ser item).Keeps ⟨callId, wireName tool, arguments⟩ := by
  cases item with
  | functionCall =>
    obtain ⟨rfl, rfl⟩ := h
    exact ⟨_, .inr (mem_append_right _ (mem_singleton.mpr rfl))⟩
  | customToolCall _ _ _ toolNamespace =>
    obtain ⟨rfl, rfl⟩ := h
    obtain rfl : toolNamespace = none := hcustom rfl
    exact ⟨_, .inr (mem_append_right _ (mem_singleton.mpr rfl))⟩
  | _ => exact h.elim

end Keeps

theorem chatMessages_send (ser : Serializer)
    (hok : chatMessagesFromItems ser items = .ok messages) (hmem : item ∈ items)
    (h : IsCallTo tool callId item) (hcustom : tool.kind = .custom → tool.toolNamespace = none) :
    ∃ arguments, Sends messages ⟨callId, wireName tool, arguments⟩ := by
  obtain ⟨before, behind, rfl⟩ := append_of_mem hmem
  obtain ⟨arguments, hkeeps⟩ :=
    step_keeps ser (before.foldl (Converter.step ser) .new) h hcustom
  refine ⟨arguments, ?_⟩
  have hsent := (hkeeps.run ser behind).flush.flushImages
  rw [chatMessagesFromItems, foldl_append] at hok
  split at hok
  · cases hok
  · cases hok
    exact hsent

/-! ### Chat Completions: the three names agree -/

/-- The item of a call to the tool. -/
def callTo (tool : Tool) (callId input : String) : ResponseItem :=
  match tool.kind with
  | .function => .functionCall none tool.name tool.toolNamespace input callId
  | .custom => .customToolCall none callId tool.name tool.toolNamespace input

/-- The declarations, the decoder and the history name the tools alike. -/
structure Survives (tools : List Tool) (converted : List ChatTool) (toolNames : ChatToolNameMap) :
    Prop where
  /-- The declarations carry the wire names. -/
  declared : converted.map ChatTool.name = tools.map wireName
  /-- Only a tool that is listed again has the wire name of another. -/
  distinct : ∀ tool ∈ tools, ∀ other ∈ tools, wireName tool = wireName other → tool = other
  /-- A call under a wire name becomes a call to the tool, of its kind. -/
  decoded : ∀ tool ∈ tools, wireName tool ≠ "" → ∀ customToolInput id arguments index,
    ∃ call, PendingToolCall.start ⟨toolNames, customToolInput⟩ ⟨id, wireName tool, arguments⟩ index =
      some call ∧ ∀ input, call.item input = callTo tool call.id input
  /-- A call to the tool is sent under its wire name. -/
  sent : ∀ tool ∈ tools, ∀ ser items messages, chatMessagesFromItems ser items = .ok messages →
    ∀ item ∈ items, ∀ callId, IsCallTo tool callId item →
      ∃ arguments, Sends messages ⟨callId, wireName tool, arguments⟩


theorem chatTools_survive
    {fromValue : ν → Except String (ResponsesTool ResponsesFunctionTool)} {values : List ν}
    (h : chatToolsFromResponsesTools fromValue values = .ok (converted, toolNames)) :
    Survives (toolsOf fromValue (·.name) values) converted toolNames := by
  obtain ⟨hdeclared, hnamed⟩ := chatTools_named fromValue values h
  refine ⟨hdeclared, ?_, ?_, ?_⟩
  · intro tool hmem other hmem' hwire
    refine recorded_injective (hnamed.value_unique (mem_map_of_mem hmem) ?_)
    rw [hwire]
    exact mem_map_of_mem hmem'
  · intro tool hmem hne customToolInput id arguments index
    have hget : toolNames (wireName tool) = some (recorded tool) :=
      (hnamed _ _).mpr (mem_map_of_mem hmem)
    refine ⟨_, if_neg hne, fun input => ?_⟩
    simp only [hget, Option.getD_some]
    rcases tool with ⟨toolNamespace, name, kind⟩
    cases kind with
    | function | custom => rfl
  · intro tool hmem ser items messages hok item hitem callId hcall
    exact chatMessages_send ser hok hitem hcall (toolNamespace_of_custom hmem)

end Chat

/-! ### Anthropic -/

namespace Anthropic

def wireName (tool : Tool) : String := anthropicToolName tool.toolNamespace tool.name

/-- What the name map records of a tool. -/
def recorded (tool : Tool) : AnthropicToolName := ⟨tool.toolNamespace, tool.name⟩

/-- The name map holds the tools and nothing else. -/
def Named (toolNames : AnthropicToolNameMap) (tools : List Tool) : Prop :=
  Records toolNames.get (tools.map fun tool => (wireName tool, recorded tool))

theorem insert_ok {toolNames toolNames' : AnthropicToolNameMap} {tool : AnthropicToolName}
    (h : toolNames.insert tool = .ok toolNames') :
    toolNames'.get = Function.update toolNames.get
        (anthropicToolName tool.toolNamespace tool.name) (some tool) ∧
      ∀ existing, toolNames.get (anthropicToolName tool.toolNamespace tool.name) = some existing →
        existing = tool := by
  rw [AnthropicToolNameMap.insert] at h
  split at h
  · next existing hget =>
    split at h
    · cases h
    · next heq =>
      cases h
      rw [not_not] at heq
      subst heq
      -- the name has this tool already
      refine ⟨?_, fun found hfound => Option.some.inj (hfound.symm.trans hget)⟩
      rw [← hget, Function.update_eq_self]
  · next hget =>
    cases h
    refine ⟨?_, fun found hfound => ?_⟩
    · funext other
      rw [Function.update_apply]
    · cases hget.symm.trans hfound

variable {tool : Tool} {toolNames : AnthropicToolNameMap}

theorem Named.insert {toolNames toolNames' : AnthropicToolNameMap}
    (h : Named toolNames tools) (hinsert : toolNames.insert (recorded tool) = .ok toolNames') :
    Named toolNames' (tools ++ [tool]) := by
  obtain ⟨hget, hsame⟩ := insert_ok hinsert
  rw [Named, map_append, hget]
  exact Records.update h hsame

theorem anthropicTools_named
    (fromValue : ν → Except String (ResponsesTool ResponsesFunctionTool)) (values : List ν)
    {converted : List AnthropicTool}
    (h : anthropicToolsFromResponsesTools fromValue values = .ok (converted, toolNames)) :
    converted.map AnthropicTool.name = (toolsOf fromValue (·.name) values).map wireName ∧
      Named toolNames (toolsOf fromValue (·.name) values) := by
  refine Endpoint.toolsFromResponsesTools_converts ?_ ?_ fromValue values _ [] _ records_nil h
  all_goals
    intros
    intro _ _ _ hnamed hok
    obtain ⟨names', hinsert, hok⟩ := bind_eq_ok.mp hok
    cases hok
    exact ⟨rfl, hnamed.insert hinsert⟩

/-! ### Anthropic: calls in the history -/

/-- The item is a call to the tool. The decoder reports calls of custom tools as function calls,
so the history may have either. -/
def IsCallTo (tool : Tool) (callId : String) : ResponseItem → Prop
  | .functionCall _ name toolNamespace _ id => recorded tool = ⟨toolNamespace, name⟩ ∧ id = callId
  | .customToolCall _ id name toolNamespace _ =>
    tool = ⟨toolNamespace, name, .custom⟩ ∧ id = callId
  | _ => False

/-- A message has the block. -/
def Sends (messages : List AnthropicMessage) (block : ContentBlock) : Prop :=
  ∃ message ∈ messages, block ∈ message.content

/-- The block is in a message, or in the one that is held back. -/
def EncoderState.Keeps (s : EncoderState) (block : ContentBlock) : Prop :=
  Sends s.messages block ∨ block ∈ s.pendingAssistantContent

namespace EncoderState.Keeps

open ProviderSwitch

variable {s : EncoderState} {block : ContentBlock}

theorem append {messages : List AnthropicMessage} (h : Sends messages block)
    (more : List AnthropicMessage) : Sends (messages ++ more) block := by
  obtain ⟨message, hmem, hblock⟩ := h
  exact ⟨message, mem_append_left _ hmem, hblock⟩

section

variable (h : s.Keeps block)
include h

/-- Thinking blocks go first, but every block stays. -/
theorem flush_assistant : Sends s.flushPendingAssistantContent.messages block := by
  rw [flushPendingAssistantContent]
  split
  · next hempty =>
    refine h.resolve_right fun hmem => ?_
    rw [List.isEmpty_iff.mp hempty] at hmem
    cases hmem
  · rcases h with h | h
    · exact append h _
    · refine ⟨_, mem_append_right _ (mem_singleton.mpr rfl), ?_⟩
      by_cases hthinking : block.isThinking
      · exact mem_append_left _ (mem_filter.mpr ⟨h, hthinking⟩)
      · exact mem_append_right _ (mem_filter.mpr ⟨h, by simpa using hthinking⟩)

theorem flush_results : s.flushPendingToolResults.Keeps block := by
  rw [flushPendingToolResults]
  split
  · exact h
  · exact h.imp_left fun h => append h _

theorem flush_all : s.flushAll.Keeps block :=
  flush_results (.inl h.flush_assistant)

theorem push_assistant (pushed : ContentBlock) : (s.pushAssistant pushed).Keeps block := h.imp_right (mem_append_left _)

end

theorem encodes {m : Move} {s' : EncoderState} (hm : Encodes m s s') (h : s.Keeps block) :
    s'.Keeps block := by
  cases hm with
  | call | loud => exact h.flush_results.push_assistant _
  | output => exact .inl h.flush_assistant
  | silent => exact h.flush_results
  | cut => exact h.flush_all
  | user => exact h.flush_all.imp_left fun h => append h _

theorem run (context : EncoderContext) (h : s.Keeps block) (items : List ResponseItem) :
    (items.foldl (EncoderState.step context) s).Keeps block := by
  induction items generalizing s with
  | nil => exact h
  | cons item _ ih => exact ih (h.encodes (step_encodes context s item))

end EncoderState.Keeps

variable (context : EncoderContext)

theorem step_keeps (s : EncoderState) (h : IsCallTo tool callId item)
    (hcustom : tool.kind = .custom → tool.toolNamespace = none) :
    ∃ input, (s.step context item).Keeps (.toolUse callId (wireName tool) input) := by
  cases item with
  | functionCall =>
    obtain ⟨hrecorded, rfl⟩ := h
    cases hrecorded
    exact ⟨_, .inr (mem_append_right _ (mem_singleton.mpr rfl))⟩
  | customToolCall _ _ _ toolNamespace =>
    obtain ⟨rfl, rfl⟩ := h
    obtain rfl : toolNamespace = none := hcustom rfl
    exact ⟨_, .inr (mem_append_right _ (mem_singleton.mpr rfl))⟩
  | _ => exact h.elim

theorem anthropicMessages_send (hmem : item ∈ items) (h : IsCallTo tool callId item)
    (hcustom : tool.kind = .custom → tool.toolNamespace = none) :
    ∃ input, Sends (anthropicMessagesFromItems context items).2
      (.toolUse callId (wireName tool) input) := by
  obtain ⟨before, behind, rfl⟩ := append_of_mem hmem
  obtain ⟨input, hkeeps⟩ :=
    step_keeps context (before.foldl (EncoderState.step context) .start) h hcustom
  have hsent := (hkeeps.run context behind).flush_assistant
  refine ⟨input, ?_⟩
  rw [anthropicMessagesFromItems, foldl_append]
  show Sends (EncoderState.flushPendingToolResults _).messages _
  rw [EncoderState.flushPendingToolResults]
  split
  · exact hsent
  · exact EncoderState.Keeps.append hsent _

/-! ### Anthropic: the three names agree -/

/-- The declarations, the decoder and the history name the tools alike. -/
structure Survives (tools : List Tool) (converted : List AnthropicTool)
    (toolNames : AnthropicToolNameMap) : Prop where
  /-- The declarations carry the wire names. -/
  declared : converted.map AnthropicTool.name = tools.map wireName
  /-- Two tools with one wire name have one namespace and one name. -/
  distinct : ∀ tool ∈ tools, ∀ other ∈ tools, wireName tool = wireName other →
    tool.toolNamespace = other.toolNamespace ∧ tool.name = other.name
  /-- A block under a wire name becomes a function call with the tool's namespace and name. -/
  decoded : ∀ tool ∈ tools, ∀ jsonText s index id input,
    ∃ call, ((AnthropicStreamState.applyContentBlockStart ⟨toolNames, jsonText⟩ s index
        (.toolUse id (wireName tool) input)).1.toolCalls.get? index) = some call ∧
      AnthropicStreamState.finishToolCalls [(index, call)] = ([.ok (.outputItemDone
        (.functionCall none tool.name tool.toolNamespace call.arguments id))], .ok ())
  /-- A call to the tool is sent under its wire name. -/
  sent : ∀ tool ∈ tools, ∀ context items, ∀ item ∈ items, ∀ callId, IsCallTo tool callId item →
    ∃ input, Sends (anthropicMessagesFromItems context items).2
      (.toolUse callId (wireName tool) input)

theorem blockStart_recorded (tool : Tool)
    (hget : toolNames.get (wireName tool) = some (recorded tool)) (jsonText : Json → String)
    (s : AnthropicStreamState) (index : ℕ) (id : String) (input : Option Json) :
    ∃ call, ((AnthropicStreamState.applyContentBlockStart ⟨toolNames, jsonText⟩ s index
        (.toolUse id (wireName tool) input)).1.toolCalls.get? index) = some call ∧
      AnthropicStreamState.finishToolCalls [(index, call)] = ([.ok (.outputItemDone
        (.functionCall none tool.name tool.toolNamespace call.arguments id))], .ok ()) := by
  -- `start_tool_call` changes neither the id nor the names
  have hstart : ∀ call : ToolCallState, call.id = some id →
      call.toolNamespace = tool.toolNamespace → call.name = some tool.name →
      AnthropicStreamState.finishToolCalls [(index, (AnthropicStreamState.startToolCall call).1)] =
        ([.ok (.outputItemDone (.functionCall none tool.name tool.toolNamespace
          (AnthropicStreamState.startToolCall call).1.arguments id))], .ok ()) := by
    rintro ⟨callId, toolNamespace, name, arguments, emitted, started⟩ rfl rfl rfl
    rcases started with - | -
    · rfl
    · rfl
  refine ⟨_, Std.TreeMap.getElem?_insert_self, hstart _ rfl ?_ ?_⟩
  all_goals
    simp [hget]
    rfl

theorem anthropicTools_survive
    {fromValue : ν → Except String (ResponsesTool ResponsesFunctionTool)} {values : List ν}
    {converted : List AnthropicTool}
    (h : anthropicToolsFromResponsesTools fromValue values = .ok (converted, toolNames)) :
    Survives (toolsOf fromValue (·.name) values) converted toolNames := by
  obtain ⟨hdeclared, hnamed⟩ := anthropicTools_named fromValue values h
  refine ⟨hdeclared, ?_, ?_, ?_⟩
  · intro tool hmem other hmem' hwire
    have hrecorded : recorded tool = recorded other := by
      refine hnamed.value_unique (mem_map_of_mem hmem) ?_
      rw [hwire]
      exact mem_map_of_mem hmem'
    exact ⟨congrArg AnthropicToolName.toolNamespace hrecorded,
      congrArg AnthropicToolName.name hrecorded⟩
  · intro tool hmem jsonText s index id input
    exact blockStart_recorded tool ((hnamed _ _).mpr (mem_map_of_mem hmem)) jsonText s index id
      input
  · intro tool hmem context items item hitem callId hcall
    exact anthropicMessages_send context hitem hcall (toolNamespace_of_custom hmem)

end Anthropic

/-! ### Both formats -/

/-- **Tool names survive both wire formats.** In an accepted list the declarations, the decoder and
the history name every tool alike; tools that share a wire name share the namespace and the name,
and in the Chat format they are one tool. -/
theorem toolNames_survive {ν : Type}
    (chatValue : ν → Except String (ResponsesTool Chat.ResponsesFunctionTool))
    (anthropicValue : ν → Except String (ResponsesTool Anthropic.ResponsesFunctionTool))
    (values : List ν) :
    (∀ converted toolNames,
      Chat.chatToolsFromResponsesTools chatValue values = .ok (converted, toolNames) →
        Chat.Survives (toolsOf chatValue (·.name) values) converted toolNames) ∧
    ∀ converted toolNames,
      Anthropic.anthropicToolsFromResponsesTools anthropicValue values = .ok (converted, toolNames) →
        Anthropic.Survives (toolsOf anthropicValue (·.name) values) converted toolNames :=
  ⟨fun _ _ => Chat.chatTools_survive, fun _ _ => Anthropic.anthropicTools_survive⟩

/-- A tool object of the examples below. -/
inductive ToolValue where
  | function (name : String)
  | namespaced (name : String) (names : List String)
  | custom (name : String)

/-- The tool that a value holds, with function tools made from their names. -/
def ToolValue.tool {φ : Type} (functionTool : String → φ) : ToolValue → ResponsesTool φ
  | .function name => .function (functionTool name)
  | .namespaced name names => .namespaced name (names.map functionTool)
  | .custom name => .custom ⟨name, none⟩

def chatValue (value : ToolValue) : Except String (ResponsesTool Chat.ResponsesFunctionTool) :=
  .ok (value.tool fun name => ⟨name, none, none, none⟩)

def anthropicValue (value : ToolValue) :
    Except String (ResponsesTool Anthropic.ResponsesFunctionTool) :=
  .ok (value.tool fun name => ⟨name, none, none⟩)

def fileTools : List ToolValue := [.namespaced "fs" ["read", "_list"], .custom "apply_patch"]

theorem fileTools_survive :
    (∃ converted toolNames,
      Chat.chatToolsFromResponsesTools chatValue fileTools = .ok (converted, toolNames) ∧
      converted.map Chat.ChatTool.name = ["fs_read", "fs_list", "apply_patch"] ∧
      Chat.Survives (toolsOf chatValue (·.name) fileTools) converted toolNames) ∧
    ∃ converted toolNames,
      Anthropic.anthropicToolsFromResponsesTools anthropicValue fileTools =
        .ok (converted, toolNames) ∧
      converted.map Anthropic.AnthropicTool.name = ["fs_read", "fs_list", "apply_patch"] ∧
      Anthropic.Survives (toolsOf anthropicValue (·.name) fileTools) converted toolNames := by
  have hchat : (Chat.chatToolsFromResponsesTools chatValue fileTools).map
      (fun result => result.1.map Chat.ChatTool.name) = .ok ["fs_read", "fs_list", "apply_patch"] := by
    decide +kernel
  have hanthropic : (Anthropic.anthropicToolsFromResponsesTools anthropicValue fileTools).map
      (fun result => result.1.map Anthropic.AnthropicTool.name) =
        .ok ["fs_read", "fs_list", "apply_patch"] := by
    decide +kernel
  obtain ⟨⟨converted, toolNames⟩, hok, hnames⟩ := map_eq_ok.mp hchat
  obtain ⟨⟨converted', toolNames'⟩, hok', hnames'⟩ := map_eq_ok.mp hanthropic
  have hsurvive := toolNames_survive chatValue anthropicValue fileTools
  exact ⟨⟨converted, toolNames, hok, hnames, hsurvive.1 _ _ hok⟩,
    converted', toolNames', hok', hnames', hsurvive.2 _ _ hok'⟩

/-- A tool that is listed twice is declared twice under one name; the Chat decoder waits for a name
that is not empty; and the Anthropic decoder reports a call of a custom tool as a function call. -/
theorem toolNames_shared_and_recast :
    ((Chat.chatToolsFromResponsesTools chatValue [.function "read", .function "read"]).map
      fun result => result.1.map Chat.ChatTool.name) = .ok ["read", "read"] ∧
    (∃ converted toolNames,
      Chat.chatToolsFromResponsesTools chatValue [.function ""] = .ok (converted, toolNames) ∧
      converted.map Chat.ChatTool.name = [""] ∧
      ChatStream.PendingToolCall.start ⟨toolNames, id⟩ ⟨"call", "", ""⟩ 0 = none) ∧
    ∃ converted toolNames,
      Anthropic.anthropicToolsFromResponsesTools anthropicValue [.custom "apply_patch"] =
        .ok (converted, toolNames) ∧
      ∃ call, ((Anthropic.AnthropicStreamState.applyContentBlockStart ⟨toolNames, fun _ => ""⟩ .start 0
          (.toolUse "call" "apply_patch" none)).1.toolCalls.get? 0) = some call ∧
        Anthropic.AnthropicStreamState.finishToolCalls [(0, call)] = ([.ok (.outputItemDone
          (.functionCall none "apply_patch" none call.arguments "call"))], .ok ()) := by
  refine ⟨by decide +kernel, ⟨_, _, rfl, rfl, rfl⟩, _, _, rfl, ?_⟩
  exact Anthropic.blockStart_recorded ⟨none, "apply_patch", .custom⟩ rfl _ _ 0 "call" none

end CodexPlus
