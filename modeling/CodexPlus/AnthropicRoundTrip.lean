/-
CodexPlus/AnthropicRoundTrip.lean

A streamed Anthropic message, kept as items and sent back: the request contains
the blocks that were streamed.

`Collected` is what the decoder has gathered after a sequence of blocks.  It keeps
one reasoning text, one signature and one redacted block for the whole message, so
a message has at most one block of thinking (`twoThinkingBlocks_merged`).
-/
import CodexPlus.AnthropicMessages

namespace CodexPlus

open List Anthropic.AnthropicStreamState

namespace Anthropic

/-! ### Streams of blocks -/

/-- A block of an assistant message. -/
inductive Block where
  | thinking (text signature : String)
  | redactedThinking (data : String)
  | text (text : String)
  | toolUse (id name : String) (input : Json)

def Block.isReasoning : Block → Bool
  | .thinking .. | .redactedThinking _ => true
  | _ => false

/-- The events that stream a block at an index; texts come in any pieces, and the pieces of a tool
input are JSON text that parses to it. -/
inductive BlockEvents (context : EncoderContext) (index : ℕ) : Block → List StreamEvent → Prop
  | thinking (texts signatures : List String) :
      BlockEvents context index (.thinking (String.join texts) (String.join signatures))
        (.contentBlockStart index .unknown ::
          texts.map (fun text => .contentBlockDelta index (.thinkingDelta text)) ++
          signatures.map (fun signature => .contentBlockDelta index (.signatureDelta signature)) ++
          [.contentBlockStop index])
  | redactedThinking (data : String) :
      BlockEvents context index (.redactedThinking data)
        [.contentBlockStart index (.redactedThinking data), .contentBlockStop index]
  | text (first : Option String) (texts : List String) :
      BlockEvents context index (.text (first.getD "" ++ String.join texts))
        (.contentBlockStart index (.text first) ::
          texts.map (fun text => .contentBlockDelta index (.textDelta text)) ++
          [.contentBlockStop index])
  | toolUse (id name : String) {input : Json} (first : Option Json) (parts : List String)
      (hfirst : first = none ∨ first = some (.object []))
      (hinput : context.parseJson (String.join parts) = some input) :
      BlockEvents context index (.toolUse id name input)
        (.contentBlockStart index (.toolUse id name first) ::
          parts.map (fun part => .contentBlockDelta index (.inputJsonDelta part)) ++
          [.contentBlockStop index])

/-- The blocks of a message, from an index on. -/
inductive Streamed (context : EncoderContext) : ℕ → List Block → List StreamEvent → Prop
  | nil (index : ℕ) : Streamed context index [] []
  | cons {index : ℕ} {block : Block} {blocks : List Block} {events more : List StreamEvent}
      (hblock : BlockEvents context index block events)
      (hmore : Streamed context (index + 1) blocks more) :
      Streamed context index (block :: blocks) (events ++ more)

def StreamEvent.isPing : StreamEvent → Bool
  | .ping => true
  | _ => false

def StreamEvent.isMessageDelta : StreamEvent → Bool
  | .messageDelta .. => true
  | _ => false

/-- A complete stream of one message, with pings anywhere. -/
structure CompleteStream (context : EncoderContext) (blocks : List Block)
    (events : List StreamEvent) where
  id : String
  usage : Option AnthropicUsage
  blockEvents : List StreamEvent
  deltas : List StreamEvent
  streamed : Streamed context 0 blocks blockEvents
  deltas_isMessageDelta : ∀ event ∈ deltas, event.isMessageDelta = true
  events_eq : events.filter (! ·.isPing) =
    .messageStart id usage :: blockEvents ++ deltas ++ [.messageStop]

/-! ### What the decoder gathers -/

/-- The part of the state the items are made of. -/
structure Core where
  content : String
  toolCalls : Std.TreeMap ℕ ToolCallState
  reasoning : String
  reasoningSignature : String
  redactedReasoning : Option String
  reasoningStarted : Bool

def AnthropicStreamState.core (s : AnthropicStreamState) : Core :=
  ⟨s.content, s.toolCalls, s.reasoning, s.reasoningSignature, s.redactedReasoning, s.reasoningStarted⟩

/-- The call of a `tool_use` block. -/
def startedCall (context : DecoderContext) (calls : Std.TreeMap ℕ ToolCallState) (index : ℕ)
    (id name : String) (input : Option Json) : ToolCallState :=
  let call := (calls.get? index).getD .default
  let tool := (context.toolNames.get name).getD ⟨none, name⟩
  let arguments :=
    match input with
    | none | some (.object []) => call.arguments
    | some input => call.arguments ++ context.jsonText input
  (AnthropicStreamState.startToolCall
    { call with id := some id, toolNamespace := tool.toolNamespace, name := some tool.name, arguments }).1

/-- The call with a further part of its input. -/
def extendedCall (calls : Std.TreeMap ℕ ToolCallState) (index : ℕ) (part : String) : ToolCallState :=
  let call := (calls.get? index).getD .default
  (AnthropicStreamState.emitToolDelta index
    (AnthropicStreamState.startToolCall { call with arguments := call.arguments ++ part }).1).1

namespace Core

/-- What an event adds. -/
def collect (context : DecoderContext) (c : Core) : StreamEvent → Core
  | .contentBlockStart _ (.text text) => { c with content := c.content ++ text.getD "" }
  | .contentBlockStart index (.toolUse id name input) =>
    { c with toolCalls := c.toolCalls.insert index (startedCall context c.toolCalls index id name input) }
  | .contentBlockStart _ (.redactedThinking data) =>
    if data = "" then c else { c with reasoningStarted := true, redactedReasoning := some data }
  | .contentBlockDelta _ (.textDelta text) => { c with content := c.content ++ text }
  | .contentBlockDelta index (.inputJsonDelta part) =>
    if part = "" then c
    else { c with toolCalls := c.toolCalls.insert index (extendedCall c.toolCalls index part) }
  | .contentBlockDelta _ (.thinkingDelta thinking) =>
    if thinking = "" then c
    else { c with reasoningStarted := true, reasoning := c.reasoning ++ thinking }
  | .contentBlockDelta _ (.signatureDelta signature) =>
    { c with reasoningStarted := true, reasoningSignature := c.reasoningSignature ++ signature }
  | _ => c

end Core

def StreamEvent.isQuiet : StreamEvent → Bool
  | .messageStop | .error _ => false
  | _ => true

open Core

namespace AnthropicStreamState

variable (s : AnthropicStreamState)

theorem startReasoning_core :
    s.startReasoning.1.core = { s.core with reasoningStarted := true } ∧
      doneItems s.startReasoning.2 = [] := by
  unfold startReasoning
  split
  · next h =>
    refine ⟨?_, rfl⟩
    unfold core
    rw [h]
  · exact ⟨rfl, rfl⟩

theorem emitTextDelta_core (text : String) :
    (s.emitTextDelta text).1.core = { s.core with content := s.content ++ text } ∧
      doneItems (s.emitTextDelta text).2 = [] := by
  refine ⟨rfl, ?_⟩
  unfold emitTextDelta
  split <;> rfl

theorem doneItems_append (events more : List Sent) :
    doneItems (events ++ more) = doneItems events ++ doneItems more := filterMap_append

theorem doneItems_startToolCall (call : ToolCallState) : doneItems (startToolCall call).2 = [] := by
  unfold startToolCall
  split <;> rfl

theorem doneItems_emitToolDelta (index : ℕ) (call : ToolCallState) :
    doneItems (emitToolDelta index call).2 = [] := by
  unfold emitToolDelta
  split <;> rfl

variable (context : DecoderContext) (s : AnthropicStreamState)

theorem applyContentBlockStart_core (index : ℕ) (block : ContentBlockStart) :
    (s.applyContentBlockStart context index block).1.core =
        s.core.collect context (.contentBlockStart index block) ∧
      doneItems (s.applyContentBlockStart context index block).2 = [] := by
  rcases block with (- | text) | ⟨id, name, input⟩ | data | -
  · refine ⟨?_, rfl⟩
    show s.core = { s.core with content := s.core.content ++ "" }
    rw [String.append_empty]
  · rw [applyContentBlockStart]
    split
    · next hempty =>
      subst hempty
      refine ⟨?_, rfl⟩
      show s.core = { s.core with content := s.core.content ++ "" }
      rw [String.append_empty]
    · exact s.emitTextDelta_core text
  · exact ⟨rfl, doneItems_startToolCall _⟩
  · show (s.emitRedactedReasoning data).1.core = _ ∧ doneItems (s.emitRedactedReasoning data).2 = []
    obtain ⟨hcore, hdone⟩ := s.startReasoning_core
    unfold emitRedactedReasoning
    split
    · next hempty => exact ⟨(if_pos hempty).symm, rfl⟩
    · next hdata =>
      refine ⟨?_, hdone⟩
      rw [collect, if_neg hdata]
      show { s.startReasoning.1.core with redactedReasoning := some data } = _
      rw [hcore]
  · exact ⟨rfl, rfl⟩

theorem applyContentBlockDelta_core (index : ℕ) (delta : ContentBlockDelta) :
    (s.applyContentBlockDelta index delta).1.core =
        s.core.collect context (.contentBlockDelta index delta) ∧
      doneItems (s.applyContentBlockDelta index delta).2 = [] := by
  obtain ⟨hcore, hdone⟩ := s.startReasoning_core
  rcases delta with text | part | thinking | signature | -
  · rw [applyContentBlockDelta]
    split
    · next hempty =>
      subst hempty
      refine ⟨?_, rfl⟩
      show s.core = { s.core with content := s.core.content ++ "" }
      rw [String.append_empty]
    · exact s.emitTextDelta_core text
  · rw [applyContentBlockDelta]
    split
    · next hempty => exact ⟨(if_pos hempty).symm, rfl⟩
    · next hpart =>
      rw [collect, if_neg hpart]
      refine ⟨rfl, ?_⟩
      rw [doneItems_append, doneItems_startToolCall, doneItems_emitToolDelta]
      rfl
  · rw [applyContentBlockDelta]
    split
    · next hempty => exact ⟨(if_pos hempty).symm, rfl⟩
    · next hthinking =>
      rw [collect, if_neg hthinking]
      refine ⟨?_, ?_⟩
      · show { s.startReasoning.1.core with
          reasoning := s.startReasoning.1.core.reasoning ++ thinking } = _
        rw [hcore]
      · show doneItems (s.startReasoning.2 ++ [.ok (.reasoningContentDelta thinking 0)]) = []
        rw [doneItems_append, hdone]
        rfl
  · refine ⟨?_, hdone⟩
    show { s.startReasoning.1.core with
      reasoningSignature := s.startReasoning.1.core.reasoningSignature ++ signature } = _
    rw [hcore]
    rfl
  · exact ⟨rfl, rfl⟩

theorem applyUsage_core (usage : Option AnthropicUsage) :
    ((usage.map s.applyUsage).getD s).core = s.core := by
  rcases usage with - | usage <;> rfl

/-- An event before the end of the message. -/
theorem applyEvent_core {event : StreamEvent} (h : event.isQuiet) :
    (s.applyEvent context event).1.core = s.core.collect context event ∧
      doneItems (s.applyEvent context event).2.1 = [] ∧
      (s.applyEvent context event).2.2 = .ok false := by
  cases event with
  | messageStart id usage =>
    exact ⟨applyUsage_core { s with responseId := some id } usage, rfl, rfl⟩
  | contentBlockStart index block =>
    obtain ⟨hcore, hdone⟩ := applyContentBlockStart_core context s index block
    exact ⟨hcore, hdone, rfl⟩
  | contentBlockDelta index delta =>
    obtain ⟨hcore, hdone⟩ := applyContentBlockDelta_core context s index delta
    exact ⟨hcore, hdone, rfl⟩
  | contentBlockStop | ping => exact ⟨rfl, rfl, rfl⟩
  | messageDelta _ usage => exact ⟨applyUsage_core s usage, rfl, rfl⟩
  | messageStop | error => cases h

/-- Events before the end of the message only gather. -/
theorem process_quiet {events : List StreamEvent}
    (hquiet : ∀ event ∈ events, event.isQuiet) (rest : List SseEvent) :
    ∃ s' : AnthropicStreamState, s'.core = events.foldl (collect context) s.core ∧
      doneItems (process context s (events.map .event ++ rest)) = doneItems (process context s' rest) := by
  induction events generalizing s with
  | nil => exact ⟨s, rfl, rfl⟩
  | cons event events ih =>
    obtain ⟨hcore, hdone, hok⟩ := applyEvent_core context s (hquiet event mem_cons_self)
    obtain ⟨s', hs', hprocess⟩ := ih (s.applyEvent context event).1
      fun other hother => hquiet other (mem_cons_of_mem _ hother)
    refine ⟨s', ?_, ?_⟩
    · rw [hs', hcore, foldl_cons]
    · rcases hstep : s.applyEvent context event with ⟨s₁, sent, result⟩
      rw [hstep] at hdone hok hprocess
      subst hok
      rw [map_cons, cons_append, process, hstep]
      rw [doneItems_append, hdone, nil_append, hprocess]

end AnthropicStreamState

/-- The item of a call that has a name. -/
def ToolCallState.item (call : ToolCallState) : ResponseItem :=
  .functionCall none (call.name.getD "") call.toolNamespace call.arguments (call.id.getD "")

namespace Core

def reasoningItem (c : Core) : ResponseItem :=
  match c.redactedReasoning with
  | some data => .reasoning (some reasoningId) none (some data)
  | none => .reasoning (some reasoningId) (some [c.reasoning])
      (if c.reasoningSignature = "" then none else some c.reasoningSignature)

/-- The items of the message. -/
def items (c : Core) : List ResponseItem :=
  (if c.reasoningStarted then [c.reasoningItem] else []) ++
    (if c.content = "" then [] else [.message none "assistant" [.outputText c.content]]) ++
    c.toolCalls.toList.map fun entry => entry.2.item

end Core

open AnthropicStreamState in
theorem doneItems_finishToolCalls {calls : List (ℕ × ToolCallState)}
    (hnames : ∀ entry ∈ calls, entry.2.name.isSome) :
    doneItems (finishToolCalls calls).1 = calls.map (fun entry => entry.2.item) ∧
      (finishToolCalls calls).2 = .ok () := by
  induction calls with
  | nil => exact ⟨rfl, rfl⟩
  | cons entry calls ih =>
    obtain ⟨hitems, hok⟩ := ih fun other hother => hnames other (mem_cons_of_mem _ hother)
    obtain ⟨index, call⟩ := entry
    obtain ⟨name, hname⟩ := Option.isSome_iff_exists.mp (hnames (index, call) mem_cons_self)
    have hname' : call.name = some name := hname
    have hstep : finishToolCalls ((index, call) :: calls) = (.ok (.outputItemDone
        (.functionCall none name call.toolNamespace call.arguments (call.id.getD ""))) ::
          (finishToolCalls calls).1, (finishToolCalls calls).2) := by
      rw [finishToolCalls, hname']
    rw [hstep]
    refine ⟨?_, hok⟩
    show _ :: doneItems (finishToolCalls calls).1 = _
    rw [hitems, map_cons]
    simp only [ToolCallState.item, hname', Option.getD_some]

open AnthropicStreamState in
/-- The end of the message. -/
theorem process_messageStop (context : DecoderContext) (s : AnthropicStreamState)
    (hnames : ∀ entry ∈ s.toolCalls.toList, entry.2.name.isSome) (rest : List SseEvent) :
    doneItems (process context s (.event .messageStop :: rest)) = s.core.items := by
  obtain ⟨hcalls, hok⟩ := doneItems_finishToolCalls hnames
  rcases hfinish : finishToolCalls s.toolCalls.toList with ⟨called, result⟩
  rw [hfinish] at hcalls hok
  subst hok
  rw [process, applyEvent, finishItems, hfinish]
  rw [doneItems_append, doneItems_append, doneItems_append, hcalls]
  show _ ++ _ ++ _ ++ [] = (if s.reasoningStarted then [s.core.reasoningItem] else []) ++
    (if s.content = "" then [] else [.message none "assistant" [.outputText s.content]]) ++
    s.toolCalls.toList.map fun entry => entry.2.item
  rw [append_nil]
  congr 1
  congr 1
  all_goals split <;> rfl

/-! ### Calls in the order of their indices -/

/-- A call at the largest index is the last one. -/
theorem toList_insert_last {calls : Std.TreeMap ℕ ToolCallState} {index : ℕ}
    {before : List (ℕ × ToolCallState)}
    (hbefore : calls.toList.filter (fun entry => decide ¬(index == entry.1)) = before)
    (hlast : ∀ entry ∈ before, entry.1 < index) (call : ToolCallState) :
    (calls.insert index call).toList = before ++ [(index, call)] := by
  have hordered := (calls.insert index call).ordered_keys_toList
  have hperm : (calls.insert index call).toList.Perm (before ++ [(index, call)]) := by
    have h := Std.TreeMap.toList_insert_perm (t := calls) (k := index) (v := call)
    rw [hbefore] at h
    exact h.trans (perm_append_singleton _ _).symm
  have hpairs : before.Pairwise fun a b => compare a.1 b.1 = .lt := by
    rw [← hbefore]
    exact calls.ordered_keys_toList.filter _
  refine hperm.eq_of_pairwise ?_ hordered ?_
  · intro a b _ _ hab hba
    rw [Nat.compare_eq_lt] at hab hba
    omega
  · refine pairwise_append.mpr ⟨hpairs, pairwise_singleton _ _, ?_⟩
    intro entry hentry last hmem
    rw [mem_singleton.mp hmem, Nat.compare_eq_lt]
    exact hlast entry hentry

theorem filter_of_lt {calls : List (ℕ × ToolCallState)} {index : ℕ}
    (hlt : ∀ entry ∈ calls, entry.1 < index) :
    calls.filter (fun entry => decide ¬(index == entry.1)) = calls := by
  refine filter_eq_self.mpr fun entry hentry => ?_
  have hne : index ≠ entry.1 := (hlt entry hentry).ne'
  simpa using hne

theorem get?_of_toList {calls : Std.TreeMap ℕ ToolCallState} {index : ℕ}
    {before : List (ℕ × ToolCallState)} {call : ToolCallState}
    (h : calls.toList = before ++ [(index, call)]) : calls.get? index = some call := by
  rw [Std.TreeMap.get?_eq_getElem?, ← Std.TreeMap.mem_toList_iff_getElem?_eq_some, h]
  exact mem_append_right _ (mem_singleton.mpr rfl)

theorem get?_of_lt {calls : Std.TreeMap ℕ ToolCallState} {index : ℕ}
    (hlt : ∀ entry ∈ calls.toList, entry.1 < index) : calls.get? index = none := by
  rcases h : calls.get? index with _ | call
  · rfl
  · rw [Std.TreeMap.get?_eq_getElem?, ← Std.TreeMap.mem_toList_iff_getElem?_eq_some] at h
    exact absurd (hlt _ h) (lt_irrefl _)

/-! ### One block -/

def Block.isToolUse : Block → Bool
  | .toolUse .. => true
  | _ => false

/-- The text of a message is that of its text blocks together. -/
def messageText (blocks : List Block) : String :=
  String.join (blocks.map fun
    | .text text => text
    | _ => "")

/-- A call that is sent back as the block. -/
def CallOf (encoder : EncoderContext) : Block → ℕ × ToolCallState → Prop
  | .toolUse id name input, (_, call) =>
    call.id = some id ∧ call.name.isSome = true ∧
      anthropicToolName call.toolNamespace (call.name.getD "") = name ∧
      encoder.parseJson call.arguments = some input
  | _, _ => False

/-- The reasoning kept for the reasoning blocks of a message with at most one of them. -/
def Thought (started : Bool) (reasoning signature : String) (redacted : Option String) :
    List Block → Prop
  | [] => started = false ∧ reasoning = "" ∧ signature = "" ∧ redacted = none
  | [.thinking text blockSignature] =>
    started = true ∧ reasoning = text ∧ signature = blockSignature ∧ redacted = none
  | [.redactedThinking data] => started = true ∧ redacted = some data
  | _ => True

/-- A thinking block has a signature, a redacted one its data. -/
def Block.IsSigned : Block → Prop
  | .thinking _ signature => signature ≠ ""
  | .redactedThinking data => data ≠ ""
  | _ => True

/-- What has been gathered from the blocks below an index. -/
structure Collected (encoder : EncoderContext) (index : ℕ) (blocks : List Block) (c : Core) : Prop where
  content : c.content = messageText blocks
  calls : List.Forall₂ (CallOf encoder) (blocks.filter (·.isToolUse)) c.toolCalls.toList
  indices : ∀ entry ∈ c.toolCalls.toList, entry.1 < index
  thought : Thought c.reasoningStarted c.reasoning c.reasoningSignature c.redactedReasoning
    (blocks.filter (·.isReasoning))

theorem messageText_append (blocks more : List Block) :
    messageText (blocks ++ more) = messageText blocks ++ messageText more := by
  rw [messageText, map_append, String.join_append]
  rfl

variable {redacted : Option String}

section

variable (decoder : DecoderContext) (index : ℕ) (c : Core) (texts : List String)

open StreamEvent

theorem foldl_textDelta :
    (texts.map fun text => contentBlockDelta index (.textDelta text)).foldl
        (collect decoder) c = { c with content := c.content ++ String.join texts } := by
  induction texts generalizing c with
  | nil => rw [String.join_nil, String.append_empty]; rfl
  | cons _ _ ih =>
    rw [map_cons, foldl_cons, ih, String.join_cons, ← String.append_assoc]
    rfl

theorem foldl_signatureDelta (signatures : List String) :
    (signatures.map fun signature => contentBlockDelta index (.signatureDelta signature)).foldl
        (collect decoder) c =
      { c with
        reasoningStarted := c.reasoningStarted || ! signatures.isEmpty
        reasoningSignature := c.reasoningSignature ++ String.join signatures } := by
  induction signatures generalizing c with
  | nil =>
    rw [String.join_nil, String.append_empty, isEmpty_nil, Bool.not_true, Bool.or_false]
    rfl
  | cons _ _ ih =>
    rw [map_cons, foldl_cons, ih, String.join_cons, ← String.append_assoc, isEmpty_cons,
      Bool.not_false, Bool.or_true]
    show Core.mk _ _ _ _ _ (true || _) = _
    rfl

/-- Only the text is needed: the signature that follows starts the item anyway. -/
theorem foldl_thinkingDelta :
    ∃ started : Bool,
      (texts.map fun text => contentBlockDelta index (.thinkingDelta text)).foldl
          (collect decoder) c =
        { c with reasoningStarted := started, reasoning := c.reasoning ++ String.join texts } := by
  induction texts generalizing c with
  | nil => exact ⟨c.reasoningStarted, by rw [String.join_nil, String.append_empty]; rfl⟩
  | cons text _ ih =>
    obtain ⟨started, h⟩ := ih (c.collect decoder (.contentBlockDelta index (.thinkingDelta text)))
    refine ⟨started, ?_⟩
    rw [map_cons, foldl_cons, h, String.join_cons, ← String.append_assoc, collect]
    by_cases hempty : text = ""
    · rw [if_pos hempty, hempty, String.append_empty]
    · rw [if_neg hempty]

variable (call : ToolCallState)

/-- Starting a call and streaming its input keep what the call is. -/
theorem startToolCall_same :
    let started := (startToolCall call).1
    started.id = call.id ∧ started.name = call.name ∧ started.toolNamespace = call.toolNamespace ∧
      started.arguments = call.arguments := by
  rcases call with ⟨id, toolNamespace, _ | name, arguments, emitted, _ | _⟩ <;> exact ⟨rfl, rfl, rfl, rfl⟩

theorem emitToolDelta_same :
    let emitted := (emitToolDelta index call).1
    emitted.id = call.id ∧ emitted.name = call.name ∧ emitted.toolNamespace = call.toolNamespace ∧
      emitted.arguments = call.arguments := by
  rw [emitToolDelta]
  split <;> exact ⟨rfl, rfl, rfl, rfl⟩

theorem extendedCall_same {calls : Std.TreeMap ℕ ToolCallState} {call : ToolCallState}
    (h : calls.get? index = some call) (part : String) :
    let extended := extendedCall calls index part
    extended.id = call.id ∧ extended.name = call.name ∧ extended.toolNamespace = call.toolNamespace ∧
      extended.arguments = call.arguments ++ part := by
  intro extended
  obtain ⟨hid, hname, hnamespace, harguments⟩ := startToolCall_same
    { call with arguments := call.arguments ++ part }
  obtain ⟨hid', hname', hnamespace', harguments'⟩ := emitToolDelta_same index
    (startToolCall { call with arguments := call.arguments ++ part }).1
  have hextended : extended = (emitToolDelta index
      (startToolCall { call with arguments := call.arguments ++ part }).1).1 := by
    show extendedCall calls index part = _
    rw [extendedCall, h]
    rfl
  rw [hextended]
  exact ⟨hid'.trans hid, hname'.trans hname, hnamespace'.trans hnamespace, harguments'.trans harguments⟩

/-- The parts of an input extend the last call. -/
theorem foldl_inputJsonDelta {before : List (ℕ × ToolCallState)} {call : ToolCallState}
    (hcalls : c.toolCalls.toList = before ++ [(index, call)])
    (hbefore : ∀ entry ∈ before, entry.1 < index) (parts : List String) :
    ∃ (calls : Std.TreeMap ℕ ToolCallState) (last : ToolCallState),
      (parts.map fun part => contentBlockDelta index (.inputJsonDelta part)).foldl
          (collect decoder) c = { c with toolCalls := calls } ∧
      calls.toList = before ++ [(index, last)] ∧
      last.id = call.id ∧ last.name = call.name ∧ last.toolNamespace = call.toolNamespace ∧
      last.arguments = call.arguments ++ String.join parts := by
  induction parts generalizing c call with
  | nil =>
    refine ⟨c.toolCalls, call, rfl, hcalls, rfl, rfl, rfl, ?_⟩
    rw [String.join_nil, String.append_empty]
  | cons part _ ih =>
    rw [map_cons, foldl_cons, collect, String.join_cons]
    by_cases hempty : part = ""
    · rw [if_pos hempty, hempty, String.empty_append]
      exact ih c hcalls
    rw [if_neg hempty]
    obtain ⟨hid, hname, hnamespace, harguments⟩ :=
      extendedCall_same index (get?_of_toList hcalls) part
    have hfilter : c.toolCalls.toList.filter (fun entry => decide ¬(index == entry.1) = true) =
        before := by
      rw [hcalls, filter_append, filter_of_lt hbefore]
      simp
    obtain ⟨calls, last, hfold, hlast, hid', hname', hnamespace', harguments'⟩ :=
      ih { c with toolCalls := c.toolCalls.insert index (extendedCall c.toolCalls index part) }
        (toList_insert_last hfilter hbefore _)
    refine ⟨calls, last, hfold, hlast, hid'.trans hid, hname'.trans hname,
      hnamespace'.trans hnamespace, ?_⟩
    rw [harguments', harguments, String.append_assoc]

/-- The first event of a `tool_use` block adds its call. -/
theorem startedCall_fresh {calls : Std.TreeMap ℕ ToolCallState}
    (hfresh : calls.get? index = none) (id name : String) {input : Option Json}
    (hinput : input = none ∨ input = some (.object [])) :
    let call := startedCall decoder calls index id name input
    call.id = some id ∧ call.name.isSome ∧
      anthropicToolName call.toolNamespace (call.name.getD "") = name ∧ call.arguments = "" := by
  intro call
  set tool := (decoder.toolNames.get name).getD ⟨none, name⟩ with htool
  have hwire : anthropicToolName tool.toolNamespace tool.name = name := by
    rcases hget : decoder.toolNames.get name with _ | found
    · rw [htool, hget]
      rfl
    · rw [htool, hget]
      exact decoder.toolNames.wire name found hget
  have hcall : call = (startToolCall
      { ToolCallState.default with
        id := some id, toolNamespace := tool.toolNamespace, name := some tool.name }).1 := by
    show startedCall decoder calls index id name input = _
    rcases hinput with rfl | rfl
    all_goals
      simp only [startedCall, hfresh]
      rfl
  obtain ⟨hid, hname, hnamespace, harguments⟩ := startToolCall_same
    { ToolCallState.default with
      id := some id, toolNamespace := tool.toolNamespace, name := some tool.name }
  rw [hcall, hid, hname, hnamespace, harguments]
  exact ⟨rfl, rfl, hwire, rfl⟩

variable {index} {encoder : EncoderContext} {blocks : List Block} {c : Core}

/-- A thinking block after others: alone, it is what is kept. -/
theorem Thought.append_thinking {started : Bool} {reasoning signature : String}
    (h : Thought started reasoning signature redacted blocks)
    (text blockSignature : String) :
    Thought true (reasoning ++ text) (signature ++ blockSignature) redacted
      (blocks ++ [.thinking text blockSignature]) := by
  rcases blocks with _ | ⟨block, _ | ⟨other, blocks⟩⟩
  · obtain ⟨-, rfl, rfl, rfl⟩ := h
    exact ⟨rfl, rfl, rfl, rfl⟩
  all_goals cases block <;> exact trivial

theorem Thought.append_redactedThinking {started : Bool} {reasoning signature : String}
    (h : Thought started reasoning signature redacted blocks)
    (data : String) :
    Thought true reasoning signature (some data) (blocks ++ [.redactedThinking data]) := by
  rcases blocks with _ | ⟨block, _ | ⟨other, blocks⟩⟩
  · exact ⟨rfl, rfl⟩
  all_goals cases block <;> exact trivial

variable (h : Collected encoder index blocks c)
include h

/-- **One block.** -/
theorem Collected.block {block : Block} {events : List StreamEvent} (hevents : BlockEvents encoder index block events)
    (hsigned : block.IsSigned) :
    Collected encoder (index + 1) (blocks ++ [block]) (events.foldl (collect decoder) c) := by
  have hindices : ∀ entry ∈ c.toolCalls.toList, entry.1 < index + 1 :=
    fun entry hentry => Nat.lt_succ_of_lt (h.indices entry hentry)
  -- what a block leaves alone
  have hcontent : messageText [block] = "" → c.content = messageText (blocks ++ [block]) := by
    intro hempty
    rw [messageText_append, hempty, String.append_empty, h.content]
  have hcalls : block.isToolUse = false → List.Forall₂ (CallOf encoder)
      ((blocks ++ [block]).filter (·.isToolUse)) c.toolCalls.toList := by
    intro hother
    rw [filter_append, filter_singleton, hother, cond_false, append_nil]
    exact h.calls
  have hthought : block.isReasoning = false → Thought c.reasoningStarted c.reasoning
      c.reasoningSignature c.redactedReasoning ((blocks ++ [block]).filter (·.isReasoning)) := by
    intro hother
    rw [filter_append, filter_singleton, hother, cond_false, append_nil]
    exact h.thought
  cases hevents with
  | thinking texts signatures =>
    have hstarted : signatures.isEmpty = false := by
      rcases signatures with _ | ⟨signature, signatures⟩
      · exact absurd rfl hsigned
      · rfl
    obtain ⟨started, hthinking⟩ := foldl_thinkingDelta decoder index c texts
    have hfold : List.foldl (collect decoder) c (.contentBlockStart index .unknown ::
        texts.map (fun text => .contentBlockDelta index (.thinkingDelta text)) ++
        signatures.map (fun signature => .contentBlockDelta index (.signatureDelta signature)) ++
        [.contentBlockStop index]) =
        { c with
          reasoningStarted := true
          reasoning := c.reasoning ++ String.join texts
          reasoningSignature := c.reasoningSignature ++ String.join signatures } := by
      rw [foldl_append, foldl_append, foldl_cons]
      show ((signatures.map _).foldl _ ((texts.map _).foldl _ c)) = _
      rw [hthinking, foldl_signatureDelta, hstarted, Bool.not_false, Bool.or_true]
    rw [hfold]
    refine ⟨hcontent rfl, hcalls rfl, hindices, ?_⟩
    rw [filter_append]
    exact h.thought.append_thinking _ _
  | redactedThinking data =>
    have hfold : [contentBlockStart index (.redactedThinking data),
        .contentBlockStop index].foldl (collect decoder) c =
        { c with reasoningStarted := true, redactedReasoning := some data } := by
      show c.collect decoder (.contentBlockStart index (.redactedThinking data)) = _
      rw [collect, if_neg hsigned]
    rw [hfold]
    refine ⟨hcontent rfl, hcalls rfl, hindices, ?_⟩
    rw [filter_append]
    exact h.thought.append_redactedThinking data
  | text first texts =>
    have hfold : List.foldl (collect decoder) c (.contentBlockStart index (.text first) ::
        texts.map (fun text => .contentBlockDelta index (.textDelta text)) ++
        [.contentBlockStop index]) =
        { c with content := c.content ++ (first.getD "" ++ String.join texts) } := by
      rw [foldl_append, foldl_cons]
      show (texts.map _).foldl _ (Core.mk _ _ _ _ _ _) = _
      rw [foldl_textDelta, String.append_assoc]
    rw [hfold]
    refine ⟨?_, hcalls rfl, hindices, hthought rfl⟩
    rw [messageText_append, h.content]
    show _ = messageText blocks ++ (String.join [_])
    rw [String.join_cons, String.join_nil, String.append_empty]
  | toolUse id name first parts hfirst hinput =>
    obtain ⟨hid, hname, hwire, harguments⟩ :=
      startedCall_fresh decoder index (get?_of_lt h.indices) id name hfirst
    set call := startedCall decoder c.toolCalls index id name first with hcall
    obtain ⟨calls, last, hfold, hlist, hid', hname', hnamespace', harguments'⟩ :=
      foldl_inputJsonDelta decoder index
        { c with toolCalls := c.toolCalls.insert index call }
        (toList_insert_last (filter_of_lt h.indices) h.indices call) h.indices parts
    rw [foldl_append, foldl_cons]
    show Collected _ _ _ ((parts.map _).foldl _ { c with toolCalls := c.toolCalls.insert index call })
    rw [hfold]
    refine ⟨hcontent rfl, ?_, ?_, hthought rfl⟩
    · rw [filter_append]
      rw [hlist]
      refine rel_append h.calls (List.Forall₂.cons ⟨?_, ?_, ?_, ?_⟩ .nil)
      · exact hid'.trans hid
      · rw [hname', hname]
      · rw [hname', hnamespace', hwire]
      · rw [harguments', harguments, String.empty_append, hinput]
    · rw [hlist]
      intro entry hentry
      rcases mem_append.mp hentry with hentry | hentry
      · exact hindices entry hentry
      · rw [mem_singleton.mp hentry]
        exact Nat.lt_succ_self index

/-- **All blocks.** -/
theorem Collected.streamed {more : List Block} {events : List StreamEvent} (hevents : Streamed encoder index more events)
    (hsigned : ∀ block ∈ more, block.IsSigned) :
    ∃ last, Collected encoder last (blocks ++ more) (events.foldl (collect decoder) c) := by
  induction hevents generalizing blocks c with
  | nil index =>
    rw [append_nil]
    exact ⟨index, h⟩
  | cons hblock _ ih =>
    rw [foldl_append, append_cons]
    exact ih (h.block decoder hblock (hsigned _ mem_cons_self))
      fun other hother => hsigned other (mem_cons_of_mem _ hother)

end

/-! ### Sending the items back -/

/-- The block a call is sent back as. -/
def ToolCallState.sent (encoder : EncoderContext) (call : ToolCallState) : ContentBlock :=
  .toolUse (call.id.getD "") (anthropicToolName call.toolNamespace (call.name.getD ""))
    ((encoder.parseJson call.arguments).getD (.string call.arguments))

namespace Core

def sentReasoning (c : Core) : ContentBlock :=
  match c.redactedReasoning with
  | some data => .redactedThinking data
  | none => .thinking c.reasoning (some c.reasoningSignature)

/-- The blocks of the assistant. -/
def sent (encoder : EncoderContext) (c : Core) : List ContentBlock :=
  (if c.reasoningStarted then [c.sentReasoning] else []) ++
    (if c.content = "" then [] else [.text c.content]) ++
    c.toolCalls.toList.map fun entry => entry.2.sent encoder

end Core

namespace EncoderState

variable (encoder : EncoderContext)

/-- Nothing but blocks of the assistant so far. -/
def pending (blocks : List ContentBlock) : EncoderState := ⟨[], [], blocks, []⟩

variable (blocks : List ContentBlock)

theorem foldl_calls (calls : List (ℕ × ToolCallState)) :
    (calls.map fun entry => entry.2.item).foldl (step encoder) (pending blocks) =
      pending (blocks ++ calls.map fun entry => entry.2.sent encoder) := by
  induction calls generalizing blocks with
  | nil => rw [map_nil, map_nil, append_nil]; rfl
  | cons _ _ ih =>
    rw [map_cons, foldl_cons, map_cons, append_cons]
    exact ih _

theorem step_text {text : String} (hne : text ≠ "") :
    step encoder (pending blocks) (.message none "assistant" [.outputText text]) =
      pending (blocks ++ [.text text]) := by
  have htext : intoText [.text text] = text := by
    show String.intercalate "\n" [text] = text
    rw [String.intercalate_singleton]
  show pushMessage encoder (pending blocks) "assistant" [.outputText text] = _
  show (if intoText [.text text] = "" then _ else _) = _
  rw [htext, if_neg hne]
  rfl

theorem step_reasoning {c : Core}
    (hsigned : c.redactedReasoning = none → c.reasoningSignature ≠ "") :
    step encoder (pending blocks) c.reasoningItem = pending (blocks ++ [c.sentReasoning]) := by
  rw [Core.reasoningItem, Core.sentReasoning]
  rcases hredacted : c.redactedReasoning with _ | data
  · simp only [if_neg (hsigned hredacted)]
    show (if decide (_ ≠ "") || true then (pending blocks).pushAssistant
      (.thinking (reasoningContentToText (some [c.reasoning])) (some c.reasoningSignature)) else _) = _
    rw [Bool.or_true, if_pos rfl, reasoningContentToText, Option.getD_some, String.join_cons,
      String.join_nil, String.append_empty]
    rfl
  · rfl

/-- The items become one list of blocks of the assistant. -/
theorem foldl_items {c : Core}
    (hsigned : c.reasoningStarted → c.redactedReasoning = none → c.reasoningSignature ≠ "") :
    c.items.foldl (step encoder) start = pending (c.sent encoder) := by
  have hreasoning : (if c.reasoningStarted then [c.reasoningItem] else []).foldl (step encoder) start =
      pending (if c.reasoningStarted then [c.sentReasoning] else []) := by
    rcases hstarted : c.reasoningStarted with _ | _
    · rfl
    · exact step_reasoning encoder [] (hsigned hstarted)
  rw [items, foldl_append, foldl_append, hreasoning, sent]
  by_cases hcontent : c.content = ""
  · rw [if_pos hcontent, if_pos hcontent, append_nil]
    exact foldl_calls encoder _ _
  · rw [if_neg hcontent, if_neg hcontent, foldl_cons, step_text encoder _ hcontent]
    exact foldl_calls encoder _ _

end EncoderState

/-- The output of a tool. -/
def isToolOutput : ResponseItem → Bool
  | .functionCallOutput _ (some _) _ _ _ _ | .customToolCallOutput .. => true
  | _ => false

/-- Thinking first. -/
def arranged (blocks : List ContentBlock) : List ContentBlock :=
  blocks.filter (·.isThinking) ++ blocks.filter (! ·.isThinking)

theorem mem_arranged {block : ContentBlock} {blocks : List ContentBlock} (h : block ∈ blocks) :
    block ∈ arranged blocks := by
  rw [arranged, mem_append, mem_filter, mem_filter]
  rcases hthinking : block.isThinking with _ | _
  · exact .inr ⟨h, rfl⟩
  · exact .inl ⟨h, rfl⟩

/-- The blocks are pending, or they are the first message. -/
def Leads (blocks : List ContentBlock) (s : EncoderState) : Prop :=
  (s.messages = [] ∧ s.pendingAssistantContent = blocks) ∨
    s.messages.head? = some ⟨.assistant, arranged blocks⟩

namespace Leads

variable {blocks : List ContentBlock} {s : EncoderState}

theorem flushPendingAssistantContent (hne : blocks ≠ []) (h : Leads blocks s) :
    s.flushPendingAssistantContent.messages.head? = some ⟨.assistant, arranged blocks⟩ := by
  rw [EncoderState.flushPendingAssistantContent]
  rcases h with ⟨hmessages, hpending⟩ | hhead
  · have hempty : blocks.isEmpty = false := by
      rcases blocks with _ | ⟨block, blocks⟩
      · exact absurd rfl hne
      · rfl
    rw [hpending, hempty, hmessages]
    rfl
  · split
    · exact hhead
    · rw [head?_append, hhead]
      rfl

variable (encoder : EncoderContext) (hne : blocks ≠ []) (h : Leads blocks s)
include hne h

theorem step
    {item : ResponseItem} (houtput : isToolOutput item) : Leads blocks (s.step encoder item) := by
  have hpush : ∀ callId output, Leads blocks (s.pushToolResult encoder callId output) :=
    fun _ _ => .inr (h.flushPendingAssistantContent hne)
  cases item with
  | functionCallOutput _ callId _ _ output =>
    cases callId with
    | none => cases houtput
    | some callId => exact hpush callId output
  | customToolCallOutput _ callId _ output => exact hpush callId output
  | _ => cases houtput

theorem foldl {outputs : List ResponseItem} (houtputs : ∀ item ∈ outputs, isToolOutput item) :
    Leads blocks (outputs.foldl (EncoderState.step encoder) s) := by
  induction outputs generalizing s with
  | nil => exact h
  | cons item _ ih =>
    exact ih (h.step encoder hne (houtputs item mem_cons_self))
      fun output houtput => houtputs output (mem_cons_of_mem _ houtput)

theorem flushAll : s.flushAll.messages.head? = some ⟨.assistant, arranged blocks⟩ := by
  have hhead := h.flushPendingAssistantContent hne
  rw [EncoderState.flushAll, EncoderState.flushPendingToolResults]
  split
  · exact hhead
  · rw [head?_append, hhead]
    rfl

end Leads

/-! ### The round trip -/

section

variable {decoder : DecoderContext} {encoder : EncoderContext} {blocks : List Block}
  {events : List StreamEvent}

theorem BlockEvents.isQuiet {index : ℕ} {block : Block} (h : BlockEvents encoder index block events) :
    ∀ event ∈ events, event.isQuiet := by
  intro event hevent
  cases h with
  | thinking =>
    simp only [cons_append, mem_cons, mem_append, mem_map, not_mem_nil, or_false] at hevent
    rcases hevent with rfl | (⟨text, -, rfl⟩ | ⟨signature, -, rfl⟩) | rfl <;> rfl
  | redactedThinking =>
    simp only [mem_cons, not_mem_nil, or_false] at hevent
    rcases hevent with rfl | rfl <;> rfl
  | text =>
    simp only [cons_append, mem_cons, mem_append, mem_map, not_mem_nil, or_false] at hevent
    rcases hevent with rfl | ⟨text, -, rfl⟩ | rfl <;> rfl
  | toolUse =>
    simp only [cons_append, mem_cons, mem_append, mem_map, not_mem_nil, or_false] at hevent
    rcases hevent with rfl | ⟨part, -, rfl⟩ | rfl <;> rfl

theorem Streamed.isQuiet {index : ℕ} (h : Streamed encoder index blocks events) :
    ∀ event ∈ events, event.isQuiet := by
  induction h with
  | nil => intro event hevent; cases hevent
  | cons hblock _ ih =>
    intro event hevent
    rcases mem_append.mp hevent with hevent | hevent
    · exact hblock.isQuiet event hevent
    · exact ih event hevent

theorem foldl_pings (c : Core) :
    events.foldl (collect decoder) c =
      (events.filter (! ·.isPing)).foldl (collect decoder) c := by
  induction events generalizing c with
  | nil => rfl
  | cons event _ ih => cases event <;> exact ih _

theorem foldl_messageDeltas (h : ∀ event ∈ events, event.isMessageDelta) (c : Core) :
    events.foldl (collect decoder) c = c := by
  induction events with
  | nil => rfl
  | cons event _ ih =>
    have hevent := h event mem_cons_self
    cases event with
    | messageDelta => exact ih fun other hother => h other (mem_cons_of_mem _ hother)
    | _ => cases hevent

theorem CallOf.named {block : Block} {entry : ℕ × ToolCallState} (h : CallOf encoder block entry) :
    entry.2.name.isSome := by
  cases block with
  | toolUse => exact h.2.1
  | _ => exact h.elim

/-- Every call has a name, and every tool use its call. -/
theorem calls_match {tools : List Block} {calls : List (ℕ × ToolCallState)}
    (h : List.Forall₂ (CallOf encoder) tools calls) :
    (∀ entry ∈ calls, entry.2.name.isSome) ∧
      ∀ tool ∈ tools, ∃ entry ∈ calls, CallOf encoder tool entry := by
  induction h with
  | nil =>
    constructor
    · intro entry hentry
      cases hentry
    · intro tool htool
      cases htool
  | @cons tool entry _ _ hcall _ ih =>
    refine ⟨forall_mem_cons.mpr ⟨hcall.named, ih.1⟩, forall_mem_cons.mpr ⟨?_, ?_⟩⟩
    · exact ⟨entry, mem_cons_self, hcall⟩
    · intro tool htool
      obtain ⟨found, hfound, hof⟩ := ih.2 tool htool
      exact ⟨found, mem_cons_of_mem _ hfound, hof⟩

/-- The items of a complete stream are those of what was gathered from its blocks. -/
theorem CompleteStream.doneItems (decoder : DecoderContext) (h : CompleteStream encoder blocks events)
    (hsigned : ∀ block ∈ blocks, block.IsSigned) :
    ∃ index c, Collected encoder index blocks c ∧
      Anthropic.doneItems (processAnthropicSse decoder (events.map .event)) = c.items := by
  obtain ⟨before, stop, hsplit, hbefore, hstop⟩ := filter_eq_append_iff.mp h.events_eq
  obtain ⟨pings, rest, rfl, hpings, -, -⟩ := filter_eq_cons_iff.mp hstop
  have hquiet : ∀ event ∈ before ++ pings, event.isQuiet = true := by
    intro event hevent
    by_cases hping : event.isPing = true
    · cases event <;> first | rfl | cases hping
    have hmem : event ∈ before := by
      rcases mem_append.mp hevent with hmem | hmem
      · exact hmem
      · exact absurd (by simpa using hpings event hmem) hping
    have hfilter : event ∈ before.filter (! ·.isPing) :=
      mem_filter.mpr ⟨hmem, by simpa using hping⟩
    rw [hbefore] at hfilter
    simp only [cons_append, mem_cons, mem_append] at hfilter
    rcases hfilter with rfl | hfilter | hfilter
    · rfl
    · exact h.streamed.isQuiet event hfilter
    · have hdelta := h.deltas_isMessageDelta event hfilter
      cases event <;> first | rfl | cases hdelta
  have hstart : Collected encoder 0 [] start.core :=
    ⟨rfl, List.Forall₂.nil, fun _ hentry => absurd hentry not_mem_nil, rfl, rfl, rfl, rfl⟩
  obtain ⟨index, hcollected⟩ := hstart.streamed decoder h.streamed hsigned
  obtain ⟨s, hs, hprocess⟩ := process_quiet decoder .start hquiet
    (.event .messageStop :: rest.map .event)
  have hcore : s.core = h.blockEvents.foldl (collect decoder) start.core := by
    rw [hs, foldl_pings, filter_append, hbefore,
      filter_eq_nil_iff.mpr fun event hevent => hpings event hevent, append_nil,
      foldl_append, foldl_messageDeltas h.deltas_isMessageDelta, foldl_cons]
    rfl
  rw [nil_append, ← hcore] at hcollected
  refine ⟨index, s.core, hcollected, ?_⟩
  show Anthropic.doneItems (process decoder .start _) = _
  rw [hsplit, ← append_assoc, map_append, map_cons, hprocess]
  exact process_messageStop decoder s (calls_match hcollected.calls).1 _

/-- The single reasoning block of a message. -/
theorem filter_isReasoning_eq {block : Block} (hone : (blocks.filter (·.isReasoning)).length ≤ 1)
    (hmem : block ∈ blocks) (hreasoning : block.isReasoning) :
    blocks.filter (·.isReasoning) = [block] := by
  have hfilter : block ∈ blocks.filter (·.isReasoning) := mem_filter.mpr ⟨hmem, hreasoning⟩
  rcases heq : blocks.filter (·.isReasoning) with _ | ⟨first, _ | ⟨second, rest⟩⟩
  · rw [heq] at hfilter
    cases hfilter
  · rw [heq] at hfilter
    rw [mem_singleton.mp hfilter, heq]
  · rw [heq] at hone
    simp only [length_cons] at hone
    omega

/-- What was kept is signed, when every block is. -/
theorem Thought.signed {started : Bool} {reasoning signature : String}
    {thinking : List Block} (h : Thought started reasoning signature redacted thinking)
    (hreasoning : ∀ block ∈ thinking, block.isReasoning)
    (hsigned : ∀ block ∈ thinking, block.IsSigned) (hone : thinking.length ≤ 1)
    (hstarted : started) (hredacted : redacted = none) : signature ≠ "" := by
  rcases thinking with _ | ⟨block, _ | ⟨second, rest⟩⟩
  · rw [h.1] at hstarted
    cases hstarted
  · have hblock := hsigned block mem_cons_self
    have hkind := hreasoning block mem_cons_self
    cases block with
    | thinking =>
      rw [h.2.2.1]
      exact hblock
    | redactedThinking =>
      rw [h.2] at hredacted
      cases hredacted
    | text | toolUse => cases hkind
  · simp only [length_cons] at hone
    omega

variable (decoder encoder) in
/-- The messages of the next request: the items of a stream, then the outputs of its tools. -/
def messagesAfter (events : List StreamEvent) (outputs : List ResponseItem) : List AnthropicMessage :=
  (anthropicMessagesFromItems encoder
    (doneItems (processAnthropicSse decoder (events.map .event)) ++ outputs)).2

variable (decoder) in
/-- **A message with at most one block of thinking survives.**  Its thinking keeps text and
signature, redacted thinking its data, and every tool use its id, name and input; the text blocks
come back as one. -/
theorem messagesAfter_contains (hstream : CompleteStream encoder blocks events)
    (hsigned : ∀ block ∈ blocks, block.IsSigned)
    (hone : (blocks.filter (·.isReasoning)).length ≤ 1) {outputs : List ResponseItem}
    (houtputs : ∀ item ∈ outputs, isToolOutput item = true) :
    ∃ content : List ContentBlock,
      (content ≠ [] →
        (messagesAfter decoder encoder events outputs).head? = some ⟨.assistant, content⟩) ∧
      (∀ text signature, .thinking text signature ∈ blocks →
        .thinking text (some signature) ∈ content) ∧
      (∀ data, .redactedThinking data ∈ blocks → .redactedThinking data ∈ content) ∧
      (messageText blocks ≠ "" → .text (messageText blocks) ∈ content) ∧
      ∀ id name input, .toolUse id name input ∈ blocks → .toolUse id name input ∈ content := by
  obtain ⟨index, c, hcollected, hitems⟩ := hstream.doneItems decoder hsigned
  have hthought := hcollected.thought
  have hkept : c.reasoningStarted = true → c.redactedReasoning = none → c.reasoningSignature ≠ "" := by
    apply hthought.signed
    · exact fun block hblock => (mem_filter.mp hblock).2
    · exact fun block hblock => hsigned block (mem_filter.mp hblock).1
    · exact hone
  have hreasoning : c.reasoningStarted = true → c.sentReasoning ∈ c.sent encoder := by
    intro hstarted
    rw [sent, hstarted]
    exact mem_append_left _ (mem_append_left _ mem_cons_self)
  refine ⟨arranged (c.sent encoder), ?_, ?_, ?_, ?_, ?_⟩
  · intro hne
    have hsent : c.sent encoder ≠ [] := by
      intro hnil
      rw [hnil] at hne
      exact hne rfl
    rw [messagesAfter, hitems]
    show (EncoderState.messages (EncoderState.flushAll _)).head? = _
    rw [foldl_append, EncoderState.foldl_items encoder hkept]
    apply Leads.flushAll hsent
    exact Leads.foldl encoder hsent (.inl ⟨rfl, rfl⟩) houtputs
  · intro text signature hmem
    rw [filter_isReasoning_eq hone hmem rfl] at hthought
    obtain ⟨hstarted, htext, hsignature, hredacted⟩ := hthought
    have hsent := hreasoning hstarted
    rw [Core.sentReasoning, hredacted, htext, hsignature] at hsent
    exact mem_arranged hsent
  · intro data hmem
    rw [filter_isReasoning_eq hone hmem rfl] at hthought
    obtain ⟨hstarted, hredacted⟩ := hthought
    have hsent := hreasoning hstarted
    rw [Core.sentReasoning, hredacted] at hsent
    exact mem_arranged hsent
  · intro htext
    apply mem_arranged
    rw [sent, hcollected.content, if_neg htext]
    exact mem_append_left _ (mem_append_right _ mem_cons_self)
  · intro id name input hmem
    obtain ⟨entry, hentry, hid, -, hname, hinput⟩ := (calls_match hcollected.calls).2
      (.toolUse id name input) (mem_filter.mpr ⟨hmem, rfl⟩)
    apply mem_arranged
    refine mem_append_right _ (mem_map.mpr ⟨entry, hentry, ?_⟩)
    rw [ToolCallState.sent, hid, hname, hinput]
    rfl

end

/-- Without tools; the only JSON text is that of the empty object. -/
def plainDecoder : DecoderContext := ⟨.empty, fun _ => ""⟩

def plainEncoder : EncoderContext where
  parseJson text := if text = "\x7b\x7d" then some (.object []) else none
  imageSource := .url
  outputContent _ := .object []

/-- A thinking block and a call, with a ping in between. -/
def thinkThenCall : List StreamEvent :=
  [.messageStart "m" none, .contentBlockStart 0 .unknown, .contentBlockDelta 0 (.thinkingDelta "a"),
    .contentBlockDelta 0 (.signatureDelta "s"), .contentBlockStop 0, .ping,
    .contentBlockStart 1 (.toolUse "t" "run" (some (.object []))),
    .contentBlockDelta 1 (.inputJsonDelta "\x7b"), .contentBlockDelta 1 (.inputJsonDelta "\x7d"),
    .contentBlockStop 1, .messageDelta (some "tool_use") none, .messageStop]

def thinkThenCall_complete : CompleteStream plainEncoder
    [.thinking "a" "s", .toolUse "t" "run" (.object [])] thinkThenCall where
  id := "m"
  usage := none
  blockEvents := _
  deltas := [.messageDelta (some "tool_use") none]
  streamed := .cons (.thinking ["a"] ["s"]) (.cons
    (.toolUse "t" "run" (some (.object [])) ["\x7b", "\x7d"] (.inr rfl) rfl) (.nil 2))
  deltas_isMessageDelta := by simp [StreamEvent.isMessageDelta]
  events_eq := rfl

theorem thinkThenCall_contains :
    ∃ content : List ContentBlock,
      (content ≠ [] → (messagesAfter plainDecoder plainEncoder thinkThenCall []).head? =
        some ⟨.assistant, content⟩) ∧
      .thinking "a" (some "s") ∈ content ∧ .toolUse "t" "run" (.object []) ∈ content := by
  have hsigned : "s" ≠ "" := by decide
  obtain ⟨content, hhead, hthinking, -, -, hcalls⟩ := messagesAfter_contains plainDecoder
    thinkThenCall_complete
    (forall_mem_cons.mpr ⟨hsigned, forall_mem_singleton.mpr trivial⟩) (by decide)
    (fun item hitem => absurd hitem not_mem_nil)
  exact ⟨content, hhead, hthinking "a" "s" mem_cons_self,
    hcalls "t" "run" (.object []) (mem_cons_of_mem _ mem_cons_self)⟩

/-- Two thinking blocks. -/
def thinkTwice : List StreamEvent :=
  [.messageStart "m" none, .contentBlockStart 0 .unknown, .contentBlockDelta 0 (.thinkingDelta "a"),
    .contentBlockDelta 0 (.signatureDelta "s"), .contentBlockStop 0,
    .contentBlockStart 1 .unknown, .contentBlockDelta 1 (.thinkingDelta "b"),
    .contentBlockDelta 1 (.signatureDelta "t"), .contentBlockStop 1,
    .messageDelta (some "end_turn") none, .messageStop]

def thinkTwice_complete : CompleteStream plainEncoder
    [.thinking "a" "s", .thinking "b" "t"] thinkTwice where
  id := "m"
  usage := none
  blockEvents := _
  deltas := [.messageDelta (some "end_turn") none]
  streamed := .cons (.thinking ["a"] ["s"]) (.cons (.thinking ["b"] ["t"]) (.nil 2))
  deltas_isMessageDelta := by simp [StreamEvent.isMessageDelta]
  events_eq := rfl

/-- Two thinking blocks come back as one: neither is in the request. -/
theorem twoThinkingBlocks_merged :
    Nonempty (CompleteStream plainEncoder [.thinking "a" "s", .thinking "b" "t"] thinkTwice) ∧
      messagesAfter plainDecoder plainEncoder thinkTwice [] =
        [⟨.assistant, [.thinking "ab" (some "st")]⟩] :=
  ⟨⟨thinkTwice_complete⟩, rfl⟩

end Anthropic

end CodexPlus
