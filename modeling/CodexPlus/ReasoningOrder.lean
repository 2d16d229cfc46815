/-
CodexPlus/ReasoningOrder.lean

When the decoders report reasoning done while a message is open.

The Chat decoder closes reasoning before the first answer output, so that
"Reasoning Done" comes before "Message Added".  Reasoning that arrives once the
message has been added is closed inside it.  The Anthropic decoder closes
everything at the stop of the message, reasoning first, so every message with
thinking and text has its reasoning done inside the message.

`processChatSse_outside_iff` and `processAnthropicSse_outside_iff` say exactly
which steps do it.
-/
import CodexPlus.AnthropicStream
import CodexPlus.ChatBrackets
import CodexPlus.Enclosure

namespace CodexPlus

open List

open Enclosure (Mark)

/-! ### The rule -/

/-- What an event is to the rule: messages are the brackets, and the end of a reasoning is to stay
outside of them. -/
def orderMark : Sent → Mark
  | .ok (.outputItemAdded (.message ..)) => .opens
  | .ok (.outputItemDone (.message ..)) => .closes
  | .ok (.outputItemDone (.reasoning ..)) => .guarded
  | _ => .other

/-- No reasoning is done inside an open message. -/
def ReasoningOutside (events : List Sent) : Prop := Enclosure.Outside (events.map orderMark)

/-- Watching the events from a state in which a message is open or not. -/
def watchSent (isOpen : Bool) (events : List Sent) : Option Bool :=
  Enclosure.run isOpen (events.map orderMark)

variable (isOpen : Bool)

theorem watchSent_append (events more : List Sent) :
    watchSent isOpen (events ++ more) = (watchSent isOpen events).bind (watchSent · more) := by
  rw [watchSent, map_append, Enclosure.run_append]
  rfl

theorem watchSent_cons (event : Sent) (events : List Sent) :
    watchSent isOpen (event :: events)
      = (Enclosure.watch isOpen (orderMark event)).bind (watchSent · events) := rfl

theorem watchSent_nil : watchSent isOpen [] = some isOpen := rfl

/-- The events are nothing to the rule. -/
def Quiet (events : List Sent) : Prop := ∀ event ∈ events, orderMark event = .other

@[simp]
theorem quiet_nil : Quiet [] := forall_mem_nil _

variable {events : List Sent}

@[simp]
theorem quiet_cons {event : Sent} :
    Quiet (event :: events) ↔ orderMark event = .other ∧ Quiet events := forall_mem_cons

@[simp]
theorem quiet_append {more : List Sent} :
    Quiet (events ++ more) ↔ Quiet events ∧ Quiet more := forall_mem_append

theorem watchSent_quiet {isOpen : Bool} (h : Quiet events) :
    watchSent isOpen events = some isOpen := by
  induction events with
  | nil => rfl
  | cons _ _ ih =>
    obtain ⟨hevent, hrest⟩ := quiet_cons.mp h
    rw [watchSent_cons, hevent]
    exact ih hrest

theorem watch_concat {isOpen : Bool} {last : Sent} (hlast : orderMark last = .other) :
    (watchSent isOpen (events ++ [last])).isSome ↔ (watchSent isOpen events).isSome := by
  rw [watchSent_append]
  rcases watchSent isOpen events with _ | stillOpen
  · rfl
  · rw [Option.bind_some, watchSent_quiet (by simpa using hlast)]

theorem reasoningOutside_iff (events : List Sent) :
    ReasoningOutside events ↔ (watchSent false events).isSome :=
  Enclosure.outside_iff _

/-! ### The Chat decoder -/

namespace ChatStream

variable (call : StartedToolCall)

/-- Events of tool calls are nothing to the rule. -/
theorem orderMark_item (arguments : String) :
    orderMark (.ok (.outputItemAdded (call.item arguments))) = .other ∧
      orderMark (.ok (.outputItemDone (call.item arguments))) = .other := by
  rw [StartedToolCall.item]
  split <;> exact ⟨rfl, rfl⟩

theorem quiet_emitNewArguments (index : ℕ) : Quiet (call.emitNewArguments index).2 := by
  rw [StartedToolCall.emitNewArguments]
  split <;> simp [orderMark]

variable (context : ChatContext)

theorem quiet_pushDelta (index : ℕ) (delta : ChatToolCallDelta)
    (call : ToolCallAccumulator) : Quiet (call.pushDelta context index delta).2 := by
  cases call with
  | pending call =>
    rw [ToolCallAccumulator.pushDelta]
    rcases hstart : (call.appendDeltaFields delta).start context index with _ | startedCall
    · exact quiet_nil
    · exact quiet_cons.mpr ⟨(orderMark_item startedCall "").1, quiet_emitNewArguments _ index⟩
  | started call => exact quiet_emitNewArguments (call.appendDeltaFields delta) index

theorem quiet_pushToolCalls (calls : Std.TreeMap ℕ ToolCallAccumulator)
    (deltas : List ChatToolCallDelta) : Quiet (pushToolCalls context calls deltas).2 := by
  induction deltas generalizing calls with
  | nil => exact quiet_nil
  | cons delta _ ih => exact quiet_append.mpr ⟨quiet_pushDelta context delta.index delta _, ih _⟩

theorem quiet_finishToolCalls (context : ChatContext) (calls : List (ℕ × ToolCallAccumulator)) :
    Quiet (ChatStreamState.finishToolCalls context calls).1 := by
  induction calls with
  | nil => exact quiet_nil
  | cons entry _ ih =>
    rcases entry with ⟨index, call | call⟩
    · exact quiet_nil
    · exact quiet_cons.mpr ⟨(orderMark_item call _).2, ih⟩

namespace ChatStreamState

/-- A message is open. -/
def speaking (s : ChatStreamState) : Bool := s.content.state = .streaming

/-- A reasoning is open. -/
def thinking (s : ChatStreamState) : Bool := s.reasoning.state = .streaming

variable {s : ChatStreamState}

theorem pushReasoning_order (s : ChatStreamState) (text : Option String) :
    (s.pushReasoning text).1.content = s.content ∧
      (s.pushReasoning text).1.thinking = (s.thinking || (nonEmpty text).isSome) ∧
      ∀ isOpen, watchSent isOpen (s.pushReasoning text).2 = some isOpen := by
  rcases htext : nonEmpty text with - | content
  · simp only [pushReasoning, htext]
    exact ⟨trivial, by simp, fun _ => rfl⟩
  simp only [pushReasoning, htext]
  refine ⟨trivial, ?_, fun isOpen => watchSent_quiet ?_⟩
  · show decide (StreamItemState.streaming = .streaming) = (s.thinking || true)
    simp
  · rw [TextAccumulator.push]
    split
    · exact quiet_cons.mpr ⟨rfl, quiet_nil⟩
    · exact quiet_cons.mpr ⟨rfl, quiet_cons.mpr ⟨rfl, quiet_nil⟩⟩

theorem endReasoning_order (s : ChatStreamState) :
    s.endReasoning.1.content = s.content ∧ s.endReasoning.1.thinking = false ∧
      ∀ isOpen, watchSent isOpen s.endReasoning.2
        = if s.thinking && isOpen then none else some isOpen := by
  unfold endReasoning finishReasoning
  by_cases hstate : s.reasoning.state = .streaming
  · simp only [hstate, ne_eq, not_true_eq_false, if_false]
    refine ⟨trivial, rfl, fun isOpen => ?_⟩
    rw [show s.thinking = true from decide_eq_true hstate]
    cases isOpen <;> rfl
  · simp only [hstate, ne_eq, not_false_eq_true, if_true]
    have hthinking : s.thinking = false := decide_eq_false hstate
    refine ⟨trivial, hthinking, fun isOpen => ?_⟩
    rw [hthinking]
    rfl

theorem pushContent_order (s : ChatStreamState) (text : Option String) :
    (s.pushContent text).1.reasoning = s.reasoning ∧
      (s.pushContent text).1.speaking = (s.speaking || (nonEmpty text).isSome) ∧
      watchSent s.speaking (s.pushContent text).2
        = some (s.speaking || (nonEmpty text).isSome) := by
  rcases htext : nonEmpty text with - | content
  · simp only [pushContent, htext]
    exact ⟨trivial, by simp, by simp [watchSent_nil]⟩
  simp only [pushContent, htext]
  refine ⟨trivial, ?_, ?_⟩
  · show decide (StreamItemState.streaming = .streaming) = (s.speaking || true)
    simp
  · rw [TextAccumulator.push]
    by_cases hstate : s.content.state = .streaming
    · rw [if_pos hstate, show s.speaking = true from decide_eq_true hstate]
      rfl
    · rw [if_neg hstate, show s.speaking = false from decide_eq_false hstate]
      rfl

theorem endContent_order (hcontent : s.content.Settled) :
    s.endContent.1.content.Settled ∧ s.endContent.1.reasoning = s.reasoning ∧
      s.endContent.1.speaking = false ∧ watchSent s.speaking s.endContent.2 = some false := by
  unfold endContent finishContent
  by_cases htext : s.content.text = ""
  · have hspeaking : s.speaking = false := by
      rw [speaking, hcontent.mpr htext]
      rfl
    simp only [htext, if_true]
    exact ⟨hcontent, trivial, hspeaking, by rw [hspeaking]; rfl⟩
  · simp only [htext, if_false]
    exact ⟨TextAccumulator.empty_settled, trivial, rfl, rfl⟩

/-- The reasoning that is open behind what a delta adds to it. -/
def late (s : ChatStreamState) (delta : ChatDelta) : Bool :=
  s.thinking || (nonEmpty delta.reasoningContent).isSome

theorem think_order (s : ChatStreamState) (delta : ChatDelta) :
    (s.think delta).1.content = s.content ∧
      (s.think delta).1.thinking = (s.late delta && !delta.hasAnswerOutput) ∧
      ∀ isOpen, watchSent isOpen (s.think delta).2
        = if s.late delta && delta.hasAnswerOutput && isOpen then none else some isOpen := by
  obtain ⟨hcontent, hthinking, hwatch⟩ := s.pushReasoning_order delta.reasoningContent
  unfold think
  simp only
  split
  · next hanswer =>
    obtain ⟨hcontent', hthinking', hwatch'⟩ :=
      (s.pushReasoning delta.reasoningContent).1.endReasoning_order
    refine ⟨hcontent'.trans hcontent, by rw [hthinking', hanswer]; simp, fun isOpen => ?_⟩
    rw [watchSent_append, hwatch, Option.bind_some, hwatch', hthinking, hanswer, Bool.and_true]
    rfl
  · next hanswer =>
    have hanswer' : delta.hasAnswerOutput = false := by simpa using hanswer
    refine ⟨hcontent, by rw [hthinking, hanswer']; simp [late], fun isOpen => ?_⟩
    rw [append_nil, hwatch, hanswer']
    simp

theorem speaking_congr {t : ChatStreamState} (h : t.content = s.content) :
    t.speaking = s.speaking := by
  rw [speaking, h]
  rfl

theorem thinking_congr {t : ChatStreamState} (h : t.reasoning = s.reasoning) :
    t.thinking = s.thinking := by
  rw [thinking, h]
  rfl

theorem pushContent_settled (h : s.content.Settled) (text : Option String) :
    (s.pushContent text).1.content.Settled := by
  rcases htext : nonEmpty text with - | content
  · simp only [pushContent, htext]
    exact h
  · simp only [pushContent, htext]
    exact s.content.push_settled message (nonEmpty_eq_some.mp htext).2

variable (context : ChatContext) (h : s.content.Settled)
include h

/-- **One delta** reports reasoning done inside the message if it closes what is open there. -/
theorem applyDelta_order (delta : ChatDelta) :
    (s.applyDelta context delta).1.content.Settled ∧
      (s.applyDelta context delta).1.speaking
        = (s.speaking || (nonEmpty delta.content).isSome) ∧
      (s.applyDelta context delta).1.thinking = (s.late delta && !delta.hasAnswerOutput) ∧
      watchSent s.speaking (s.applyDelta context delta).2
        = if s.late delta && delta.hasAnswerOutput && s.speaking then none
          else some (s.applyDelta context delta).1.speaking := by
  obtain ⟨hcontent, hthinking, hwatch⟩ := s.think_order delta
  obtain ⟨hreasoning, hspeaking, hsaid⟩ := (s.think delta).1.pushContent_order delta.content
  rw [speaking_congr hcontent] at hspeaking hsaid
  rw [applyDelta_eq]
  refine ⟨pushContent_settled (by rw [hcontent]; exact h) delta.content, hspeaking,
    (thinking_congr hreasoning).trans hthinking, ?_⟩
  show watchSent s.speaking ((s.think delta).2 ++ _ ++ _) = if _ then none else some
    ((s.think delta).1.pushContent delta.content).1.speaking
  rw [watchSent_append, watchSent_append, hwatch, hspeaking]
  split
  · rfl
  · rw [Option.bind_some, hsaid, Option.bind_some]
    exact watchSent_quiet (quiet_pushToolCalls context _ _)

/-- Closing the items. -/
theorem finishItems_order (finishReason : String) :
    (s.finishItems context finishReason).1.content.Settled ∧
      (s.finishItems context finishReason).1.speaking = false ∧
      watchSent s.speaking (s.finishItems context finishReason).2.1
        = if s.thinking && s.speaking then none else some false := by
  obtain ⟨hcontent, -, hwatch⟩ := s.endReasoning_order
  have hsettled : s.endReasoning.1.content.Settled := by
    exact h
  obtain ⟨hclosed, -, hspeaking, hsaid⟩ := endContent_order hsettled
  have htexts : watchSent s.speaking (s.endReasoning.2 ++ s.endReasoning.1.endContent.2)
      = if s.thinking && s.speaking then none else some false := by
    rw [watchSent_append, hwatch]
    split
    · rfl
    · exact hsaid
  rw [finishItems]
  dsimp only
  split
  · refine ⟨hclosed, hspeaking, ?_⟩
    rw [watchSent_append, htexts]
    split
    · rfl
    · exact watchSent_quiet (quiet_finishToolCalls context _)
  · exact ⟨hclosed, hspeaking, htexts⟩

end ChatStreamState

/-- The finish reasons that close the items. -/
def ChatChoice.closes (choice : ChatChoice) : Bool :=
  choice.finishReason = some "stop" ∨ choice.finishReason = some "tool_calls"

namespace ChatStreamState

variable {s : ChatStreamState}

/-- A choice that closes reasoning while the message is open: the reasoning came, at the latest with
this choice, after the message was added, and the choice has an answer output or ends the items. -/
def Interrupts (s : ChatStreamState) (choice : ChatChoice) : Prop :=
  s.speaking = true ∧ s.late choice.delta = true ∧
    (choice.delta.hasAnswerOutput = true ∨ choice.closes = true)

instance (s : ChatStreamState) (choice : ChatChoice) : Decidable (s.Interrupts choice) :=
  inferInstanceAs (Decidable (_ ∧ _))

theorem nonEmpty_content_of_not_answer {delta : ChatDelta} (h : delta.hasAnswerOutput = false) :
    (nonEmpty delta.content).isSome = false := by
  rw [ChatDelta.hasAnswerOutput, Bool.or_eq_false_iff] at h
  exact h.1

variable (context : ChatContext)

/-- A choice that does not end the items. -/
theorem watch_open_choice (h : s.content.Settled) {choice : ChatChoice}
    (hcloses : choice.closes = false) :
    watchSent s.speaking (s.applyDelta context choice.delta).2
      = if s.Interrupts choice then none
        else some (s.applyDelta context choice.delta).1.speaking := by
  obtain ⟨-, -, -, hwatch⟩ := applyDelta_order context h choice.delta
  rw [hwatch]
  refine if_congr ?_ rfl rfl
  simp only [Interrupts, hcloses, Bool.and_eq_true]
  tauto

/-- **One choice.** -/
theorem applyChoice_order (h : s.content.Settled) (choice : ChatChoice) :
    (s.applyChoice context choice).1.content.Settled ∧
      watchSent s.speaking (s.applyChoice context choice).2.1
        = if s.Interrupts choice then none
          else some (s.applyChoice context choice).1.speaking := by
  obtain ⟨hsettled, hspeaking, hthinking, hwatch⟩ := applyDelta_order context h choice.delta
  rw [applyChoice]
  rcases hreason : choice.finishReason with _ | finishReason
  · exact ⟨hsettled, watch_open_choice context h (by simp [ChatChoice.closes, hreason])⟩
  dsimp only
  split
  · next hend =>
    have hcloses : choice.closes = true := by
      rw [ChatChoice.closes, hreason]
      simpa using hend
    have hsettled' : { (s.applyDelta context choice.delta).1 with finished := true }.content.Settled :=
      hsettled
    obtain ⟨hclosed, hsilent, hclosing⟩ := finishItems_order context hsettled' finishReason
    refine ⟨hclosed, ?_⟩
    rw [watchSent_append, hwatch, hsilent]
    have hspeaking' : { (s.applyDelta context choice.delta).1 with finished := true }.speaking
        = (s.speaking || (nonEmpty choice.delta.content).isSome) := hspeaking
    have hthinking' : { (s.applyDelta context choice.delta).1 with finished := true }.thinking
        = (s.late choice.delta && !choice.delta.hasAnswerOutput) := hthinking
    rw [hspeaking', hthinking'] at hclosing
    rw [hspeaking]
    -- with an answer output the reasoning is closed by the delta, without one by the end
    rcases hanswer : choice.delta.hasAnswerOutput with _ | _
    · rw [nonEmpty_content_of_not_answer hanswer, Bool.or_false] at hclosing ⊢
      rw [if_neg (by simp), Option.bind_some, hclosing]
      simp only [Interrupts, hcloses, hanswer, Bool.and_eq_true]
      simp [and_comm]
    · rw [hanswer] at hclosing
      rw [Bool.and_true]
      by_cases hlate : (s.late choice.delta && s.speaking) = true
      · rw [if_pos hlate, if_pos]
        · rfl
        · simp only [Bool.and_eq_true] at hlate
          exact ⟨hlate.2, hlate.1, .inl hanswer⟩
      · rw [if_neg hlate, if_neg, Option.bind_some, hclosing]
        · simp
        · rintro ⟨hopen, hopen', -⟩
          exact hlate (by simp [hopen, hopen'])
  · next hend =>
    have hcloses : choice.closes = false := by
      rw [ChatChoice.closes, hreason]
      simpa using hend
    have hopen := watch_open_choice context h hcloses
    split <;> exact ⟨hsettled, hopen⟩

/-- No choice that is applied interrupts the message. -/
def OrderedChoices (context : ChatContext) (s : ChatStreamState) : List ChatChoice → Prop
  | [] => True
  | choice :: choices => ¬ s.Interrupts choice ∧
      match s.applyChoice context choice with
      | (s, _, .ok _) => OrderedChoices context s choices
      | (_, _, .error _) => True

theorem applyChoices_order (h : s.content.Settled) (completed : Bool) (choices : List ChatChoice) :
    (s.applyChoices context completed choices).1.content.Settled ∧
      (OrderedChoices context s choices →
        watchSent s.speaking (s.applyChoices context completed choices).2.1
          = some (s.applyChoices context completed choices).1.speaking) ∧
      (¬ OrderedChoices context s choices →
        watchSent s.speaking (s.applyChoices context completed choices).2.1 = none) := by
  induction choices generalizing s completed with
  | nil => exact ⟨h, fun _ => rfl, fun hnot => absurd trivial hnot⟩
  | cons choice _ ih =>
    obtain ⟨hsettled, hwatch⟩ := applyChoice_order context h choice
    rw [applyChoices, OrderedChoices]
    rcases happly : s.applyChoice context choice with ⟨s₁, events, error | last⟩ <;>
      rw [happly] at hsettled hwatch <;> dsimp only at hsettled hwatch ⊢
    · refine ⟨hsettled, fun hordered => ?_, fun hnot => ?_⟩
      · rw [hwatch, if_neg hordered.1]
      · rw [hwatch, if_pos (by simpa using hnot)]
    obtain ⟨hsettled', hok, hbad⟩ := ih hsettled (last.getD completed)
    refine ⟨hsettled', ?_, ?_⟩
    · rintro ⟨hchoice, hrest⟩
      rw [watchSent_append, hwatch, if_neg hchoice]
      exact hok hrest
    · intro hnot
      rw [watchSent_append, hwatch]
      by_cases hchoice : s.Interrupts choice
      · rw [if_pos hchoice]
        rfl
      · rw [if_neg hchoice]
        exact hbad fun hrest => hnot ⟨hchoice, hrest⟩

theorem applyChunk_order (h : s.content.Settled) (chunk : ChatChunk) :
    (s.applyChunk context chunk).1.content.Settled ∧
      (OrderedChoices context (s.receive chunk) chunk.choices →
        watchSent s.speaking (s.applyChunk context chunk).2.1
          = some (s.applyChunk context chunk).1.speaking) ∧
      (¬ OrderedChoices context (s.receive chunk) chunk.choices →
        watchSent s.speaking (s.applyChunk context chunk).2.1 = none) :=
  applyChoices_order context (s := s.receive chunk) h false chunk.choices

/-- Ending with `[DONE]` closes what no finish reason has closed. -/
def InterruptsAtDone (s : ChatStreamState) : Prop :=
  s.finished = false ∧ s.speaking = true ∧ s.thinking = true

instance (s : ChatStreamState) : Decidable s.InterruptsAtDone := inferInstanceAs (Decidable (_ ∧ _))

theorem finishFromDone_order (h : s.content.Settled) :
    (watchSent s.speaking (s.finishFromDone context).2.1).isSome ↔
      ¬ s.InterruptsAtDone := by
  rw [finishFromDone, InterruptsAtDone]
  split
  · next hfinished => simp [watchSent_nil, hfinished]
  · next hfinished =>
    have hsettled : { s with finished := true }.content.Settled := h
    obtain ⟨-, -, hwatch⟩ := finishItems_order context hsettled
      (if s.toolCalls.isEmpty then "stop" else "tool_calls")
    have hwatch' : watchSent s.speaking ({ s with finished := true }.finishItems context
          (if s.toolCalls.isEmpty then "stop" else "tool_calls")).2.1
        = if s.thinking && s.speaking then none else some false := hwatch
    rw [hwatch']
    by_cases hboth : (s.thinking && s.speaking) = true
    · rw [if_pos hboth]
      simp only [Bool.and_eq_true] at hboth
      simp [hboth.1, hboth.2, hfinished]
    · rw [if_neg hboth]
      simp only [Bool.and_eq_true, not_and] at hboth
      simp only [Option.isSome_some, true_iff]
      rintro ⟨-, hspeaking, hthinking⟩
      exact hboth hthinking hspeaking

/-- No step of the run reports reasoning done while a message is open. -/
def OrderedRun (context : ChatContext) (s : ChatStreamState) : List SseEvent → Prop
  | .chunk chunk :: inputs => OrderedChoices context (s.receive chunk) chunk.choices ∧
      match s.applyChunk context chunk with
      | (s, _, .ok false) => OrderedRun context s inputs
      | _ => True
  | .unparsed :: inputs => OrderedRun context s inputs
  | .done :: _ => ¬ s.InterruptsAtDone
  | [] | .error _ :: _ | .transportError _ :: _ | .idleTimeout :: _ => True

/-- The events of a chunk and what comes behind them. -/
theorem watch_chunk (h : s.content.Settled) {chunk : ChatChunk}
    {next : ChatStreamState} {more : List Sent} {result : Except ApiError Bool}
    (happly : s.applyChunk context chunk = (next, events, result)) {P : Prop}
    (hmore : (watchSent next.speaking more).isSome ↔ P) :
    (watchSent s.speaking (events ++ more)).isSome ↔
      OrderedChoices context (s.receive chunk) chunk.choices ∧ P := by
  obtain ⟨-, hok, hbad⟩ := applyChunk_order context h chunk
  rw [happly] at hok hbad
  rw [watchSent_append]
  by_cases hchoices : OrderedChoices context (s.receive chunk) chunk.choices
  · rw [hok hchoices, Option.bind_some, hmore]
    exact (and_iff_right hchoices).symm
  · rw [hbad hchoices]
    exact iff_of_false (by simp) fun hall => hchoices hall.1

/-- **The run of the Chat decoder**, by induction on the inputs. -/
theorem process_order (h : s.content.Settled) (inputs : List SseEvent) :
    (watchSent s.speaking (process context s inputs)).isSome ↔
      OrderedRun context s inputs := by
  induction inputs generalizing s with
  | nil =>
    rw [process, OrderedRun]
    split <;> exact iff_of_true rfl trivial
  | cons input _ ih =>
    cases input with
    | transportError | idleTimeout | error => exact iff_of_true rfl trivial
    | unparsed => exact ih h
    | done =>
      rw [OrderedRun, ← finishFromDone_order context h, process]
      rcases s.finishFromDone context with ⟨s₁, events, error | -⟩ <;> exact watch_concat rfl
    | chunk chunk =>
      obtain ⟨hsettled, -⟩ := applyChunk_order context h chunk
      rw [process, OrderedRun]
      rcases happly : s.applyChunk context chunk with ⟨next, events, error | completed⟩ <;>
        rw [happly] at hsettled
      · exact watch_chunk context h happly (iff_of_true rfl trivial)
      · cases completed with
        | true => exact watch_chunk context h happly (iff_of_true rfl trivial)
        | false => exact watch_chunk context h happly (ih hsettled)

end ChatStreamState

theorem processChatSse_outside_iff (inputs : List SseEvent) :
    ReasoningOutside (processChatSse context inputs) ↔
      ChatStreamState.OrderedRun context .start inputs := by
  have hsettled : ChatStreamState.start.content.Settled := TextAccumulator.empty_settled
  rw [reasoningOutside_iff, ← ChatStreamState.process_order context hsettled]
  rfl

end ChatStream

/-! ### The Anthropic decoder -/

namespace Anthropic

namespace AnthropicStreamState

variable (s : AnthropicStreamState)

theorem startReasoning_order :
    s.startReasoning.1.contentStarted = s.contentStarted ∧ Quiet s.startReasoning.2 := by
  rw [startReasoning]
  split <;> simp [orderMark]

theorem quiet_startToolCall (call : ToolCallState) : Quiet (startToolCall call).2 := by
  rw [startToolCall]
  split <;> simp [orderMark]

theorem quiet_emitToolDelta (index : ℕ) (call : ToolCallState) :
    Quiet (emitToolDelta index call).2 := by
  rw [emitToolDelta]
  split <;> simp [orderMark]

theorem emitTextDelta_order (text : String) :
    watchSent s.contentStarted (s.emitTextDelta text).2
      = some (s.emitTextDelta text).1.contentStarted := by
  rw [emitTextDelta]
  rcases s.contentStarted with _ | _ <;> rfl

theorem applyContentBlockStart_order (context : DecoderContext) (s : AnthropicStreamState)
    (index : ℕ) (block : ContentBlockStart) :
    watchSent s.contentStarted (s.applyContentBlockStart context index block).2
      = some (s.applyContentBlockStart context index block).1.contentStarted := by
  cases block with
  | text text =>
    rcases text with _ | text
    · rfl
    · rw [applyContentBlockStart]
      split
      · rfl
      · exact s.emitTextDelta_order text
  | toolUse =>
    exact watchSent_quiet (quiet_startToolCall _)
  | redactedThinking =>
    rw [applyContentBlockStart, emitRedactedReasoning]
    split
    · rfl
    · obtain ⟨hstarted, hmarks⟩ := s.startReasoning_order
      rw [hstarted, watchSent_quiet hmarks]
  | unknown => rfl

theorem applyContentBlockDelta_order (index : ℕ) (delta : ContentBlockDelta) :
    watchSent s.contentStarted (s.applyContentBlockDelta index delta).2
      = some (s.applyContentBlockDelta index delta).1.contentStarted := by
  obtain ⟨hstarted, hmarks⟩ := s.startReasoning_order
  cases delta with
  | textDelta text =>
    rw [applyContentBlockDelta]
    split
    · rfl
    · exact s.emitTextDelta_order text
  | inputJsonDelta =>
    rw [applyContentBlockDelta]
    split
    · rfl
    · exact watchSent_quiet
        (quiet_append.mpr ⟨quiet_startToolCall _, quiet_emitToolDelta index _⟩)
  | thinkingDelta =>
    rw [applyContentBlockDelta]
    split
    · rfl
    · show watchSent s.contentStarted (s.startReasoning.2 ++ _) = some s.startReasoning.1.contentStarted
      rw [hstarted, watchSent_append, watchSent_quiet hmarks]
      rfl
  | signatureDelta =>
    show watchSent s.contentStarted s.startReasoning.2 = some s.startReasoning.1.contentStarted
    rw [hstarted, watchSent_quiet hmarks]
  | unknown => rfl

theorem quiet_finishToolCalls (calls : List (ℕ × ToolCallState)) :
    Quiet (finishToolCalls calls).1 := by
  induction calls with
  | nil => exact quiet_nil
  | cons entry _ ih =>
    rcases entry with ⟨index, call⟩
    rw [finishToolCalls]
    rcases call.name with _ | name
    · exact quiet_nil
    · exact quiet_cons.mpr ⟨rfl, ih⟩

/-- The stop of a message with both thinking and text. -/
def InterruptsAtStop (s : AnthropicStreamState) : Prop :=
  s.reasoningStarted = true ∧ s.contentStarted = true

instance (s : AnthropicStreamState) : Decidable s.InterruptsAtStop :=
  inferInstanceAs (Decidable (_ ∧ _))

theorem finishItems_order :
    (watchSent s.contentStarted s.finishItems.2.1).isSome ↔ ¬ s.InterruptsAtStop := by
  have hitem : orderMark (.ok (.outputItemDone s.reasoningItem)) = .guarded := by
    rw [reasoningItem]
    split <;> rfl
  have hrest : ∀ isOpen, (watchSent isOpen ((if s.content = "" then []
      else [.ok (.outputItemDone (.message none "assistant" [.outputText s.content]))]) ++
        (finishToolCalls s.toolCalls.toList).1)).isSome = true := by
    intro isOpen
    rw [watchSent_append]
    split
    · rw [watchSent_nil, Option.bind_some, watchSent_quiet (quiet_finishToolCalls _)]
      rfl
    · show (watchSent false _).isSome = true
      rw [watchSent_quiet (quiet_finishToolCalls _)]
      rfl
  show (watchSent s.contentStarted ((if s.reasoningStarted then
    [.ok (.outputItemDone s.reasoningItem)] else []) ++ _ ++ _)).isSome = true ↔ _
  rw [append_assoc, InterruptsAtStop]
  rcases hreasoning : s.reasoningStarted with _ | _
  · rw [if_neg (by simp), nil_append]
    exact iff_of_true (hrest _) (by simp)
  · rw [if_pos rfl, singleton_append, watchSent_cons, hitem]
    rcases hcontent : s.contentStarted with _ | _
    · exact iff_of_true (hrest false) (by simp)
    · exact iff_of_false (by simp [Enclosure.watch]) (by simp)

end AnthropicStreamState

/-- No message stops with both thinking and text in it. -/
def OrderedRun (context : DecoderContext) (s : AnthropicStreamState) : List SseEvent → Prop
  | .event event :: inputs => (event = .messageStop → ¬ s.InterruptsAtStop) ∧
      match s.applyEvent context event with
      | (s, _, .ok false) => OrderedRun context s inputs
      | _ => True
  | .unparsed :: inputs => OrderedRun context s inputs
  | [] | .transportError _ :: _ | .idleTimeout :: _ => True

namespace AnthropicStreamState

variable {s : AnthropicStreamState}

theorem applyUsage_contentStarted (s : AnthropicStreamState) (usage : Option AnthropicUsage) :
    ((usage.map s.applyUsage).getD s).contentStarted = s.contentStarted := by
  rcases usage with _ | usage <;> rfl

variable (context : DecoderContext)

/-- An event other than the stop says nothing of the end of a reasoning. -/
theorem applyEvent_order (s : AnthropicStreamState) {event : StreamEvent}
    (h : event ≠ .messageStop) :
    watchSent s.contentStarted (s.applyEvent context event).2.1
      = some (s.applyEvent context event).1.contentStarted := by
  cases event with
  | messageStart id usage =>
    show some s.contentStarted = some ((usage.map _).getD { s with responseId := some id }).contentStarted
    rw [applyUsage_contentStarted]
  | contentBlockStart index block => exact applyContentBlockStart_order context s index block
  | contentBlockDelta index delta => exact applyContentBlockDelta_order s index delta
  | contentBlockStop | ping | error => rfl
  | messageDelta _ usage =>
    show some s.contentStarted = some ((usage.map s.applyUsage).getD s).contentStarted
    rw [applyUsage_contentStarted]
  | messageStop => exact absurd rfl h

/-- The stop ends the run, whether the calls can be closed or not. -/
theorem applyEvent_messageStop (s : AnthropicStreamState) :
    ((watchSent s.contentStarted (s.applyEvent context .messageStop).2.1).isSome ↔
        (watchSent s.contentStarted s.finishItems.2.1).isSome) ∧
      (s.applyEvent context .messageStop).2.2 ≠ .ok false := by
  rw [applyEvent]
  rcases s.finishItems with ⟨s₁, events, error | -⟩ <;> dsimp only
  · exact ⟨.rfl, by simp⟩
  · exact ⟨watch_concat rfl, by simp⟩

/-- **The run of the Anthropic decoder**, by induction on the inputs. -/
theorem process_order (s : AnthropicStreamState) (inputs : List SseEvent) :
    (watchSent s.contentStarted (process context s inputs)).isSome ↔
      OrderedRun context s inputs := by
  induction inputs generalizing s with
  | nil => exact iff_of_true rfl trivial
  | cons input _ ih =>
    cases input with
    | transportError | idleTimeout => exact iff_of_true rfl trivial
    | unparsed => exact ih s
    | event event =>
      rw [process, OrderedRun]
      by_cases hstop : event = .messageStop
      · subst hstop
        obtain ⟨hwatch, hends⟩ := s.applyEvent_messageStop context
        rw [← s.finishItems_order, ← hwatch]
        rcases happly : s.applyEvent context .messageStop with ⟨s₁, events, error | completed⟩ <;>
          rw [happly] at hends <;> dsimp only
        · exact (watch_concat rfl).trans (by simp)
        · cases completed with
          | true => simp
          | false => exact absurd rfl hends
      · have hwatch := s.applyEvent_order context hstop
        rcases happly : s.applyEvent context event with ⟨s₁, events, error | completed⟩ <;>
          rw [happly] at hwatch
        · rw [watchSent_append, hwatch]
          exact iff_of_true rfl ⟨fun h => absurd h hstop, trivial⟩
        · cases completed with
          | true =>
            rw [hwatch]
            exact iff_of_true rfl ⟨fun h => absurd h hstop, trivial⟩
          | false =>
            rw [watchSent_append, hwatch, Option.bind_some, ih]
            exact ⟨fun h => ⟨fun heq => absurd heq hstop, h⟩, fun h => h.2⟩

end AnthropicStreamState

theorem processAnthropicSse_outside_iff (context : DecoderContext) (inputs : List SseEvent) :
    ReasoningOutside (processAnthropicSse context inputs) ↔ OrderedRun context .start inputs := by
  rw [reasoningOutside_iff, ← AnthropicStreamState.process_order context]
  rfl

end Anthropic

/-! ### Both decoders -/

/-- **Reasoning is done outside of messages exactly in the ordered runs.**  Of the Chat decoder these
are the runs in which nothing closes reasoning that came after its message was added; of the
Anthropic decoder those in which no message stops with both thinking and text. -/
theorem reasoning_done_outside_iff (chat : ChatStream.ChatContext)
    (chunks : List ChatStream.SseEvent) (anthropic : Anthropic.DecoderContext)
    (events : List Anthropic.SseEvent) :
    (ReasoningOutside (ChatStream.processChatSse chat chunks) ↔
        ChatStream.ChatStreamState.OrderedRun chat .start chunks) ∧
      (ReasoningOutside (Anthropic.processAnthropicSse anthropic events) ↔
        Anthropic.OrderedRun anthropic .start events) :=
  ⟨ChatStream.processChatSse_outside_iff chat chunks,
    Anthropic.processAnthropicSse_outside_iff anthropic events⟩

section Example

/-- Thinking, then text. -/
def thoughtThenText : List Anthropic.SseEvent :=
  [.event (.contentBlockDelta 0 (.thinkingDelta "why")),
    .event (.contentBlockDelta 1 (.textDelta "so")), .event .messageStop]

/-- Text, then reasoning, then the finish reason. -/
def textThenThought : List ChatStream.SseEvent :=
  [.chunk ⟨none, [⟨⟨some "so", none, none⟩, none⟩], none⟩,
    .chunk ⟨none, [⟨⟨none, some "why", none⟩, none⟩], none⟩,
    .chunk ⟨none, [⟨⟨none, none, none⟩, some "stop"⟩], none⟩]

/-- Both decoders report reasoning done inside a message. -/
theorem thought_done_inside :
    ¬ ReasoningOutside (Anthropic.processAnthropicSse ⟨.empty, fun _ => ""⟩ thoughtThenText) ∧
      ¬ ReasoningOutside (ChatStream.processChatSse ⟨fun _ => none, id⟩ textThenThought) := by
  constructor
  all_goals
    rw [reasoningOutside_iff]
    decide

end Example

end CodexPlus
