/-
CodexPlus/ProviderSwitch.lean

From a Chat provider to Anthropic: which of the histories the Chat projection
accepts the Anthropic one accepts too, with the same tool ids in the same order.

Three things go wrong in the others:

* the Anthropic converter drops local-shell and tool-search calls, and of the
  former it still sends the outputs;
* an id may be used again in a Chat request once it is answered, but not in an
  Anthropic one;
* reasoning, or an item without a form on the wire, that stands among the
  outputs of a group of calls cuts the user message that must answer them all.

`Phase` follows a history through its groups of calls, without looking at ids;
the encoder is followed along the checker of grouped calls that the Chat
projection runs (`Follows`).
-/
import CodexPlus.AnthropicValidate
import CodexPlus.ChatConserve
import CodexPlus.Normalize

namespace CodexPlus

open List

namespace ProviderSwitch

open CallGroups Chat Anthropic

/-! ### The tool ids of a request -/

inductive ToolRef where
  | use (id : String)
  | result (id : String)
  deriving DecidableEq, Repr

def messageRefs : ChatMessage → List ToolRef
  | .assistant _ _ calls => calls.map fun call => .use call.id
  | .tool toolCallId _ => [.result toolCallId]
  | _ => []

def chatRefs (messages : List ChatMessage) : List ToolRef := messages.flatMap messageRefs

def blockRef : ContentBlock → Option ToolRef
  | .toolUse id _ _ => some (.use id)
  | .toolResult toolUseId _ _ => some (.result toolUseId)
  | _ => none

def anthropicRefs (messages : List AnthropicMessage) : List ToolRef :=
  messages.flatMap fun message => message.content.filterMap blockRef

/-! ### The condition -/

/-- Items with a tool id that the Anthropic converter leaves out. -/
def isUncovered : ResponseItem → Bool
  | .localShellCall _ callId _ => callId.isSome
  | .toolSearchCall _ callId _ _ => callId.isSome
  | .toolSearchOutput _ callId _ execution _ _ => callId.isSome && execution = "client"
  | _ => false

/-- Where a history stands in a group of calls. -/
inductive Phase where
  | free
  /-- So many calls have come. -/
  | calling (calls : ℕ)
  /-- An item without a form on the wire has ended the collection, and no output has come yet. -/
  | sealed (calls : ℕ)
  /-- So many outputs are still to come. -/
  | answering (outputs : ℕ)
  deriving DecidableEq, Repr

/-- The reasoning becomes a block of its own. -/
def isLoud : ResponseItem → Bool
  | .reasoning _ content encryptedContent =>
    reasoningContentToText content ≠ "" || encryptedContent.isSome
  | _ => false

def Phase.answer (outputs : ℕ) : Phase := if outputs ≤ 1 then .free else .answering (outputs - 1)

/-- One item; `none` if it stands in the way of outputs that are still to come. -/
def Phase.step (phase : Phase) (item : ResponseItem) : Option Phase :=
  match wireToken item with
  | .call _ =>
    match phase with
    | .calling calls => some (.calling (calls + 1))
    | _ => some (.calling 1)
  | .output _ =>
    match phase with
    | .free => some .free
    | .calling outputs | .sealed outputs | .answering outputs => some (answer outputs)
  | .cut =>
    match phase with
    | .calling calls => some (.sealed calls)
    | .answering _ => none
    | phase => some phase
  | .reasoning =>
    match phase with
    | .sealed calls => if isLoud item then none else some (.sealed calls)
    | .answering _ => none
    | phase => some phase
  | .assistant | .other => some phase

/-- The outputs of every group of calls come without a break. -/
def Unbroken (items : List ResponseItem) : Prop := (items.foldlM Phase.step .free).isSome = true

instance (items : List ResponseItem) : Decidable (Unbroken items) :=
  inferInstanceAs (Decidable (_ = _))

def callIds (items : List ResponseItem) : List String :=
  items.filterMap fun item => (wireToken item).callId

/-- Nothing is left out, no call id is used twice, and the outputs of a group come together. -/
structure Switchable (items : List ResponseItem) : Prop where
  covered : ∀ item ∈ items, isUncovered item = false
  distinct : (callIds items).Nodup
  unbroken : Unbroken items

/-! ### The ids, item by item -/

def chatRef (item : ResponseItem) : Option ToolRef :=
  match wireToken item with
  | .call id => some (.use id)
  | .output id => some (.result id)
  | _ => none

def anthropicRef : ResponseItem → Option ToolRef
  | .functionCall _ _ _ _ callId => some (.use callId)
  | .customToolCall _ callId _ _ _ => some (.use callId)
  | .functionCallOutput _ callId _ _ _ _ => callId.map .result
  | .customToolCallOutput _ callId _ _ _ => some (.result callId)
  | _ => none

theorem anthropicRef_eq (item : ResponseItem) :
    anthropicRef item = if isUncovered item then none else chatRef item := by
  cases item with
  | message _ role =>
    by_cases hrole : role = "assistant" <;>
      simp [anthropicRef, isUncovered, chatRef, wireToken, hrole]
  | functionCallOutput _ o | localShellCall _ o | toolSearchCall _ o | contextCompaction _ o =>
    rcases o with _ | callId <;> rfl
  | toolSearchOutput _ callId _ execution =>
    rcases callId with _ | callId
    · rfl
    · by_cases hclient : execution = "client" <;>
        simp [anthropicRef, isUncovered, chatRef, wireToken, hclient]
  | _ => rfl

variable {item : ResponseItem}

theorem chatRef_of_uncovered (h : isUncovered item) : (chatRef item).isSome := by
  cases item with
  | localShellCall _ callId | toolSearchCall _ callId =>
    rcases callId with _ | callId
    · cases h
    · rfl
  | toolSearchOutput _ callId _ execution =>
    rcases callId with _ | callId
    · cases h
    · have hclient : execution = "client" := by simpa [isUncovered] using h
      simp [chatRef, wireToken, hclient]
  | _ => cases h

variable (items : List ResponseItem)

/-- Both projections send the same ids exactly when nothing is left out. -/
theorem filterMap_ref_eq_iff :
    items.filterMap anthropicRef = items.filterMap chatRef ↔
      ∀ item ∈ items, isUncovered item = false := by
  have hle : ∀ items : List ResponseItem,
      (items.filterMap anthropicRef).length ≤ (items.filterMap chatRef).length := by
    intro items
    induction items with
    | nil => exact le_rfl
    | cons item _ ih =>
      rw [filterMap_cons, filterMap_cons, anthropicRef_eq]
      rcases chatRef item with _ | ref <;> split_ifs
      · exact ih
      · exact ih
      · exact ih.trans (Nat.le_succ _)
      · exact Nat.succ_le_succ ih
  induction items with
  | nil => simp
  | cons item items ih =>
    rw [forall_mem_cons, filterMap_cons, filterMap_cons, anthropicRef_eq]
    rcases huncovered : isUncovered item with _ | _
    · rw [if_neg (by simp)]
      rcases chatRef item with _ | ref <;> simpa using ih
    · obtain ⟨ref, href⟩ := Option.isSome_iff_exists.mp (chatRef_of_uncovered huncovered)
      rw [href]
      refine iff_of_false (fun heq => ?_) (by simp)
      have hlen := hle items
      rw [show items.filterMap anthropicRef = ref :: items.filterMap chatRef from heq] at hlen
      exact absurd hlen (by simp)

/-! ### The ids of the Chat request -/

def refOf : ToolId → ToolRef
  | .call id => .use id
  | .output id => .result id

theorem messageRefs_eq (message : ChatMessage) :
    messageRefs message = message.toolIds.map refOf := by
  cases message with
  | assistant => simp [messageRefs, ChatMessage.toolIds, refOf]
  | _ => rfl

theorem chatRef_eq (item : ResponseItem) :
    chatRef item = ((entry item).bind Entry.toolId).map refOf := by
  cases item with
  | message _ role =>
    by_cases hassistant : role = "assistant"
    · simp [chatRef, wireToken, entry, hassistant, Entry.toolId]
    · simp only [chatRef, wireToken, entry, if_neg hassistant]
      split_ifs <;> rfl
  | functionCallOutput _ o | localShellCall _ o | toolSearchCall _ o | contextCompaction _ o =>
    rcases o with _ | callId <;> rfl
  | toolSearchOutput _ callId _ execution =>
    rcases callId with _ | callId
    · rfl
    · by_cases hclient : execution = "client" <;>
        simp [chatRef, wireToken, entry, Entry.toolId, refOf, hclient]
  | _ => rfl

variable {items : List ResponseItem}

theorem chatRefs_of_ok {ser : Serializer} {messages : List ChatMessage}
    (h : chatMessagesFromItems ser items = .ok messages) :
    chatRefs messages = items.filterMap chatRef := by
  have hids := congrArg (List.map refOf) (toolIds_of_ok ser h)
  rw [map_flatMap, filterMap_filterMap, map_filterMap] at hids
  rw [chatRefs, funext messageRefs_eq, funext chatRef_eq]
  exact hids

/-! ### The ids of the Anthropic request -/

/-- Blocks of the assistant and tool results are not held back at the same time. -/
def Apart (s : EncoderState) : Prop := s.pendingAssistantContent = [] ∨ s.pendingToolResults = []

def encoderRefs (s : EncoderState) : List ToolRef :=
  anthropicRefs s.messages ++ s.pendingAssistantContent.filterMap blockRef ++
    s.pendingToolResults.filterMap blockRef

theorem blockRef_of_thinking {block : ContentBlock} (h : block.isThinking) :
    blockRef block = none := by
  cases block <;> first | rfl | cases h

/-- Putting the thinking first moves no tool use past another. -/
theorem filterMap_sorted {β : Type} (f : ContentBlock → Option β)
    (hf : ∀ block : ContentBlock, block.isThinking → f block = none)
    (blocks : List ContentBlock) :
    (blocks.filter (·.isThinking) ++ blocks.filter (! ·.isThinking)).filterMap f
      = blocks.filterMap f := by
  rw [filterMap_append]
  induction blocks with
  | nil => rfl
  | cons block blocks ih =>
    rcases hthinking : block.isThinking with _ | _
    · rw [filter_cons_of_neg (by simp [hthinking]),
        filter_cons_of_pos (by simp [hthinking]), filterMap_cons, filterMap_cons]
      have hnil : (blocks.filter (·.isThinking)).filterMap f = [] :=
        filterMap_eq_nil_iff.mpr fun block hblock => hf block (mem_filter.mp hblock).2
      rw [hnil, nil_append] at ih ⊢
      rw [ih]
    · rw [filter_cons_of_pos (by simp [hthinking]),
        filter_cons_of_neg (by simp [hthinking]), filterMap_cons, filterMap_cons,
        hf block hthinking]
      exact ih

theorem anthropicRefs_concat (messages : List AnthropicMessage) (message : AnthropicMessage) :
    anthropicRefs (messages ++ [message])
      = anthropicRefs messages ++ message.content.filterMap blockRef := by
  simp [anthropicRefs]

theorem refs_flushAssistant (s : EncoderState) :
    encoderRefs s.flushPendingAssistantContent = encoderRefs s ∧
      s.flushPendingAssistantContent.pendingAssistantContent = [] ∧
      s.flushPendingAssistantContent.pendingToolResults = s.pendingToolResults := by
  rw [EncoderState.flushPendingAssistantContent]
  split
  · next hempty => exact ⟨rfl, List.isEmpty_iff.mp hempty, rfl⟩
  · refine ⟨?_, rfl, rfl⟩
    show anthropicRefs (s.messages ++ [_]) ++ [] ++ _ = _
    rw [anthropicRefs_concat, filterMap_sorted blockRef fun _ => blockRef_of_thinking, append_nil]
    rfl

theorem refs_flushResults (s : EncoderState) (h : Apart s) :
    encoderRefs s.flushPendingToolResults = encoderRefs s ∧
      s.flushPendingToolResults.pendingToolResults = [] ∧
      s.flushPendingToolResults.pendingAssistantContent = s.pendingAssistantContent := by
  rw [EncoderState.flushPendingToolResults]
  split
  · next hempty => exact ⟨rfl, List.isEmpty_iff.mp hempty, rfl⟩
  · next hne =>
    have hassistant : s.pendingAssistantContent = [] := by
      refine h.resolve_right fun hnil => hne ?_
      rw [hnil]
      rfl
    refine ⟨?_, rfl, rfl⟩
    show anthropicRefs (s.messages ++ [_]) ++ s.pendingAssistantContent.filterMap blockRef ++ [] = _
    rw [anthropicRefs_concat, encoderRefs, hassistant]
    simp

theorem refs_flushAll (s : EncoderState) :
    encoderRefs s.flushAll = encoderRefs s ∧ s.flushAll.pendingAssistantContent = [] ∧
      s.flushAll.pendingToolResults = [] := by
  obtain ⟨hrefs, hassistant, -⟩ := refs_flushAssistant s
  obtain ⟨hrefs', hresults, hsame⟩ := refs_flushResults s.flushPendingAssistantContent (.inl hassistant)
  exact ⟨hrefs'.trans hrefs, hsame.trans hassistant, hresults⟩

/-! ### What an item does to the encoder -/

/-- What an item is to the encoder. -/
inductive Move where
  | call (id : String)
  | output (id : String)
  /-- Said or thought by the assistant, with whether it leaves a block. -/
  | said (loud : Bool)
  /-- Sends what is held back. -/
  | cut
  | user
  deriving DecidableEq, Repr

variable (context : EncoderContext)

def move : ResponseItem → Move
  | .message _ role content =>
    if role = "system" ∨ role = "developer" then .cut
    else if role = "assistant" then
      .said (intoText (contentFromItems context content) ≠ "")
    else .user
  | .functionCall _ _ _ _ callId => .call callId
  | .customToolCall _ callId _ _ _ => .call callId
  | .reasoning id content encryptedContent => .said (isLoud (.reasoning id content encryptedContent))
  | .functionCallOutput _ (some callId) _ _ _ _ => .output callId
  | .customToolCallOutput _ callId _ _ _ => .output callId
  | _ => .cut

inductive Encodes : Move → EncoderState → EncoderState → Prop
  | call (s : EncoderState) {id : String} {block : ContentBlock} (h : blockRef block = some (.use id)) :
    Encodes (.call id) s (s.flushPendingToolResults.pushAssistant block)
  | output (s : EncoderState) {id : String} {block : ContentBlock}
      (h : blockRef block = some (.result id)) :
    Encodes (.output id) s { s.flushPendingAssistantContent with
      pendingToolResults := s.flushPendingAssistantContent.pendingToolResults ++ [block] }
  | silent (s : EncoderState) : Encodes (.said false) s s.flushPendingToolResults
  | loud (s : EncoderState) {block : ContentBlock} (h : blockRef block = none) :
    Encodes (.said true) s (s.flushPendingToolResults.pushAssistant block)
  | cut (s : EncoderState) (system : List String) : Encodes .cut s { s.flushAll with system }
  | user (s : EncoderState) {blocks : List ContentBlock} (h : blocks.filterMap blockRef = []) :
    Encodes .user s { s.flushAll with messages := s.flushAll.messages ++ [⟨.user, blocks⟩] }

theorem blockRef_contentFromItems (content : List ContentItem) :
    (contentFromItems context content).filterMap blockRef = [] := by
  refine filterMap_eq_nil_iff.mpr fun block hblock => ?_
  obtain ⟨item, -, hitem⟩ := mem_filterMap.mp hblock
  rcases item with text | ⟨image, detail⟩ | audio | text
  · cases hitem
    rfl
  · rcases image with url | file
    · cases hitem
      rfl
    · cases hitem
  · cases hitem
  · cases hitem
    rfl

theorem pushReasoning_encodes (s : EncoderState) (id : Option String)
    (content : Option (List String)) (encryptedContent : Option String) :
    Encodes (.said (isLoud (.reasoning id content encryptedContent))) s
      (s.pushReasoning content encryptedContent) := by
  unfold EncoderState.pushReasoning
  rcases encryptedContent with _ | data
  · dsimp only
    by_cases htext : reasoningContentToText content = ""
    · rw [isLoud, htext]
      exact .silent s
    · rw [if_pos (by simp [htext]), show isLoud (.reasoning id content none) = true by
        simp [isLoud, htext]]
      exact .loud s rfl
  · rw [show isLoud (.reasoning id content (some data)) = true by simp [isLoud]]
    rcases content with _ | texts
    · exact .loud s rfl
    · dsimp only
      rw [if_pos (by simp)]
      exact .loud s rfl

theorem step_encodes (s : EncoderState) (item : ResponseItem) :
    Encodes (move context item) s (s.step context item) := by
  cases item with
  | message _ _ content =>
    rw [move, EncoderState.step, EncoderState.pushMessage]
    split
    · dsimp only
      split <;> exact .cut s _
    · split
      · dsimp only
        split
        · next hempty =>
          rw [hempty]
          exact .silent s
        · next htext =>
          rw [show decide (intoText (contentFromItems context content) ≠ "") = true by simpa using htext]
          exact .loud s rfl
      · exact .user s (blockRef_contentFromItems context content)
  | functionCall | customToolCall => exact .call s rfl
  | reasoning id content encryptedContent =>
    exact pushReasoning_encodes s id content encryptedContent
  | functionCallOutput _ callId =>
    rcases callId with _ | callId
    · exact .cut s _
    · exact .output s rfl
  | customToolCallOutput => exact .output s rfl
  | contextCompaction _ encryptedContent =>
    rcases encryptedContent with _ | text <;> exact .cut s _
  | _ => exact .cut s _

def moveRef : Move → List ToolRef
  | .call id => [.use id]
  | .output id => [.result id]
  | _ => []

variable {s s' : EncoderState} {m : Move}

theorem refs_encodes (h : Encodes m s s') (hs : Apart s) :
    Apart s' ∧ encoderRefs s' = encoderRefs s ++ moveRef m := by
  -- a block behind what is already held back
  have hpush : ∀ block : ContentBlock,
      Apart (s.flushPendingToolResults.pushAssistant block) ∧
        encoderRefs (s.flushPendingToolResults.pushAssistant block)
          = encoderRefs s ++ (blockRef block).toList := by
    intro block
    obtain ⟨hrefs, hresults, -⟩ := refs_flushResults s hs
    refine ⟨.inr hresults, ?_⟩
    show anthropicRefs s.flushPendingToolResults.messages ++
      (s.flushPendingToolResults.pendingAssistantContent ++ [block]).filterMap blockRef ++
      s.flushPendingToolResults.pendingToolResults.filterMap blockRef = _
    rw [← hrefs, encoderRefs, hresults, filterMap_nil]
    rcases hblock : blockRef block with _ | ref <;> simp [hblock]
  cases h with
  | call s hblock =>
    rw [show moveRef (.call _) = (blockRef _).toList by rw [hblock]; rfl]
    exact hpush _
  | @output s _ block hblock =>
    obtain ⟨hrefs, hassistant, -⟩ := refs_flushAssistant s
    refine ⟨.inl hassistant, ?_⟩
    show anthropicRefs s.flushPendingAssistantContent.messages ++
      s.flushPendingAssistantContent.pendingAssistantContent.filterMap blockRef ++
      (s.flushPendingAssistantContent.pendingToolResults ++ [block]).filterMap blockRef = _
    rw [← hrefs, encoderRefs, filterMap_append, append_assoc (_ ++ _), filterMap_cons_some hblock]
    rfl
  | silent s =>
    obtain ⟨hrefs, hresults, -⟩ := refs_flushResults s hs
    exact ⟨.inr hresults, hrefs.trans (append_nil _).symm⟩
  | loud s hblock =>
    rw [show moveRef (.said true) = (blockRef _).toList by rw [hblock]; rfl]
    exact hpush _
  | cut s =>
    obtain ⟨hrefs, hassistant, -⟩ := refs_flushAll s
    exact ⟨.inl hassistant, hrefs.trans (append_nil _).symm⟩
  | @user s _ hblocks =>
    obtain ⟨hrefs, hassistant, hresults⟩ := refs_flushAll s
    refine ⟨.inl hassistant, ?_⟩
    show anthropicRefs (s.flushAll.messages ++ [_]) ++ _ ++ _ = _
    rw [anthropicRefs_concat, hblocks, append_nil, ← hrefs]
    exact (append_nil _).symm

theorem moveRef_move (item : ResponseItem) :
    moveRef (move context item) = (anthropicRef item).toList := by
  cases item with
  | message =>
    rw [move]
    split
    · rfl
    · split <;> rfl
  | functionCallOutput _ callId =>
    rcases callId with _ | callId <;> rfl
  | _ => rfl

theorem encoder_fold (hs : Apart s) (items : List ResponseItem) :
    Apart (items.foldl (EncoderState.step context) s) ∧
      encoderRefs (items.foldl (EncoderState.step context) s)
        = encoderRefs s ++ items.filterMap anthropicRef := by
  induction items generalizing s with
  | nil => exact ⟨hs, (append_nil _).symm⟩
  | cons item _ ih =>
    obtain ⟨hnext, hrefs⟩ := refs_encodes (step_encodes context s item) hs
    obtain ⟨hapart, hrest⟩ := ih hnext
    refine ⟨hapart, ?_⟩
    rw [foldl_cons, hrest, hrefs, moveRef_move, append_assoc]
    rw [filterMap_cons]
    rcases anthropicRef item with _ | ref <;> rfl

theorem anthropicRefs_messages :
    anthropicRefs (anthropicMessagesFromItems context items).2 = items.filterMap anthropicRef := by
  obtain ⟨hapart, hrefs⟩ := encoder_fold context (s := .start) (.inl rfl) items
  obtain ⟨hflush, hassistant, hresults⟩ := refs_flushAll _
  rw [encoderRefs, hassistant, hresults, hrefs, filterMap_nil, append_nil, append_nil] at hflush
  exact hflush

/-! ### The encoder, followed along the groups of calls -/

section Messages

variable {s : EncoderState} {u : Uses} {blocks : List ContentBlock}

theorem useIds_sorted (blocks : List ContentBlock) :
    useIds (blocks.filter (·.isThinking) ++ blocks.filter (! ·.isThinking)) = useIds blocks :=
  filterMap_sorted ContentBlock.useId
    (fun block h => by cases block <;> first | rfl | cases h) blocks

theorem flushAssistant_of_nil (h : s.pendingAssistantContent = []) :
    s.flushPendingAssistantContent = s := by
  rw [EncoderState.flushPendingAssistantContent, if_pos (by rw [h]; rfl)]

theorem flushResults_of_nil (h : s.pendingToolResults = []) : s.flushPendingToolResults = s := by
  rw [EncoderState.flushPendingToolResults, if_pos (by rw [h]; rfl)]

theorem flushAssistant_of_ne (h : s.pendingAssistantContent ≠ []) :
    s.flushPendingAssistantContent.messages
      = s.messages ++ [⟨.assistant, s.pendingAssistantContent.filter (·.isThinking) ++
        s.pendingAssistantContent.filter (! ·.isThinking)⟩] := by
  rw [EncoderState.flushPendingAssistantContent, if_neg (by simpa using h)]

theorem flushResults_of_ne (h : s.pendingToolResults ≠ []) :
    s.flushPendingToolResults.messages = s.messages ++ [⟨.user, s.pendingToolResults⟩] := by
  rw [EncoderState.flushPendingToolResults, if_neg (by simpa using h)]

variable (hafter : useAfter s.messages = some u)
include hafter

/-- The assistant message with the blocks held back. -/
theorem useAfter_flushAssistant (hne : s.pendingAssistantContent ≠ []) :
    useAfter s.flushPendingAssistantContent.messages =
      if u.expected = [] ∧ (u.seen ++ useIds s.pendingAssistantContent).Nodup then
        some ⟨u.seen ++ useIds s.pendingAssistantContent, useIds s.pendingAssistantContent⟩
      else none := by
  rw [flushAssistant_of_ne hne, useAfter_concat, hafter, Option.bind_some, useCheck]
  rw [useIds_sorted]

/-- The user message with the results held back. -/
theorem useAfter_flushResults (hne : s.pendingToolResults ≠ []) :
    useAfter s.flushPendingToolResults.messages =
      if (∀ id ∈ resultIds s.pendingToolResults, id ∈ u.expected) ∧
          ∀ id ∈ u.expected, id ∈ resultIds s.pendingToolResults then
        some ⟨u.seen, []⟩
      else none := by
  rw [flushResults_of_ne hne, useAfter_concat, hafter, Option.bind_some, useCheck]

end Messages

/-- The encoder waits with no block of the assistant held back: `expected` are the uses of the last
message, and the results of those that are not in `opened` are held back. -/
structure Waiting (s : EncoderState) (ids expected opened : List String) : Prop where
  assistant : s.pendingAssistantContent = []
  after : useAfter s.messages = some ⟨ids, expected⟩
  distinct : opened.Nodup
  split : ∀ id, id ∈ expected ↔ id ∈ resultIds s.pendingToolResults ∨ id ∈ opened
  apart : ∀ id ∈ opened, id ∉ resultIds s.pendingToolResults

/-- The state of the checker, the phase of the history, the call ids so far and the encoder. -/
inductive Follows : State String → Phase → List String → EncoderState → Prop
  | collecting {s : EncoderState} {seen calls : List String} (hne : calls ≠ [])
      (hresults : s.pendingToolResults = []) (hafter : useAfter s.messages = some ⟨seen, []⟩)
      (huses : useIds s.pendingAssistantContent = calls) :
    Follows (.collecting calls) (.calling calls.length) (seen ++ calls) s
  | resting {s : EncoderState} {ids : List String} (hresults : s.pendingToolResults = [])
      (hafter : useAfter s.messages = some ⟨ids, []⟩)
      (huses : useIds s.pendingAssistantContent = []) : Follows (.draining []) .free ids s
  | answered {s : EncoderState} {ids expected : List String} (h : Waiting s ids expected [])
      (hresults : s.pendingToolResults ≠ []) : Follows (.draining []) .free ids s
  | sealed {s : EncoderState} {ids opened : List String} (h : Waiting s ids opened opened)
      (hne : opened ≠ []) (hresults : s.pendingToolResults = []) :
    Follows (.draining opened) (.sealed opened.length) ids s
  | answering {s : EncoderState} {ids expected opened : List String}
      (h : Waiting s ids expected opened) (hne : opened ≠ [])
      (hresults : s.pendingToolResults ≠ []) :
    Follows (.draining opened) (.answering opened.length) ids s

/-- No continuation is accepted. -/
inductive Doomed (s : EncoderState) : Prop
  | invalid (h : useAfter s.messages = none)
  /-- Blocks are held back that the uses before them, or the ids used before, do not allow. -/
  | held {u : Uses} (hresults : s.pendingToolResults = []) (hne : s.pendingAssistantContent ≠ [])
      (hafter : useAfter s.messages = some u)
      (hbad : ¬ (u.expected = [] ∧ (u.seen ++ useIds s.pendingAssistantContent).Nodup))

def Accepted (s : EncoderState) : Prop := (useAfter s.flushAll.messages).map (·.expected) = some []

section Doom

variable {s : EncoderState}

theorem useAfter_concat_none {messages : List AnthropicMessage} (h : useAfter messages = none)
    (message : AnthropicMessage) : useAfter (messages ++ [message]) = none := by
  rw [useAfter_concat, h]
  rfl

theorem invalid_flushResults (h : useAfter s.messages = none) :
    useAfter s.flushPendingToolResults.messages = none := by
  by_cases hne : s.pendingToolResults = []
  · rwa [flushResults_of_nil hne]
  · rw [flushResults_of_ne hne]
    exact useAfter_concat_none h _

section

variable (h : Doomed s)
include h

theorem Doomed.flushAssistant : useAfter s.flushPendingAssistantContent.messages = none := by
  rcases h with h | ⟨-, hne, hafter, hbad⟩
  · by_cases hne : s.pendingAssistantContent = []
    · rwa [flushAssistant_of_nil hne]
    · rw [flushAssistant_of_ne hne]
      exact useAfter_concat_none h _
  · rw [useAfter_flushAssistant hafter hne, if_neg hbad]

theorem Doomed.flushAll : useAfter s.flushAll.messages = none :=
  invalid_flushResults h.flushAssistant

theorem Doomed.flushResults : Doomed s.flushPendingToolResults := by
  rcases h with h | ⟨hresults, hne, hafter, hbad⟩
  · exact .invalid (invalid_flushResults h)
  · rw [flushResults_of_nil hresults]
    exact .held hresults hne hafter hbad

theorem Doomed.pushAssistant (block : ContentBlock) : Doomed (s.pushAssistant block) := by
  rcases h with h | ⟨hresults, hne, hafter, hbad⟩
  · exact .invalid h
  refine .held hresults (by simp [EncoderState.pushAssistant]) hafter fun hgood => hbad ?_
  refine ⟨hgood.1, ?_⟩
  have hnodup := hgood.2
  simp only [EncoderState.pushAssistant, useIds, filterMap_append, ← append_assoc] at hnodup
  exact (nodup_append.mp hnodup).1

theorem Doomed.encodes (hm : Encodes m s s') : Doomed s' := by
  cases hm with
  | call | loud => exact h.flushResults.pushAssistant _
  | output => exact .invalid h.flushAssistant
  | silent => exact h.flushResults
  | cut => exact .invalid h.flushAll
  | user => exact .invalid (useAfter_concat_none h.flushAll _)

end

theorem Doomed.fold (context : EncoderContext) (h : Doomed s) (items : List ResponseItem) :
    ¬ Accepted (items.foldl (EncoderState.step context) s) := by
  induction items generalizing s with
  | nil =>
    rw [foldl_nil, Accepted, h.flushAll]
    simp
  | cons item _ ih => exact ih (h.encodes (step_encodes context s item))

end Doom

/-! #### One item -/

variable {c : State String}

section Step

variable {s s' : EncoderState} {ids : List String}

section

variable (h : Follows (.draining []) .free ids s)
include h

/-- Between the groups the results of the last one can be sent. -/
theorem Follows.flushResults :
    s.flushPendingToolResults.pendingToolResults = [] ∧
      useAfter s.flushPendingToolResults.messages = some ⟨ids, []⟩ ∧
      useIds s.flushPendingToolResults.pendingAssistantContent = [] := by
  cases h with
  | resting hresults hafter huses =>
    rw [flushResults_of_nil hresults]
    exact ⟨hresults, hafter, huses⟩
  | @answered _ _ _ h hresults =>
    obtain ⟨-, hnil, hsame⟩ := refs_flushResults s (.inl h.assistant)
    refine ⟨hnil, ?_, ?_⟩
    · rw [useAfter_flushResults h.after hresults, if_pos]
      exact ⟨fun id hid => (h.split id).mpr (.inl hid),
        fun id hid => ((h.split id).mp hid).resolve_right not_mem_nil⟩
    · rw [hsame, h.assistant]
      rfl

/-- Between the groups everything can be sent. -/
theorem Follows.flushAll :
    s.flushAll.pendingToolResults = [] ∧ s.flushAll.pendingAssistantContent = [] ∧
      useAfter s.flushAll.messages = some ⟨ids, []⟩ := by
  cases h with
  | resting hresults hafter huses =>
    obtain ⟨-, hassistant, hresults'⟩ := refs_flushAll s
    refine ⟨hresults', hassistant, ?_⟩
    have hsame : s.flushPendingAssistantContent.pendingToolResults = [] := by
      rw [(refs_flushAssistant s).2.2, hresults]
    rw [EncoderState.flushAll, flushResults_of_nil hsame]
    by_cases hne : s.pendingAssistantContent = []
    · rwa [flushAssistant_of_nil hne]
    · have hnodup : (ids ++ useIds s.pendingAssistantContent).Nodup := by
        rw [huses, append_nil]
        exact nodup_seen hafter
      rw [useAfter_flushAssistant hafter hne, if_pos ⟨rfl, hnodup⟩, huses, append_nil]
  | answered h hresults =>
    obtain ⟨-, hassistant, hresults'⟩ := refs_flushAll s
    refine ⟨hresults', hassistant, ?_⟩
    rw [EncoderState.flushAll, flushAssistant_of_nil h.assistant]
    exact (Follows.answered h hresults).flushResults.2.1

theorem Follows.accepted : Accepted s := by
  rw [Accepted, h.flushAll.2.2]
  rfl

end

variable {seen calls : List String} {block : ContentBlock} {expected opened : List String} {p : Phase}

/-- The message of the collected calls is sent. -/
theorem waiting_of_collecting (hne : calls ≠ [])
    (hresults : s.pendingToolResults = []) (hafter : useAfter s.messages = some ⟨seen, []⟩)
    (huses : useIds s.pendingAssistantContent = calls) (hnodup : (seen ++ calls).Nodup) :
    Waiting s.flushPendingAssistantContent (seen ++ calls) calls calls ∧
      s.flushPendingAssistantContent.pendingToolResults = [] := by
  obtain ⟨-, hassistant, hsame⟩ := refs_flushAssistant s
  have hnil : s.flushPendingAssistantContent.pendingToolResults = [] := hsame.trans hresults
  have hpending : s.pendingAssistantContent ≠ [] := by
    intro h
    rw [h] at huses
    exact hne huses.symm
  refine ⟨⟨hassistant, ?_, (nodup_append.mp hnodup).2.1, ?_, ?_⟩, hnil⟩
  · rw [useAfter_flushAssistant hafter hpending, huses, if_pos ⟨rfl, hnodup⟩]
  · intro id
    rw [hnil]
    simp [resultIds]
  · intro id _
    rw [hnil]
    exact not_mem_nil

variable {id : String}

theorem resultIds_concat (h : blockRef block = some (.result id)) (blocks : List ContentBlock) :
    resultIds (blocks ++ [block]) = resultIds blocks ++ [id] := by
  have hid : block.resultId = some id := by
    cases block with
    | toolResult => cases h; rfl
    | _ => cases h
  rw [resultIds, filterMap_append, filterMap_cons_some hid]
  rfl

section

variable (h : Waiting s ids expected opened)
include h

/-- One more result. -/
theorem Waiting.output (hid : id ∈ opened) (hblock : blockRef block = some (.result id)) :
    Waiting { s with pendingToolResults := s.pendingToolResults ++ [block] } ids expected
      (opened.erase id) := by
  refine ⟨h.assistant, h.after, h.distinct.erase id, fun other => ?_, fun other hother => ?_⟩
  · rw [resultIds_concat hblock, h.split, mem_append]
    by_cases heq : other = id
    · subst heq
      simp [hid]
    · simp [heq]
  · rw [resultIds_concat hblock, mem_append, mem_singleton]
    rw [h.distinct.mem_erase_iff] at hother
    rintro (hmem | heq)
    · exact h.apart other hother.2 hmem
    · exact hother.1 heq

/-- With a result held back, what is open says where the history stands. -/
theorem Waiting.follows (hresults : s.pendingToolResults ≠ []) {before : List String}
    (hid : id ∈ before) (hopened : opened = before.erase id) :
    Follows (.draining opened) (Phase.answer before.length) ids s := by
  have hlength : opened.length = before.length - 1 := by
    rw [hopened, length_erase_of_mem hid]
  rw [Phase.answer]
  by_cases hnil : opened = []
  · subst hnil
    rw [if_pos (by simp at hlength; omega)]
    exact .answered h hresults
  · have hpos : opened.length ≠ 0 := fun h => hnil (eq_nil_of_length_eq_zero h)
    rw [if_neg (by omega), ← hlength]
    exact .answering h hnil hresults

/-- The results that are held back are not all that is expected. -/
theorem Waiting.broken (hne : opened ≠ []) (hresults : s.pendingToolResults ≠ []) :
    useAfter s.flushPendingToolResults.messages = none := by
  rw [useAfter_flushResults h.after hresults, if_neg]
  rintro ⟨-, hall⟩
  obtain ⟨id, hid⟩ := exists_mem_of_ne_nil _ hne
  exact h.apart id hid (hall id ((h.split id).mpr (.inr hid)))

end

theorem useIds_concat (h : blockRef block = some (.use id))
    (blocks : List ContentBlock) : useIds (blocks ++ [block]) = useIds blocks ++ [id] := by
  have hid : block.useId = some id := by
    cases block with
    | toolUse => cases h; rfl
    | _ => cases h
  rw [useIds, filterMap_append, filterMap_cons_some hid]
  rfl

theorem useIds_concat_none (h : blockRef block = none)
    (blocks : List ContentBlock) : useIds (blocks ++ [block]) = useIds blocks := by
  have hid : block.useId = none := by
    cases block <;> first | rfl | cases h
  rw [useIds, filterMap_append, filterMap_cons_none hid, filterMap_nil, append_nil]
  rfl

/-- What the next state has to be: followed on, or doomed if the history is broken or an id is used
again. -/
structure Next (c : State String) (phase : Option Phase) (ids : List String) (s : EncoderState) :
    Prop where
  follows : ∀ p, phase = some p → ids.Nodup → Follows c p ids s
  doomed : phase = none ∨ ¬ ids.Nodup → Doomed s

/-- An item that is no call adds no id. -/
theorem next_of_follows (hnodup : ids.Nodup) (h : Follows c p ids s) :
    Next c (some p) (ids ++ []) s := by
  rw [append_nil]
  refine ⟨fun q hq _ => ?_, fun hbad => ?_⟩
  · cases Option.some.inj hq
    exact h
  · exact absurd hnodup (hbad.resolve_left (Option.some_ne_none p))

theorem next_of_doomed (h : Doomed s) : Next c none ids s := ⟨nofun, fun _ => h⟩

/-- A call joins those that are held back. -/
theorem next_call
    (hresults : s.pendingToolResults = []) (hafter : useAfter s.messages = some ⟨seen, []⟩)
    (huses : useIds s.pendingAssistantContent = calls) (hblock : blockRef block = some (.use id)) :
    Next (.collecting (calls ++ [id])) (some (.calling (calls.length + 1)))
      (seen ++ (calls ++ [id])) (s.pushAssistant block) := by
  have huses' : useIds (s.pushAssistant block).pendingAssistantContent = calls ++ [id] := by
    rw [← huses]
    exact useIds_concat hblock s.pendingAssistantContent
  refine ⟨fun p hp _ => ?_, fun hbad => ?_⟩
  · cases Option.some.inj hp
    have hfollows : Follows (.collecting (calls ++ [id])) (.calling (calls ++ [id]).length)
        (seen ++ (calls ++ [id])) (s.pushAssistant block) :=
      .collecting (by simp) hresults hafter huses'
    rwa [length_append] at hfollows
  · refine .held hresults (by simp [EncoderState.pushAssistant]) hafter fun hgood => ?_
    rw [huses'] at hgood
    exact hbad.elim (fun h => by cases h) fun h => h hgood.2

/-- What an item is on the wire of either provider. -/
inductive Reads (item : ResponseItem) : Token String → Move → Prop
  | call (id : String) : Reads item (.call id) (.call id)
  | output (id : String) : Reads item (.output id) (.output id)
  | assistant (loud : Bool) : Reads item .assistant (.said loud)
  | reasoning : Reads item .reasoning (.said (isLoud item))
  | cut : Reads item .cut .cut
  | system : Reads item .other .cut
  | user : Reads item .other .user

theorem reads_move (context : EncoderContext)
    (h : isUncovered item = false) : Reads item (wireToken item) (move context item) := by
  cases item with
  | message _ role =>
    rw [wireToken, move]
    by_cases hassistant : role = "assistant"
    · subst hassistant
      exact .assistant _
    · rw [if_neg hassistant]
      split
      · exact .system
      · exact .user
  | functionCallOutput _ callId =>
    rcases callId with _ | callId
    · exact .cut
    · exact .output callId
  | customToolCallOutput _ callId => exact .output callId
  | functionCall _ _ _ _ callId => exact .call callId
  | customToolCall _ callId => exact .call callId
  | reasoning => exact .reasoning
  | localShellCall _ callId | toolSearchCall _ callId =>
    rcases callId with _ | callId
    · exact .cut
    · cases h
  | toolSearchOutput _ callId _ execution =>
    rcases callId with _ | callId
    · exact .cut
    · have hclient : execution ≠ "client" := by simpa [isUncovered] using h
      rw [wireToken, if_neg hclient]
      exact .cut
  | compaction => exact .system
  | contextCompaction _ encryptedContent =>
    rcases encryptedContent with _ | text
    · exact .cut
    · exact .system
  | _ => exact .cut

theorem Follows.eq_free (h : Follows (.draining []) p ids s) : p = .free := by
  cases h with
  | resting | answered => rfl
  | sealed _ hne => exact absurd rfl hne
  | answering _ hne => exact absurd rfl hne

/-- Calls wait: their message has been sent, and of the results some or none are held back. -/
theorem Follows.waiting {opened : List String} (h : Follows (.draining opened) p ids s)
    (hne : opened ≠ []) : ∃ expected, Waiting s ids expected opened ∧
      (p = .sealed opened.length ∧ s.pendingToolResults = [] ∨
        p = .answering opened.length ∧ s.pendingToolResults ≠ []) := by
  cases h with
  | resting | answered => exact absurd rfl hne
  | sealed h _ hresults => exact ⟨opened, h, .inl ⟨rfl, hresults⟩⟩
  | @answering _ _ expected _ h _ hresults => exact ⟨expected, h, .inr ⟨rfl, hresults⟩⟩

theorem Waiting.flushAll {opened : List String} {expected : List String}
    (h : Waiting s ids expected opened) : s.flushAll = s.flushPendingToolResults := by
  rw [EncoderState.flushAll, flushAssistant_of_nil h.assistant]

/-- Between the groups the assistant may say anything. -/
theorem Follows.said {loud : Bool} (h : Follows (.draining []) .free ids s)
    (hm : Encodes (.said loud) s s') : Follows (.draining []) .free ids s' := by
  obtain ⟨hresults, hafter, huses⟩ := h.flushResults
  cases hm with
  | silent => exact .resting hresults hafter huses
  | loud s hblock => exact .resting hresults hafter ((useIds_concat_none hblock _).trans huses)

/-- What is said among the calls is held back with them. -/
theorem collecting_said {loud : Bool} (hne : calls ≠ [])
    (hresults : s.pendingToolResults = []) (hafter : useAfter s.messages = some ⟨seen, []⟩)
    (huses : useIds s.pendingAssistantContent = calls) (hm : Encodes (.said loud) s s') :
    Follows (.collecting calls) (.calling calls.length) (seen ++ calls) s' := by
  cases hm with
  | silent =>
    rw [flushResults_of_nil hresults]
    exact .collecting hne hresults hafter huses
  | loud s hblock =>
    rw [flushResults_of_nil hresults]
    exact .collecting hne hresults hafter ((useIds_concat_none hblock _).trans huses)

/-- **One item**: the encoder follows the checker, or is doomed. -/
theorem Follows.step {c' : State String} (h : Follows c p ids s) (hids : ids.Nodup)
    (hmoves : Moves validId c (wireToken item) c')
    (hreads : Reads item (wireToken item) m) (hm : Encodes m s s') :
    Next c' (p.step item) (ids ++ (wireToken item).callId.toList) s' := by
  unfold Phase.step
  generalize wireToken item = token at hmoves hreads
  cases hmoves with
  | opens =>
    cases hreads
    cases h.eq_free
    obtain ⟨hresults, hafter, huses⟩ := h.flushResults
    cases hm with
    | call s hblock => exact next_call hresults hafter huses hblock
  | calls =>
    cases hreads
    cases h with
    | collecting _ hresults hafter huses =>
      cases hm with
      | call s hblock =>
        rw [flushResults_of_nil hresults, append_assoc]
        exact next_call hresults hafter huses hblock
  | @firstOutput _ _ hid =>
    cases hreads
    cases h with
    | collecting hne hresults hafter huses =>
      cases hm with
      | output s hblock =>
        obtain ⟨hwaiting, -⟩ := waiting_of_collecting hne hresults hafter huses hids
        exact next_of_follows hids ((hwaiting.output hid hblock).follows (by simp) hid rfl)
  | @nextOutput _ _ hid =>
    cases hreads
    obtain ⟨expected, hwaiting, hphase⟩ := h.waiting (ne_nil_of_mem hid)
    cases hm with
    | output s hblock =>
      rw [flushAssistant_of_nil hwaiting.assistant]
      have hfollows := (hwaiting.output hid hblock).follows (by simp) hid rfl
      rcases hphase with ⟨rfl, -⟩ | ⟨rfl, -⟩ <;> exact next_of_follows hids hfollows
  | speaks =>
    cases hreads
    cases h.eq_free
    exact next_of_follows hids (h.said hm)
  | other =>
    cases h.eq_free
    obtain ⟨hresults, hassistant, hafter⟩ := h.flushAll
    cases hreads with
    | system =>
      cases hm with
      | cut =>
        exact next_of_follows hids (.resting hresults hafter (congrArg useIds hassistant))
    | user =>
      cases hm with
      | @user s blocks hblocks =>
        refine next_of_follows hids (.resting hresults ?_ (congrArg useIds hassistant))
        have hnone : resultIds blocks = [] := by
          refine filterMap_eq_nil_iff.mpr fun block hblock => ?_
          have href := filterMap_eq_nil_iff.mp hblocks block hblock
          cases block <;> first | rfl | cases href
        rw [useAfter_concat, hafter, Option.bind_some, useCheck]
        dsimp only
        rw [hnone, if_pos ⟨fun id hid => absurd hid not_mem_nil,
          fun id hid => absurd hid not_mem_nil⟩]
  | thinks opened =>
    cases hreads
    by_cases hne : opened = []
    · subst hne
      cases h.eq_free
      exact next_of_follows hids (h.said hm)
    obtain ⟨expected, hwaiting, ⟨rfl, hresults⟩ | ⟨rfl, hresults⟩⟩ := h.waiting hne
    · -- before the first result: a block would come between the uses and their results
      rcases hloud : isLoud item with _ | _ <;> rw [hloud] at hm
      · cases hm with
        | silent =>
          rw [flushResults_of_nil hresults]
          exact next_of_follows hids h
      · cases hm with
        | loud =>
          rw [flushResults_of_nil hresults]
          refine next_of_doomed (.held hresults (by simp [EncoderState.pushAssistant])
            hwaiting.after fun hgood => ?_)
          obtain ⟨id, hid⟩ := exists_mem_of_ne_nil _ hne
          have hmem := (hwaiting.split id).mpr (.inr hid)
          rw [show expected = [] from hgood.1] at hmem
          cases hmem
    · -- among the results: they are sent, and not all of them are there
      have hbroken := hwaiting.broken hne hresults
      refine next_of_doomed (.invalid ?_)
      generalize isLoud item = loud at hm
      cases hm with
      | silent | loud => exact hbroken
  | passes opened =>
    cases hreads
    cases hm with
    | cut s =>
      by_cases hne : opened = []
      · subst hne
        cases h.eq_free
        obtain ⟨hresults, hassistant, hafter⟩ := h.flushAll
        exact next_of_follows hids (.resting hresults hafter (congrArg useIds hassistant))
      · obtain ⟨expected, hwaiting, ⟨rfl, hresults⟩ | ⟨rfl, hresults⟩⟩ := h.waiting hne
        · rw [hwaiting.flushAll, flushResults_of_nil hresults]
          cases h with
          | sealed h hne hresults =>
            exact next_of_follows hids (.sealed
              ⟨h.assistant, h.after, h.distinct, h.split, h.apart⟩ hne hresults)
        · refine next_of_doomed (.invalid ?_)
          rw [hwaiting.flushAll]
          exact hwaiting.broken hne hresults
  | joins ht =>
    cases h with
    | collecting hne hresults hafter huses =>
      rcases ht with rfl | rfl
      all_goals
        cases hreads
        exact next_of_follows hids (collecting_said hne hresults hafter huses hm)
  | cuts =>
    cases hreads
    cases h with
    | collecting hne hresults hafter huses =>
      cases hm with
      | cut s =>
        obtain ⟨hwaiting, hnil⟩ := waiting_of_collecting hne hresults hafter huses hids
        have hflush : s.flushAll = s.flushPendingAssistantContent := flushResults_of_nil hnil
        rw [hflush]
        exact next_of_follows hids (.sealed
          ⟨hwaiting.assistant, hwaiting.after, hwaiting.distinct, hwaiting.split, hwaiting.apart⟩
          hne hnil)

end Step

/-! ### Whole histories -/

/-- **The run**, by induction on the items: a history the checker accepts is accepted by the encoder
and its validator as long as nothing breaks a group and no id is used again. -/
theorem accepted_iff {p : Phase} {ids : List String} (h : Follows c p ids s) (hids : ids.Nodup)
    (hchat : run validId c (items.map wireToken) = some (.draining []))
    (hcovered : ∀ item ∈ items, isUncovered item = false) :
    Accepted (items.foldl (EncoderState.step context) s) ↔
      (ids ++ callIds items).Nodup ∧ (items.foldlM Phase.step p).isSome := by
  induction items generalizing c p ids s with
  | nil =>
    cases Option.some.inj hchat
    cases h.eq_free
    rw [callIds, filterMap_nil, append_nil]
    exact iff_of_true h.accepted ⟨hids, rfl⟩
  | cons item items ih =>
    obtain ⟨hitem, hrest⟩ := forall_mem_cons.mp hcovered
    obtain ⟨c', hstep, hchat⟩ := Option.bind_eq_some_iff.mp hchat
    have hnext := h.step hids (moves_of_step hstep) (reads_move context hitem)
      (step_encodes context s item)
    have hcalls : ids ++ callIds (item :: items)
        = ids ++ (wireToken item).callId.toList ++ callIds items := by
      rw [append_assoc, callIds, filterMap_cons]
      rcases (wireToken item).callId with _ | id <;> rfl
    rw [foldlM_cons, hcalls]
    by_cases hgood : (ids ++ (wireToken item).callId.toList).Nodup
    swap
    · refine iff_of_false ((hnext.doomed (.inr hgood)).fold context items) fun hall => hgood ?_
      exact (nodup_append.mp hall.1).1
    rcases hphase : p.step item with _ | p'
    · refine iff_of_false ((hnext.doomed (.inl hphase)).fold context items) fun hall => ?_
      cases hall.2
    · exact ih (hnext.follows p' hphase hgood) hgood hchat hrest

/-- **Which histories can be switched.**  Of the histories the Chat projection accepts, the Anthropic
one accepts, with the same tool ids in the same order, exactly those that are `Switchable`. -/
theorem switch_from_chat_iff (ser : Serializer) (context : EncoderContext)
    (items : List ResponseItem) (messages : List ChatMessage)
    (hchat : chatMessagesFromItems ser items = .ok messages) :
    ((validateToolUseResults (anthropicMessagesFromItems context items).2).isOk = true ∧
        anthropicRefs (anthropicMessagesFromItems context items).2 = chatRefs messages) ↔
      Switchable items := by
  have haccepts : Accepts validId (.draining []) (items.map wireToken) := by
    rw [← chatMessagesFromItems_isOk_iff ser, hchat]
    rfl
  have hstart : Follows (.draining []) .free [] .start := .resting rfl rfl rfl
  rw [anthropicRefs_messages, chatRefs_of_ok hchat, filterMap_ref_eq_iff,
    validateToolUseResults_isOk_iff]
  constructor
  · rintro ⟨haccepted, hcovered⟩
    obtain ⟨hnodup, hunbroken⟩ :=
      (accepted_iff context hstart nodup_nil haccepts hcovered).mp haccepted
    exact ⟨hcovered, hnodup, hunbroken⟩
  · rintro ⟨hcovered, hnodup, hunbroken⟩
    exact ⟨(accepted_iff context hstart nodup_nil haccepts hcovered).mpr
      ⟨hnodup, hunbroken⟩, hcovered⟩

section Example

def plainSerializer : Serializer := ⟨id, String.join⟩

def plainEncoder : EncoderContext := ⟨fun _ => none, .url, fun _ => .object []⟩

/-- A call with its output can be switched. -/
theorem functionCall_switched :
    (validateToolUseResults (anthropicMessagesFromItems plainEncoder
        [.functionCall none "f" none "" "a",
          .functionCallOutput none (some "a") none none (.fromText "") none]).2).isOk = true ∧
      anthropicRefs (anthropicMessagesFromItems plainEncoder
        [.functionCall none "f" none "" "a",
          .functionCallOutput none (some "a") none none (.fromText "") none]).2
        = chatRefs [.assistant "" none [⟨"a", "f", ""⟩], .tool "a" ""] :=
  (switch_from_chat_iff plainSerializer plainEncoder
    [.functionCall none "f" none "" "a",
      .functionCallOutput none (some "a") none none (.fromText "") none]
    [.assistant "" none [⟨"a", "f", ""⟩], .tool "a" ""] (by rfl)).mpr
    ⟨by decide, by decide, by decide⟩

def shellCallHistory : List ResponseItem :=
  [.localShellCall none (some "a") "ls",
    .functionCallOutput none (some "a") none none (.fromText "") none]

/-- A local-shell call is dropped, and its output is refused. The history is one that normalization
leaves as it is. -/
theorem localShellCall_not_switched :
    Normalize.normalizeHistory ⟨id, id, fun l => List.Perm.refl l⟩ [.text]
        (shellCallHistory.map .new) = shellCallHistory.map .new ∧
      (chatMessagesFromItems plainSerializer shellCallHistory).isOk = true ∧
      (validateToolUseResults (anthropicMessagesFromItems plainEncoder shellCallHistory).2).isOk
        = false :=
  ⟨by decide, by decide, by decide⟩

end Example

end ProviderSwitch

end CodexPlus
