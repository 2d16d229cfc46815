/-
CodexPlus/ChatGroups.lean

Which items the Chat Completions projection accepts: those whose calls and
outputs come in groups (`chatMessagesFromItems_isOk_iff`).

`wireToken` says what an item is to the protocol of grouped calls, and the
converter together with the validator of its messages simulates the checker of
that protocol.  Once the checker has stopped, the converter goes on, but it is
doomed: the messages it has, with the assistant message it still holds back, are
not valid, and nothing that follows can repair that.
-/
import CodexPlus.ChatMessages

namespace CodexPlus

open List

namespace Chat

open CallGroups

/-! ### The validator -/

/-- The ids one assistant message may carry. -/
def GoodIds (ids : List String) : Prop := "" ∉ ids ∧ ids.Nodup

instance (ids : List String) : Decidable (GoodIds ids) := inferInstanceAs (Decidable (_ ∧ _))

/-- The calls that are open behind a message, if the validator accepts it. -/
def openCheck (opened : List String) : ChatMessage → Option (List String)
  | .assistant _ _ (call :: calls) =>
    if opened = [] ∧ GoodIds ((call :: calls).map ChatToolCall.id) then some ((call :: calls).map ChatToolCall.id)
    else none
  | .tool id _ => if id ∈ opened then some (opened.erase id) else none
  | _ => if opened = [] then some [] else none

def openAfter (messages : List ChatMessage) : Option (List String) := messages.foldlM openCheck []

/-- What holds of the validator's variables between two messages. -/
structure Validator.Inv (v : Validator) : Prop where
  cleared : v.pendingToolCalls = [] → v.seenToolCalls = []
  named : "" ∉ v.pendingToolCalls

theorem Validator.addCalls_spec (messageIndex : ℕ) (calls : List ChatToolCall) (v : Validator) :
    (v.addCalls messageIndex calls).toOption =
      if GoodIds (calls.map ChatToolCall.id) ∧ ∀ id ∈ calls.map ChatToolCall.id, id ∉ v.seenToolCalls then
        some ⟨(calls.map ChatToolCall.id).reverse ++ v.seenToolCalls,
          v.pendingToolCalls ++ calls.map ChatToolCall.id, v.pendingAssistantIndex⟩
      else none := by
  induction calls generalizing v with
  | nil => simp [addCalls, GoodIds, Except.toOption]
  | cons call calls ih =>
    rw [addCalls]
    split
    · next hempty => simp [GoodIds, hempty, Except.toOption]
    · next hempty =>
      split
      · next hseen => simp [hseen, Except.toOption]
      · next hseen =>
        rw [ih]
        have hcond : (GoodIds (calls.map ChatToolCall.id) ∧
              ∀ id ∈ calls.map ChatToolCall.id, id ∉ call.id :: v.seenToolCalls) ↔
            (GoodIds ((call :: calls).map ChatToolCall.id) ∧
              ∀ id ∈ (call :: calls).map ChatToolCall.id, id ∉ v.seenToolCalls) := by
          simp only [GoodIds, map_cons, mem_cons, nodup_cons, not_or, forall_eq_or_imp]
          constructor
          · rintro ⟨⟨h1, h2⟩, h3⟩
            exact ⟨⟨⟨fun e => hempty e.symm, h1⟩, fun hm => (h3 _ hm).1 rfl, h2⟩, hseen,
              fun id hid => (h3 id hid).2⟩
          · rintro ⟨⟨⟨-, h1⟩, h2, h3⟩, -, h4⟩
            exact ⟨⟨h1, h3⟩, fun id hid => ⟨fun e => h2 (e ▸ hid), h4 id hid⟩⟩
        rw [if_congr hcond rfl rfl]
        simp

/-- One message. -/
theorem Validator.check_spec {v : Validator} (hv : v.Inv) (messageIndex : ℕ)
    (message : ChatMessage) :
    ((v.check messageIndex message).toOption = none ∧
        openCheck v.pendingToolCalls message = none) ∨
      ∃ v', v.check messageIndex message = .ok v' ∧ v'.Inv ∧
        openCheck v.pendingToolCalls message = some v'.pendingToolCalls := by
  -- the messages that only need all calls answered
  have hplain : ((if v.pendingToolCalls ≠ [] then .error (unanswered v messageIndex)
        else .ok v : Except String Validator).toOption = none ∧
        (if v.pendingToolCalls = [] then some ([] : List String) else none) = none) ∨
      ∃ v', (if v.pendingToolCalls ≠ [] then .error (unanswered v messageIndex)
        else .ok v : Except String Validator) = .ok v' ∧ v'.Inv ∧
        (if v.pendingToolCalls = [] then some ([] : List String) else none)
          = some v'.pendingToolCalls := by
    by_cases hopen : v.pendingToolCalls = []
    · exact .inr ⟨v, by simp [hopen], hv, by simp [hopen]⟩
    · exact .inl (by simp [hopen, Except.toOption])
  cases message with
  | system | user => exact hplain
  | assistant _ _ calls =>
    rcases calls with - | ⟨call, calls⟩
    · exact hplain
    rw [check, openCheck]
    by_cases hopen : v.pendingToolCalls = []
    swap
    · exact .inl (by simp [hopen, Except.toOption])
    rw [if_neg (by simp [hopen])]
    have hadd := addCalls_spec messageIndex (call :: calls) v
    rw [hv.cleared hopen, hopen] at hadd
    by_cases hgood : GoodIds ((call :: calls).map ChatToolCall.id)
    · rw [if_pos ⟨hgood, fun _ _ => not_mem_nil⟩] at hadd
      rw [if_pos ⟨hopen, hgood⟩]
      rcases hres : v.addCalls messageIndex (call :: calls) with e | v'
      · simp [hres, Except.toOption] at hadd
      · rw [hres] at hadd
        cases Option.some.inj hadd
        exact .inr ⟨_, rfl, ⟨fun h => by simp at h, hgood.1⟩, rfl⟩
    · rw [if_neg fun h => hgood h.1] at hadd
      rw [if_neg fun h => hgood h.2]
      rcases hres : v.addCalls messageIndex (call :: calls) with e | v'
      · exact .inl ⟨rfl, rfl⟩
      · simp [hres, Except.toOption] at hadd
  | tool id =>
    rw [check, openCheck]
    by_cases hmem : id ∈ v.pendingToolCalls
    swap
    · left
      rw [if_neg hmem]
      refine ⟨?_, rfl⟩
      split
      · rfl
      · split
        all_goals rfl
    right
    have hid : id ≠ "" := fun h => hv.named (h ▸ hmem)
    rw [if_neg hid, if_neg (ne_nil_of_mem hmem), if_neg (by simpa using hmem), if_pos hmem]
    refine ⟨_, rfl, ?_, ?_⟩
    · split
      · exact ⟨fun _ => rfl, not_mem_nil⟩
      · next hne => exact ⟨fun h => absurd h hne, fun h => hv.named (mem_of_mem_erase h)⟩
    · split
      · next hnil => rw [hnil]
      · rfl

theorem checkFrom_spec {v : Validator} (hv : v.Inv) (messageIndex : ℕ)
    (messages : List ChatMessage) :
    (checkFrom messageIndex v messages).toOption.map (·.pendingToolCalls)
      = messages.foldlM openCheck v.pendingToolCalls := by
  induction messages generalizing v messageIndex with
  | nil => rfl
  | cons message _ ih =>
    rw [checkFrom, foldlM_cons]
    rcases Validator.check_spec hv messageIndex message with ⟨hfail, hopen⟩ | ⟨v', hok, hv', hopen⟩
    · rcases hres : v.check messageIndex message with e | v'
      · rw [hopen]
        rfl
      · rw [hres] at hfail
        cases hfail
    · rw [hok, hopen]
      exact ih hv' (messageIndex + 1)

variable (messages : List ChatMessage)

/-- **A message list is valid exactly when every call is answered in its turn.** -/
theorem validateToolCallHistory_isOk_iff :
    (validateToolCallHistory messages).isOk ↔ openAfter messages = some [] := by
  have hspec := checkFrom_spec (v := ⟨[], [], none⟩) ⟨fun _ => rfl, not_mem_nil⟩ 0 messages
  rw [validateToolCallHistory, openAfter, ← hspec]
  rcases checkFrom 0 ⟨[], [], none⟩ messages with e | v
  · simp [Except.toOption, Except.isOk, Except.toBool]
  · by_cases hopen : v.pendingToolCalls = [] <;>
      simp [hopen, Except.toOption, Except.isOk, Except.toBool]

/-! ### What an item does to the converter -/

def wireToken : ResponseItem → Token String
  | .message _ role _ => if role = "assistant" then .assistant else .other
  | .functionCallOutput _ (some callId) _ _ _ _ => .output callId
  | .customToolCallOutput _ callId _ _ _ => .output callId
  | .toolSearchOutput _ (some callId) _ execution _ _ =>
    if execution = "client" then .output callId else .cut
  | .functionCall _ _ _ _ callId => .call callId
  | .customToolCall _ callId _ _ _ => .call callId
  | .localShellCall _ (some callId) _ => .call callId
  | .toolSearchCall _ (some callId) _ _ => .call callId
  | .reasoning .. => .reasoning
  | .compaction .. => .other
  | .contextCompaction _ (some _) => .other
  | _ => .cut

def validId (id : String) : Bool := id ≠ ""

/-- A message without calls that answers none. -/
def IsPlain (message : ChatMessage) : Prop :=
  ∀ opened, openCheck opened message = if opened = [] then some [] else none

inductive Effect : Token String → Converter → Converter → Prop
  | call (c : Converter) (call : ChatToolCall) : Effect (.call call.id) c (c.pushCall call)
  | output (c : Converter) (id content : String) (images : List ChatContentPart) :
    Effect (.output id) c (c.flushPendingAssistant.pushTool id content images)
  | assistant (c : Converter) (text : String) :
    Effect .assistant c (c.flushPendingToolOutputImages.pushAssistantText text)
  | reasoning (c : Converter) (content : Option (List String)) :
    Effect .reasoning c (c.pushReasoning content)
  | cut (c : Converter) : Effect .cut c c.flushPendingAssistant
  | message (c : Converter) {m : ChatMessage} (hm : IsPlain m) :
    Effect .other c (c.flushPendingToolOutputImages.flushPendingAssistant.push m)
  | compaction (c : Converter) {m : ChatMessage} (hm : IsPlain m) :
    Effect .other c (c.flushPendingAssistant.push m)

theorem step_effect (ser : Serializer) (c : Converter) (item : ResponseItem) :
    Effect (wireToken item) c (c.step ser item) := by
  cases item with
  | message =>
    rw [wireToken, Converter.step]
    split
    · next hrole =>
      rw [if_neg (by simp [hrole])]
      exact .assistant c _
    · split
      all_goals exact .message c fun _ => rfl
  | functionCallOutput _ callId =>
    rcases callId with - | callId
    · exact .cut c
    · exact .output c callId _ _
  | customToolCallOutput _ callId => exact .output c callId _ _
  | toolSearchOutput _ callId =>
    rcases callId with - | callId
    · exact .cut c
    · rw [wireToken, Converter.step]
      split
      · exact .output c callId _ _
      · exact .cut c
  | functionCall _ _ _ _ callId => exact .call c ⟨callId, _, _⟩
  | customToolCall _ callId => exact .call c ⟨callId, _, _⟩
  | localShellCall _ callId =>
    rcases callId with - | callId
    · exact .cut c
    · exact .call c ⟨callId, _, _⟩
  | toolSearchCall _ callId =>
    rcases callId with - | callId
    · exact .cut c
    · exact .call c ⟨callId, _, _⟩
  | reasoning _ content => exact .reasoning c content
  | compaction => exact .compaction c fun _ => rfl
  | contextCompaction _ encryptedContent =>
    rcases encryptedContent with - | encryptedContent
    · exact .cut c
    · exact .compaction c fun _ => rfl
  | _ => exact .cut c

/-! ### The converter simulates the checker -/

theorem openAfter_concat (message : ChatMessage) :
    openAfter (messages ++ [message]) = (openAfter messages).bind (openCheck · message) := by
  simp [openAfter, foldlM_append]

/-- The calls of `opened` wait for their outputs. -/
structure Draining (c : Converter) (opened : List String) : Prop where
  noCalls : c.pendingToolCalls = []
  checked : openAfter c.messages = some opened
  unmatched : ∀ id, id ∈ c.unmatchedToolCalls ↔ id ∈ opened
  good : GoodIds opened
  quiet : opened ≠ [] → c.pendingReasoning = none ∧ c.pendingAssistantContent = none

/-- The message of the calls `ids` is held back. -/
structure Collecting (c : Converter) (ids : List String) : Prop where
  calls : c.pendingToolCalls.map ChatToolCall.id = ids
  ne_nil : ids ≠ []
  checked : openAfter c.messages = some []
  matched : c.unmatchedToolCalls = []
  good : GoodIds ids

/-- The converter holds an assistant message back. -/
def Converter.Holding (c : Converter) : Prop :=
  c.pendingToolCalls ≠ [] ∨ c.pendingReasoning ≠ none ∨ c.pendingAssistantContent ≠ none

/-- No continuation is accepted. -/
inductive Doomed (c : Converter) : Prop
  | invalid (h : openAfter c.messages = none)
  /-- A message is held back that the calls before it do not allow. -/
  | early {opened : List String} (h : openAfter c.messages = some opened) (hne : opened ≠ [])
      (hold : c.Holding)
  | ids {opened : List String} (h : openAfter c.messages = some opened)
      (hne : c.pendingToolCalls ≠ []) (hbad : ¬ GoodIds (c.pendingToolCalls.map ChatToolCall.id))

def Simulates (c : Converter) : Option (State String) → Prop
  | none => Doomed c
  | some (.draining opened) => Draining c opened
  | some (.collecting ids) => Collecting c ids

/-! #### Sending what is held back -/

open Draining

section Flush

variable {c : Converter} {opened ids : List String}

theorem flush_eq_self (h : ¬ c.Holding) : c.flushPendingAssistant = c := by
  simp only [Converter.Holding, not_or, not_not] at h
  simp [Converter.flushPendingAssistant, h.1, h.2.1, h.2.2]

theorem flush_eq (h : c.Holding) : c.flushPendingAssistant =
    { c with
      messages := c.messages ++
        [.assistant (c.pendingAssistantContent.getD "") c.pendingReasoning c.pendingToolCalls]
      pendingToolCalls := []
      pendingReasoning := none
      pendingAssistantContent := none
      unmatchedToolCalls := c.unmatchedToolCalls ++ c.pendingToolCalls.map ChatToolCall.id } := by
  rw [Converter.flushPendingAssistant, if_neg]
  simpa [Converter.Holding, Option.isSome_iff_ne_none, imp_iff_not_or, not_or, or_assoc] using h

theorem not_holding_flush (c : Converter) : ¬ c.flushPendingAssistant.Holding := by
  by_cases h : c.Holding
  · rw [flush_eq h]
    simp [Converter.Holding]
  · rwa [flush_eq_self h]

theorem Draining.flush (h : Draining c opened) : Draining c.flushPendingAssistant opened := by
  by_cases hold : c.Holding
  swap
  · rwa [flush_eq_self hold]
  have hnil : opened = [] := by
    by_contra hne
    obtain ⟨hreasoning, hcontent⟩ := h.quiet hne
    simp [Converter.Holding, h.noCalls, hreasoning, hcontent] at hold
  subst hnil
  rw [flush_eq hold, h.noCalls]
  refine ⟨rfl, ?_, by simpa using h.unmatched, h.good, fun hne => absurd rfl hne⟩
  rw [openAfter_concat, h.checked]
  rfl

theorem Collecting.flush (h : Collecting c ids) : Draining c.flushPendingAssistant ids := by
  have hcalls : c.pendingToolCalls ≠ [] := fun hnil => h.ne_nil (by rw [← h.calls, hnil]; rfl)
  rw [flush_eq (.inl hcalls)]
  refine ⟨rfl, ?_, by simp [h.matched, h.calls], h.good, fun _ => ⟨rfl, rfl⟩⟩
  rw [openAfter_concat, h.checked]
  obtain ⟨call, calls, hcons⟩ := exists_cons_of_ne_nil hcalls
  have hids := h.calls
  have hgood := h.good
  rw [hcons] at hids ⊢
  subst hids
  rw [Option.bind_some, openCheck, if_pos ⟨rfl, hgood⟩]

theorem Doomed.flush (h : Doomed c) : openAfter c.flushPendingAssistant.messages = none := by
  by_cases hold : c.Holding
  · rw [flush_eq hold]
    rw [openAfter_concat]
    rcases h with h | ⟨h, hne, -⟩ | ⟨h, hne, hbad⟩
    · rw [h]
      rfl
    · rw [h]
      rcases c.pendingToolCalls with - | ⟨call, calls⟩ <;> simp [openCheck, hne]
    · rw [h, Option.bind_some]
      obtain ⟨call, calls, hcons⟩ := exists_cons_of_ne_nil hne
      rw [hcons] at hbad ⊢
      rw [openCheck, if_neg fun hgood => hbad hgood.2]
  · rw [flush_eq_self hold]
    rcases h with h | ⟨-, -, h⟩ | ⟨-, h, -⟩
    · exact h
    · exact absurd h hold
    · exact absurd (.inl h) hold

/-- Images go out only while no call is open. -/
theorem flushImages_eq (c : Converter) : c.flushPendingToolOutputImages = c ∨
    c.unmatchedToolCalls = [] ∧ ∃ content, c.flushPendingToolOutputImages =
      { c with messages := c.messages ++ [.user content], pendingToolOutputImages := [] } := by
  rw [Converter.flushPendingToolOutputImages]
  split
  · exact .inl rfl
  · next h =>
    simp only [Bool.or_eq_true, not_or, Bool.not_eq_true', Bool.not_eq_true] at h
    exact .inr ⟨by simpa using h.2, _, rfl⟩

theorem Draining.eq_nil_of_matched (h : Draining c opened) (hc : c.unmatchedToolCalls = []) :
    opened = [] := by
  refine eq_nil_iff_forall_not_mem.mpr fun id hid => ?_
  rw [← h.unmatched, hc] at hid
  cases hid

theorem Simulates.flushImages {s : Option (State String)} (h : Simulates c s) :
    Simulates c.flushPendingToolOutputImages s := by
  rcases flushImages_eq c with heq | ⟨hmatched, content, heq⟩
  · rwa [heq]
  rw [heq]
  rcases s with - | (ids | opened)
  · rcases h with h | ⟨h, hne, hold⟩ | @⟨opened, h, hne, hbad⟩
    · exact .invalid (by simp [openAfter_concat, h])
    · exact .invalid (by simp [openAfter_concat, h, openCheck, hne])
    · by_cases hnil : opened = []
      · have hopen : openAfter (c.messages ++ [.user content]) = some [] := by
          simp [openAfter_concat, h, openCheck, hnil]
        exact .ids hopen hne hbad
      · exact .invalid (by simp [openAfter_concat, h, openCheck, hnil])
  · exact ⟨h.calls, h.ne_nil, by simp [openAfter_concat, h.checked, openCheck], h.matched, h.good⟩
  · have hnil := eq_nil_of_matched h hmatched
    subst hnil
    exact ⟨h.noCalls, by simp [openAfter_concat, h.checked, openCheck], h.unmatched, h.good,
      h.quiet⟩

end Flush

/-! #### One item -/

section Step

variable {c : Converter} {opened ids : List String} {s : Option (State String)}

theorem GoodIds.erase (h : GoodIds ids) (id : String) : GoodIds (ids.erase id) :=
  ⟨fun hmem => h.1 (mem_of_mem_erase hmem), h.2.erase id⟩

theorem simulates_pushTool (h : Draining c opened) (hold : ¬ c.Holding) (id content : String)
    (images : List ChatContentPart) :
    Simulates (c.pushTool id content images) (step validId (.draining opened) (.output id)) := by
  have hchecked : openAfter (c.pushTool id content images).messages
      = if id ∈ opened then some (opened.erase id) else none := by
    show openAfter (c.messages ++ [.tool id content]) = _
    rw [openAfter_concat, h.checked]
    rfl
  rw [step]
  split
  · next hmem =>
    rw [if_pos hmem] at hchecked
    refine ⟨h.noCalls, hchecked, fun other => ?_, h.good.erase id, fun _ => ?_⟩
    · simp [Converter.pushTool, h.unmatched, h.good.2.mem_erase_iff, and_comm]
    · simpa [Converter.Holding, Converter.pushTool, h.noCalls] using hold
  · next hmem =>
    rw [if_neg hmem] at hchecked
    exact .invalid hchecked

theorem simulates_push (h : Draining c opened) {m : ChatMessage} (hm : IsPlain m) :
    Simulates (c.push m) (step validId (.draining opened) .other) := by
  have hchecked : openAfter (c.push m).messages = if opened = [] then some [] else none := by
    show openAfter (c.messages ++ [m]) = _
    rw [openAfter_concat, h.checked]
    exact hm opened
  rw [step]
  split
  · next hnil =>
    subst hnil
    exact ⟨h.noCalls, hchecked, h.unmatched, h.good, fun hne => absurd rfl hne⟩
  · next hne =>
    rw [if_neg hne] at hchecked
    exact .invalid hchecked

/-- Sending what is held back is reading a cut. -/
theorem Simulates.flush (h : Simulates c s) :
    Simulates c.flushPendingAssistant (s.bind (step validId · .cut)) := by
  rcases s with - | (ids | opened)
  · exact .invalid h.flush
  · exact Collecting.flush h
  · exact flush h

theorem simulates_output (h : Simulates c s) (id content : String) (images : List ChatContentPart) :
    Simulates (c.flushPendingAssistant.pushTool id content images)
      (s.bind (step validId · (.output id))) := by
  rcases s with - | (ids | opened)
  · refine .invalid ?_
    show openAfter (_ ++ [_]) = none
    rw [openAfter_concat, Doomed.flush h]
    rfl
  · exact simulates_pushTool (Collecting.flush h) (not_holding_flush c) id content images
  · exact simulates_pushTool (flush h) (not_holding_flush c) id content images

theorem simulates_other (h : Simulates c s) {m : ChatMessage} (hm : IsPlain m) :
    Simulates (c.flushPendingAssistant.push m) (s.bind (step validId · .other)) := by
  rcases s with - | (ids | opened)
  · refine .invalid ?_
    show openAfter (_ ++ [_]) = none
    rw [openAfter_concat, Doomed.flush h]
    rfl
  · have hpush := simulates_push (Collecting.flush h) hm
    rw [step, if_neg h.ne_nil] at hpush
    exact hpush
  · exact simulates_push (flush h) hm

theorem goodIds_concat {id : String} :
    GoodIds (ids ++ [id]) ↔ GoodIds ids ∧ validId id ∧ id ∉ ids := by
  simp only [GoodIds, validId, mem_append, mem_singleton, nodup_append, decide_eq_true_eq, not_or]
  constructor
  · rintro ⟨⟨h1, h2⟩, h3, -, h4⟩
    exact ⟨⟨h1, h3⟩, fun e => h2 e.symm, fun hmem => h4 id hmem id rfl rfl⟩
  · rintro ⟨⟨h1, h2⟩, h3, h4⟩
    exact ⟨⟨h1, fun e => h3 e.symm⟩, h2, nodup_cons.mpr ⟨not_mem_nil, nodup_nil⟩, fun a ha b hb e => h4 (hb ▸ e ▸ ha)⟩

section

variable (h : Simulates c s)
include h

theorem simulates_call (call : ChatToolCall) :
    Simulates (c.pushCall call) (s.bind (step validId · (.call call.id))) := by
  have hids : (c.pushCall call).pendingToolCalls.map ChatToolCall.id
      = c.pendingToolCalls.map ChatToolCall.id ++ [call.id] := by
    simp [Converter.pushCall]
  have hne : (c.pushCall call).pendingToolCalls ≠ [] := by simp [Converter.pushCall]
  rcases s with - | (ids | opened)
  · rcases h with h | ⟨h, hopen, -⟩ | ⟨h, -, hbad⟩
    · exact .invalid h
    · exact .early h hopen (.inl hne)
    · refine .ids h hne fun hgood => hbad ?_
      rw [hids] at hgood
      exact (goodIds_concat.mp hgood).1
  · rw [Option.bind_some, step]
    split
    · next hok =>
      exact ⟨by rw [hids, h.calls], by simp, h.checked, h.matched, goodIds_concat.mpr ⟨h.good, hok⟩⟩
    · next hbad =>
      refine .ids h.checked hne fun hgood => hbad ?_
      rw [hids, h.calls] at hgood
      exact (goodIds_concat.mp hgood).2
  · rw [Option.bind_some, step]
    rw [h.noCalls, map_nil] at hids
    split
    · next hok =>
      obtain ⟨rfl, hvalid⟩ := hok
      refine ⟨hids, by simp, h.checked, ?_, ?_⟩
      · exact eq_nil_iff_forall_not_mem.mpr fun id hid => by simpa using (h.unmatched id).mp hid
      · exact goodIds_concat.mpr ⟨⟨not_mem_nil, nodup_nil⟩, hvalid, not_mem_nil⟩
    · next hbad =>
      by_cases hopen : opened = []
      · refine .ids h.checked hne fun hgood => hbad ⟨hopen, ?_⟩
        rw [hids, ← nil_append [call.id]] at hgood
        exact (goodIds_concat.mp hgood).2.1
      · exact .early h.checked hopen (.inl hne)

theorem simulates_assistant (text : String) :
    Simulates (c.pushAssistantText text) (s.bind (step validId · .assistant)) := by
  rw [Converter.pushAssistantText]
  split
  · -- the text joins the calls that are held back
    next hcalls =>
    rcases s with - | (ids | opened)
    · rcases h with h | ⟨h, hopen, -⟩ | ⟨h, hne, hbad⟩
      · exact .invalid h
      · exact .early h hopen (.inl hcalls)
      · exact .ids h hne hbad
    · exact ⟨h.calls, h.ne_nil, h.checked, h.matched, h.good⟩
    · exact absurd h.noCalls hcalls
  · next hcalls =>
    have hnil : c.pendingToolCalls = [] := not_not.mp hcalls
    rcases s with - | (ids | opened)
    · rcases hcontent : c.pendingAssistantContent with - | content
      · rcases h with h | ⟨h, hopen, -⟩ | ⟨h, hne, -⟩
        · exact .invalid h
        · exact .early h hopen (.inr (.inr (Option.some_ne_none _)))
        · exact absurd hnil hne
      · refine .invalid ?_
        rw [openAfter_concat, hnil]
        rcases h with h | ⟨h, hopen, -⟩ | ⟨h, hne, -⟩
        · rw [h]
          rfl
        · simp [h, openCheck, hopen]
        · exact absurd hnil hne
    · exact absurd (by rw [← h.calls, hnil]; rfl) h.ne_nil
    · rw [Option.bind_some, step]
      by_cases hopen : opened = []
      · rw [if_pos hopen]
        subst hopen
        rcases hcontent : c.pendingAssistantContent with - | content
        · exact ⟨h.noCalls, h.checked, h.unmatched, h.good, fun hne => absurd rfl hne⟩
        · refine ⟨rfl, ?_, h.unmatched, h.good, fun hne => absurd rfl hne⟩
          rw [openAfter_concat, h.checked, hnil]
          rfl
      · rw [if_neg hopen, (h.quiet hopen).2]
        exact .early h.checked hopen (.inr (.inr (Option.some_ne_none _)))

theorem simulates_withReasoning
    (hs : ∀ opened, s = some (.draining opened) → opened = []) (text : String) :
    Simulates { c with pendingReasoning := some text } s := by
  rcases s with - | (ids | opened)
  · rcases h with h | ⟨h, hopen, -⟩ | ⟨h, hne, hbad⟩
    · exact .invalid h
    · exact .early h hopen (.inr (.inl (Option.some_ne_none _)))
    · exact .ids h hne hbad
  · exact ⟨h.calls, h.ne_nil, h.checked, h.matched, h.good⟩
  · have hnil := hs opened rfl
    exact ⟨h.noCalls, h.checked, h.unmatched, h.good, fun hne => absurd hnil hne⟩

theorem simulates_reasoning (content : Option (List String)) :
    Simulates (c.pushReasoning content) (s.bind (step validId · .reasoning)) := by
  have hstep : s.bind (step validId · .reasoning) = s := by
    rcases s with - | (ids | opened) <;> rfl
  rw [hstep, Converter.pushReasoning]
  split
  · exact h
  · next hskip =>
    -- here the calls of the state are all answered
    have hs : ∀ opened, s = some (.draining opened) → opened = [] := by
      rintro opened rfl
      refine eq_nil_of_matched h ?_
      by_contra hne
      exact hskip ⟨hne, h.noCalls⟩
    have hflushed : Simulates (if c.pendingToolCalls = [] ∧ c.pendingAssistantContent ≠ none then
        c.flushPendingAssistant else c) s := by
      split
      · next hcalls =>
        rcases s with - | (ids | opened)
        · exact .invalid (Doomed.flush h)
        · exact absurd (by rw [← h.calls, hcalls.1]; rfl) h.ne_nil
        · exact flush h
      · exact h
    rcases content with - | texts
    · exact hflushed
    · dsimp only
      split
      · exact hflushed
      · exact simulates_withReasoning hflushed hs _

end

theorem Effect.simulates {t : Token String} {c' : Converter} (heffect : Effect t c c')
    (h : Simulates c s) : Simulates c' (s.bind (step validId · t)) := by
  cases heffect with
  | call _ call => exact simulates_call h call
  | output _ id content images => exact simulates_output h id content images
  | assistant _ text => exact simulates_assistant h.flushImages text
  | reasoning _ content => exact simulates_reasoning h content
  | cut => exact h.flush
  | message _ hm => exact simulates_other h.flushImages hm
  | compaction _ hm => exact simulates_other h hm

theorem simulates_run (ser : Serializer) (h : Simulates c s) (items : List ResponseItem) :
    Simulates (items.foldl (Converter.step ser) c)
      (s.bind (run validId · (items.map wireToken))) := by
  induction items generalizing c s with
  | nil => rcases s with - | s <;> exact h
  | cons item _ ih =>
    have hrest := ih ((step_effect ser c item).simulates h)
    rcases s with - | s <;> exact hrest

/-- What is left is accepted exactly in the resting state. -/
theorem simulates_end (h : Simulates c s) :
    openAfter c.flushPendingAssistant.flushPendingToolOutputImages.messages = some [] ↔
      s = some (.draining []) := by
  have hend : Simulates c.flushPendingAssistant.flushPendingToolOutputImages
      (s.bind (step validId · .cut)) := h.flush.flushImages
  rcases s with - | (ids | opened)
  · have hdead : openAfter c.flushPendingAssistant.messages = none := Doomed.flush h
    rcases flushImages_eq c.flushPendingAssistant with heq | ⟨-, content, heq⟩ <;> rw [heq]
    · simp [hdead]
    · simp [openAfter_concat, hdead]
  · have hchecked := checked hend
    simp [hchecked, h.ne_nil]
  · have hchecked := checked hend
    simp [hchecked]

end Step

/-- **The projection accepts items exactly when their calls and outputs come in groups.** -/
theorem chatMessagesFromItems_isOk_iff (ser : Serializer) (items : List ResponseItem) :
    (chatMessagesFromItems ser items).isOk ↔
      Accepts validId (.draining []) (items.map wireToken) := by
  have hnew : Simulates .new (some (.draining [])) :=
    ⟨rfl, rfl, fun _ => Iff.rfl, ⟨not_mem_nil, nodup_nil⟩, fun hne => absurd rfl hne⟩
  rw [Accepts, ← Option.bind_some (.draining []) (run validId · _),
    ← simulates_end (simulates_run ser hnew items), ← validateToolCallHistory_isOk_iff,
    chatMessagesFromItems]
  rcases validateToolCallHistory _ with e | - <;> simp [Except.isOk, Except.toBool]

end Chat

end CodexPlus
