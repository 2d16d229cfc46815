/-
CodexPlus/AnthropicValidate.lean

`validate_tool_use_results` of codex-api/src/endpoint/anthropic.rs: the tool uses
of an assistant message are answered in the user message right behind it, and no
id is used twice.

The validator goes through the messages with two variables.  `useCheck` is one
message of it, as a function on the ids of its blocks.
-/
import CodexPlus.AnthropicMessages

namespace CodexPlus

open List

namespace Anthropic

/-! ### The validator -/

/-- The local variables of `validate_tool_use_results`. -/
structure UseValidator where
  toolUseIds : List String
  expectedResults : List String
  deriving DecidableEq, Repr

def invalidAnthropicToolHistory (message : String) : String :=
  "invalid anthropic tool history: " ++ message

namespace UseValidator

/-- The blocks of an assistant message. -/
def addUses (index : ℕ) : UseValidator → List ContentBlock → Except String UseValidator
  | v, [] => .ok v
  | v, .toolUse id _ _ :: blocks =>
    if id ∈ v.toolUseIds then
      .error (invalidAnthropicToolHistory
        ("duplicate tool_use id '" ++ id ++ "' at message index " ++ toString index))
    else addUses index ⟨id :: v.toolUseIds, v.expectedResults ++ [id]⟩ blocks
  | v, _ :: blocks => addUses index v blocks

/-- The blocks of a user message. -/
def checkResults (index : ℕ) (v : UseValidator) : List ContentBlock → Except String Unit
  | [] => .ok ()
  | .toolResult toolUseId _ _ :: blocks =>
    if toolUseId ∉ v.toolUseIds then
      .error (invalidAnthropicToolHistory ("tool_result '" ++ toolUseId ++ "' at message index " ++
        toString index ++ " references an unknown tool_use"))
    else if toolUseId ∉ v.expectedResults then
      .error (invalidAnthropicToolHistory ("tool_result '" ++ toolUseId ++ "' at message index " ++
        toString index ++ " is not in the user message immediately following its tool_use"))
    else checkResults index v blocks
  | _ :: blocks => checkResults index v blocks

def isResultFor (id : String) : ContentBlock → Bool
  | .toolResult toolUseId _ _ => toolUseId = id
  | _ => false

def check (v : UseValidator) (index : ℕ) (message : AnthropicMessage) :
    Except String UseValidator :=
  match message.role with
  | .assistant =>
    if v.expectedResults ≠ [] then
      .error (invalidAnthropicToolHistory ("tool_use blocks at message index " ++ toString index ++
        " are not immediately followed by their tool_result"))
    else v.addUses index message.content
  | .user => do
    v.checkResults index message.content
    match v.expectedResults.find? fun id => ! message.content.any (isResultFor id) with
    | some missing =>
      .error (invalidAnthropicToolHistory ("tool_use '" ++ missing ++ "' at message index " ++
        toString index ++ " has no immediately following tool_result"))
    | none => .ok ⟨v.toolUseIds, []⟩

def checkFrom : (index : ℕ) → UseValidator → List AnthropicMessage → Except String UseValidator
  | _, v, [] => .ok v
  | index, v, message :: messages => do
    let v ← v.check index message
    checkFrom (index + 1) v messages

end UseValidator

def validateToolUseResults (messages : List AnthropicMessage) : Except String Unit := do
  let v ← UseValidator.checkFrom 0 ⟨[], []⟩ messages
  match v.expectedResults with
  | [] => .ok ()
  | unanswered :: _ =>
    .error (invalidAnthropicToolHistory
      ("tool_use '" ++ unanswered ++ "' has no following tool_result"))

/-! ### What it accepts -/

def ContentBlock.useId : ContentBlock → Option String
  | .toolUse id _ _ => some id
  | _ => none

def ContentBlock.resultId : ContentBlock → Option String
  | .toolResult toolUseId _ _ => some toolUseId
  | _ => none

def useIds (blocks : List ContentBlock) : List String := blocks.filterMap ContentBlock.useId

def resultIds (blocks : List ContentBlock) : List String := blocks.filterMap ContentBlock.resultId

/-- The ids used so far and those that wait for their results. -/
structure Uses where
  seen : List String
  expected : List String
  deriving DecidableEq, Repr

/-- One message. -/
def useCheck (u : Uses) (message : AnthropicMessage) : Option Uses :=
  match message.role with
  | .assistant =>
    if u.expected = [] ∧ (u.seen ++ useIds message.content).Nodup then
      some ⟨u.seen ++ useIds message.content, useIds message.content⟩
    else none
  | .user =>
    if (∀ id ∈ resultIds message.content, id ∈ u.expected) ∧
        ∀ id ∈ u.expected, id ∈ resultIds message.content then
      some ⟨u.seen, []⟩
    else none

def useAfter (messages : List AnthropicMessage) : Option Uses := messages.foldlM useCheck ⟨[], []⟩

variable (messages : List AnthropicMessage)

theorem useAfter_concat (message : AnthropicMessage) :
    useAfter (messages ++ [message]) = (useAfter messages).bind (useCheck · message) := by
  simp [useAfter, foldlM_append]

/-- The validator's variables, as `useCheck` counts them. -/
structure UseValidator.Tracks (v : UseValidator) (u : Uses) : Prop where
  ids : v.toolUseIds = u.seen.reverse
  expected : v.expectedResults = u.expected
  distinct : u.seen.Nodup
  used : ∀ id ∈ u.expected, id ∈ u.seen

namespace UseValidator

variable {v : UseValidator} {u : Uses} (index : ℕ) (blocks : List ContentBlock)

theorem addUses_spec (hv : v.toolUseIds = u.seen.reverse) (hu : u.seen.Nodup) :
    (v.addUses index blocks).toOption =
      if (u.seen ++ useIds blocks).Nodup then
        some ⟨(u.seen ++ useIds blocks).reverse, v.expectedResults ++ useIds blocks⟩
      else none := by
  induction blocks generalizing v u with
  | nil =>
    rcases v with ⟨ids, expected⟩
    simp only [addUses, useIds, filterMap_nil, append_nil, if_pos hu]
    rw [show ids = u.seen.reverse from hv]
    rfl
  | cons block blocks ih =>
    cases block with
    | toolUse id name input =>
      have hids : useIds (.toolUse id name input :: blocks) = id :: useIds blocks := rfl
      rw [addUses, hids, append_cons u.seen, append_cons v.expectedResults id (useIds blocks)]
      split
      · next hmem =>
        rw [if_neg]
        · rfl
        · intro hnodup
          have hseen : id ∈ u.seen := by simpa [hv] using hmem
          have hfresh := (nodup_append.mp (nodup_append.mp hnodup).1).2.2
          exact hfresh id hseen id mem_cons_self rfl
      · next hmem =>
        have hseen : id ∉ u.seen := by simpa [hv] using hmem
        have hnext : (u.seen ++ [id]).Nodup :=
          nodup_append.mpr ⟨hu, by simp, fun a ha b hb => by
            rw [mem_singleton.mp hb]
            exact fun heq => hseen (heq ▸ ha)⟩
        have hv' : (⟨id :: v.toolUseIds, v.expectedResults ++ [id]⟩ : UseValidator).toolUseIds
            = (u.seen ++ [id]).reverse := by
          rw [reverse_append, ← hv]
          rfl
        have hrest := ih (u := ⟨u.seen ++ [id], u.expected⟩) hv' hnext
        exact hrest
    | text | image | toolResult | thinking | redactedThinking => exact ih hv hu

theorem checkResults_spec (hv : v.Tracks u) :
    (v.checkResults index blocks).isOk ↔ ∀ id ∈ resultIds blocks, id ∈ u.expected := by
  induction blocks with
  | nil => simp [checkResults, resultIds, Except.isOk, Except.toBool]
  | cons block blocks ih =>
    cases block with
    | toolResult toolUseId content isError =>
      have hids : resultIds (.toolResult toolUseId content isError :: blocks)
          = toolUseId :: resultIds blocks := rfl
      rw [checkResults, hids, forall_mem_cons, ← ih, hv.ids, hv.expected]
      split
      · next hunknown =>
        have hnot : toolUseId ∉ u.expected := fun h => hunknown (by simpa using hv.used _ h)
        exact iff_of_false (by simp [Except.isOk, Except.toBool]) fun h => hnot h.1
      · split
        · next hnot => exact iff_of_false (by simp [Except.isOk, Except.toBool]) fun h => hnot h.1
        · next hmem => exact ⟨fun h => ⟨not_not.mp hmem, h⟩, fun h => h.2⟩
    | text | image | toolUse | thinking | redactedThinking => exact ih

theorem any_isResultFor (id : String) (blocks : List ContentBlock) :
    blocks.any (isResultFor id) ↔ id ∈ resultIds blocks := by
  rw [any_eq_true, resultIds, mem_filterMap]
  refine exists_congr fun block => and_congr_right fun _ => ?_
  cases block <;> simp [isResultFor, ContentBlock.resultId]

/-- One message. -/
theorem check_spec (hv : v.Tracks u) (index : ℕ) (message : AnthropicMessage) :
    ((v.check index message).toOption = none ∧ useCheck u message = none) ∨
      ∃ v' u', v.check index message = .ok v' ∧ useCheck u message = some u' ∧ v'.Tracks u' := by
  rcases message with ⟨- | -, content⟩
  · -- a user message
    rw [check]
    by_cases hresults : ∀ id ∈ resultIds content, id ∈ u.expected
    · have hok := (checkResults_spec index content hv).mpr hresults
      rcases hres : v.checkResults index content with e | _
      · rw [hres] at hok
        cases hok
      rcases hfind : v.expectedResults.find? fun id => ! content.any (isResultFor id) with - | missing
      · rw [find?_eq_none] at hfind
        refine .inr ⟨⟨v.toolUseIds, []⟩, ⟨u.seen, []⟩, rfl, if_pos ⟨hresults, fun id hid => ?_⟩,
          hv.ids, rfl, hv.distinct, fun id hid => absurd hid not_mem_nil⟩
        rw [← hv.expected] at hid
        rw [← any_isResultFor]
        simpa using hfind id hid
      · refine .inl ⟨rfl, if_neg fun hall => ?_⟩
        have hmem := mem_of_find?_eq_some hfind
        have hnot := find?_some hfind
        rw [hv.expected] at hmem
        rw [(any_isResultFor missing content).mpr (hall.2 missing hmem)] at hnot
        cases hnot
    · have hbad := mt (checkResults_spec index content hv).mp hresults
      rcases hres : v.checkResults index content with e | _
      · exact .inl ⟨rfl, if_neg fun hall => hresults hall.1⟩
      · rw [hres] at hbad
        exact absurd rfl hbad
  · -- an assistant message
    rw [check]
    rw [hv.expected]
    by_cases hexpected : u.expected = []
    swap
    · exact .inl ⟨by rw [if_pos hexpected]; rfl, if_neg fun h => hexpected h.1⟩
    rw [if_neg (not_not.mpr hexpected)]
    have hadd := addUses_spec index content hv.ids hv.distinct
    rw [hv.expected, hexpected] at hadd
    by_cases hnodup : (u.seen ++ useIds content).Nodup
    · rw [if_pos hnodup] at hadd
      rcases hres : v.addUses index content with e | v'
      · rw [hres] at hadd
        cases hadd
      · rw [hres] at hadd
        cases Option.some.inj hadd
        exact .inr ⟨_, ⟨u.seen ++ useIds content, useIds content⟩, rfl, if_pos ⟨hexpected, hnodup⟩, rfl,
          rfl, hnodup, fun id hid => mem_append_right _ hid⟩
    · rw [if_neg hnodup] at hadd
      refine .inl ⟨hadd, if_neg fun h => hnodup h.2⟩

theorem checkFrom_spec (hv : v.Tracks u) (index : ℕ) (messages : List AnthropicMessage) :
    (checkFrom index v messages).toOption.map (·.expectedResults)
      = (messages.foldlM useCheck u).map (·.expected) := by
  induction messages generalizing v u index with
  | nil => exact congrArg some hv.expected
  | cons message _ ih =>
    rw [checkFrom, foldlM_cons]
    rcases check_spec hv index message with ⟨hfail, hnone⟩ | ⟨v', u', hok, hsome, hv'⟩
    · rcases hres : v.check index message with e | v'
      · rw [hnone]
        rfl
      · rw [hres] at hfail
        cases hfail
    · rw [hok, hsome]
      exact ih hv' (index + 1)

end UseValidator

variable {messages : List AnthropicMessage}

theorem nodup_foldlM_useCheck {u u' : Uses} (hu : u.seen.Nodup)
    (h : messages.foldlM useCheck u = some u') : u'.seen.Nodup := by
  induction messages generalizing u with
  | nil =>
    cases Option.some.inj h
    exact hu
  | cons _ _ ih =>
    obtain ⟨next, hcheck, hrest⟩ := Option.bind_eq_some_iff.mp h
    refine ih ?_ hrest
    rw [useCheck] at hcheck
    split at hcheck
    · split at hcheck
      · next hgood =>
        cases Option.some.inj hcheck
        exact hgood.2
      · cases hcheck
    · split at hcheck
      · cases Option.some.inj hcheck
        exact hu
      · cases hcheck

theorem nodup_seen {seen expected : List String}
    (h : useAfter messages = some ⟨seen, expected⟩) : seen.Nodup :=
  nodup_foldlM_useCheck nodup_nil h

/-- **The messages are valid exactly when `useCheck` accepts them and no use is left without a
result.** -/
theorem validateToolUseResults_isOk_iff :
    (validateToolUseResults messages).isOk ↔ (useAfter messages).map (·.expected) = some [] := by
  have htracks : (⟨[], []⟩ : UseValidator).Tracks ⟨[], []⟩ :=
    ⟨rfl, rfl, nodup_nil, fun id hid => absurd hid not_mem_nil⟩
  rw [useAfter, ← UseValidator.checkFrom_spec htracks 0, validateToolUseResults]
  rcases UseValidator.checkFrom 0 ⟨[], []⟩ messages with e | ⟨ids, - | ⟨unanswered, rest⟩⟩
  all_goals simp [bind, Except.bind, Except.isOk, Except.toBool, Except.toOption]

end Anthropic

end CodexPlus
