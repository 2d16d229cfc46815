/-
CodexPlus/ChatBody.lean

The body of a Chat Completions request under its two `extra_body` layers:
`finalize_chat_body` and `merge_extra_body` of codex-api/src/endpoint/chat_body.rs.

A layer is a map, so no key comes twice; the order in which its entries are merged is
open.  A key other than `stream_options` is replaced by the layer's value, and the options
of `stream_options` are replaced one by one.
-/
import CodexPlus.ChatStream
import CodexPlus.JsonPath

namespace CodexPlus

namespace ChatBody

def thinkingBudgetKey : String := "thinking_budget"

def reasoningEffortKey : String := "reasoning_effort"

def streamOptionsKey : String := "stream_options"

def includeUsageKey : String := "include_usage"

def streamKey : String := "stream"

/-- An `extra_body`: the entries of a map, in the order it iterates them. -/
structure ExtraBody where
  entries : List (String × Json)
  unique : (Json.object entries).uniqueKeys

/-! ### The merge -/

/-- The options of a layer over those of the body; usage reporting stays on. -/
def mergeStreamOptions (base extra : List (String × Json)) : List (String × Json) :=
  Entries.insert includeUsageKey (.bool true)
    (extra.foldl (fun options option => Entries.insert option.1 option.2 options) base)

/-- The loop body of `merge_extra_body`. -/
def mergeEntry (body : List (String × Json)) (entry : String × Json) :
    Except ApiError (List (String × Json)) :=
  if entry.1 = streamOptionsKey then
    match body.lookup streamOptionsKey with
    | some (.object base) =>
      match entry.2 with
      | .object extra =>
        .ok (Entries.insert streamOptionsKey (.object (mergeStreamOptions base extra)) body)
      | _ => .error (.stream "extra_body.stream_options must be an object")
    | _ => .ok body
  else if entry.2.isNull && (body.lookup entry.1).isSome then
    -- `null` removes a field that is there
    .ok (Entries.remove entry.1 body)
  else .ok (Entries.insert entry.1 entry.2 body)

def mergeExtraBody (body : Json) (extraBody : ExtraBody) : Except ApiError Json :=
  match body with
  | .object entries => (extraBody.entries.foldlM mergeEntry entries).map .object
  | body => .ok body

/-- Whether a value other than `null` is given for the key. -/
def declares (key : String) (extraBody : ExtraBody) : Bool :=
  (extraBody.entries.lookup key).any (! ·.isNull)

def remove (key : String) : Json → Json
  | .object entries => .object (Entries.remove key entries)
  | body => body

def finalizeChatBody (body : Json) (providerExtraBody modelExtraBody : ExtraBody) :
    Except ApiError Json := do
  let body ← mergeExtraBody body providerExtraBody
  let body ← mergeExtraBody body modelExtraBody
  let budgetOnTheWire := (body.get thinkingBudgetKey).any (! ·.isNull)
  let effortDeclared := [providerExtraBody, modelExtraBody].any (declares reasoningEffortKey)
  .ok (if budgetOnTheWire && ! effortDeclared then remove reasoningEffortKey body else body)

/-! ### What the merge does to a key -/

/-- The stream options after a layer that has some. -/
def changedOptions (old : Option Json) (value : Json) : Option Json :=
  match old, value with
  | some (.object base), .object extra => some (.object (mergeStreamOptions base extra))
  | old, _ => old

/-- The value of a key after a layer that has the key. -/
def changed (key : String) (old : Option Json) (value : Json) : Option Json :=
  if key = streamOptionsKey then changedOptions old value
  else if value.isNull && old.isSome then none
  else some value

/-- The value of a key after a layer. -/
def layered (key : String) (old value : Option Json) : Option Json :=
  match value with
  | some value => changed key old value
  | none => old

variable {body : List (String × Json)}

open Entries

theorem mergeEntry_lookup {body' : List (String × Json)} {entry : String × Json}
    (h : mergeEntry body entry = .ok body') (key : String) :
    body'.lookup key =
      if key = entry.1 then changed key (body.lookup key) entry.2 else body.lookup key := by
  rw [mergeEntry] at h
  obtain ⟨name, value⟩ := entry
  dsimp only at h ⊢
  by_cases hname : name = streamOptionsKey
  · subst hname
    rw [if_pos rfl] at h
    by_cases hkey : key = streamOptionsKey
    · subst hkey
      rw [if_pos rfl, changed, if_pos rfl]
      split at h
      · next base hbase =>
        split at h
        · cases h
          rw [lookup_insert, hbase]
          rfl
        · cases h
      · next hbase =>
        cases h
        unfold changedOptions
        split
        · next base extra heq => exact absurd heq (hbase base)
        · rfl
    · rw [if_neg hkey]
      split at h
      · split at h
        · cases h
          rw [lookup_insert, if_neg hkey]
        · cases h
      · cases h
        rfl
  · rw [if_neg hname] at h
    split at h
    · next hnull =>
      cases h
      rw [lookup_remove]
      split
      · next hkey =>
        subst hkey
        rw [changed, if_neg hname, if_pos hnull]
      · rfl
    · next hnull =>
      cases h
      rw [lookup_insert]
      split
      · next hkey =>
        subst hkey
        rw [changed, if_neg hname, if_neg hnull]
      · rfl

variable {extraBody : ExtraBody} {body' : Json}

/-- **A layer.** Every key has the layer's effect on it. -/
theorem mergeExtraBody_lookup (h : mergeExtraBody (.object body) extraBody = .ok body') :
    ∃ merged, body' = .object merged ∧
      ∀ key, merged.lookup key = layered key (body.lookup key) (extraBody.entries.lookup key) := by
  obtain ⟨merged, hmerged, rfl⟩ := map_eq_ok.mp h
  refine ⟨merged, rfl, fun key => ?_⟩
  have hunique := (Json.uniqueKeys_object.mp extraBody.unique).1
  rw [lookup_foldlM (fun _ _ _ => mergeEntry_lookup) hunique hmerged key]
  rcases extraBody.entries.lookup key with - | value
  · rfl
  · rfl

variable {base : List (String × Json)}

/-- Only an object goes over stream options. -/
theorem streamOptions_isObject (h : mergeExtraBody (.object body) extraBody = .ok body')
    (hbase : body.lookup streamOptionsKey = some (.object base)) {value : Json}
    (hvalue : extraBody.entries.lookup streamOptionsKey = some value) : value.isObject := by
  obtain ⟨merged, hmerged, -⟩ := map_eq_ok.mp h
  obtain ⟨between, next, hsame, hnext⟩ :=
    exists_step_of_foldlM (fun _ _ _ => mergeEntry_lookup) hmerged hvalue
  rw [mergeEntry, hsame, hbase] at hnext
  cases value with
  | object => rfl
  | _ => cases hnext

theorem lookup_mergeStreamOptions (base : List (String × Json)) {extra : List (String × Json)}
    (hunique : (Json.object extra).uniqueKeys) (option : String) :
    (mergeStreamOptions base extra).lookup option =
      if option = includeUsageKey then some (.bool true)
      else (extra.lookup option).or (base.lookup option) := by
  rw [mergeStreamOptions, lookup_insert,
    lookup_foldl_insert (Json.uniqueKeys_object.mp hunique).1]

/-! ### What both layers do to a key -/

section Layers

variable (body : List (String × Json)) (provider model : ExtraBody)

/-- The value of a key under both layers. -/
def merged (key : String) : Option Json :=
  layered key (layered key (body.lookup key) (provider.entries.lookup key))
    (model.entries.lookup key)

/-- The effort goes: a budget reaches the wire, and no layer declares an effort. -/
def effortDropped : Bool :=
  (merged body provider model thinkingBudgetKey).any (! ·.isNull) &&
    ! [provider, model].any (declares reasoningEffortKey)

variable (h : finalizeChatBody (.object body) provider model = .ok body')
include h

/-- **The finished body**, key by key. -/
theorem finalizeChatBody_lookup :
    ∃ entries, body' = .object entries ∧ ∀ key, entries.lookup key =
      if key = reasoningEffortKey ∧ effortDropped body provider model then none
      else merged body provider model key := by
  obtain ⟨first, hfirst, h⟩ := bind_eq_ok.mp h
  obtain ⟨second, hsecond, h⟩ := bind_eq_ok.mp h
  obtain ⟨afterProvider, rfl, hprovider⟩ := mergeExtraBody_lookup hfirst
  obtain ⟨afterModel, rfl, hmodel⟩ := mergeExtraBody_lookup hsecond
  have hmerged : ∀ key, afterModel.lookup key = merged body provider model key := by
    intro key
    rw [hmodel, hprovider, merged]
  have hdropped : (((Json.object afterModel).get thinkingBudgetKey).any (! ·.isNull) &&
      ! [provider, model].any (declares reasoningEffortKey)) = effortDropped body provider model := by
    rw [effortDropped, ← hmerged]
    rfl
  have hbody : (if effortDropped body provider model then
      remove reasoningEffortKey (.object afterModel) else .object afterModel) = body' := by
    rw [← hdropped]
    exact Except.ok.inj h
  by_cases hdrop : effortDropped body provider model
  · rw [if_pos hdrop] at hbody
    refine ⟨Entries.remove reasoningEffortKey afterModel, hbody.symm, fun key => ?_⟩
    rw [lookup_remove, hmerged]
    simp [hdrop]
  · rw [if_neg hdrop] at hbody
    refine ⟨afterModel, hbody.symm, fun key => ?_⟩
    rw [if_neg fun hkey => hdrop hkey.2, hmerged]

/-- Where the body has stream options, those of both layers are objects. -/
theorem streamOptions_objects (hbase : body.lookup streamOptionsKey = some (.object base)) :
    (∀ value, provider.entries.lookup streamOptionsKey = some value → value.isObject) ∧
      ∀ value, model.entries.lookup streamOptionsKey = some value → value.isObject := by
  obtain ⟨first, hfirst, h⟩ := bind_eq_ok.mp h
  obtain ⟨second, hsecond, -⟩ := bind_eq_ok.mp h
  have hobject : ∀ value, provider.entries.lookup streamOptionsKey = some value → value.isObject :=
    fun value => streamOptions_isObject hfirst hbase
  refine ⟨hobject, fun value => ?_⟩
  obtain ⟨afterProvider, rfl, hprovider⟩ := mergeExtraBody_lookup hfirst
  -- the provider's layer leaves an object
  have hbetween : ∃ options, afterProvider.lookup streamOptionsKey = some (.object options) := by
    rw [hprovider, hbase]
    rcases hvalue : provider.entries.lookup streamOptionsKey with - | value
    · exact ⟨base, rfl⟩
    · obtain ⟨extra, rfl⟩ := Json.exists_object (hobject value hvalue)
      exact ⟨mergeStreamOptions base extra, rfl⟩
  obtain ⟨options, hoptions⟩ := hbetween
  exact streamOptions_isObject hsecond hoptions

end Layers

end ChatBody

end CodexPlus
