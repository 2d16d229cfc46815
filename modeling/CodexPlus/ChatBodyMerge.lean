/-
CodexPlus/ChatBodyMerge.lean

When `extra_body` is a deep merge.

`DeepMerged` says what a recursive merge of both layers over a request body gives, path by
path, together with what the client keeps: streaming, usage reporting, and no projected
effort beside a thinking budget.  The layers replace whole values, so they are merged deeply
exactly when nothing is lost by that (`Mergeable`): where a layer's object goes over an
object, it has all of its keys, at every depth.
-/
import CodexPlus.ChatBody

namespace CodexPlus

open List

namespace ChatBody

open Json

/-! ### The specification -/

/-- The layer has something at the path, or something that is no object on the way to it. -/
def ExtraBody.Mentions (extraBody : ExtraBody) (path : List String) : Prop :=
  (object extraBody.entries).mentions path

/-- A budget reaches the wire. -/
def BudgetOnTheWire (merged : Json) : Prop := ∃ budget, merged.get thinkingBudgetKey = some budget ∧
  ¬ budget.isNull

/-- The effort is the body's own: no layer has the key. -/
def IsProjected (provider model : ExtraBody) (key : String) : Prop :=
  key = reasoningEffortKey ∧ provider.entries.lookup key = none ∧ model.entries.lookup key = none

/-- Usage reporting is the client's own. -/
def IsUsage (path : List String) : Prop := [streamOptionsKey, includeUsageKey] <+: path

/-- A body under two layers, merged deeply. A layer sets a key by a value other than `null`. -/
structure DeepMerged (body : List (String × Json)) (provider model : ExtraBody) (merged : Json) :
    Prop where
  /-- What no layer mentions is kept, at every depth. -/
  kept : ∀ key path value, (object body).valueAt (key :: path) = some value →
    ¬ provider.Mentions (key :: path) → ¬ model.Mentions (key :: path) → ¬ IsUsage (key :: path) →
    ¬ (IsProjected provider model key ∧ BudgetOnTheWire merged) → merged.Has (key :: path) value
  /-- A key that both layers set has the model's value, merged over the provider's. -/
  overlaid : ∀ key below above, provider.entries.lookup key = some below →
    model.entries.lookup key = some above → ¬ above.isNull →
    ∀ path value, ¬ IsUsage (key :: path) →
      (above.valueAt path = some value → merged.Has (key :: path) value) ∧
      (below.valueAt path = some value → ¬ above.mentions path → merged.Has (key :: path) value)
  streaming : (object body).get streamKey = some (.bool true) →
    merged.get streamKey = some (.bool true)
  usage : (object body).valueAt [streamOptionsKey, includeUsageKey] = some (.bool true) →
    merged.valueAt [streamOptionsKey, includeUsageKey] = some (.bool true)
  /-- Beside a budget there is no effort but one that a layer declares. -/
  effort : BudgetOnTheWire merged → ∀ effort, merged.get reasoningEffortKey = some effort →
    ¬ effort.isNull ∧ ((model.entries.lookup reasoningEffortKey).or
      (provider.entries.lookup reasoningEffortKey)) = some effort

/-! ### The condition -/

/-- Nothing is lost when the values of the layers replace a value whole. -/
structure Covered (old below above : Option Json) : Prop where
  /-- The last layer's object comes with every path of the old value, or another layer has it. -/
  old : ∀ entries, above.or below = some (object entries) → ∀ value, old = some value →
    ∀ path found, value.valueAt path = some found →
      (∃ layer, below = some layer ∧ layer.mentions path) ∨
        ∃ layer, above = some layer ∧ layer.mentions path
  /-- The model's value has every path of the provider's. -/
  below : ∀ value layer, below = some value → above = some layer →
    ∀ path found, value.valueAt path = some found → layer.mentions path

/-- An option of a layer. -/
def ExtraBody.option (extraBody : ExtraBody) (option : String) : Option Json :=
  (extraBody.entries.lookup streamOptionsKey).bind (Json.get option)

/-- The layers lose nothing of the body, and none of the client's settings. -/
structure Mergeable (body : List (String × Json)) (provider model : ExtraBody) : Prop where
  streams : body.lookup streamKey = some (.bool true) → ∀ value,
    (model.entries.lookup streamKey).or (provider.entries.lookup streamKey) = some value →
      value = .bool true
  keys : ∀ key, key ≠ streamOptionsKey →
    Covered (body.lookup key) (provider.entries.lookup key) (model.entries.lookup key)
  options : ∀ base, body.lookup streamOptionsKey = some (object base) →
    ∀ option, option ≠ includeUsageKey →
      Covered (base.lookup option) (provider.option option) (model.option option)
  /-- Stream options of both layers need a place in the body. -/
  base : ∀ below above, provider.entries.lookup streamOptionsKey = some below →
    model.entries.lookup streamOptionsKey = some above → ¬ above.isNull →
    ∃ value, body.lookup streamOptionsKey = some value ∧ (value.isObject ∨ value = above)

/-! ### Keys and options under the layers -/

section Layers

variable {body entries base : List (String × Json)} {provider model : ExtraBody} {key option : String}

/-- The layer says nothing about the path. -/
def Silent (layer : Option Json) (path : List String) : Prop :=
  ∀ value, layer = some value → ¬ value.mentions path

/-- The stream options of the body and of both layers are objects. -/
structure ObjectOptions (body base : List (String × Json)) (provider model : ExtraBody) : Prop where
  base : body.lookup streamOptionsKey = some (object base)
  provider : ∀ value, provider.entries.lookup streamOptionsKey = some value → value.isObject
  model : ∀ value, model.entries.lookup streamOptionsKey = some value → value.isObject

theorem objectOptions {finished : Json}
    (hok : finalizeChatBody (object body) provider model = .ok finished)
    (hbase : body.lookup streamOptionsKey = some (object base)) :
    ObjectOptions body base provider model := by
  obtain ⟨hprovider, hmodel⟩ := streamOptions_objects body provider model hok hbase
  exact ⟨hbase, hprovider, hmodel⟩

variable (extraBody : ExtraBody)

theorem not_mentions_iff (key : String) (path : List String) :
    ¬ extraBody.Mentions (key :: path) ↔ Silent (extraBody.entries.lookup key) path := by
  rw [ExtraBody.Mentions, mentions]
  rcases extraBody.entries.lookup key with - | value <;> simp [Silent]

theorem not_mentions_option_iff
    (hobject : ∀ value, extraBody.entries.lookup streamOptionsKey = some value → value.isObject)
    (option : String) (path : List String) :
    ¬ extraBody.Mentions (streamOptionsKey :: option :: path) ↔
      Silent (extraBody.option option) path := by
  rw [not_mentions_iff, ExtraBody.option]
  rcases hget : extraBody.entries.lookup streamOptionsKey with - | value
  · simp [Silent]
  obtain ⟨options, rfl⟩ := exists_object (hobject value hget)
  rw [Option.bind_some, Json.get]
  rcases hoption : options.lookup option with - | layer <;> simp [Silent, mentions, hoption]

variable {value : Json}

/-- Away from the stream options, the last layer's value stands, but a `null` may take the key away. -/
theorem merged_last (hkey : key ≠ streamOptionsKey)
    (hlast : (model.entries.lookup key).or (provider.entries.lookup key) = some value) :
    merged body provider model key = some value ∨
      value.isNull ∧ merged body provider model key = none := by
  have hlayered : ∀ old, layered key old (some value) = some value ∨
      value.isNull ∧ layered key old (some value) = none := by
    intro old
    rw [layered, changed, if_neg hkey]
    split
    · next hnull => exact .inr ⟨(Bool.and_eq_true _ _ ▸ hnull).1, rfl⟩
    · exact .inl rfl
  rw [merged]
  rcases hmodel : model.entries.lookup key with - | above
  · rw [hmodel, Option.none_or] at hlast
    rw [hlast]
    exact hlayered _
  · rw [hmodel] at hlast
    cases hlast
    exact hlayered _

theorem merged_absent
    (hprovider : provider.entries.lookup key = none) (hmodel : model.entries.lookup key = none) :
    merged body provider model key = body.lookup key := by
  rw [merged, hprovider, hmodel]
  rfl

/-- A declared effort is not dropped. -/
theorem isNull_of_dropped (h : effortDropped body provider model) {effort : Json}
    (hlast : (model.entries.lookup reasoningEffortKey).or
      (provider.entries.lookup reasoningEffortKey) = some effort) : effort.isNull := by
  rw [effortDropped, Bool.and_eq_true] at h
  have hdeclared := h.2
  simp only [any_cons, any_nil, Bool.or_false, Bool.not_eq_true', Bool.or_eq_false_iff,
    declares] at hdeclared
  rcases hmodel : model.entries.lookup reasoningEffortKey with - | above
  · rw [hmodel, Option.none_or] at hlast
    rw [hlast] at hdeclared
    simpa using hdeclared.1
  · rw [hmodel] at hlast
    cases hlast
    rw [hmodel] at hdeclared
    simpa using hdeclared.2

/-- The stream options of an object after one layer. -/
theorem layered_options (base : List (String × Json)) {value : Option Json}
    (hobject : ∀ layer, value = some layer → layer.isObject)
    (hunique : ∀ layer, value = some layer → layer.uniqueKeys) :
    ∃ options, layered streamOptionsKey (some (object base)) value = some (object options) ∧
      (∀ option, option ≠ includeUsageKey →
        options.lookup option = (value.bind (Json.get option)).or (base.lookup option)) ∧
      (base.lookup includeUsageKey = some (.bool true) →
        options.lookup includeUsageKey = some (.bool true)) := by
  rcases value with - | layer
  · exact ⟨base, rfl, fun _ _ => rfl, id⟩
  obtain ⟨extra, rfl⟩ := exists_object (hobject _ rfl)
  have hlookup := lookup_mergeStreamOptions base (hunique _ rfl)
  refine ⟨mergeStreamOptions base extra, rfl, fun option hoption => ?_, fun _ => ?_⟩
  · rw [hlookup, if_neg hoption]
    rfl
  · rw [hlookup, if_pos rfl]

theorem uniqueKeys_of_entry (h : extraBody.entries.lookup key = some value) : value.uniqueKeys :=
  uniqueKeys_of_lookup (uniqueKeys_object.mp extraBody.unique).2 h

/-- The stream options of an object after both layers. -/
theorem ObjectOptions.merged (h : ObjectOptions body base provider model) :
    ∃ options, merged body provider model streamOptionsKey = some (object options) ∧
      (∀ option, option ≠ includeUsageKey → options.lookup option =
        ((model.option option).or (provider.option option)).or (base.lookup option)) ∧
      (base.lookup includeUsageKey = some (.bool true) →
        options.lookup includeUsageKey = some (.bool true)) := by
  obtain ⟨between, hbetween, hfirst, husage⟩ := layered_options base h.provider
    fun _ => uniqueKeys_of_entry provider
  obtain ⟨options, hoptions, hsecond, husage'⟩ := layered_options between h.model
    fun _ => uniqueKeys_of_entry model
  refine ⟨options, ?_, fun option hoption => ?_, fun h => husage' (husage h)⟩
  · rw [ChatBody.merged, h.base, hbetween, hoptions]
  · rw [hsecond option hoption, hfirst option hoption, Option.or_assoc]
    rfl

/-- Without an object in the body, the stream options of the layers are passed over. -/
theorem merged_not_options (provider model : ExtraBody)
    (hbase : ∀ base, body.lookup streamOptionsKey ≠ some (object base)) :
    merged body provider model streamOptionsKey = body.lookup streamOptionsKey := by
  have hlayered : ∀ value, layered streamOptionsKey (body.lookup streamOptionsKey) value =
      body.lookup streamOptionsKey := by
    intro value
    rcases value with - | layer
    · rfl
    rw [layered, changed, if_pos rfl]
    unfold changedOptions
    split
    · next base extra heq => exact absurd heq (hbase base)
    · rfl
  rw [merged, hlayered, hlayered]

/-! ### The finished body -/

/-- The finished body has, key by key, what the layers leave, but for a dropped effort. -/
def Finished (body : List (String × Json)) (provider model : ExtraBody)
    (entries : List (String × Json)) : Prop :=
  ∀ key, entries.lookup key =
    if key = reasoningEffortKey ∧ effortDropped body provider model then none
    else merged body provider model key

section

variable (h : Finished body provider model entries)

include h

theorem Finished.eq_merged
    (hkey : key ≠ reasoningEffortKey) : entries.lookup key = merged body provider model key := by
  rw [h key, if_neg fun hdrop => hkey hdrop.1]

theorem Finished.last (hkey : key ≠ streamOptionsKey)
    (hlast : (model.entries.lookup key).or (provider.entries.lookup key) = some value)
    (hnull : ¬ value.isNull) : entries.lookup key = some value := by
  rw [h key, if_neg, (merged_last hkey hlast).resolve_right fun hnone => hnull hnone.1]
  rintro ⟨rfl, hdrop⟩
  exact hnull (isNull_of_dropped hdrop hlast)

theorem budgetOnTheWire_iff : BudgetOnTheWire (object entries) ↔
      (merged body provider model thinkingBudgetKey).any (! ·.isNull) := by
  rw [BudgetOnTheWire, Json.get, h.eq_merged (by decide)]
  rcases merged body provider model thinkingBudgetKey with - | budget
  · simp
  · simp

theorem Finished.absent
    (hprovider : provider.entries.lookup key = none) (hmodel : model.entries.lookup key = none)
    (hkept : ¬ (IsProjected provider model key ∧ BudgetOnTheWire (object entries))) :
    entries.lookup key = body.lookup key := by
  rw [h key, if_neg, merged_absent hprovider hmodel]
  rintro ⟨hkey, hdrop⟩
  refine hkept ⟨⟨hkey, hprovider, hmodel⟩, (budgetOnTheWire_iff h).mpr ?_⟩
  rw [effortDropped, Bool.and_eq_true] at hdrop
  exact hdrop.1

/-- Beside a budget, an effort is one that a layer declares. -/
theorem Finished.effort (hbudget : BudgetOnTheWire (object entries)) {effort : Json}
    (heffort : entries.lookup reasoningEffortKey = some effort) :
    ¬ effort.isNull ∧ ((model.entries.lookup reasoningEffortKey).or
      (provider.entries.lookup reasoningEffortKey)) = some effort := by
  have hkey : reasoningEffortKey ≠ streamOptionsKey := by decide
  have hdropped : ¬ effortDropped body provider model := by
    intro hdrop
    rw [h, if_pos ⟨rfl, hdrop⟩] at heffort
    cases heffort
  have hdrop := hdropped
  rw [effortDropped, (budgetOnTheWire_iff h).mp hbudget] at hdrop
  simp only [any_cons, any_nil, Bool.or_false, Bool.true_and, Bool.not_eq_true',
    Bool.not_eq_false, Bool.or_eq_true, declares] at hdrop
  -- the last layer to have the key declares it
  obtain ⟨last, hlast⟩ : ∃ last, (model.entries.lookup reasoningEffortKey).or
      (provider.entries.lookup reasoningEffortKey) = some last := by
    rw [← Option.isSome_iff_exists, Option.isSome_or, Bool.or_eq_true]
    exact hdrop.symm.imp Option.isSome_of_any Option.isSome_of_any
  by_cases hnull : last.isNull
  · -- then the model's `null` removes what the provider declares
    rcases hmodel : model.entries.lookup reasoningEffortKey with - | above
    · rw [hmodel, Option.none_or] at hlast
      simp [hmodel, hlast, hnull] at hdrop
    rw [hmodel] at hlast
    cases hlast
    rcases hprovider : provider.entries.lookup reasoningEffortKey with - | below
    · simp [hmodel, hprovider, hnull] at hdrop
    · have hbelow : ¬ below.isNull := by
        simpa [hmodel, hprovider, hnull] using hdrop
      rw [h, merged, hmodel, hprovider] at heffort
      simp [layered, changed, hkey, hbelow, hnull] at heffort
  · rw [h.last hkey hlast hnull] at heffort
    cases heffort
    exact ⟨hnull, hlast⟩

section

variable (hobjects : ObjectOptions body base provider model)
include hobjects

/-- Below an option stands what the last layer has there, or the body. -/
theorem Finished.valueAt_option (hoption : option ≠ includeUsageKey) (path : List String) :
    (object entries).valueAt (streamOptionsKey :: option :: path) =
      (((model.option option).or (provider.option option)).or (base.lookup option)).bind
        (valueAt path) := by
  obtain ⟨options, hoptions, hlookup, -⟩ := hobjects.merged
  rw [valueAt_cons_object, h.eq_merged (by decide), hoptions, Option.bind_some,
    valueAt_cons_object, hlookup option hoption]

/-- Stream options stay an object. -/
theorem Finished.streamOptions (hvalue : value.isObject) :
    (object entries).Has [streamOptionsKey] value := by
  obtain ⟨options, hoptions, -, -⟩ := hobjects.merged
  refine ⟨object options, ?_, ?_⟩
  · rw [valueAt_cons_object, h.eq_merged (by decide), hoptions]
    rfl
  · rw [Agrees, if_pos hvalue]
    rfl

end

/-- Without an object in the body, its value for the stream options stays. -/
theorem Finished.not_options (hbase : ¬ ∃ base, body.lookup streamOptionsKey = some (object base)) :
    entries.lookup streamOptionsKey = body.lookup streamOptionsKey := by
  rw [h.eq_merged (by decide), merged_not_options provider model (not_exists.mp hbase)]

/-! ### Replacing whole values -/

end

variable {path : List String} {above below : Option Json}

theorem not_mentions_last {layer : Json}
    (hlast : above.or below = some layer) (hbelow : Silent below path) (habove : Silent above path) :
    ¬ layer.mentions path := by
  rcases Option.or_eq_some_iff.mp hlast with hlayer | ⟨-, hlayer⟩
  · exact habove layer hlayer
  · exact hbelow layer hlayer

/-- Where nothing is lost, an old path that no layer mentions is one of a key that no layer has. -/
theorem Covered.eq_none {old : Option Json} (h : Covered old below above) {found : Json}
    (hold : old = some value) (hfound : value.valueAt path = some found)
    (hbelow : Silent below path) (habove : Silent above path) : below = none ∧ above = none := by
  rcases hlast : above.or below with - | layer
  · exact (Option.or_eq_none_iff.mp hlast).symm
  exfalso
  have hmentions := not_mentions_last hlast hbelow habove
  -- only an object leaves a path open
  have hobject : layer.isObject := by
    by_contra hobject
    exact hmentions (mentions_of_not_isObject hobject path)
  obtain ⟨entries, rfl⟩ := exists_object hobject
  rcases h.old entries hlast value hold path found hfound with ⟨layer, hlayer, hpath⟩ | ⟨layer, hlayer, hpath⟩
  · exact hbelow layer hlayer hpath
  · exact habove layer hlayer hpath

theorem not_isUsage_of_ne (hkey : key ≠ streamOptionsKey) (path : List String) :
    ¬ IsUsage (key :: path) := by
  rw [IsUsage, cons_prefix_cons]
  exact fun h => hkey h.1.symm

theorem isUsage_option_iff (option : String) (path : List String) :
    IsUsage (streamOptionsKey :: option :: path) ↔ option = includeUsageKey := by
  rw [IsUsage]
  simp [eq_comm]

section

variable (h : DeepMerged body provider model (object entries))

include h

/-- A deep merge of the layers loses nothing at a key that they replace. -/
theorem DeepMerged.covered
    (hfinished : Finished body provider model entries) (hkey : key ≠ streamOptionsKey) :
    Covered (body.lookup key) (provider.entries.lookup key) (model.entries.lookup key) := by
  constructor
  · intro layer hlast value hold path found hfound
    by_contra hcon
    rw [not_or] at hcon
    have hbelow : Silent (provider.entries.lookup key) path :=
      fun layer hlayer hpath => hcon.1 ⟨layer, hlayer, hpath⟩
    have habove : Silent (model.entries.lookup key) path :=
      fun layer hlayer hpath => hcon.2 ⟨layer, hlayer, hpath⟩
    obtain ⟨found', hfound', -⟩ := h.kept key path found
      (by rw [valueAt_cons_object, hold]; exact hfound)
      ((not_mentions_iff provider key path).mpr hbelow)
      ((not_mentions_iff model key path).mpr habove) (not_isUsage_of_ne hkey path)
      (fun hprojected => by simp [hprojected.1.2.1, hprojected.1.2.2] at hlast)
    rw [valueAt_cons_object, hfinished.last hkey hlast Bool.false_ne_true, Option.bind_some,
      valueAt_eq_none (not_mentions_last hlast hbelow habove)] at hfound'
    cases hfound'
  · intro value layer hbelow habove path found hfound
    by_contra hmentions
    have hnull : ¬ layer.isNull := by
      intro hnull
      refine hmentions (mentions_of_not_isObject (fun hobject => ?_) path)
      obtain ⟨entries, rfl⟩ := exists_object hobject
      cases hnull
    obtain ⟨found', hfound', -⟩ := (h.overlaid key value layer hbelow habove hnull path found
      (not_isUsage_of_ne hkey path)).2 hfound hmentions
    rw [valueAt_cons_object, hfinished.last hkey (by rw [habove]; rfl) hnull, Option.bind_some,
      valueAt_eq_none hmentions] at hfound'
    cases hfound'

/-- A deep merge of the layers loses nothing of the stream options. -/
theorem DeepMerged.covered_option (hfinished : Finished body provider model entries)
    (hobjects : ObjectOptions body base provider model) (hoption : option ≠ includeUsageKey) :
    Covered (base.lookup option) (provider.option option) (model.option option) := by
  have hvalueAt := hfinished.valueAt_option hobjects hoption
  constructor
  · intro layer hlast value hold path found hfound
    by_contra hcon
    rw [not_or] at hcon
    have hbelow : Silent (provider.option option) path :=
      fun layer hlayer hpath => hcon.1 ⟨layer, hlayer, hpath⟩
    have habove : Silent (model.option option) path :=
      fun layer hlayer hpath => hcon.2 ⟨layer, hlayer, hpath⟩
    obtain ⟨found', hfound', -⟩ := h.kept streamOptionsKey (option :: path) found
      (by rw [valueAt_cons_object, hobjects.base, Option.bind_some, valueAt_cons_object, hold]
          exact hfound)
      ((not_mentions_option_iff provider hobjects.provider option path).mpr hbelow)
      ((not_mentions_option_iff model hobjects.model option path).mpr habove)
      (fun husage => hoption ((isUsage_option_iff option path).mp husage))
      (fun hprojected => absurd hprojected.1.1 (by decide))
    rw [hvalueAt, hlast, Option.some_or, Option.bind_some,
      valueAt_eq_none (not_mentions_last hlast hbelow habove)] at hfound'
    cases hfound'
  · intro value layer hbelow habove path found hfound
    by_contra hmentions
    obtain ⟨below, hprovided, hvalue⟩ := Option.bind_eq_some_iff.mp hbelow
    obtain ⟨above, hmodelled, hlayer⟩ := Option.bind_eq_some_iff.mp habove
    obtain ⟨aboveOptions, rfl⟩ := exists_object (hobjects.model above hmodelled)
    obtain ⟨found', hfound', -⟩ := (h.overlaid streamOptionsKey below _ hprovided hmodelled
      Bool.false_ne_true (option :: path) found
      (fun husage => hoption ((isUsage_option_iff option path).mp husage))).2
      (by rw [valueAt, hvalue]; exact hfound)
      (by rw [mentions, show aboveOptions.lookup option = some layer from hlayer]; exact hmentions)
    rw [hvalueAt, habove, Option.some_or, Option.some_or, Option.bind_some,
      valueAt_eq_none hmentions] at hfound'
    cases hfound'

theorem DeepMerged.mergeable
    (hok : finalizeChatBody (object body) provider model = .ok (object entries))
    (hfinished : Finished body provider model entries) : Mergeable body provider model := by
  refine ⟨fun hstream value hlast => ?_, fun key hkey => h.covered hfinished hkey,
    fun base hbase option hoption => ?_, fun below above hbelow habove hnull => ?_⟩
  · have hstreaming : entries.lookup streamKey = some (.bool true) := h.streaming hstream
    rw [hfinished.eq_merged (by decide)] at hstreaming
    rcases merged_last (by decide) hlast with hvalue | ⟨-, hnone⟩
    · exact Option.some.inj (hvalue.symm.trans hstreaming)
    · cases hnone.symm.trans hstreaming
  · exact h.covered_option hfinished (objectOptions hok hbase) hoption
  · obtain ⟨found, hfound, hagrees⟩ := (h.overlaid streamOptionsKey below above hbelow habove hnull
      [] above (by rw [IsUsage]; simp)).1 rfl
    by_cases hobject : ∃ base, body.lookup streamOptionsKey = some (object base)
    · obtain ⟨base, hbase⟩ := hobject
      exact ⟨_, hbase, .inl rfl⟩
    -- then the body's own value is the one that is found
    refine ⟨found, ?_, ?_⟩
    · rw [valueAt_cons_object, hfinished.not_options hobject, Option.bind_eq_some_iff] at hfound
      obtain ⟨value, hvalue, hfound⟩ := hfound
      cases hfound
      exact hvalue
    · rw [Agrees] at hagrees
      split at hagrees
      · exact .inl hagrees
      · exact .inr hagrees

end

variable (h : Mergeable body provider model)
  (hok : finalizeChatBody (object body) provider model = .ok (object entries))
  (hfinished : Finished body provider model entries)
include h hok hfinished

theorem Mergeable.kept (hvalue : (object body).valueAt (key :: path) = some value)
    (hprovider : ¬ provider.Mentions (key :: path)) (hmodel : ¬ model.Mentions (key :: path))
    (husage : ¬ IsUsage (key :: path))
    (hprojected : ¬ (IsProjected provider model key ∧ BudgetOnTheWire (object entries))) :
    (object entries).Has (key :: path) value := by
  by_cases hkey : key = streamOptionsKey
  · subst hkey
    by_cases hobject : ∃ base, body.lookup streamOptionsKey = some (object base)
    · obtain ⟨base, hbase⟩ := hobject
      have hobjects := objectOptions hok hbase
      rw [valueAt_cons_object, hbase, Option.bind_some] at hvalue
      rcases path with - | ⟨option, path⟩
      · cases hvalue
        exact hfinished.streamOptions hobjects rfl
      have hoption : option ≠ includeUsageKey := mt (isUsage_option_iff option path).mpr husage
      obtain ⟨old, hold, hfound⟩ := Option.bind_eq_some_iff.mp hvalue
      obtain ⟨hnone, hnone'⟩ := (h.options base hbase option hoption).eq_none hold hfound
        ((not_mentions_option_iff provider hobjects.provider option path).mp hprovider)
        ((not_mentions_option_iff model hobjects.model option path).mp hmodel)
      refine .of_valueAt ?_
      rw [hfinished.valueAt_option hobjects hoption, hnone, hnone']
      exact hvalue
    · refine .of_valueAt ?_
      rw [valueAt_cons_object, hfinished.not_options hobject]
      exact hvalue
  · obtain ⟨old, hold, hfound⟩ := Option.bind_eq_some_iff.mp hvalue
    obtain ⟨hnone, hnone'⟩ := (h.keys key hkey).eq_none hold hfound
      ((not_mentions_iff provider key path).mp hprovider)
      ((not_mentions_iff model key path).mp hmodel)
    refine .of_valueAt ?_
    rw [valueAt_cons_object, hfinished.absent hnone hnone' hprojected]
    exact hvalue

theorem Mergeable.overlaid {below above : Json} (hbelow : provider.entries.lookup key = some below)
    (habove : model.entries.lookup key = some above) (hnull : ¬ above.isNull)
    (value : Json) (husage : ¬ IsUsage (key :: path)) :
    (above.valueAt path = some value → (object entries).Has (key :: path) value) ∧
      (below.valueAt path = some value → ¬ above.mentions path →
        (object entries).Has (key :: path) value) := by
  by_cases hkey : key = streamOptionsKey
  · subst hkey
    by_cases hobject : ∃ base, body.lookup streamOptionsKey = some (object base)
    · obtain ⟨base, hbase⟩ := hobject
      have hobjects := objectOptions hok hbase
      obtain ⟨aboveOptions, rfl⟩ := exists_object (hobjects.model above habove)
      rcases path with - | ⟨option, path⟩
      · refine ⟨fun hfound => ?_, fun _ hmentions => absurd rfl hmentions⟩
        cases hfound
        exact hfinished.streamOptions hobjects rfl
      have hoption : option ≠ includeUsageKey := mt (isUsage_option_iff option path).mpr husage
      have hvalueAt := hfinished.valueAt_option hobjects hoption path
      have hmodelled : model.option option = aboveOptions.lookup option := by
        rw [ExtraBody.option, habove]
        rfl
      refine ⟨fun hfound => .of_valueAt ?_, fun hfound hmentions => .of_valueAt ?_⟩
      · obtain ⟨layer, hlayer, hfound⟩ := Option.bind_eq_some_iff.mp hfound
        rw [hvalueAt, hmodelled, show aboveOptions.lookup option = some layer from hlayer]
        exact hfound
      · obtain ⟨provided, hprovided, hfound⟩ := Option.bind_eq_some_iff.mp hfound
        have hprovided : provider.option option = some provided := by
          rw [ExtraBody.option, hbelow]
          exact hprovided
        rw [mentions] at hmentions
        rcases hlayer : aboveOptions.lookup option with - | layer
        · rw [hvalueAt, hmodelled, hlayer, hprovided]
          exact hfound
        · rw [hlayer] at hmentions
          exact absurd ((h.options base hbase option hoption).below provided layer hprovided
            (hmodelled.trans hlayer) path value hfound) hmentions
    · -- the value of the body, which is the model's
      obtain ⟨same, hsame, hcase⟩ := h.base below above hbelow habove hnull
      have hnot : ¬ same.isObject := fun his => by
        obtain ⟨base, rfl⟩ := exists_object his
        exact hobject ⟨base, hsame⟩
      obtain rfl : same = above := hcase.resolve_left hnot
      refine ⟨fun hfound => .of_valueAt ?_, fun _ hmentions => ?_⟩
      · rw [valueAt_cons_object, hfinished.not_options hobject, hsame]
        exact hfound
      · exact absurd (mentions_of_not_isObject hnot path) hmentions
  · have hlookup := hfinished.last hkey (by rw [habove]; rfl) hnull
    refine ⟨fun hfound => .of_valueAt ?_, fun hfound hmentions => ?_⟩
    · rw [valueAt_cons_object, hlookup]
      exact hfound
    · exact absurd ((h.keys key hkey).below below above hbelow habove path value hfound) hmentions

theorem Mergeable.deepMerged :
    DeepMerged body provider model (object entries) where
  kept _ _ _ := h.kept hok hfinished
  overlaid _ _ _ hbelow habove hnull _ value := h.overlaid hok hfinished hbelow habove hnull value
  streaming hstream := by
    show entries.lookup streamKey = some (.bool true)
    rcases hlast : (model.entries.lookup streamKey).or (provider.entries.lookup streamKey) with - | value
    · obtain ⟨hmodel, hprovider⟩ := Option.or_eq_none_iff.mp hlast
      rw [hfinished.eq_merged (by decide), merged_absent hprovider hmodel]
      exact hstream
    · rw [h.streams hstream value hlast] at hlast
      exact hfinished.last (by decide) hlast Bool.false_ne_true
  usage husage := by
    obtain ⟨value, hvalue, husage⟩ := Option.bind_eq_some_iff.mp husage
    cases value with
    | object =>
      obtain ⟨options, hoptions, -, hkept⟩ := (objectOptions hok hvalue).merged
      rw [← hfinished.eq_merged (by decide)] at hoptions
      rw [valueAt_cons_object, Option.bind_eq_some_iff] at husage
      obtain ⟨reported, hreported, hsome⟩ := husage
      cases hsome
      rw [valueAt_cons_object, hoptions, Option.bind_some, valueAt_cons_object, hkept hreported]
      rfl
    | _ => cases husage
  effort hbudget _ heffort := hfinished.effort hbudget heffort

end Layers

/-- **When `extra_body` is a deep merge.** The finished body is the deep merge of both layers over
the request body exactly when no layer loses anything by replacing whole values. -/
theorem finalizeChatBody_deepMerged_iff (body : List (String × Json)) (provider model : ExtraBody)
    {finished : Json} (hok : finalizeChatBody (object body) provider model = .ok finished) :
    DeepMerged body provider model finished ↔ Mergeable body provider model := by
  obtain ⟨entries, rfl, hfinished⟩ := finalizeChatBody_lookup body provider model hok
  exact ⟨fun h => h.mergeable hok hfinished, fun h => h.deepMerged hok hfinished⟩

/-- A body as the client builds it. -/
def builtBody : List (String × Json) :=
  [("model", .string "qwen"), (streamKey, .bool true),
    (streamOptionsKey, .object [(includeUsageKey, .bool true)]),
    (reasoningEffortKey, .string "high")]

/-- A layer with one key. -/
def oneKey (key : String) (value : Json) (hvalue : value.uniqueKeys) : ExtraBody :=
  ⟨[(key, value)], by
    rw [uniqueKeys_object, uniqueKeysEntries, hvalue]
    exact ⟨nodup_singleton key, rfl⟩⟩

def noLayer : ExtraBody := ⟨[], rfl⟩

def budgetLayer : ExtraBody := oneKey thinkingBudgetKey (.number "1024") rfl

def kwargsLayer (option : String) (value : Bool) : ExtraBody :=
  oneKey "chat_template_kwargs" (.object [(option, .bool value)]) (by
    rw [uniqueKeys_object]
    exact ⟨nodup_singleton option, rfl⟩)

theorem budgetLayer_mergeable : Mergeable builtBody budgetLayer noLayer where
  streams _ value hlast := by cases hlast
  keys key _ := by
    refine ⟨fun entries hlast => ?_, fun _ _ _ habove => by cases habove⟩
    -- the layer's only value is a number
    change ([(thinkingBudgetKey, Json.number "1024")] : List _).lookup key = _ at hlast
    rw [lookup_cons] at hlast
    split at hlast
    all_goals cases hlast
  options base hbase option hoption := by
    exact ⟨fun entries hlast => (by cases hlast), fun _ _ _ habove => (by cases habove)⟩
  base _ _ hbelow := by cases hbelow

theorem budgetLayer_deepMerged :
    ∃ finished, finalizeChatBody (object builtBody) budgetLayer noLayer = .ok finished ∧
      finished.get reasoningEffortKey = none ∧
      DeepMerged builtBody budgetLayer noLayer finished :=
  ⟨_, rfl, rfl, (finalizeChatBody_deepMerged_iff builtBody budgetLayer noLayer rfl).mpr
    budgetLayer_mergeable⟩

/-- The model's object replaces the provider's, and a layer may turn streaming off. -/
theorem nestedKey_lost :
    (∃ finished, finalizeChatBody (object builtBody) (kwargsLayer "enable_thinking" true)
        (kwargsLayer "clear_thinking" false) = .ok finished ∧
      finished.valueAt ["chat_template_kwargs", "clear_thinking"] = some (.bool false) ∧
      finished.valueAt ["chat_template_kwargs", "enable_thinking"] = none ∧
      ¬ DeepMerged builtBody (kwargsLayer "enable_thinking" true)
        (kwargsLayer "clear_thinking" false) finished) ∧
    ∃ finished, finalizeChatBody (object builtBody) (oneKey streamKey (.bool false) rfl) noLayer =
        .ok finished ∧
      finished.get streamKey = some (.bool false) ∧
      ¬ DeepMerged builtBody (oneKey streamKey (.bool false) rfl) noLayer finished := by
  refine ⟨⟨_, rfl, rfl, rfl, fun h => ?_⟩, _, rfl, rfl, fun h => ?_⟩
  · obtain ⟨found, hfound, -⟩ := (h.overlaid "chat_template_kwargs" _ _ rfl rfl Bool.false_ne_true
      ["enable_thinking"] (.bool true) (not_isUsage_of_ne (by decide) _)).2 rfl Bool.false_ne_true
    cases hfound
  · cases h.streaming rfl

end ChatBody

end CodexPlus
