/-
CodexPlus/ToolHistory.lean

Histories of messages, reasoning, function and custom tool calls and some of
their outputs, and which of them can be sent over Chat Completions once they
are normalized.

`ToolHistory` is the shape of such a history and `Sendable` the condition.  Two
things go wrong in the histories it excludes:

* the synthetic output of a call goes in directly behind the call, so it splits
  a run of calls of which an earlier one has an output of its own;
* an output whose insertion point is itself moved ends up behind everything.

For these histories `tokens_normalizeHistory` says what normalization sends: the
rebuilt positions, each call without an output answered on the spot.
-/
import CodexPlus.NormalizeStable
import CodexPlus.ChatGroups

namespace CodexPlus

open List

namespace Normalize

open CallGroups Chat

/-! ### The histories -/

def isHistoryItem : ResponseItem → Bool
  | .message .. | .reasoning .. | .functionCall .. | .customToolCall .. => true
  | .customToolCallOutput .. => true
  | .functionCallOutput _ callId _ _ _ _ => callId.isSome
  | _ => false

/-- Calls have distinct non-empty ids, and every output comes after its call, is of the kind the call
asks for and is the only one with its id. -/
@[mk_iff]
structure ToolHistory (items : List ResponseItemEnvelope) : Prop where
  kinds : ∀ e ∈ items, isHistoryItem e.item = true
  named : "" ∉ items.filterMap (·.item.toolCallId)
  distinct : (items.filterMap (·.item.toolCallId)).Nodup
  once : (items.filterMap (·.item.outputCallId)).Nodup
  answers : ∀ o < items.length, outputIdAt items o ≠ none → ∃ c < o,
    callIdAt items c = outputIdAt items o ∧
      (itemAt items c).item.isAnsweredBy (itemAt items o).item = true

instance (items : List ResponseItemEnvelope) : Decidable (ToolHistory items) :=
  decidable_of_iff' _ (toolHistory_iff items)

/-! ### The condition -/

section Condition

variable (items : List ResponseItemEnvelope)

def isReasoningAt (i : ℕ) : Bool :=
  items[i]?.any fun envelope =>
    match envelope.item with
    | .reasoning .. => true
    | _ => false

def isAssistantAt (i : ℕ) : Bool :=
  items[i]?.any fun envelope =>
    match envelope.item with
    | .message _ role _ => role = "assistant"
    | _ => false

/-- The call at `c` has an output. -/
def AnsweredAt (c : ℕ) : Prop := ∃ o < items.length, outputIdAt items o = callIdAt items c

instance (c : ℕ) : Decidable (AnsweredAt items c) :=
  inferInstanceAs (Decidable (∃ o < items.length, _))

/-- The output at `o` answers the call at `c`, whose run ends at `last`, and the assistant block
behind the run ends at `blockEnd`. Outputs of calls from `c` on stand directly behind the block up to
`t`, but not beyond, so that `o` goes behind `t`; and the output at `t` moves away, since the output
of an earlier call stands before it. -/
@[mk_iff]
structure StrandedAt (o c last blockEnd t : ℕ) : Prop where
  answers : outputPositions items o = some c
  calls : ∀ k < items.length, c ≤ k → k ≤ last → isCallAt items k = true
  callsStop : isCallAt items (last + 1) = false
  block : ∀ k < items.length, last < k → k ≤ blockEnd → isCoalescingAt items k = true
  blockStops : isCoalescingAt items (blockEnd + 1) = false
  stretch : ∀ k < items.length, blockEnd < k → k ≤ t → answersBetween items c last k = true
  stretchStops : answersBetween items c last (t + 1) = false
  order : c ≤ last ∧ last ≤ blockEnd ∧ blockEnd < t ∧ t < o
  moves : ∃ k < t, blockEnd < k ∧
    (outputPositions items k).any fun d => (outputPositions items t).any fun d' => d < d'

instance (o c last blockEnd t : ℕ) : Decidable (StrandedAt items o c last blockEnd t) :=
  decidable_of_iff' _ (strandedAt_iff items o c last blockEnd t)

/-- The run of calls ends at `j`, and the first item behind it that is not reasoning is no assistant
message. -/
def ClosesRun (j : ℕ) : Prop :=
  isCallAt items (j + 1) = false ∧
    ∀ k < items.length, j < k → (∀ m < k, j < m → isReasoningAt items m = true) →
      isAssistantAt items k = false

/-- Behind `i` there are only outputs and reasoning. -/
def QuietBehind (i : ℕ) : Prop :=
  ∀ k < items.length, i < k → outputIdAt items k ≠ none ∨ isReasoningAt items k = true

instance (j : ℕ) : Decidable (ClosesRun items j) := inferInstanceAs (Decidable (_ ∧ _))

instance (i : ℕ) : Decidable (QuietBehind items i) :=
  inferInstanceAs (Decidable (∀ k < items.length, _))

/-- **What a history needs to be sendable once it is normalized.** -/
@[mk_iff]
structure Sendable : Prop where
  /-- A call without an output that stands in a run behind a call with one. -/
  synthetic : ∀ j < items.length, ∀ i < j,
    (∀ k < items.length, i ≤ k → k ≤ j → isCallAt items k = true) →
      AnsweredAt items i → ¬ AnsweredAt items j → ClosesRun items j
  stranded : ∀ o < items.length, ∀ c < o, ∀ last < o, ∀ blockEnd < o, ∀ t < o,
    StrandedAt items o c last blockEnd t → QuietBehind items blockEnd

set_option synthInstance.maxSize 1000 in
instance : Decidable (Sendable items) :=
  decidable_of_iff' _ (sendable_iff items)

end Condition

/-! ### Calls and outputs of a history -/

variable {i j : ℕ}

/-- Values that occur once in a filtered list come from one position. -/
theorem eq_of_nodup_filterMap {α β : Type} {f : α → Option β} {l : List α}
    (h : (l.filterMap f).Nodup) {b : β} (hi : l[i]?.bind f = some b)
    (hj : l[j]?.bind f = some b) : i = j := by
  obtain ⟨x, hx, hfx⟩ := Option.bind_eq_some_iff.mp hi
  obtain ⟨y, hy, hfy⟩ := Option.bind_eq_some_iff.mp hj
  obtain ⟨hilen, rfl⟩ := List.getElem?_eq_some_iff.mp hx
  obtain ⟨hjlen, rfl⟩ := List.getElem?_eq_some_iff.mp hy
  have hpair := pairwise_iff_getElem.mp (pairwise_filterMap.mp h)
  rcases Nat.lt_trichotomy i j with hlt | heq | hlt
  · exact absurd rfl (hpair i j hilen hjlen hlt b hfx b hfy)
  · exact heq
  · exact absurd rfl (hpair j i hjlen hilen hlt b hfy b hfx)

variable {callId : String} {c : ℕ}

namespace ToolHistory

variable {items : List ResponseItemEnvelope} (h : ToolHistory items)

include h

theorem callId_inj (hi : callIdAt items i = some callId)
    (hj : callIdAt items j = some callId) : i = j :=
  eq_of_nodup_filterMap h.distinct hi hj

theorem outputId_inj (hi : outputIdAt items i = some callId)
    (hj : outputIdAt items j = some callId) : i = j :=
  eq_of_nodup_filterMap h.once hi hj

theorem callId_ne (hi : callIdAt items i = some callId) : callId ≠ "" := by
  rintro rfl
  obtain ⟨e, he, hid⟩ := Option.bind_eq_some_iff.mp hi
  exact h.named (mem_filterMap.mpr ⟨e, mem_of_getElem? he, hid⟩)

theorem callsPrecedeOutputs : CallsPrecedeOutputs items := by
  intro o callId ho
  obtain ⟨c, hco, hid, -⟩ := h.answers o (lt_length_of_outputIdAt ho) (by simp [ho])
  exact ⟨c, hco, hid.trans ho⟩

theorem outputsFollowCalls : OutputsFollowCalls items := h.callsPrecedeOutputs.outputsFollowCalls

theorem not_duplicate (i : ℕ) : isDuplicateOutput items i = false := by
  rcases hdup : isDuplicateOutput items i with - | -
  · rfl
  · obtain ⟨callId, hi, j, hji, hj⟩ := isDuplicateOutput_iff.mp hdup
    exact absurd (h.outputId_inj hj hi) hji.ne

theorem outputPositions_iff {o : ℕ} : outputPositions items o = some c ↔
    ∃ callId, outputIdAt items o = some callId ∧ callIdAt items c = some callId := by
  refine ⟨outputPositions_spec, ?_⟩
  rintro ⟨callId, ho, hc⟩
  obtain ⟨c', -, hpos, hc'⟩ := h.callsPrecedeOutputs.outputPositions ho
  rwa [h.callId_inj hc hc']

theorem answeredAt_iff (hc : isCallAt items c) :
    AnsweredAt items c ↔ ∃ o, outputPositions items o = some c := by
  obtain ⟨callId, hid⟩ := Option.isSome_iff_exists.mp hc
  constructor
  · rintro ⟨o, -, ho⟩
    exact ⟨o, h.outputPositions_iff.mpr ⟨callId, ho.trans hid, hid⟩⟩
  · rintro ⟨o, ho⟩
    obtain ⟨callId', ho, hid'⟩ := h.outputPositions_iff.mp ho
    exact ⟨o, lt_length_of_outputIdAt ho, ho.trans hid'.symm⟩

theorem kindAt (hi : i < items.length) : isHistoryItem (itemAt items i).item :=
  h.kinds _ (mem_of_getElem? (getElem?_eq_itemAt hi))

/-- An output of a call of the history is of the kind the call asks for. -/
theorem answeredBy {o : ℕ} (ho : outputPositions items o = some c) :
    (itemAt items c).item.isAnsweredBy (itemAt items o).item := by
  obtain ⟨callId, ho, hc⟩ := outputPositions_spec ho
  obtain ⟨c', -, hid, hkind⟩ := h.answers o (lt_length_of_outputIdAt ho) (by simp [ho])
  rwa [h.callId_inj hc (hid.trans ho)]

end ToolHistory

/-! ### What normalization sends -/

/-- The tokens of the item at `i` and of the synthetic output behind it. -/
def tokensAt (items : List ResponseItemEnvelope) (i : ℕ) : List (Token String) :=
  wireToken (itemAt items i).item ::
    match callIdAt items i with
    | some callId => if AnsweredAt items i then [] else [.output callId]
    | none => []

theorem wireToken_strip (item : ResponseItem) :
    wireToken (stripImage item) = wireToken item ∧ wireToken (stripAudio item) = wireToken item := by
  cases item with
  | functionCallOutput _ callId _ _ output =>
    rcases output with ⟨text | content, success⟩ <;> rcases callId with - | callId <;>
      exact ⟨rfl, rfl⟩
  | customToolCallOutput _ _ _ output =>
    rcases output with ⟨text | content, success⟩ <;> exact ⟨rfl, rfl⟩
  | _ => exact ⟨rfl, rfl⟩

theorem map_wireToken_strip (inputModalities : List InputModality)
    (items : List ResponseItemEnvelope) :
    (stripAudioWhenUnsupported inputModalities (stripImagesWhenUnsupported inputModalities
      items)).map (fun e => wireToken e.item) = items.map fun e => wireToken e.item := by
  unfold stripAudioWhenUnsupported stripImagesWhenUnsupported
  split <;> split <;> simp [wireToken_strip]

section Sent

variable {items : List ResponseItemEnvelope}

section

variable (h : ToolHistory items)

include h

variable (env : Env)

/-- Nothing is dropped: reordering permutes the history. -/
theorem ToolHistory.reorder_perm :
    (((reorderPlan items).rebuilt env.drain).map (itemAt items)).Perm items := by
  have hperm := Relocation.Plan.rebuilt_perm (p := reorderPlan items) env.drain_perm
    (target_lt_size h.callsPrecedeOutputs)
  have hall : ((List.range items.length).filter fun i => !isDuplicateOutput items i)
      = List.range items.length :=
    filter_eq_self.mpr fun i _ => by simp [h.not_duplicate i]
  have hmap := hperm.map (itemAt items)
  rwa [show (reorderPlan items).size = items.length from rfl,
    show (reorderPlan items).dropped = isDuplicateOutput items from rfl, hall, map_itemAt_range]
    at hmap

theorem ToolHistory.mem_outputIdsFor_iff (hc : callIdAt items c = some callId) :
    callId ∈ outputIdsFor items (itemAt items c).item ↔ AnsweredAt items c := by
  rw [mem_outputIdsFor, h.answeredAt_iff (by simp [isCallAt, hc])]
  constructor
  · rintro ⟨e, he, -, hid⟩
    obtain ⟨o, ho⟩ := getElem?_of_mem he
    exact ⟨o, h.outputPositions_iff.mpr ⟨callId, by simp [outputIdAt, ho, hid], hc⟩⟩
  · rintro ⟨o, ho⟩
    have hkind := h.answeredBy ho
    obtain ⟨callId', hout, hc'⟩ := outputPositions_spec ho
    cases hc.symm.trans hc'
    have hlen := lt_length_of_outputIdAt hout
    exact ⟨_, mem_of_getElem? (getElem?_eq_itemAt hlen), hkind, (outputIdAt_eq hlen).symm.trans hout⟩

/-- The synthetic output of a call that has none. -/
theorem ToolHistory.tokens_missingOutput (hi : i < items.length) :
    ((itemAt items i :: (missingOutput items env.uuidV5 (itemAt items i)).toList).map
      fun e => wireToken e.item) = tokensAt items i := by
  rw [map_cons]
  congr 1
  have hid := callIdAt_eq hi
  rcases hcall : callIdAt items i with - | callId
  · rw [missingOutput_eq_none fun callId hcallId => by simp [← hid, hcall] at hcallId]
    rfl
  dsimp only
  rw [hcall] at hid
  by_cases hans : AnsweredAt items i
  · rw [if_pos hans, missingOutput_eq_none fun callId' hcallId => ?_]
    · rfl
    · cases hid.trans hcallId
      exact (h.mem_outputIdsFor_iff hcall).mpr hans
  · rw [if_neg hans, missingOutput, ← hid]
    dsimp only
    rw [if_neg fun hmem => hans ((h.mem_outputIdsFor_iff hcall).mp hmem)]
    generalize (itemAt items i).item = item at hid
    cases item <;> first | (cases hid; rfl) | cases hid

theorem ToolHistory.not_orphan
    {sent : List ResponseItemEnvelope} (hsent : ∀ e ∈ items, e ∈ sent) {e : ResponseItemEnvelope}
    (he : e ∈ items ∨ ∃ call ∈ items, missingOutput items env.uuidV5 call = some e) :
    isOrphan sent e = false := by
  rcases he with he | ⟨call, hcall, hmissing⟩
  · obtain ⟨o, ho⟩ := getElem?_of_mem he
    rcases hout : e.item.outputCallId with - | callId
    · exact isOrphan_of_not_output hout
    have hid : outputIdAt items o = some callId := by simp [outputIdAt, ho, hout]
    obtain ⟨c, hco, hc, hkind⟩ := h.answers o (lt_length_of_outputIdAt hid) (by simp [hid])
    have hclen : c < items.length := hco.trans (lt_length_of_outputIdAt hid)
    rw [itemAt_eq ho] at hkind
    refine isOrphan_eq_false (hsent _ (mem_of_getElem? (getElem?_eq_itemAt hclen))) hkind ?_
      hout
    rw [← callIdAt_eq hclen, hc, hid]
  · obtain ⟨callId, hid, hout, hkind, -⟩ := missingOutput_spec hmissing
    exact isOrphan_eq_false (hsent _ hcall) hkind hid hout

/-- **What normalization sends**, in tokens. -/
theorem ToolHistory.tokens_normalizeHistory (inputModalities : List InputModality) :
    (normalizeHistory env inputModalities items).map (fun e => wireToken e.item)
      = ((reorderPlan items).rebuilt env.drain).flatMap (tokensAt items) := by
  set order := (reorderPlan items).rebuilt env.drain with horder
  have hperm := h.reorder_perm env
  rw [← horder] at hperm
  have hensure : ensureCallOutputsPresent env (reorderDelayedToolOutputsAfterCalls env items)
      = order.flatMap fun i =>
        itemAt items i :: (missingOutput items env.uuidV5 (itemAt items i)).toList := by
    rw [reorder_eq_map h.callsPrecedeOutputs, ensureCallOutputsPresent_eq_flatMap, flatMap_map]
    simp [← horder, missingOutput_congr hperm]
  have hlen : ∀ i ∈ order, i < items.length := fun i hi =>
    ((mem_rebuilt_iff h.callsPrecedeOutputs env).mp hi).1
  have hkeep : removeOrphanOutputs (order.flatMap fun i =>
        itemAt items i :: (missingOutput items env.uuidV5 (itemAt items i)).toList)
      = order.flatMap fun i =>
        itemAt items i :: (missingOutput items env.uuidV5 (itemAt items i)).toList := by
    refine filter_eq_self.mpr fun e he => ?_
    rw [h.not_orphan env (fun e he => ?_) ?_]
    · rfl
    · obtain ⟨i, hi, he⟩ := mem_flatMap.mp he
      have hmem : itemAt items i ∈ items :=
        mem_of_getElem? (getElem?_eq_itemAt (hlen i hi))
      rcases mem_cons.mp he with rfl | he
      · exact .inl hmem
      · exact .inr ⟨_, hmem, by simpa using he⟩
    · obtain ⟨i, hi, rfl⟩ := mem_map.mp (hperm.symm.subset he)
      exact mem_flatMap.mpr ⟨i, hi, mem_cons_self⟩
  rw [normalizeHistory, map_wireToken_strip, hensure, hkeep, map_flatMap]
  exact flatMap_congr fun i hi => h.tokens_missingOutput env (hlen i hi)

end
end Sent

end Normalize

end CodexPlus
