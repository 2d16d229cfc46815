/-
CodexPlus/NormalizePasses.lean

The passes of normalization as maps over positions: reordering is the rebuilt
list of positions (`reorder_eq_map`), and synthesizing missing outputs puts at
most one item behind each item (`ensureCallOutputsPresent_eq_flatMap`), although
the source inserts them from the back into the list.
-/
import CodexPlus.NormalizeTargets

namespace CodexPlus

open List

namespace Normalize

variable {items : List ResponseItemEnvelope}

/-! ### Items by position -/

def itemAt (items : List ResponseItemEnvelope) (i : ℕ) : ResponseItemEnvelope :=
  items[i]?.getD (.new .other)

variable {e : ResponseItemEnvelope} {i : ℕ}

theorem itemAt_eq (h : items[i]? = some e) : itemAt items i = e := by
  simp [itemAt, h]

theorem getElem?_eq_itemAt (h : i < items.length) : items[i]? = some (itemAt items i) := by
  simp [itemAt, h]

theorem map_itemAt_range (items : List ResponseItemEnvelope) :
    (List.range items.length).map (itemAt items) = items := by
  apply ext_getElem?
  intro i
  rcases Nat.lt_or_ge i items.length with hi | hi
  · simp [getElem?_range hi, getElem?_eq_itemAt hi]
  · simp [hi]

theorem filterMap_getElem?_eq_map {l : List ℕ} (h : ∀ i ∈ l, i < items.length) :
    l.filterMap (items[·]?) = l.map (itemAt items) := by
  rw [← filterMap_eq_map]
  exact filterMap_congr fun i hi => getElem?_eq_itemAt (h i hi)

theorem callIdAt_eq (h : i < items.length) :
    callIdAt items i = (itemAt items i).item.toolCallId := by
  simp [callIdAt, getElem?_eq_itemAt h]

theorem outputIdAt_eq (h : i < items.length) :
    outputIdAt items i = (itemAt items i).item.outputCallId := by
  simp [outputIdAt, getElem?_eq_itemAt h]

/-! ### Reordering -/

/-- Every output has a call before it. -/
def CallsPrecedeOutputs (items : List ResponseItemEnvelope) : Prop :=
  ∀ i callId, outputIdAt items i = some callId → ∃ c < i, callIdAt items c = some callId

variable {callId : String}

section

variable (h : CallsPrecedeOutputs items)

include h

theorem CallsPrecedeOutputs.outputPositions (hi : outputIdAt items i = some callId) :
    ∃ c < i, outputPositions items i = some c ∧ callIdAt items c = some callId := by
  obtain ⟨c, hci, hc⟩ := h i callId hi
  have hclen := lt_length_of_callIdAt hc
  have hsome : (callIndexById items callId).isSome := by
    rw [callIndexById, findIdx?_isSome, any_eq_true]
    refine ⟨itemAt items c, mem_of_getElem? (getElem?_eq_itemAt hclen), ?_⟩
    rw [← callIdAt_eq hclen, hc, beq_self_eq_true]
  obtain ⟨first, hfirst⟩ := Option.isSome_iff_exists.mp hsome
  obtain ⟨hid, hbefore⟩ := callIndexById_spec hfirst
  have hle : first ≤ c := by
    by_contra hlt
    exact hbefore c (Nat.lt_of_not_le hlt) hc
  exact ⟨first, by omega, by simp [Normalize.outputPositions, hi, hfirst], hid⟩

theorem CallsPrecedeOutputs.outputsFollowCalls : OutputsFollowCalls items := by
  intro i c hc
  obtain ⟨callId, hout, -⟩ := outputPositions_spec hc
  obtain ⟨c', hlt, hc', -⟩ := h.outputPositions hout
  cases hc'.symm.trans hc
  exact hlt

theorem target_lt_size (i t : ℕ)
    (ht : (reorderPlan items).target i = some t) : t < (reorderPlan items).size := by
  have hlt := moveTarget_lt h.outputsFollowCalls ht
  show t < items.length
  omega

theorem mem_rebuilt_iff (env : Env) : i ∈ (reorderPlan items).rebuilt env.drain ↔
      i < items.length ∧ isDuplicateOutput items i = false :=
  Relocation.Plan.mem_rebuilt env.drain_perm (target_lt_size h)

end

/-- A plan that skips nothing rebuilds the list as it is. -/
theorem rebuilt_of_stays {p : Relocation.Plan} {drain : List ℕ → List ℕ}
    (hdrain : ∀ l, (drain l).Perm l) (hstays : ∀ i < p.size, p.skips i = false)
    (htarget : ∀ i t, p.target i = some t → t < p.size) :
    p.rebuilt drain = List.range p.size := by
  have hshort : p.Short := by
    intro i t hi _ ht
    have := hstays i hi
    simp [Relocation.Plan.skips, ht] at this
  rw [hshort.rebuilt_eq_filter hdrain htarget, filter_eq_self]
  intro i hi
  have := hstays i (mem_range.mp hi)
  simp only [Relocation.Plan.skips, Bool.or_eq_false_iff] at this
  simp [this.1]

/-- **Reordering lists the items by the rebuilt positions**, also where the source returns early. -/
theorem reorder_eq_map (h : CallsPrecedeOutputs items) (env : Env) :
    reorderDelayedToolOutputsAfterCalls env items
      = ((reorderPlan items).rebuilt env.drain).map (itemAt items) := by
  have hstays : (∀ i < items.length, (reorderPlan items).skips i = false) →
      ((reorderPlan items).rebuilt env.drain).map (itemAt items) = items := fun hs => by
    have hrange : (reorderPlan items).rebuilt env.drain = List.range items.length :=
      rebuilt_of_stays env.drain_perm hs (target_lt_size h)
    rw [hrange, map_itemAt_range]
  unfold reorderDelayedToolOutputsAfterCalls
  split
  · -- without calls there are no outputs either
    next hnone =>
    refine (hstays fun i _ => skips_of_not_output ?_).symm
    rcases hi : outputIdAt items i with - | callId
    · rfl
    · obtain ⟨c, -, hc⟩ := h i callId hi
      have hcall := all_eq_true.mp hnone c (mem_range.mpr (lt_length_of_callIdAt hc))
      simp [isCallAt, hc] at hcall
  · split
    · next hnone =>
      refine (hstays fun i hi => ?_).symm
      simpa using all_eq_true.mp hnone i (mem_range.mpr hi)
    · exact filterMap_getElem?_eq_map fun i hi => ((mem_rebuilt_iff h env).mp hi).1

/-! ### Missing outputs -/

theorem insertIdx_length_append {α : Type} (before after : List α) (x : α) :
    (before ++ after).insertIdx before.length x = before ++ x :: after := by
  induction before with
  | nil => rfl
  | cons _ _ ih => simp [ih]

theorem foldr_insertIdx_eq_flatMap (missing : ResponseItemEnvelope → Option ResponseItemEnvelope)
    (before rest : List ResponseItemEnvelope) :
    ((rest.zipIdx before.length).filterMap fun entry =>
        (missing entry.1).map fun output => (entry.2, output)).foldr
      (fun entry items => items.insertIdx (entry.1 + 1) entry.2) (before ++ rest)
      = before ++ rest.flatMap fun e => e :: (missing e).toList := by
  induction rest generalizing before with
  | nil => simp
  | cons e rest ih =>
    have hrest := ih (before ++ [e])
    rw [length_append, length_singleton, append_assoc, singleton_append]
      at hrest
    rw [zipIdx_cons, filterMap_cons]
    rcases hm : missing e with - | output
    · simp [hrest]
      simp [hm]
    · simp only [Option.map_some, foldr_cons, hrest]
      have hins := insertIdx_length_append (before ++ [e])
        (rest.flatMap fun e => e :: (missing e).toList) output
      rw [length_append, length_singleton] at hins
      rw [hins]
      simp [hm]

/-- **Each item is followed by its synthetic output, if it is a call without one.** -/
theorem ensureCallOutputsPresent_eq_flatMap (env : Env) (items : List ResponseItemEnvelope) :
    ensureCallOutputsPresent env items
      = items.flatMap fun e => e :: (missingOutput items env.uuidV5 e).toList := by
  rw [ensureCallOutputsPresent, foldl_reverse]
  exact foldr_insertIdx_eq_flatMap (missingOutput items env.uuidV5) [] items

/-- The ids that can answer a call are those of the outputs of its kind. -/
theorem mem_outputIdsFor {call : ResponseItem} :
    callId ∈ outputIdsFor items call ↔
      ∃ o ∈ items, call.isAnsweredBy o.item ∧ o.item.outputCallId = some callId := by
  cases call
  case functionCall | localShellCall | toolSearchCall | customToolCall =>
    simp only [outputIdsFor, functionOutputIds, toolSearchOutputIds, customToolOutputIds,
      mem_filterMap]
    refine exists_congr fun o => and_congr_right fun _ => ?_
    rcases o with ⟨item, metadata⟩
    cases item <;> simp [ResponseItem.isAnsweredBy, ResponseItem.outputCallId]
  all_goals simp [outputIdsFor, ResponseItem.isAnsweredBy]

variable {o : ResponseItemEnvelope}

/-- An output is no orphan when a call of its kind has its id. -/
theorem isOrphan_eq_false {c : ResponseItemEnvelope} (hc : c ∈ items)
    (hkind : c.item.isAnsweredBy o.item)
    (hid : c.item.toolCallId = some callId) (hout : o.item.outputCallId = some callId) :
    isOrphan items o = false := by
  rcases o with ⟨item, metadata⟩
  rcases c with ⟨call, metadata'⟩
  cases call <;> cases item <;> cases hkind <;> cases hid <;> cases hout <;>
    simp only [isOrphan, functionCallIds, customToolCallIds, toolSearchCallIds, decide_eq_false_iff_not,
      mem_filterMap, not_and, not_not] <;>
    first
      | exact ⟨_, hc, rfl⟩
      | exact fun _ => ⟨_, hc, rfl⟩

theorem isOrphan_of_not_output (h : o.item.outputCallId = none) : isOrphan items o = false := by
  rcases o with ⟨item, metadata⟩
  cases item <;> simp_all [isOrphan, ResponseItem.outputCallId]

variable {uuidV5 : String → String}

/-- A synthetic output has the kind and the id of its call. -/
theorem missingOutput_spec {out : ResponseItemEnvelope}
    (h : missingOutput items uuidV5 e = some out) :
    ∃ callId, e.item.toolCallId = some callId ∧ out.item.outputCallId = some callId ∧
      e.item.isAnsweredBy out.item ∧ callId ∉ outputIdsFor items e.item := by
  unfold missingOutput at h
  split at h
  · cases h
  · next callId hid =>
    split at h
    · cases h
    · next hmem =>
      obtain ⟨item, hitem, rfl⟩ := Option.map_eq_some_iff.mp h
      refine ⟨callId, hid, ?_⟩
      rcases e with ⟨call, metadata⟩
      cases call <;> cases hitem <;> exact ⟨rfl, rfl, hmem⟩

/-- Only calls get a synthetic output, and only those without an output of their kind. -/
theorem missingOutput_eq_none
    (h : ∀ callId, e.item.toolCallId = some callId → callId ∈ outputIdsFor items e.item) :
    missingOutput items uuidV5 e = none := by
  unfold missingOutput
  split
  · rfl
  · next callId hid => rw [if_pos (h callId hid)]

/-- Which outputs are missing depends on the items, not on their order. -/
theorem missingOutput_congr {other : List ResponseItemEnvelope} (h : items.Perm other)
    (uuidV5 : String → String) (e : ResponseItemEnvelope) :
    missingOutput items uuidV5 e = missingOutput other uuidV5 e := by
  have hids : ∀ callId, callId ∈ outputIdsFor items e.item ↔ callId ∈ outputIdsFor other e.item :=
    fun callId => by simp [mem_outputIdsFor, h.mem_iff]
  unfold missingOutput
  split
  · rfl
  · simp [hids]

end Normalize

end CodexPlus
