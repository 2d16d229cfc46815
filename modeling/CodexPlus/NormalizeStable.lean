/-
CodexPlus/NormalizeStable.lean

When normalization leaves an already valid prompt alone.

A prompt is valid when each run of calls is directly followed by one output per
call.  Call ids are distinct within a run and may come back in a later run.  The
proof works with the positions of a batch: calls from `s` to `e`, outputs from
`e + 1` to `f`.

Reordering keeps such a batch exactly when its outputs stand in the reverse of
call order, since every call of the run starts a batch of its own.  An id that
comes back makes the later output a duplicate, which is dropped; the prompt is
only restored when the synthetic output that replaces it happens to be the same.
-/
import CodexPlus.NormalizePasses

namespace CodexPlus

open List

namespace Normalize

variable {items : List ResponseItemEnvelope}

/-! ### Batches by position -/

/-- A run of calls from `s` to `e` directly followed by one output for each, from `e + 1` to `f`. -/
structure BatchAt (items : List ResponseItemEnvelope) (s e f : ℕ) : Prop where
  nonempty : s ≤ e
  answered : e < f
  calls : ∀ c, s ≤ c → c ≤ e → isCallAt items c = true
  before : ∀ k, k + 1 = s → isCallAt items k = false
  after : outputIdAt items (f + 1) = none
  outputs : ∀ i, e < i → i ≤ f → ∃ c, s ≤ c ∧ c ≤ e ∧ outputIdAt items i = callIdAt items c ∧
    (itemAt items c).item.isAnsweredBy (itemAt items i).item = true
  output : ∀ c, s ≤ c → c ≤ e → ∃ i, e < i ∧ i ≤ f ∧ outputIdAt items i = callIdAt items c ∧
    (itemAt items c).item.isAnsweredBy (itemAt items i).item = true
  callsInj : ∀ c c', s ≤ c → c ≤ e → s ≤ c' → c' ≤ e →
    callIdAt items c = callIdAt items c' → c = c'
  outputsInj : ∀ i i', e < i → i ≤ f → e < i' → i' ≤ f →
    outputIdAt items i = outputIdAt items i' → i = i'

/-- Every call and every output belongs to such a batch. -/
structure Batched (items : List ResponseItemEnvelope) : Prop where
  ofCall : ∀ c, isCallAt items c = true → ∃ s e f, BatchAt items s e f ∧ s ≤ c ∧ c ≤ e
  ofOutput : ∀ i callId, outputIdAt items i = some callId →
    ∃ s e f, BatchAt items s e f ∧ e < i ∧ i ≤ f

variable {i : ℕ}

theorem isDuplicateOutput_iff : isDuplicateOutput items i ↔
    ∃ callId, outputIdAt items i = some callId ∧ ∃ j < i, outputIdAt items j = some callId := by
  simp [isDuplicateOutput, Option.any_eq_true]

variable {c : ℕ}

namespace BatchAt

variable {s e f : ℕ}

section

variable (h : BatchAt items s e f)

include h

theorem callId (hsc : s ≤ c) (hce : c ≤ e) : ∃ callId, callIdAt items c = some callId :=
  Option.isSome_iff_exists.mp (h.calls c hsc hce)

theorem outputId (hei : e < i) (hif : i ≤ f) : ∃ callId, outputIdAt items i = some callId := by
  obtain ⟨c, hsc, hce, hid, -⟩ := h.outputs i hei hif
  obtain ⟨callId, hc⟩ := h.callId hsc hce
  exact ⟨callId, hid.trans hc⟩

theorem lt_length (hif : i ≤ f) : i < items.length := by
  obtain ⟨callId, hf⟩ := h.outputId h.answered le_rfl
  exact hif.trans_lt (lt_length_of_outputIdAt hf)

theorem batchEnd (hsc : s ≤ c) (hce : c ≤ e) : batchEnd items c = e := by
  obtain ⟨callId, hid⟩ := h.outputId (Nat.lt_succ_self e) h.answered
  exact extend_eq (fun _ => lt_length_of_isCallAt) hce
    (fun k hk hke => h.calls k (by omega) hke) (isCallAt_of_output hid)

theorem blockEndOf (hsc : s ≤ c) (hce : c ≤ e) : blockEndOf items c = e := by
  obtain ⟨callId, hid⟩ := h.outputId (Nat.lt_succ_self e) h.answered
  rw [Normalize.blockEndOf, h.batchEnd hsc hce]
  exact extend_eq (fun _ => lt_length_of_isCoalescingAt) le_rfl (fun k h1 h2 => by omega)
    (isCoalescingAt_of_output hid)

/-- Behind its calls a batch has outputs only. -/
theorem call_le (hc : isCallAt items c) (hcf : c ≤ f) : c ≤ e := by
  by_contra hlt
  obtain ⟨callId, hid⟩ := h.outputId (Nat.lt_of_not_le hlt) hcf
  rw [isCallAt_of_output hid] at hc
  cases hc

/-- A batch that reaches before another one lies before it. -/
theorem lt_of_lt {s' e' f' : ℕ} (h' : BatchAt items s' e' f') (hlt : s' < s) : f' < s := by
  have he' : e' < s := by
    by_contra hle
    have := h.before (s - 1) (by omega)
    rw [h'.calls (s - 1) (by omega) (by omega)] at this
    cases this
  by_contra hle
  have := h'.call_le (h.calls s le_rfl h.nonempty) (Nat.le_of_not_lt hle)
  omega

/-- An output of the batch is a duplicate when its id was used before the batch. -/
theorem duplicate_iff (hei : e < i) (hif : i ≤ f) :
    isDuplicateOutput items i ↔ ∃ j < s, outputIdAt items j = outputIdAt items i := by
  obtain ⟨callId, hid⟩ := h.outputId hei hif
  rw [isDuplicateOutput_iff]
  constructor
  · rintro ⟨callId', hid', j, hji, hj⟩
    refine ⟨j, ?_, hj.trans hid'.symm⟩
    by_contra hsj
    rcases Nat.lt_or_ge e j with hej | hje
    · have := h.outputsInj j i hej (by omega) hei hif (hj.trans hid'.symm)
      omega
    · have hcall := h.calls j (by omega) hje
      rw [isCallAt_of_output hj] at hcall
      cases hcall
  · rintro ⟨j, hjs, hj⟩
    have := h.nonempty
    exact ⟨callId, hid, j, by omega, hj.trans hid⟩

end
end BatchAt

namespace Batched

theorem callsPrecedeOutputs (h : Batched items) : CallsPrecedeOutputs items := by
  intro i callId hi
  obtain ⟨s, e, f, hb, hei, hif⟩ := h.ofOutput i callId hi
  obtain ⟨c, -, hce, hid, -⟩ := hb.outputs i hei hif
  exact ⟨c, by omega, hid.symm.trans hi⟩

variable {s e f : ℕ}

/-- The call an output of the batch is matched with: its own, unless the id was used before. -/
theorem outputPositions (h : Batched items) (hb : BatchAt items s e f) (hei : e < i) (hif : i ≤ f) :
    ∃ c, outputPositions items i = some c ∧ callIdAt items c = outputIdAt items i ∧
      (isDuplicateOutput items i = false → s ≤ c ∧ c ≤ e) ∧
      (isDuplicateOutput items i → c < s) := by
  obtain ⟨callId, hid⟩ := hb.outputId hei hif
  obtain ⟨own, hso, hoe, hown, -⟩ := hb.outputs i hei hif
  obtain ⟨c, -, hc, hcid⟩ := h.callsPrecedeOutputs.outputPositions hid
  obtain ⟨callId', hid', hcall⟩ := Option.bind_eq_some_iff.mp hc
  cases hid'.symm.trans hid
  obtain ⟨-, hfirst⟩ := callIndexById_spec hcall
  have hcle : ∀ k, callIdAt items k = some callId → c ≤ k := fun k hk => by
    by_contra hlt
    exact hfirst k (Nat.lt_of_not_le hlt) hk
  refine ⟨c, hc, hcid.trans hid.symm, fun hdup => ⟨?_, ?_⟩, fun hdup => ?_⟩
  · -- a first call before the batch would have its output before the batch
    by_contra hlt
    obtain ⟨s', e', f', hb', hsc', hce'⟩ := h.ofCall c (by simp [isCallAt, hcid])
    obtain ⟨j, hej, hjf, hj, -⟩ := hb'.output c hsc' hce'
    have hf' : f' < s := hb.lt_of_lt hb' (by omega)
    have hyes : isDuplicateOutput items i = true :=
      (hb.duplicate_iff hei hif).mpr ⟨j, by omega, (hj.trans hcid).trans hid.symm⟩
    rw [hyes] at hdup
    cases hdup
  · exact (hcle own (hown.symm.trans hid)).trans hoe
  · obtain ⟨j, hjs, hj⟩ := (hb.duplicate_iff hei hif).mp hdup
    obtain ⟨k, hkj, hk⟩ := h.callsPrecedeOutputs j callId (hj.trans hid)
    have := hcle k hk
    omega

/-- Which positions of the batch answer a call from `c` on. -/
theorem answersFrom_iff (h : Batched items) (hb : BatchAt items s e f) (hsc : s ≤ c)
    (hce : c ≤ e) (hei : e < i) (hif : i ≤ f) :
    answersFrom items c i ↔ isDuplicateOutput items i = false ∧
      ∃ d, Normalize.outputPositions items i = some d ∧ c ≤ d := by
  obtain ⟨d, hd, -, hin, hout⟩ := h.outputPositions hb hei hif
  rw [answersFrom, answersBetween_iff, hb.batchEnd hsc hce]
  constructor
  · rintro ⟨d', hd', hcd, hde⟩
    cases hd'.symm.trans hd
    refine ⟨?_, d, hd, hcd⟩
    rcases hdup : isDuplicateOutput items i with - | -
    · rfl
    · have := hout hdup
      omega
  · rintro ⟨hdup, d', hd', hcd⟩
    cases hd'.symm.trans hd
    exact ⟨d, hd, hcd, (hin hdup).2⟩

end Batched

/-! ### The passes on a valid prompt -/

/-- The items that are no duplicate outputs. -/
def keptItems (items : List ResponseItemEnvelope) : List ResponseItemEnvelope :=
  ((List.range items.length).filter fun i => !isDuplicateOutput items i).map (itemAt items)

/-- The synthetic output that goes behind position `i`. -/
def missingAt (uuidV5 : String → String) (items : List ResponseItemEnvelope) (i : ℕ) :
    Option ResponseItemEnvelope :=
  missingOutput (keptItems items) uuidV5 (itemAt items i)

variable (env : Env)

/-- Reordering, synthesizing and orphan removal, without the media passes. -/
def pairingPasses (items : List ResponseItemEnvelope) : List ResponseItemEnvelope :=
  removeOrphanOutputs (ensureCallOutputsPresent env (reorderDelayedToolOutputsAfterCalls env items))

theorem mem_keptItems (hi : i < items.length) (hdup : isDuplicateOutput items i = false) :
    itemAt items i ∈ keptItems items :=
  mem_map.mpr ⟨i, by simp [hi, hdup], rfl⟩

theorem isDuplicateOutput_of_not_output (h : outputIdAt items i = none) :
    isDuplicateOutput items i = false := by
  simp [isDuplicateOutput, h]

theorem outputIdAt_of_isCallAt (h : isCallAt items i) : outputIdAt items i = none := by
  rcases hi : outputIdAt items i with - | callId
  · rfl
  · rw [isCallAt_of_output hi] at h
    cases h

/-- **The passes list the rebuilt positions, each with its synthetic output**: in a valid prompt no
output is an orphan. -/
theorem pairingPasses_eq (h : Batched items) (env : Env) :
    pairingPasses env items = ((reorderPlan items).rebuilt env.drain).flatMap fun i =>
      itemAt items i :: (missingAt env.uuidV5 items i).toList := by
  have hprec := h.callsPrecedeOutputs
  set order := (reorderPlan items).rebuilt env.drain with horder
  have hperm : (order.map (itemAt items)).Perm (keptItems items) :=
    (Relocation.Plan.rebuilt_perm env.drain_perm (target_lt_size hprec)).map _
  have hensure : ensureCallOutputsPresent env (reorderDelayedToolOutputsAfterCalls env items)
      = order.flatMap fun i => itemAt items i :: (missingAt env.uuidV5 items i).toList := by
    rw [reorder_eq_map hprec, ensureCallOutputsPresent_eq_flatMap, flatMap_map]
    refine flatMap_congr fun i _ => ?_
    rw [missingOutput_congr hperm]
    rfl
  rw [pairingPasses, hensure, removeOrphanOutputs, filter_eq_self]
  -- every call is still there
  have hcall : ∀ c, isCallAt items c = true → itemAt items c ∈
      order.flatMap fun i => itemAt items i :: (missingAt env.uuidV5 items i).toList := by
    intro c hc
    refine mem_flatMap.mpr ⟨c, (mem_rebuilt_iff hprec env).mpr ?_, by simp⟩
    exact ⟨lt_length_of_isCallAt hc, isDuplicateOutput_of_not_output (outputIdAt_of_isCallAt hc)⟩
  intro o ho
  obtain ⟨i, hi, ho⟩ := mem_flatMap.mp ho
  have hlen := ((mem_rebuilt_iff hprec env).mp hi).1
  simp only [Bool.not_eq_eq_eq_not, Bool.not_true]
  rcases mem_cons.mp ho with rfl | ho
  · rcases hid : (itemAt items i).item.outputCallId with - | callId
    · exact isOrphan_of_not_output hid
    · rw [← outputIdAt_eq hlen] at hid
      obtain ⟨s, e, f, hb, hei, hif⟩ := h.ofOutput i callId hid
      obtain ⟨c, hsc, hce, hcid, hkind⟩ := hb.outputs i hei hif
      have hclen := hb.lt_length (hce.trans hb.answered.le)
      have hcid' : (itemAt items c).item.toolCallId = some callId := by
        rw [← callIdAt_eq hclen, ← hcid, hid]
      refine isOrphan_eq_false (hcall c (hb.calls c hsc hce)) hkind hcid' ?_
      rw [← outputIdAt_eq hlen, hid]
  · obtain ⟨callId, hid, hout, hkind, -⟩ := missingOutput_spec (Option.mem_toList.mp ho)
    refine isOrphan_eq_false (hcall i ?_) hkind hid hout
    simp [isCallAt, callIdAt_eq hlen, hid]

/-! ### Which batches are stable -/

/-- The batch is kept: its outputs are new and in the reverse of call order, or only the first one
is a duplicate and comes back as the synthetic output of the last call. -/
def StableAt (uuidV5 : String → String) (items : List ResponseItemEnvelope) (s e f : ℕ) : Prop :=
  ((∀ i, e < i → i ≤ f → isDuplicateOutput items i = false) ∧
    ∀ i j c d, e < i → i < j → j ≤ f → outputPositions items i = some c →
      outputPositions items j = some d → s ≤ d ∧ d < c) ∨
  (isDuplicateOutput items (e + 1) = true ∧
    (∀ i, e + 1 < i → i ≤ f → isDuplicateOutput items i = false) ∧
    missingAt uuidV5 items e = some (itemAt items (e + 1)))

section Sufficient

variable {uuidV5 : String → String} (h : Batched items)
  (hstable : ∀ s e f, BatchAt items s e f → StableAt uuidV5 items s e f)

include h hstable

/-- In a stable prompt only a duplicate's block moves, and only up to the last call. -/
theorem reorderPlan_short : (reorderPlan items).Short := by
  intro i t hi hdup ht
  have hfollow := h.callsPrecedeOutputs.outputsFollowCalls
  change isDuplicateOutput items i = false at hdup
  change moveTarget items i = some t at ht
  rcases hid : outputIdAt items i with - | callId
  · have := skips_of_not_output hid
    simp [Relocation.Plan.skips, reorderPlan, ht] at this
  obtain ⟨s, e, f, hb, hei, hif⟩ := h.ofOutput i callId hid
  obtain ⟨c, hc, -, hin, -⟩ := h.outputPositions hb hei hif
  obtain ⟨hsc, hce⟩ := hin hdup
  have hcases := moveTarget_cases hfollow hc
  rw [hb.blockEndOf hsc hce] at hcases
  rcases hstable s e f hb with ⟨hnew, hrev⟩ | ⟨hfirst, hnew, -⟩
  · -- outputs in the reverse of call order all stay
    have hall : ∀ j, e < j → j ≤ i → answersFrom items c j = true := fun j hej hji => by
      refine (h.answersFrom_iff hb hsc hce hej (hji.trans hif)).mpr ⟨hnew j hej (hji.trans hif), ?_⟩
      obtain ⟨d, hd, -⟩ := h.outputPositions hb hej (hji.trans hif)
      refine ⟨d, hd, ?_⟩
      rcases hji.eq_or_lt with rfl | hji
      · exact (Option.some.inj (hc.symm.trans hd)).le
      · exact (hrev j i d c hej hji hif hd hc).2.le
    rcases hcases with ⟨hnone, -⟩ | ⟨u, -, heu, hui, -, hstop⟩ | ⟨-, hstop⟩
    · rw [hnone] at ht
      cases ht
    · rw [hall (u + 1) (by omega) (by omega)] at hstop
      cases hstop
    · rw [hall (e + 1) (by omega) (by omega)] at hstop
      cases hstop
  · -- the duplicate splits the outputs from the calls
    have hlast : ∀ j, e + 1 < j → j ≤ f → moveTarget items j = some e := fun j hej hjf => by
      obtain ⟨d, hd, -, hin, -⟩ := h.outputPositions hb (by omega) hjf
      obtain ⟨hsd, hde⟩ := hin (hnew j hej hjf)
      have hsplit : ¬ answersFrom items d (e + 1) = true := fun hq => by
        have := ((h.answersFrom_iff hb hsd hde (Nat.lt_succ_self e) hb.answered).mp hq).1
        rw [hfirst] at this
        cases this
      rw [moveTarget_eq hfollow hd, targetOf, hb.blockEndOf hsd hde, if_neg hsplit]
    have hne : i ≠ e + 1 := fun heq => by
      rw [heq, hfirst] at hdup
      cases hdup
    have hte : t = e := Option.some.inj (ht.symm.trans (hlast i (by omega) hif))
    rw [hte]
    refine ⟨skips_of_not_output (outputIdAt_of_isCallAt (hb.calls e hb.nonempty le_rfl)), hei, ?_⟩
    intro j hej hji
    rcases (Nat.succ_le_of_lt hej).eq_or_lt with heq | hej'
    · exact .inl (heq ▸ hfirst)
    · exact .inr (hlast j hej' (by omega))

/-- In a stable prompt a duplicate stands directly behind the call that gets it back, and every
other call has its output. -/
theorem missingAt_of_stable (k : ℕ) :
    (isDuplicateOutput items (k + 1) →
      missingAt uuidV5 items k = some (itemAt items (k + 1))) ∧
    (isDuplicateOutput items (k + 1) = false → missingAt uuidV5 items k = none) := by
  constructor
  · intro hdup
    obtain ⟨callId, hid, -⟩ := isDuplicateOutput_iff.mp hdup
    obtain ⟨s, e, f, hb, hek, hkf⟩ := h.ofOutput _ callId hid
    rcases hstable s e f hb with ⟨hnew, -⟩ | ⟨-, hnew, hmiss⟩
    · rw [hnew _ hek hkf] at hdup
      cases hdup
    · have hke : k = e := by
        by_contra hne
        rw [hnew (k + 1) (by omega) hkf] at hdup
        cases hdup
      rw [hke, hmiss]
  · intro hdup
    rcases Nat.lt_or_ge k items.length with hlen | hlen
    swap
    · refine missingOutput_eq_none fun callId hid => ?_
      simp [itemAt, getElem?_eq_none hlen, ResponseItemEnvelope.new, ResponseItem.toolCallId] at hid
    refine missingOutput_eq_none fun callId hid => ?_
    have hcall : isCallAt items k = true := by simp [isCallAt, callIdAt_eq hlen, hid]
    obtain ⟨s, e, f, hb, hsk, hke⟩ := h.ofCall k hcall
    obtain ⟨i, hei, hif, hi, hkind⟩ := hb.output k hsk hke
    have hilen := hb.lt_length hif
    rw [callIdAt_eq hlen, hid] at hi
    -- its own output is kept, as only the last call can have a duplicate, directly behind it
    have hkept : isDuplicateOutput items i = false := by
      rcases hstable s e f hb with ⟨hnew, -⟩ | ⟨hfirst, hnew, hmiss⟩
      · exact hnew i hei hif
      rcases (Nat.succ_le_of_lt hei).eq_or_lt with rfl | hei'
      · obtain ⟨callId', hid', hout', -⟩ := missingOutput_spec hmiss
        have helen := hb.lt_length hb.answered.le
        have hsame : callIdAt items e = callIdAt items k := by
          rw [callIdAt_eq helen, callIdAt_eq hlen, hid, hid', ← hi, outputIdAt_eq hilen, hout']
        have hek := hb.callsInj e k hb.nonempty le_rfl hsk hke hsame
        rw [← hek, hfirst] at hdup
        cases hdup
      · exact hnew i hei' hif
    rw [outputIdAt_eq hilen] at hi
    exact mem_outputIdsFor.mpr ⟨_, mem_keptItems hilen hkept, hkind, hi⟩

/-- **A prompt of stable batches is left alone.** -/
theorem pairingPasses_eq_self (env : Env) (huuid : env.uuidV5 = uuidV5) :
    pairingPasses env items = items := by
  have hshort := reorderPlan_short h hstable
  rw [pairingPasses_eq h, hshort.rebuilt_eq_filter env.drain_perm
    (target_lt_size h.callsPrecedeOutputs), huuid]
  change ((List.range items.length).filter fun i => !isDuplicateOutput items i).flatMap _ = items
  -- up to position `k`, plus a duplicate at `k` that has already come back
  have hupTo : ∀ k ≤ items.length,
      ((List.range k).filter fun i => !isDuplicateOutput items i).flatMap
          (fun i => itemAt items i :: (missingAt uuidV5 items i).toList)
        = (List.range k).map (itemAt items)
          ++ if isDuplicateOutput items k = true then [itemAt items k] else [] := by
    intro k
    induction k with
    | zero =>
      have hzero : isDuplicateOutput items 0 = false := by
        rcases hq : isDuplicateOutput items 0 with - | -
        · rfl
        · obtain ⟨-, -, j, hj, -⟩ := isDuplicateOutput_iff.mp hq
          omega
      simp [hzero]
    | succ k ih =>
      intro hk
      rw [range_succ, filter_append, flatMap_append, ih (by omega)]
      rcases hdup : isDuplicateOutput items k with - | -
      · obtain ⟨hback, hnone⟩ := missingAt_of_stable h hstable k
        rcases hnext : isDuplicateOutput items (k + 1) with - | -
        · simp [hdup, hnone hnext]
        · simp [hdup, hback hnext]
      · -- behind a duplicate comes no duplicate
        obtain ⟨callId, hid, -⟩ := isDuplicateOutput_iff.mp hdup
        obtain ⟨s, e, f, hb, hek, hkf⟩ := h.ofOutput _ callId hid
        have hnext : isDuplicateOutput items (k + 1) = false := by
          rcases hstable s e f hb with ⟨hnew, -⟩ | ⟨-, hnew, -⟩
          · rw [hnew k hek hkf] at hdup
            cases hdup
          · rcases hkf.eq_or_lt with rfl | hkf
            · exact isDuplicateOutput_of_not_output hb.after
            · exact hnew (k + 1) (by omega) (by omega)
        simp [hdup, hnext]
  have hall := hupTo items.length le_rfl
  have hend : isDuplicateOutput items items.length = false := by
    rcases hq : isDuplicateOutput items items.length with - | -
    · rfl
    · obtain ⟨callId, hid, -⟩ := isDuplicateOutput_iff.mp hq
      have := lt_length_of_outputIdAt hid
      omega
  rw [hall, hend, map_itemAt_range]
  simp

end Sufficient

/-! ### A prompt that is left alone has stable batches only -/

/-- An entry of the normalized prompt: an original position or the synthetic output of a call. -/
inductive Entry where
  | original (i : ℕ)
  | synthetic (i : ℕ) (out : ResponseItemEnvelope)

def Entry.value (items : List ResponseItemEnvelope) : Entry → ResponseItemEnvelope
  | .original i => itemAt items i
  | .synthetic _ out => out

def entriesAt (uuidV5 : String → String) (items : List ResponseItemEnvelope) (i : ℕ) : List Entry :=
  .original i :: ((missingAt uuidV5 items i).map (Entry.synthetic i)).toList

/-- The normalized prompt, entry by entry. -/
def entries (items : List ResponseItemEnvelope) : List Entry :=
  ((reorderPlan items).rebuilt env.drain).flatMap (entriesAt env.uuidV5 items)

theorem map_value_entries (h : Batched items) (env : Env) :
    (entries env items).map (Entry.value items) = pairingPasses env items := by
  rw [pairingPasses_eq h, entries, map_flatMap]
  refine flatMap_congr fun i _ => ?_
  rcases hm : missingAt env.uuidV5 items i with - | out <;> simp [entriesAt, hm, Entry.value]

def Entry.origin : Entry → Option ℕ
  | .original i => some i
  | .synthetic _ _ => none

theorem filterMap_origin_entries :
    (entries env items).filterMap Entry.origin = (reorderPlan items).rebuilt env.drain := by
  rw [entries, filterMap_flatMap]
  have hone : ∀ i, (entriesAt env.uuidV5 items i).filterMap Entry.origin = [i] := fun i => by
    rcases hm : missingAt env.uuidV5 items i with - | out <;> simp [entriesAt, hm, Entry.origin]
  simp [hone]

variable {k : ℕ}

/-- An original position occurs at most once. -/
theorem original_unique {k' : ℕ} (hk : (entries env items)[k]? = some (.original i))
    (hk' : (entries env items)[k']? = some (.original i)) : k = k' := by
  have hnodup : ((entries env items).filterMap Entry.origin).Nodup := by
    rw [filterMap_origin_entries]
    exact Relocation.Plan.nodup_rebuilt env.drain_perm
  obtain ⟨hkl, hk⟩ := List.getElem?_eq_some_iff.mp hk
  obtain ⟨hkl', hk'⟩ := List.getElem?_eq_some_iff.mp hk'
  have hpair := pairwise_iff_getElem.mp (pairwise_filterMap.mp hnodup)
  rcases Nat.lt_trichotomy k k' with hlt | heq | hlt
  · exact absurd rfl (hpair k k' hkl hkl' hlt i (by rw [hk]; rfl) i (by rw [hk']; rfl))
  · exact heq
  · exact absurd rfl (hpair k' k hkl' hkl hlt i (by rw [hk']; rfl) i (by rw [hk]; rfl))

variable {out : ResponseItemEnvelope}

/-- A synthetic output stands directly behind its call. -/
theorem original_before_synthetic {uuidV5 : String → String} {order : List ℕ}
    (h : (order.flatMap (entriesAt uuidV5 items))[k]? = some (.synthetic c out)) :
    ∃ j, k = j + 1 ∧ (order.flatMap (entriesAt uuidV5 items))[j]? = some (.original c) ∧
      missingAt uuidV5 items c = some out := by
  induction order generalizing k with
  | nil => simp at h
  | cons i _ ih =>
    rw [flatMap_cons] at h ⊢
    rcases hm : missingAt uuidV5 items i with - | out'
    · simp only [entriesAt, hm, Option.map_none, Option.toList_none, cons_append, nil_append] at h ⊢
      rcases k with - | k
      · simp at h
      · obtain ⟨j, rfl, hj, hc⟩ := ih (by simpa using h)
        exact ⟨j + 1, rfl, by simpa [entriesAt, hm] using hj, hc⟩
    · simp only [entriesAt, hm, Option.map_some, Option.toList_some, cons_append, nil_append] at h ⊢
      rcases k with - | - | k
      · simp at h
      · simp only [Nat.zero_add, getElem?_cons_succ, getElem?_cons_zero,
          Option.some.injEq, Entry.synthetic.injEq] at h
        obtain ⟨rfl, rfl⟩ := h
        exact ⟨0, rfl, rfl, hm⟩
      · obtain ⟨j, rfl, hj, hc⟩ := ih (by simpa using h)
        exact ⟨j + 2, rfl, by simpa [entriesAt, hm] using hj, hc⟩

/-- The first position that moves behind `t` comes next, when `t` gets no synthetic output. -/
theorem original_after_target {t x : ℕ} {rest : List ℕ} (ht : t < items.length)
    (hstays : (reorderPlan items).skips t = false)
    (hmoved : (reorderPlan items).movedTo t = x :: rest)
    (hmiss : missingAt env.uuidV5 items t = none) :
    ∃ j, (entries env items)[j]? = some (.original t) ∧
      (entries env items)[j + 1]? = some (.original x) := by
  obtain ⟨before, after, hrange, -⟩ := eq_append_cons_of_mem (mem_range.mpr ht)
  have hemit : (reorderPlan items).emit t = t :: x :: rest := by
    simp [Relocation.Plan.emit, hstays, hmoved]
  have hentries : ∃ b a, entries env items = b ++ .original t :: .original x :: a := by
    change ∃ b a, List.flatMap _ ((List.range items.length).flatMap _ ++ _) = _
    rw [hrange]
    simp only [flatMap_append, flatMap_cons, hemit, entriesAt, hmiss, Option.map_none,
      Option.toList_none, cons_append, nil_append, append_assoc]
    exact ⟨_, _, rfl⟩
  obtain ⟨b, a, hentries⟩ := hentries
  refine ⟨b.length, ?_, ?_⟩ <;> simp [hentries]

/-- Two lists agree where a predicate selects, when their selections are the same. -/
theorem getElem?_eq_of_filter_eq {α : Type} {l : List α} {q : α → Bool} {p : ℕ → Bool} {g : ℕ → α}
    (hqp : ∀ k x, l[k]? = some x → q x = p k)
    (hfilter : l.filter q = ((List.range l.length).filter p).map g) (hk : k < l.length)
    (hp : p k) : l[k]? = some (g k) := by
  set pick : ℕ → α := fun i => l[i]?.getD l[k] with hpick
  have hget : ∀ i, i < l.length → l[i]? = some (pick i) := fun i hi => by simp [hpick, hi]
  have hl : l = (List.range l.length).map pick := by
    apply ext_getElem?
    intro i
    rcases Nat.lt_or_ge i l.length with hi | hi
    · simp [getElem?_range hi, hget i hi]
    · simp [hi]
  have hselect : l.filter q = ((List.range l.length).filter p).map pick := by
    conv_lhs => rw [hl]
    rw [filter_map]
    refine congrArg (List.map pick) (filter_congr fun i hi => ?_)
    exact hqp i _ (hget i (mem_range.mp hi))
  have hsame := map_inj_left.mp (hselect.symm.trans hfilter) k (by simp [hk, hp])
  rw [hget k hk, hsame]

section Necessary

variable (h : Batched items) (env : Env) (hsame : pairingPasses env items = items)

include h hsame

theorem value_of_entry {x : Entry} (hx : (entries env items)[k]? = some x) :
    k < items.length ∧ x.value items = itemAt items k := by
  have hval : items[k]? = some (x.value items) := by
    conv_lhs => rw [← hsame, ← map_value_entries h env]
    simp [hx]
  exact ⟨(List.getElem?_eq_some_iff.mp hval).1, (itemAt_eq hval).symm⟩

theorem length_entries : (entries env items).length = items.length := by
  rw [← length_map (Entry.value items), map_value_entries h env, hsame]

/-- Calls are where they were. -/
theorem entry_of_call (hc : isCallAt items c) : (entries env items)[c]? = some (.original c) := by
  have hlen := length_entries h env hsame
  set q : Entry → Bool := fun x => (x.value items).item.toolCallId.isSome with hq
  have hqp : ∀ k x, (entries env items)[k]? = some x → q x = isCallAt items k := fun k x hx => by
    obtain ⟨hk, hval⟩ := value_of_entry h env hsame hx
    simp [hq, hval, isCallAt, callIdAt_eq hk]
  have hentry : ∀ i < items.length, (entriesAt env.uuidV5 items i).filter q
      = ([i].filter (isCallAt items)).map Entry.original := fun i hi => by
    have horiginal : q (.original i) = isCallAt items i := by
      simp [hq, Entry.value, isCallAt, callIdAt_eq hi]
    rcases hm : missingAt env.uuidV5 items i with - | out
    · rcases hcall : isCallAt items i with - | - <;> simp [entriesAt, hm, horiginal, hcall]
    obtain ⟨callId, -, hout, -⟩ := missingOutput_spec hm
    have hsynth : q (.synthetic i out) = false := by
      rcases out with ⟨item, metadata⟩
      cases item <;> first | rfl | cases hout
    rcases hcall : isCallAt items i with - | - <;> simp [entriesAt, hm, horiginal, hcall, hsynth]
  refine getElem?_eq_of_filter_eq hqp ?_ (by rw [hlen]; exact lt_length_of_isCallAt hc) hc
  rw [hlen, entries, filter_flatMap]
  have horder : ((reorderPlan items).rebuilt env.drain).filter (isCallAt items)
      = (List.range items.length).filter (isCallAt items) :=
    Relocation.Plan.filter_rebuilt fun i hi => skips_of_not_output (outputIdAt_of_isCallAt hi)
  rw [← horder, flatMap_congr fun i hi =>
    hentry i ((mem_rebuilt_iff h.callsPrecedeOutputs env).mp hi).1, ← map_flatMap,
    ← filter_flatMap]
  simp

/-- A synthetic output at a position stands behind the last call of a batch, whose own output is
then a duplicate. -/
theorem duplicate_of_synthetic (hk : (entries env items)[k]? = some (.synthetic c out)) :
    k = c + 1 ∧ isDuplicateOutput items k ∧
      missingAt env.uuidV5 items c = some (itemAt items k) ∧
      ∃ s f, BatchAt items s c f ∧ k ≤ f := by
  obtain ⟨j, rfl, hj, hmiss⟩ := original_before_synthetic hk
  obtain ⟨hjlen, hjval⟩ := value_of_entry h env hsame hj
  obtain ⟨hklen, hkval⟩ := value_of_entry h env hsame hk
  obtain ⟨callId, hid, hout, hkind, hnot⟩ := missingOutput_spec hmiss
  -- the call is where it was, so it is the item before
  have hcj : c = j := by
    have hcall : isCallAt items j = true := by
      have hval : itemAt items c = itemAt items j := hjval
      rw [isCallAt, callIdAt_eq hjlen, ← hval, hid]
      rfl
    have := hj.symm.trans (entry_of_call h env hsame hcall)
    simpa using this
  subst hcj
  have hval : out = itemAt items (c + 1) := hkval
  subst hval
  have hcall : isCallAt items c = true := by simp [isCallAt, callIdAt_eq hjlen, hid]
  rw [← outputIdAt_eq hklen] at hout
  obtain ⟨s, e, f, hb, hek, hkf⟩ := h.ofOutput _ _ hout
  obtain rfl : c = e := by
    have := hb.call_le hcall (by omega)
    omega
  refine ⟨rfl, ?_, hmiss, s, f, hb, hkf⟩
  by_contra hdup
  refine hnot (mem_outputIdsFor.mpr ⟨_, mem_keptItems hklen (by simpa using hdup), hkind, ?_⟩)
  rw [← outputIdAt_eq hklen, hout]

/-- An original position that stands for an output is a kept output with its id. -/
theorem output_of_original {callId : String}
    (hk : (entries env items)[k]? = some (.original i)) (hid : outputIdAt items k = some callId) :
    isDuplicateOutput items i = false ∧ outputIdAt items i = some callId := by
  obtain ⟨hlen, hval⟩ := value_of_entry h env hsame hk
  have hval : itemAt items i = itemAt items k := hval
  have hi : i ∈ (reorderPlan items).rebuilt env.drain := by
    rw [← filterMap_origin_entries env]
    exact mem_filterMap.mpr ⟨_, mem_of_getElem? hk, rfl⟩
  obtain ⟨hilen, hidup⟩ := (mem_rebuilt_iff h.callsPrecedeOutputs env).mp hi
  exact ⟨hidup, by rw [outputIdAt_eq hilen, hval, ← outputIdAt_eq hlen, hid]⟩

/-- An output that is no duplicate is where it was. -/
theorem entry_of_output {callId : String} (hid : outputIdAt items k = some callId)
    (hdup : isDuplicateOutput items k = false) :
    (entries env items)[k]? = some (.original k) := by
  have hklen : k < (entries env items).length := by
    rw [length_entries h env hsame]
    exact lt_length_of_outputIdAt hid
  rcases hx : (entries env items)[k] with i | ⟨c, out⟩
  · have hk : (entries env items)[k]? = some (.original i) := by rw [getElem?_eq_getElem hklen, hx]
    obtain ⟨hidup, hiid⟩ := output_of_original h env hsame hk hid
    -- both are the first output with this id
    rcases Nat.lt_trichotomy i k with hlt | rfl | hlt
    · rw [isDuplicateOutput_iff.mpr ⟨callId, hid, i, hlt, hiid⟩] at hdup
      cases hdup
    · exact hk
    · rw [isDuplicateOutput_iff.mpr ⟨callId, hiid, k, hlt, hid⟩] at hidup
      cases hidup
  · have hk : (entries env items)[k]? = some (.synthetic c out) := by
      rw [getElem?_eq_getElem hklen, hx]
    rw [(duplicate_of_synthetic h env hsame hk).2.1] at hdup
    cases hdup

/-- A duplicate comes back as the synthetic output of the call directly before it. -/
theorem synthetic_of_duplicate (hdup : isDuplicateOutput items k) :
    ∃ c s f, k = c + 1 ∧ missingAt env.uuidV5 items c = some (itemAt items k) ∧
      BatchAt items s c f ∧ k ≤ f := by
  obtain ⟨callId, hid, -⟩ := isDuplicateOutput_iff.mp hdup
  have hklen : k < (entries env items).length := by
    rw [length_entries h env hsame]
    exact lt_length_of_outputIdAt hid
  rcases hx : (entries env items)[k] with i | ⟨c, out⟩
  · exfalso
    have hk : (entries env items)[k]? = some (.original i) := by rw [getElem?_eq_getElem hklen, hx]
    obtain ⟨hidup, hiid⟩ := output_of_original h env hsame hk hid
    have hki := original_unique env hk (entry_of_output h env hsame hiid hidup)
    rw [hki, hidup] at hdup
    cases hdup
  · have hk : (entries env items)[k]? = some (.synthetic c out) := by
      rw [getElem?_eq_getElem hklen, hx]
    obtain ⟨hkc, -, hmiss, s, f, hb, hkf⟩ := duplicate_of_synthetic h env hsame hk
    exact ⟨c, s, f, hkc, hmiss, hb, hkf⟩

variable {e f s : ℕ}

/-- A batch without duplicates keeps all its outputs in place. -/
theorem moveTarget_of_new (hb : BatchAt items s e f)
    (hnew : ∀ i, e < i → i ≤ f → isDuplicateOutput items i = false) (o : ℕ) (heo : e < o)
    (hof : o ≤ f) : moveTarget items o = none := by
  have hfollow := h.callsPrecedeOutputs.outputsFollowCalls
  -- induction on the position: the first output to move would move to a position that stays
  induction o using Nat.strong_induction_on with
  | _ o ih =>
  rcases ht : moveTarget items o with - | t
  · rfl
  obtain ⟨c, hc, -, hin, -⟩ := h.outputPositions hb heo hof
  obtain ⟨hsc, hce⟩ := hin (hnew o heo hof)
  obtain ⟨hlt, -⟩ := moveTarget_lt hfollow ht
  have het : e ≤ t := by
    have hcases := moveTarget_cases hfollow hc
    rw [hb.blockEndOf hsc hce, ht] at hcases
    rcases hcases with ⟨hcontra, -⟩ | ⟨u, hu, heu, -⟩ | ⟨hu, -⟩
    · cases hcontra
    · cases hu
      exact heu.le
    · cases hu
      exact le_rfl
  have htlen : t < items.length := hb.lt_length (by omega)
  -- `t` is where it was, and gets no synthetic output
  have htarget : (reorderPlan items).skips t = false ∧ missingAt env.uuidV5 items t = none ∧
      (entries env items)[t]? = some (.original t) := by
    rcases het.eq_or_lt with rfl | het
    · have hcall := hb.calls e hb.nonempty le_rfl
      refine ⟨skips_of_not_output (outputIdAt_of_isCallAt hcall), ?_, entry_of_call h env hsame hcall⟩
      refine missingOutput_eq_none fun callId hid => ?_
      obtain ⟨i, hei, hif, hi, hkind⟩ := hb.output e hb.nonempty le_rfl
      have hilen := hb.lt_length hif
      rw [callIdAt_eq htlen, hid, outputIdAt_eq hilen] at hi
      exact mem_outputIdsFor.mpr ⟨_, mem_keptItems hilen (hnew i hei hif), hkind, hi⟩
    · obtain ⟨callId, hid⟩ := hb.outputId het (by omega)
      have hdup := hnew t het (by omega)
      refine ⟨?_, ?_, entry_of_output h env hsame hid hdup⟩
      · have hstay := ih t (by omega) het (by omega)
        simp [Relocation.Plan.skips, reorderPlan, hdup, hstay]
      · refine missingOutput_eq_none fun callId' hid' => ?_
        have hnot := isCallAt_of_output hid
        simp [isCallAt, callIdAt_eq htlen, hid'] at hnot
  obtain ⟨hstays, hmiss, htentry⟩ := htarget
  have hmem : o ∈ (reorderPlan items).movedTo t :=
    Relocation.Plan.mem_movedTo.mpr ⟨hb.lt_length hof, hnew o heo hof, ht⟩
  rcases hmoved : (reorderPlan items).movedTo t with - | ⟨x, rest⟩
  · rw [hmoved] at hmem
    cases hmem
  have hxo : x ≤ o := by
    have hsorted : ((reorderPlan items).movedTo t).Pairwise (· < ·) :=
      pairwise_lt_range.filter _
    rw [hmoved] at hmem hsorted
    rcases mem_cons.mp hmem with rfl | hmem
    · exact le_rfl
    · exact (rel_of_pairwise_cons hsorted hmem).le
  -- the first position that moves there comes directly behind `t`, so it was there before
  have hx : moveTarget items x = some t :=
    (Relocation.Plan.mem_movedTo.mp (hmoved ▸ mem_cons_self : x ∈ _)).2.2
  obtain ⟨hxlt, -⟩ := moveTarget_lt hfollow hx
  obtain ⟨callId, hid⟩ := hb.outputId (i := x) (by omega) (by omega)
  obtain ⟨j, hj, hjx⟩ := original_after_target env htlen hstays hmoved hmiss
  have hjt := original_unique env hj htentry
  have hjx' := original_unique env hjx
    (entry_of_output h env hsame hid (hnew x (by omega) (by omega)))
  omega

/-- **A prompt that is left alone has stable batches only.** -/
theorem stableAt_of_same (hb : BatchAt items s e f) : StableAt env.uuidV5 items s e f := by
  have honly : ∀ k, e < k → k ≤ f → isDuplicateOutput items k = true →
      k = e + 1 ∧ missingAt env.uuidV5 items e = some (itemAt items (e + 1)) := by
    intro k hek hkf hdup
    obtain ⟨c, s', f', rfl, hmiss, hb', -⟩ := synthetic_of_duplicate h env hsame hdup
    have hce := hb.call_le (hb'.calls c hb'.nonempty le_rfl) (by omega)
    obtain rfl : c = e := by omega
    exact ⟨rfl, hmiss⟩
  rcases hfirst : isDuplicateOutput items (e + 1) with - | -
  · have hnew : ∀ i, e < i → i ≤ f → isDuplicateOutput items i = false := by
      intro i hei hif
      rcases hdup : isDuplicateOutput items i with - | -
      · rfl
      · rw [(honly i hei hif hdup).1, hfirst] at hdup
        cases hdup
    refine .inl ⟨hnew, fun i j c d hei hij hjf hc hd => ?_⟩
    obtain ⟨d', hd', hdid, hin, -⟩ := h.outputPositions hb (hei.trans hij) hjf
    cases hd'.symm.trans hd
    obtain ⟨hsd, hde⟩ := hin (hnew j (by omega) hjf)
    have hstay := moveTarget_of_new h env hsame hb hnew j (by omega) hjf
    have hcases := moveTarget_cases h.callsPrecedeOutputs.outputsFollowCalls hd
    rw [hb.blockEndOf hsd hde, hstay] at hcases
    rcases hcases with ⟨-, hall⟩ | ⟨u, hu, -⟩ | ⟨hu, -⟩
    · obtain ⟨-, c', hc', hdc⟩ :=
        (h.answersFrom_iff hb hsd hde hei (by omega)).mp (hall i hei hij.le)
      cases hc'.symm.trans hc
      refine ⟨hsd, lt_of_le_of_ne hdc ?_⟩
      rintro rfl
      obtain ⟨c', hc', hcid, -⟩ := h.outputPositions hb hei (by omega)
      cases hc'.symm.trans hc
      have := hb.outputsInj i j hei (by omega) (by omega) hjf (hcid.symm.trans hdid)
      omega
    all_goals cases hu
  · refine .inr ⟨hfirst, fun i hei hif => ?_, (honly (e + 1) (by omega) hb.answered hfirst).2⟩
    rcases hdup : isDuplicateOutput items i with - | -
    · rfl
    · have := (honly i (by omega) hif hdup).1
      omega

end Necessary

end Normalize

end CodexPlus
