/-
CodexPlus/NormalizeReorder.lean

Reordering of delayed outputs loses nothing.

For a history with a tool call, `reorder_keeps` says that the result lists the
positions that hold no duplicate output, each once; that what is no output keeps its
order; and that an output stays behind its call.  The last part needs that no output
of the same run of calls precedes its own call: the outputs of a run are gathered
behind the first of them, also where that one stands before the calls
(`reorder_without_calls`, which also shows that a history without calls is returned
as it is, duplicates included).
-/
import CodexPlus.NormalizePasses

namespace CodexPlus

open List

namespace Normalize

variable {items : List ResponseItemEnvelope}

/-! ### Where a move goes -/

variable {o t : ℕ}

theorem exists_mem_of_foldl_insertTarget {moves : List (ℕ × ℕ)} {targets : ℕ → Option ℕ}
    (h : (moves.foldl insertTarget targets) o = some t) : (o, t) ∈ moves ∨ targets o = some t := by
  induction moves generalizing targets with
  | nil => exact .inr h
  | cons move _ ih =>
    rcases ih h with hmem | hinserted
    · exact .inl (mem_cons_of_mem _ hmem)
    rcases eq_or_ne o move.1 with rfl | hne
    · rw [insertTarget, Function.update_self] at hinserted
      rw [← Option.some.inj hinserted]
      exact .inl mem_cons_self
    · rw [insertTarget, Function.update_of_ne hne] at hinserted
      exact .inr hinserted

/-- Every move is one that some batch asks for. -/
theorem exists_batchMoves (h : moveTarget items o = some t) :
    ∃ start, (o, t) ∈ batchMoves items start := by
  have hfold : ∀ (starts : List ℕ) (targets : ℕ → Option ℕ),
      (starts.foldl (fun targets start => (batchMoves items start).foldl insertTarget targets)
        targets) o = some t → (∃ start, (o, t) ∈ batchMoves items start) ∨ targets o = some t := by
    intro starts
    induction starts with
    | nil => exact fun targets htargets => .inr htargets
    | cons start _ ih =>
      intro targets htargets
      rcases ih _ htargets with hfound | hinserted
      · exact .inl hfound
      · exact (exists_mem_of_foldl_insertTarget hinserted).imp_left fun hmem => ⟨start, hmem⟩
  rcases hfold _ _ h with hfound | hnone
  · exact hfound
  · cases hnone

/-- A batch moves its outputs behind its assistant block, or behind the stretch of its outputs that
starts at the first of them. -/
theorem of_mem_batchMoves {start : ℕ} (h : (o, t) ∈ batchMoves items start) :
    isCallAt items start ∧ answersFrom items start o ∧
      ∃ first, answersFrom items start first ∧
        (t = blockEndOf items start ∨ first ≤ t ∧ t = extend items (answersFrom items start) first) := by
  rw [batchMoves] at h
  split at h
  · next hcall =>
    dsimp only at h
    split at h
    · cases h
    · next first rest hlist =>
      have hin : ∀ k ∈ (List.range items.length).filter
          (answersBetween items start (batchEnd items start)), answersFrom items start k = true :=
        fun k hk => (mem_filter.mp hk).2
      have hfirst : answersFrom items start first = true :=
        hin first (hlist ▸ mem_cons_self)
      split at h
      · obtain ⟨k, hk, heq⟩ := mem_map.mp h
        obtain ⟨rfl, rfl⟩ := Prod.mk.inj heq
        exact ⟨hcall, hin k hk, first, hfirst, .inl rfl⟩
      · obtain ⟨k, hk, heq⟩ := mem_map.mp h
        obtain ⟨rfl, rfl⟩ := Prod.mk.inj heq
        exact ⟨hcall, hin k (mem_filter.mp hk).1, first, hfirst, .inr ⟨le_extend, rfl⟩⟩
  · cases h

theorem moveTarget_lt_length (h : moveTarget items o = some t) : t < items.length := by
  obtain ⟨start, hmove⟩ := exists_batchMoves h
  obtain ⟨hcall, -, first, hfirst, rfl | ⟨-, rfl⟩⟩ := of_mem_batchMoves hmove
  · exact extend_lt (extend_lt (lt_length_of_isCallAt hcall))
  · exact extend_lt (lt_length_of_answersFrom hfirst)

/-! ### Outputs stay behind their calls -/

/-- The calls `c` and `d` belong to one run of calls. -/
def SameRun (items : List ResponseItemEnvelope) (c d : ℕ) : Prop :=
  ∃ start, isCallAt items start = true ∧ start ≤ c ∧ c ≤ batchEnd items start ∧ start ≤ d ∧
    d ≤ batchEnd items start

/-- No output that answers a call of the run of `c` precedes its call. -/
def RunFollowed (items : List ResponseItemEnvelope) (c : ℕ) : Prop :=
  ∀ i d, outputPositions items i = some d → SameRun items c d → d < i

/-- An answer behind its call is behind the whole run. -/
theorem batchEnd_lt_of_answers {start i d : ℕ} (hd : outputPositions items i = some d)
    (hstart : start ≤ d) (hdi : d < i) : batchEnd items start < i := by
  by_contra hle
  obtain ⟨callId, hout, -⟩ := outputPositions_spec hd
  have hcall : isCallAt items i = true := extend_pos (by omega) (Nat.le_of_not_lt hle)
  rw [isCallAt_of_output hout] at hcall
  cases hcall

/-- An output moves to no place before its call. -/
theorem le_moveTarget {c : ℕ} (hfollowed : RunFollowed items c)
    (ho : outputPositions items o = some c) (ht : moveTarget items o = some t) : c ≤ t := by
  obtain ⟨start, hmove⟩ := exists_batchMoves ht
  obtain ⟨hcall, hans, first, hfirst, htarget⟩ := of_mem_batchMoves hmove
  obtain ⟨c', hc', hsc, hce⟩ := answersBetween_iff.mp hans
  obtain rfl : c = c' := Option.some.inj (ho.symm.trans hc')
  rcases htarget with rfl | ⟨hle, -⟩
  · exact hce.trans le_extend
  · obtain ⟨d, hd, hsd, hde⟩ := answersBetween_iff.mp hfirst
    have hdi : d < first := hfollowed first d hd ⟨start, hcall, hsc, hce, hsd, hde⟩
    have hend := batchEnd_lt_of_answers hd hsd hdi
    omega

/-! ### The rebuilt list -/

/-- With a call in the history, reordering lists the items by the rebuilt positions. -/
theorem reorder_eq_map_of_call (env : Env) {call : ℕ} (hcall : isCallAt items call) :
    reorderDelayedToolOutputsAfterCalls env items
      = ((reorderPlan items).rebuilt env.drain).map (itemAt items) := by
  have htarget : ∀ i t, (reorderPlan items).target i = some t → t < (reorderPlan items).size :=
    fun i t ht => moveTarget_lt_length ht
  unfold reorderDelayedToolOutputsAfterCalls
  split
  · next hnone =>
    have hnot := all_eq_true.mp hnone call (mem_range.mpr (lt_length_of_isCallAt hcall))
    rw [hcall] at hnot
    cases hnot
  · split
    · next hstays =>
      have hrange : (reorderPlan items).rebuilt env.drain = List.range items.length := by
        refine rebuilt_of_stays env.drain_perm (fun i hi => ?_) htarget
        simpa using all_eq_true.mp hstays i (mem_range.mpr hi)
      rw [hrange, map_itemAt_range]
    · exact filterMap_getElem?_eq_map fun i hi =>
        ((Relocation.Plan.mem_rebuilt env.drain_perm htarget).mp hi).1

/-- **Reordering loses nothing**: the positions without a duplicate output come back, each once;
what is no output keeps its order; and an output whose call precedes it stays behind it, unless an
output of the same run of calls precedes its own call. -/
theorem reorder_keeps (env : Env) (items : List ResponseItemEnvelope)
    (hcall : ∃ call, isCallAt items call = true) :
    ∃ order : List ℕ,
      reorderDelayedToolOutputsAfterCalls env items = order.map (itemAt items) ∧
      order.Perm ((List.range items.length).filter fun i => !isDuplicateOutput items i) ∧
      (order.filter fun i => (outputIdAt items i).isNone) =
        (List.range items.length).filter (fun i => (outputIdAt items i).isNone) ∧
      ∀ o c, isDuplicateOutput items o = false → outputPositions items o = some c → c < o →
        RunFollowed items c → [c, o].Sublist order := by
  obtain ⟨call, hcall⟩ := hcall
  refine ⟨(reorderPlan items).rebuilt env.drain, reorder_eq_map_of_call env hcall, ?_, ?_, ?_⟩
  · exact Relocation.Plan.rebuilt_perm env.drain_perm fun i t ht => moveTarget_lt_length ht
  · exact Relocation.Plan.filter_rebuilt fun i hi => skips_of_not_output (Option.isNone_iff_eq_none.mp hi)
  · intro o c hkept ho hco hfollowed
    have hc : isCallAt items c = true := isCallAt_of_outputPositions ho
    obtain ⟨callId, hout, -⟩ := outputPositions_spec ho
    have hnot : outputIdAt items c = none := by
      rcases hid : outputIdAt items c with - | callId
      · rfl
      · rw [isCallAt_of_output hid] at hc
        cases hc
    exact Relocation.Plan.sublist_rebuilt env.drain_perm (lt_length_of_isCallAt hc)
      (skips_of_not_output hnot) (lt_length_of_outputIdAt hout) hkept (fun _ => hco)
      fun t ht => ⟨le_moveTarget hfollowed ho ht, moveTarget_lt_length ht⟩

def callItem (callId : String) : ResponseItemEnvelope :=
  .new (.functionCall none "f" none "" callId)

def outputItem (callId : String) : ResponseItemEnvelope :=
  .new (.functionCallOutput none (some callId) none none (.fromText "") none)

/-- A hash map iterated in insertion order. -/
def insertionOrder : Env := ⟨id, id, fun _ => .refl _⟩

/-- A call, a message in between, and its output. -/
theorem delayedOutput_kept :
    ∃ order : List ℕ,
      reorderDelayedToolOutputsAfterCalls insertionOrder
          [callItem "a", .new (.message none "user" []), outputItem "a"]
        = order.map (itemAt [callItem "a", .new (.message none "user" []), outputItem "a"]) ∧
      [0, 2].Sublist order := by
  obtain ⟨order, horder, -, -, hbehind⟩ := reorder_keeps insertionOrder
    [callItem "a", .new (.message none "user" []), outputItem "a"] ⟨0, by decide⟩
  refine ⟨order, horder, hbehind 2 0 (by decide) (by decide) (by decide) ?_⟩
  intro i d hd _
  obtain ⟨callId, hout, -⟩ := outputPositions_spec hd
  -- the output is the one at position 2, and its call is at position 0
  rcases i with - | - | - | i
  · cases hout
  · cases hout
  · obtain rfl : 0 = d := Option.some.inj ((by decide : some 0 = outputPositions _ 2).trans hd)
    decide
  · cases hout

/-- Without a call duplicates stay; and where an output precedes its call, another output of the run
is moved before its own. -/
theorem reorder_without_calls :
    (reorderDelayedToolOutputsAfterCalls insertionOrder [outputItem "a", outputItem "a"] =
        [outputItem "a", outputItem "a"] ∧
      ¬ (reorderDelayedToolOutputsAfterCalls insertionOrder [outputItem "a", outputItem "a"]).Perm
        [outputItem "a"]) ∧
    reorderDelayedToolOutputsAfterCalls insertionOrder
        [outputItem "a", callItem "a", callItem "b", outputItem "b"] =
      [outputItem "a", outputItem "b", callItem "a", callItem "b"] := by
  decide

end Normalize

end CodexPlus
