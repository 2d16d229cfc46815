/-
CodexPlus/NormalizeTargets.lean

Where reordering moves an output, in closed form.

The source lets every call of a run start a batch of its own and keeps the last
insertion for an output.  When no output precedes its call, the batch that starts
at the output's own call decides (`moveTarget_eq`): with `last` the end of the
run and `blockEnd` the end of the assistant block behind it,

* if the item behind the block answers no call from the output's on, the output
  moves behind the block;
* otherwise the output stays if it lies in the stretch of such answers that
  starts there, and moves behind that stretch if it does not.
-/
import CodexPlus.Normalize

namespace CodexPlus

open List

namespace Normalize

/-! ### The loops over positions -/

theorem extendWhile_spec (p : ℕ → Bool) (fuel i : ℕ) :
    i ≤ extendWhile p fuel i ∧ extendWhile p fuel i ≤ i + fuel ∧
      (∀ k, i < k → k ≤ extendWhile p fuel i → p k) ∧
      (extendWhile p fuel i < i + fuel → p (extendWhile p fuel i + 1) = false) := by
  induction fuel generalizing i with
  | zero => exact ⟨le_rfl, le_rfl, fun k h1 h2 => by simp [extendWhile] at h2; omega, by simp [extendWhile]⟩
  | succ _ ih =>
    rw [extendWhile]
    split
    · next hp =>
      obtain ⟨h1, h2, h3, h4⟩ := ih (i + 1)
      refine ⟨by omega, by omega, fun k hik hk => ?_, fun h => h4 (by omega)⟩
      rcases (Nat.succ_le_of_lt hik).eq_or_lt with rfl | hik
      · exact hp
      · exact h3 k hik hk
    · next hp =>
      refine ⟨le_rfl, by omega, fun k h1 h2 => by omega, fun _ => ?_⟩
      simpa using hp

section Extend

variable {items : List ResponseItemEnvelope} {p : ℕ → Bool} {i : ℕ}

theorem le_extend : i ≤ extend items p i := (extendWhile_spec p _ i).1

theorem extend_pos {k : ℕ} (hik : i < k) (hk : k ≤ extend items p i) : p k :=
  (extendWhile_spec p _ i).2.2.1 k hik hk

theorem extend_lt (hi : i < items.length) : extend items p i < items.length := by
  have := (extendWhile_spec p (items.length - (i + 1)) i).2.1
  unfold extend
  omega

/-- The loop stops where the condition fails, when it holds of positions of the list only. -/
theorem extend_succ (hp : ∀ k, p k → k < items.length) : p (extend items p i + 1) = false := by
  obtain ⟨h1, h2, -, h4⟩ := extendWhile_spec p (items.length - (i + 1)) i
  rcases hq : p (extend items p i + 1) with - | -
  · rfl
  · have := hp _ hq
    rw [extend] at hq this
    rw [h4 (by omega)] at hq
    cases hq

theorem extend_eq {r : ℕ} (hp : ∀ k, p k → k < items.length) (hir : i ≤ r)
    (hall : ∀ k, i < k → k ≤ r → p k) (hstop : p (r + 1) = false) :
    extend items p i = r := by
  rcases Nat.lt_trichotomy (extend items p i) r with hlt | heq | hgt
  · have hnot := extend_succ (i := i) hp
    have hle : i ≤ extend items p i := le_extend
    rw [hall _ (by omega) (by omega)] at hnot
    cases hnot
  · exact heq
  · have hyes : p (r + 1) = true := extend_pos (by omega) hgt
    rw [hyes] at hstop
    cases hstop

theorem extend_mono {q : ℕ → Bool} (hq : ∀ k, q k → k < items.length)
    (hpq : ∀ k, p k → q k) : extend items p i ≤ extend items q i := by
  by_contra hlt
  have hstop := extend_succ (i := i) hq
  have hle : i ≤ extend items q i := le_extend
  rw [hpq _ (extend_pos (by omega) (Nat.lt_of_not_le hlt))] at hstop
  cases hstop

end Extend

/-! ### Calls, outputs and what lies between them -/

variable {c i start : ℕ}

section Kinds

variable {items : List ResponseItemEnvelope} {callId : String}

theorem lt_length_of_callIdAt (h : callIdAt items i = some callId) : i < items.length := by
  by_contra hi
  simp [callIdAt, getElem?_eq_none (Nat.le_of_not_lt hi)] at h

theorem lt_length_of_isCallAt (h : isCallAt items i) : i < items.length := by
  obtain ⟨callId, h⟩ := Option.isSome_iff_exists.mp h
  exact lt_length_of_callIdAt h

theorem lt_length_of_outputIdAt (h : outputIdAt items i = some callId) : i < items.length := by
  by_contra hi
  simp [outputIdAt, getElem?_eq_none (Nat.le_of_not_lt hi)] at h

theorem lt_length_of_isCoalescingAt (h : isCoalescingAt items i) : i < items.length := by
  by_contra hi
  simp [isCoalescingAt, getElem?_eq_none (Nat.le_of_not_lt hi)] at h

/-- An output is no call. -/
theorem isCallAt_of_output (h : outputIdAt items i = some callId) : isCallAt items i = false := by
  obtain ⟨e, he, hid⟩ := Option.bind_eq_some_iff.mp h
  simp only [isCallAt, callIdAt, he, Option.bind_some]
  rcases e with ⟨item, metadata⟩
  cases item <;> first | rfl | cases hid

/-- An output joins no assistant message. -/
theorem isCoalescingAt_of_output (h : outputIdAt items i = some callId) :
    isCoalescingAt items i = false := by
  obtain ⟨e, he, hid⟩ := Option.bind_eq_some_iff.mp h
  simp only [isCoalescingAt, he, Option.any_some]
  rcases e with ⟨item, metadata⟩
  cases item <;> first | rfl | cases hid

theorem callIndexById_spec (h : callIndexById items callId = some c) :
    callIdAt items c = some callId ∧ ∀ j < c, callIdAt items j ≠ some callId := by
  obtain ⟨hc, hid, hbefore⟩ := findIdx?_eq_some_iff_getElem.mp h
  refine ⟨by simpa [callIdAt, hc] using hid, fun j hj hcontra => ?_⟩
  have hjlen : j < items.length := by omega
  exact hbefore j hj (by simpa [callIdAt, hjlen] using hcontra)

theorem outputPositions_spec (h : outputPositions items i = some c) :
    ∃ callId, outputIdAt items i = some callId ∧ callIdAt items c = some callId := by
  obtain ⟨callId, hout, hcall⟩ := Option.bind_eq_some_iff.mp h
  exact ⟨callId, hout, (callIndexById_spec hcall).1⟩

variable {first last : ℕ}

theorem answersBetween_iff :
    answersBetween items first last i ↔
      ∃ c, outputPositions items i = some c ∧ first ≤ c ∧ c ≤ last := by
  simp [answersBetween, Option.any_eq_true]

theorem lt_length_of_answersBetween (h : answersBetween items first last i) : i < items.length := by
  obtain ⟨c, hc, -⟩ := answersBetween_iff.mp h
  obtain ⟨callId, hout, -⟩ := outputPositions_spec hc
  exact lt_length_of_outputIdAt hout

theorem isCallAt_of_outputPositions (h : outputPositions items i = some c) : isCallAt items c := by
  obtain ⟨callId, -, hcall⟩ := outputPositions_spec h
  simp [isCallAt, hcall]

theorem answersBetween_mono {first' : ℕ} (hle : first' ≤ first)
    (h : answersBetween items first last i) : answersBetween items first' last i := by
  obtain ⟨c, hc, hfirst, hlast⟩ := answersBetween_iff.mp h
  exact answersBetween_iff.mpr ⟨c, hc, hle.trans hfirst, hlast⟩

/-- The run of calls that contains a call ends where the run from any earlier call of it ends. -/
theorem batchEnd_eq (hsc : start ≤ c) (hce : c ≤ batchEnd items start) :
    batchEnd items c = batchEnd items start :=
  extend_eq (fun _ => lt_length_of_isCallAt) hce
    (fun _ hk hke => extend_pos (by omega) hke) (extend_succ fun _ => lt_length_of_isCallAt)

end Kinds

/-! ### The target of an output -/

section Target

variable (items : List ResponseItemEnvelope)

/-- No output precedes the call it matches. -/
def OutputsFollowCalls : Prop := ∀ i c, outputPositions items i = some c → c < i

/-- The end of the assistant block behind the run of the call `c`. -/
def blockEndOf (c : ℕ) : ℕ := assistantBlockEnd items (batchEnd items c)

/-- Whether position `i` answers a call of the run from `c` on. -/
def answersFrom (c i : ℕ) : Bool := answersBetween items c (batchEnd items c) i

/-- The end of the stretch of such answers that starts directly behind the block. -/
def stretchEnd (c : ℕ) : ℕ := extend items (answersFrom items c) (blockEndOf items c + 1)

/-- Where the batch that starts at `c` moves the output at `o`. -/
def targetOf (c o : ℕ) : Option ℕ :=
  if answersFrom items c (blockEndOf items c + 1) then
    if o > stretchEnd items c then some (stretchEnd items c) else none
  else some (blockEndOf items c)

variable {items}

/-- Every answer to a call of a run lies behind the run and its assistant block. -/
theorem blockEndOf_lt (h : OutputsFollowCalls items) {k : ℕ}
    (hk : answersFrom items start k) : blockEndOf items start < k := by
  obtain ⟨c, hc, hsc, hce⟩ := answersBetween_iff.mp hk
  obtain ⟨callId, hout, -⟩ := outputPositions_spec hc
  have hck : c < k := h k c hc
  have hlast : batchEnd items start < k := by
    by_contra hle
    have hcall : isCallAt items k = true := extend_pos (by omega) (Nat.le_of_not_lt hle)
    rw [isCallAt_of_output hout] at hcall
    cases hcall
  by_contra hle
  have hblock : isCoalescingAt items k = true := extend_pos hlast (Nat.le_of_not_lt hle)
  rw [isCoalescingAt_of_output hout] at hblock
  cases hblock

theorem foldl_insertTarget_map (l : List ℕ) (t : ℕ) (targets : ℕ → Option ℕ) (o : ℕ) :
    ((l.map fun i => (i, t)).foldl insertTarget targets) o
      = if o ∈ l then some t else targets o := by
  induction l generalizing targets with
  | nil => rfl
  | cons i l ih =>
    rw [map_cons, foldl_cons, ih]
    rcases eq_or_ne o i with rfl | hne
    · simp [insertTarget]
    · simp [insertTarget, hne]

variable {o : ℕ}

/-- What the batch that starts at `start` inserts for the output `o` of the call `c`. -/
theorem foldl_batchMoves (h : OutputsFollowCalls items)
    (ho : outputPositions items o = some c) (start : ℕ) (targets : ℕ → Option ℕ) :
    ((batchMoves items start).foldl insertTarget targets) o =
      if isCallAt items start ∧ start ≤ c ∧ c ≤ batchEnd items start then
        (targetOf items start o).or (targets o)
      else targets o := by
  have hmem : answersFrom items start o = true ↔ start ≤ c ∧ c ≤ batchEnd items start := by
    simp [answersFrom, answersBetween, ho]
  rw [batchMoves]
  by_cases hcall : isCallAt items start = true
  swap
  · simp [hcall]
  rw [if_pos hcall]
  simp only [hcall, true_and, ← hmem]
  set outs := (List.range items.length).filter (answersBetween items start (batchEnd items start))
    with houts
  have hin : ∀ k, k ∈ outs ↔ answersFrom items start k = true := fun k => by
    rw [mem_filter, mem_range]
    exact ⟨And.right, fun hk => ⟨lt_length_of_answersBetween hk, hk⟩⟩
  rcases hlist : outs with - | ⟨first, rest⟩
  · rw [if_neg fun hcontra => by simpa [hlist] using (hin o).mpr hcontra]
    rfl
  have hsorted : (first :: rest).Pairwise (· < ·) := by
    rw [← hlist]
    exact pairwise_lt_range.filter _
  have hfirst : answersFrom items start first = true := (hin first).mp (by simp [hlist])
  have hleast : ∀ k, answersFrom items start k = true → first ≤ k := fun k hk => by
    have hk' : k ∈ first :: rest := hlist ▸ (hin k).mpr hk
    rcases mem_cons.mp hk' with rfl | hk'
    · exact le_rfl
    · exact (rel_of_pairwise_cons hsorted hk').le
  have hbehind := blockEndOf_lt h hfirst
  have hin' : ∀ k, k ∈ first :: rest ↔ answersFrom items start k = true := by
    rw [← hlist]
    exact hin
  -- the first output is directly behind the block exactly when that position answers the batch
  by_cases hnear : answersFrom items start (blockEndOf items start + 1) = true
  · have heq : first = blockEndOf items start + 1 := le_antisymm (hleast _ hnear) hbehind
    have hfar : ¬ first > assistantBlockEnd items (batchEnd items start) + 1 := by
      rw [heq, blockEndOf]
      omega
    have hend : extend items (answersBetween items start (batchEnd items start)) first
        = stretchEnd items start := by
      rw [heq]
      rfl
    simp only [if_neg hfar, hend, foldl_insertTarget_map, mem_filter, hin',
      decide_eq_true_eq, targetOf, if_pos hnear]
    by_cases hans : answersFrom items start o = true <;>
      by_cases hlate : o > stretchEnd items start <;> simp [hans, hlate]
  · have hfar : first > assistantBlockEnd items (batchEnd items start) + 1 := by
      have hne : first ≠ blockEndOf items start + 1 := fun heq => hnear (heq ▸ hfirst)
      rw [blockEndOf] at hbehind hne
      omega
    simp only [if_pos hfar, foldl_insertTarget_map, hin', targetOf, if_neg hnear]
    by_cases hans : answersFrom items start o = true <;> simp [hans, blockEndOf]

theorem lt_length_of_answersFrom (h : answersFrom items c i) : i < items.length :=
  lt_length_of_answersBetween h

/-- Within one run the block is the same, and an earlier batch has the longer stretch. -/
theorem blockEndOf_eq (hsc : start ≤ c) (hce : c ≤ batchEnd items start) :
    blockEndOf items c = blockEndOf items start := by
  rw [blockEndOf, blockEndOf, batchEnd_eq hsc hce]

theorem answersFrom_of_le (hsc : start ≤ c) (hce : c ≤ batchEnd items start)
    (h : answersFrom items c i) : answersFrom items start i := by
  rw [answersFrom, batchEnd_eq hsc hce] at h
  exact answersBetween_mono hsc h

theorem targetOf_eq_none_of_le (hsc : start ≤ c) (hce : c ≤ batchEnd items start)
    (h : targetOf items c o = none) : targetOf items start o = none := by
  unfold targetOf at h ⊢
  rw [blockEndOf_eq hsc hce] at h
  split at h
  · next hnear =>
    have hstretch : stretchEnd items c ≤ stretchEnd items start := by
      rw [stretchEnd, blockEndOf_eq hsc hce]
      exact extend_mono (fun _ => lt_length_of_answersFrom) fun _ => answersFrom_of_le hsc hce
    rw [if_pos (answersFrom_of_le hsc hce hnear)]
    split at h
    · cases h
    · rw [if_neg (by omega)]
  · cases h

/-- **The batch that starts at an output's own call decides where the output goes.** -/
theorem moveTarget_eq (h : OutputsFollowCalls items)
    (ho : outputPositions items o = some c) : moveTarget items o = targetOf items c o := by
  set upTo : ℕ → Option ℕ := fun k =>
    ((List.range k).foldl (fun targets start => (batchMoves items start).foldl insertTarget targets)
      fun _ => none) o with hupTo
  have hsucc : ∀ k, upTo (k + 1) =
      if isCallAt items k = true ∧ k ≤ c ∧ c ≤ batchEnd items k then
        (targetOf items k o).or (upTo k)
      else upTo k := fun k => by
    simp only [hupTo, range_succ, foldl_append, foldl_cons, foldl_nil]
    exact foldl_batchMoves h ho k _
  -- the starts before `c` only add what the one at `c` then replaces
  have hbefore : targetOf items c o = none → ∀ k ≤ c, upTo k = none := by
    intro hnone k
    induction k with
    | zero => exact fun _ => rfl
    | succ k ih =>
      intro hk
      rw [hsucc]
      split
      · next hin => rw [targetOf_eq_none_of_le hin.2.1 hin.2.2 hnone, Option.none_or, ih (by omega)]
      · exact ih (by omega)
  have hat : upTo (c + 1) = targetOf items c o := by
    rw [hsucc, if_pos ⟨isCallAt_of_outputPositions ho, le_rfl, le_extend⟩]
    rcases ht : targetOf items c o with - | t
    · rw [Option.none_or, hbefore ht c le_rfl]
    · rfl
  have hafter : ∀ k, upTo (c + 1 + k) = targetOf items c o := by
    intro k
    induction k with
    | zero => exact hat
    | succ k ih =>
      rw [← Nat.add_assoc, hsucc, if_neg (by omega), ih]
  have hlen : c < items.length := lt_length_of_isCallAt (isCallAt_of_outputPositions ho)
  have hall := hafter (items.length - (c + 1))
  rwa [Nat.add_sub_cancel' hlen] at hall

/-- Only outputs of calls of the list move. -/
theorem moveTarget_of_not_output (ho : outputPositions items o = none) :
    moveTarget items o = none := by
  have hstep : ∀ start (targets : ℕ → Option ℕ),
      ((batchMoves items start).foldl insertTarget targets) o = targets o := by
    intro start targets
    have hnot : ∀ t (l : List ℕ), (∀ i ∈ l, answersFrom items start i = true) →
        ((l.map fun i => (i, t)).foldl insertTarget targets) o = targets o := by
      intro t l hl
      rw [foldl_insertTarget_map, if_neg fun hmem => ?_]
      obtain ⟨c, hc, -⟩ := answersBetween_iff.mp (hl o hmem)
      rw [ho] at hc
      cases hc
    rw [batchMoves]
    split
    · dsimp only
      split
      · rfl
      have hall : ∀ i ∈ (List.range items.length).filter
          (answersBetween items start (batchEnd items start)), answersFrom items start i = true :=
        fun i hi => (mem_filter.mp hi).2
      split
      · exact hnot _ _ hall
      · exact hnot _ _ fun i hi => hall i (mem_filter.mp hi).1
    · rfl
  have hfold : ∀ (starts : List ℕ) (targets : ℕ → Option ℕ),
      (starts.foldl (fun targets start => (batchMoves items start).foldl insertTarget targets)
        targets) o = targets o := by
    intro starts
    induction starts with
    | nil => exact fun _ => rfl
    | cons start _ ih => exact fun targets => (ih _).trans (hstep start targets)
  exact hfold _ _

/-- **Where an output goes**: it stays in the stretch of answers from its call on, it moves behind
that stretch, or, when there is none, behind the assistant block. -/
theorem moveTarget_cases (h : OutputsFollowCalls items) (ho : outputPositions items o = some c) :
    (moveTarget items o = none ∧ ∀ i, blockEndOf items c < i → i ≤ o →
        answersFrom items c i) ∨
    (∃ t, moveTarget items o = some t ∧ blockEndOf items c < t ∧ t < o ∧
      (∀ i, blockEndOf items c < i → i ≤ t → answersFrom items c i) ∧
      answersFrom items c (t + 1) = false) ∨
    (moveTarget items o = some (blockEndOf items c) ∧
      answersFrom items c (blockEndOf items c + 1) = false) := by
  rw [moveTarget_eq h ho, targetOf]
  by_cases hnear : answersFrom items c (blockEndOf items c + 1) = true
  swap
  · exact .inr (.inr ⟨by rw [if_neg hnear], by simpa using hnear⟩)
  have hstretch : ∀ i, blockEndOf items c < i → i ≤ stretchEnd items c →
      answersFrom items c i = true := fun i hi hle => by
    rcases (Nat.succ_le_of_lt hi).eq_or_lt with rfl | hi
    · exact hnear
    · exact extend_pos hi hle
  rw [if_pos hnear]
  split
  · next hlate =>
    have hle : blockEndOf items c + 1 ≤ stretchEnd items c := le_extend
    exact .inr (.inl ⟨_, rfl, by omega, hlate, hstretch,
      extend_succ fun _ => lt_length_of_answersFrom⟩)
  · next hle => exact .inl ⟨rfl, fun i hi hio => hstretch i hi (by omega)⟩

theorem answersFrom_self (ho : outputPositions items o = some c) : answersFrom items c o :=
  answersBetween_iff.mpr ⟨c, ho, le_rfl, le_extend⟩

/-- A move goes to an earlier position of the list, and not to the one directly before. -/
theorem moveTarget_lt (h : OutputsFollowCalls items) {t : ℕ} (ht : moveTarget items o = some t) :
    t + 1 < o ∧ o < items.length := by
  rcases ho : outputPositions items o with - | c
  · rw [moveTarget_of_not_output ho] at ht
    cases ht
  obtain ⟨callId, hout, -⟩ := outputPositions_spec ho
  refine ⟨?_, lt_length_of_outputIdAt hout⟩
  have hself := answersFrom_self ho
  have hnot : ∀ u, answersFrom items c (u + 1) = false → o ≠ u + 1 := by
    rintro u hu rfl
    rw [hself] at hu
    cases hu
  have hbehind := blockEndOf_lt h hself
  rcases moveTarget_cases h ho with ⟨hn, -⟩ | ⟨u, hu, -, hlt, -, hstop⟩ | ⟨hu, hstop⟩
  · rw [hn] at ht
    cases ht
  all_goals
    cases hu.symm.trans ht
    have := hnot _ hstop
    omega

/-- Items that are no outputs stay. -/
theorem skips_of_not_output (hi : outputIdAt items i = none) :
    (reorderPlan items).skips i = false := by
  have hpos : outputPositions items i = none := by simp [outputPositions, hi]
  simp [reorderPlan, Relocation.Plan.skips, isDuplicateOutput, hi, moveTarget_of_not_output hpos]

end Target

end Normalize

end CodexPlus
