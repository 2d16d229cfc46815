/-
CodexPlus/SendableHistory.lean

**Which normalized histories Chat Completions accepts**: those that are
`Sendable` (`chat_accepts_normalized_iff`).

The induction goes over the positions at which no earlier output is still to
come (`Settled`), a group of calls at a time.  A group that leaves calls open is
the last one: their outputs come at the very end, so nothing but reasoning may
come in between.
-/
import CodexPlus.SendableGroups
import Mathlib.Data.Nat.Find

namespace CodexPlus

open List

namespace Normalize

open CallGroups Chat

variable {items : List ResponseItemEnvelope}

/-! ### The condition from a position on -/

/-- `Sendable` for the calls from `p` on, in the terms of reordering. -/
structure SendableFrom (items : List ResponseItemEnvelope) (p : ℕ) : Prop where
  synthetic : ∀ j, ∀ i < j, p ≤ i → (∀ k, i ≤ k → k ≤ j → isCallAt items k = true) →
    AnsweredAt items i → ¬ AnsweredAt items j → isCallAt items (j + 1) = false ∧
      ∀ k, j < k → (∀ m < k, j < m → isReasoningAt items m = true) → isAssistantAt items k = false
  stranded : ∀ o c, p ≤ c → outputPositions items o = some c → IsStranded items o →
    ∀ k < items.length, blockEndOf items c < k →
      outputIdAt items k ≠ none ∨ isReasoningAt items k = true

theorem isCoalescingAt_eq (k : ℕ) :
    isCoalescingAt items k = (isAssistantAt items k || isReasoningAt items k) := by
  unfold isCoalescingAt isAssistantAt isReasoningAt
  rcases items[k]? with - | ⟨item, metadata⟩
  · rfl
  · cases item <;> simp [ResponseItem.isAssistantCoalescingItem]

theorem isCallAt_of_quiet {k : ℕ}
    (h : outputIdAt items k ≠ none ∨ isReasoningAt items k) : isCallAt items k = false := by
  rcases h with hout | hr
  · obtain ⟨callId, hout⟩ := Option.ne_none_iff_exists'.mp hout
    exact isCallAt_of_output hout
  · exact isCallAt_of_isCoalescingAt (by rw [isCoalescingAt_eq, hr, Bool.or_true])

theorem isAssistantAt_of_isReasoningAt {k : ℕ} (h : isReasoningAt items k) :
    isAssistantAt items k = false := by
  unfold isAssistantAt
  unfold isReasoningAt at h
  rcases hk : items[k]? with - | ⟨item, metadata⟩
  · rfl
  · rw [hk] at h
    cases item <;> first | rfl | cases h

section From

variable {p e a T : ℕ}

section

variable (hs : Span items p e a T)
include hs

/-- A run of calls that starts in a group ends with it. -/
theorem Span.le_last {i j : ℕ} (hie : i ≤ e)
    (hcalls : ∀ k, i ≤ k → k ≤ j → isCallAt items k) : j ≤ e := by
  by_contra hlt
  have hnext := hcalls (e + 1) (by omega) (by omega)
  rw [hs.callsStop] at hnext
  cases hnext

theorem SendableFrom.fits (hsend : SendableFrom items p) : Fits items p e a := by
  intro j hje i hij hpi hi hj
  obtain ⟨hstop, hquiet⟩ := hsend.synthetic j i hij hpi
    (fun k hik hkj => hs.calls k (by omega) (by omega)) hi hj
  have heq : j = e := by
    by_contra hne
    rw [hs.calls (j + 1) (by omega) (by omega)] at hstop
    cases hstop
  subst heq
  refine ⟨rfl, fun k => ?_⟩
  induction k using Nat.strong_induction_on with
  | _ k ih =>
    intro hjk hka
    have hno := hquiet k hjk fun m hmk hjm => ih m hmk hjm (by omega)
    have hblock := hs.block k hjk hka
    rwa [isCoalescingAt_eq, hno] at hblock

/-- **The condition splits at the end of a group.** -/
theorem sendableFrom_span_iff :
    SendableFrom items p ↔ Fits items p e a ∧
      ((∃ o c, p ≤ c ∧ c ≤ e ∧ outputPositions items o = some c ∧ IsStranded items o) →
        ∀ k < items.length, a < k → outputIdAt items k ≠ none ∨ isReasoningAt items k) ∧
      SendableFrom items (T + 1) := by
  have hpe := hs.start_le
  have hea := hs.last_le
  have haT := hs.block_le
  constructor
  · intro hsend
    refine ⟨hsend.fits hs, ?_, fun j i hij hTi => hsend.synthetic j i hij (by omega),
      fun o c hTc => hsend.stranded o c (by omega)⟩
    rintro ⟨o, c, hpc, hce, hc, hstranded⟩ k hk hak
    exact hsend.stranded o c hpc hc hstranded k hk (by rwa [hs.blockEndOf hpc hce])
  · rintro ⟨hfits, htail, hrest⟩
    constructor
    · intro j i hij hpi hcalls hi hj
      rcases Nat.lt_or_ge e i with hei | hie
      · refine hrest.synthetic j i hij ?_ hcalls hi hj
        by_contra hiT
        have := hs.call_le (hcalls i le_rfl hij.le) (by omega)
        omega
      · obtain ⟨rfl, hblock⟩ := hfits j (hs.le_last hie hcalls) i hij hpi hi hj
        refine ⟨hs.callsStop, fun k hjk hbefore => ?_⟩
        rcases Nat.lt_trichotomy k (a + 1) with hka | rfl | hak
        · exact isAssistantAt_of_isReasoningAt (hblock k hjk (by omega))
        · have hstop := hs.blockStops
          rw [isCoalescingAt_eq, Bool.or_eq_false_iff] at hstop
          exact hstop.1
        · -- reasoning would have continued the block
          have hstop := hs.blockStops
          rw [isCoalescingAt_eq, hbefore (a + 1) hak (by omega), Bool.or_true] at hstop
          cases hstop
    · intro o c hpc hc hstranded
      rcases Nat.lt_or_ge e c with hec | hce
      · refine hrest.stranded o c ?_ hc hstranded
        by_contra hcT
        have := hs.call_le (isCallAt_of_outputPositions hc) (by omega)
        omega
      · rw [hs.blockEndOf hpc hce]
        exact htail ⟨o, c, hpc, hce, hc, hstranded⟩

end

theorem sendableFrom_succ_iff (hp : isCallAt items p = false) :
    SendableFrom items p ↔ SendableFrom items (p + 1) := by
  have hlt : ∀ c, isCallAt items c = true → p ≤ c → p + 1 ≤ c := fun c hc hpc => by
    rcases hpc.eq_or_lt with rfl | hpc
    · rw [hp] at hc
      cases hc
    · exact hpc
  constructor
  · intro hsend
    exact ⟨fun j i hij hpi => hsend.synthetic j i hij (by omega),
      fun o c hpc => hsend.stranded o c (by omega)⟩
  · intro hsend
    exact ⟨fun j i hij hpi hcalls => hsend.synthetic j i hij (hlt i (hcalls i le_rfl hij.le) hpi)
        hcalls,
      fun o c hpc hc => hsend.stranded o c (hlt c (isCallAt_of_outputPositions hc) hpc) hc⟩

/-- Behind the last call the condition holds. -/
theorem sendableFrom_of_no_call (hp : ∀ k, p ≤ k → isCallAt items k = false) :
    SendableFrom items p := by
  refine ⟨fun j i hij hpi hcalls => ?_, fun o c hpc hc => ?_⟩
  · have hcall := hcalls i le_rfl hij.le
    rw [hp i hpi] at hcall
    cases hcall
  · exact absurd hc (outputPositions_ne (hp c hpc))

end From

/-! ### Reading the whole history -/

/-- The positions moved behind one that does not stay. -/
def leftover (env : Env) (items : List ResponseItemEnvelope) : List ℕ :=
  (env.drain (reorderPlan items).strandedTargets).flatMap (reorderPlan items).movedTo

/-- What is still to come at position `p`. -/
def restFrom (env : Env) (items : List ResponseItemEnvelope) (p : ℕ) : List ℕ :=
  (List.range' p (items.length - p)).flatMap (reorderPlan items).emit ++ leftover env items

section Rest

variable {p e a T : ℕ}

theorem restFrom_split (env : Env) {q : ℕ} (hpq : p ≤ q) (hq : q ≤ items.length) :
    restFrom env items p = (List.range' p (q - p)).flatMap (reorderPlan items).emit
      ++ restFrom env items q := by
  rw [restFrom, ← range'_append_of_le hpq hq, flatMap_append, append_assoc, restFrom]

theorem IsStranded.output {o : ℕ} (ho : IsStranded items o) :
    ∃ c, outputPositions items o = some c := by
  obtain ⟨t, ht, -⟩ := ho
  exact output_of_moveTarget ht

namespace ToolHistory

variable (h : ToolHistory items)

include h

variable (env : Env)

theorem mem_leftover {o : ℕ} : o ∈ leftover env items ↔ IsStranded items o := by
  simp only [leftover, mem_flatMap, Relocation.Plan.mem_movedTo]
  constructor
  · rintro ⟨t, ht, -, -, htarget⟩
    exact ⟨t, htarget, (Relocation.Plan.mem_strandedTargets.mp ((env.drain_perm _).subset ht)).2.1⟩
  · rintro ⟨t, ht, hskip⟩
    have hlt := moveTarget_lt h.outputsFollowCalls ht
    have hmem : o ∈ (reorderPlan items).movedTo t :=
      Relocation.Plan.mem_movedTo.mpr ⟨hlt.2, h.not_duplicate o, ht⟩
    refine ⟨t, (env.drain_perm _).symm.subset (Relocation.Plan.mem_strandedTargets.mpr ?_),
      hlt.2, h.not_duplicate o, ht⟩
    exact ⟨show t < items.length by omega, hskip, ne_nil_of_mem hmem⟩

theorem nodup_leftover : ((leftover env items).map (outputName items)).Nodup := by
  have hnodup := Relocation.Plan.nodup_rebuilt (p := reorderPlan items) env.drain_perm
  rw [Relocation.Plan.rebuilt, nodup_append] at hnodup
  exact h.nodup_map_outputName hnodup.2.1 fun o ho =>
    ((h.mem_leftover env).mp ho).output

theorem tokens_leftover : (leftover env items).flatMap (tokensAt items)
    = ((leftover env items).map (outputName items)).map .output := by
  refine h.flatMap_tokensAt_outputs fun o ho => ?_
  obtain ⟨c, hc⟩ := ((h.mem_leftover env).mp ho).output
  simp [(outputName_eq hc).1]

/-- Where only outputs and reasoning stand, only reasoning is emitted. -/
theorem tokens_quiet (hp : Settled items p) {q : ℕ} (hq : q ≤ items.length)
    (hquiet : ∀ k, p ≤ k → k < q → outputIdAt items k ≠ none ∨ isReasoningAt items k) :
    ∀ t ∈ ((List.range' p (q - p)).flatMap (reorderPlan items).emit).flatMap (tokensAt items),
      t = .reasoning := by
  have hnocall : ∀ k, p ≤ k → k < q → isCallAt items k = false := fun k hpk hkq =>
    isCallAt_of_quiet (hquiet k hpk hkq)
  intro t ht
  obtain ⟨j, hj, ht⟩ := mem_flatMap.mp ht
  obtain ⟨i, hi, hj⟩ := mem_flatMap.mp hj
  obtain ⟨hpi, hiq⟩ := mem_range'_1.mp hi
  rw [h.emit_of_no_call hp hpi fun c hpc hci => hnocall c hpc (by omega)] at hj
  split at hj
  · next hout =>
    rw [mem_singleton.mp hj] at ht
    have hr := (hquiet i hpi (by omega)).resolve_left (not_not.mpr hout)
    rcases h.tokensAt_other (by omega) (hnocall i hpi (by omega)) hout with
      ⟨-, htoken⟩ | ⟨-, hno, -⟩ | ⟨-, hno, -⟩
    · rw [htoken] at ht
      exact mem_singleton.mp ht
    all_goals
      rw [hr] at hno
      cases hno
  · cases hj

/-- With calls open, the first item that is neither an output nor reasoning is refused. -/
theorem not_accepts_of_open (hp : Settled items p) {calls : List String}
    (hne : calls ≠ []) {k : ℕ} (hpk : p ≤ k) (hk : k < items.length)
    (hquiet : ∀ i, p ≤ i → i < k → outputIdAt items i ≠ none ∨ isReasoningAt items i)
    (hout : outputIdAt items k = none) (hr : isReasoningAt items k = false) :
    ¬ Accepts validId (.draining calls) ((restFrom env items p).flatMap (tokensAt items)) := by
  have hemit : (reorderPlan items).emit k = k :: (reorderPlan items).movedTo k := by
    simp [Relocation.Plan.emit, skips_of_not_output hout]
  have htokens : ∃ t after, tokensAt items k = t :: after ∧
      (t = .assistant ∨ t = .other ∨ ∃ id, t = .call id) := by
    rcases hcall : isCallAt items k with - | -
    · rcases h.tokensAt_other hk hcall hout with ⟨hyes, -⟩ | ⟨-, -, ht⟩ | ⟨-, -, ht⟩
      · rw [hr] at hyes
        cases hyes
      · exact ⟨_, _, ht, .inl rfl⟩
      · exact ⟨_, _, ht, .inr (.inl rfl)⟩
    · rw [tokensAt_call hcall]
      by_cases hans : AnsweredAt items k
      · exact ⟨.call (callName items k), [], by simp [rowTokens, hans], .inr (.inr ⟨_, rfl⟩)⟩
      · exact ⟨.call (callName items k), [.output (callName items k)], by simp [rowTokens, hans],
          .inr (.inr ⟨_, rfl⟩)⟩
  obtain ⟨t, after, htk, ht⟩ := htokens
  have hrange : List.range' k (k + 1 - k) = [k] := by
    rw [show k + 1 - k = 1 by omega]
    rfl
  rw [restFrom_split env hpk hk.le, restFrom_split env (Nat.le_succ k) hk,
    hrange, flatMap_singleton, hemit, flatMap_append, cons_append, flatMap_cons,
    htk, cons_append, Accepts,
    run_draining_eq_none hne (h.tokens_quiet hp hk.le hquiet) ht]
  simp

theorem nodup_awaited (hs : Span items p e a T) :
    (awaited (rowFrom items p (e + 1 - p))).Nodup := by
  have hnames : ((rowFrom items p (e + 1 - p)).map (·.1)).Nodup := by
    rw [rowFrom, map_map]
    exact h.nodup_map_callName nodup_range' fun c hc => call_of_mem_range' hs hc
  exact hnames.sublist (filter_sublist.map _)

variable (hp : Settled items p)
include hp

/-- The calls a group leaves open are those whose outputs are stranded. -/
theorem mem_open_iff (hs : Span items p e a T) {id : String} :
    id ∈ openCalls items p e a T ↔
      ∃ o c, p ≤ c ∧ c ≤ e ∧ outputPositions items o = some c ∧ IsStranded items o ∧
        outputName items o = id := by
  rw [openCalls, (h.nodup_awaited hs).mem_sdiff_iff, mem_awaited_rowFrom]
  constructor
  · rintro ⟨⟨c, hpc, hce, hans, rfl⟩, hnot⟩
    obtain ⟨o, ho⟩ := (h.answeredAt_iff (hs.calls c hpc (by omega))).mp hans
    refine ⟨o, c, hpc, by omega, ho, ?_, (outputName_eq ho).2⟩
    by_contra hstays
    refine hnot (mem_map.mpr ⟨o, (h.mem_spanOutputs hp hs).mpr ⟨⟨c, ho, hpc, by omega⟩, hstays⟩,
      (outputName_eq ho).2⟩)
  · rintro ⟨o, c, hpc, hce, ho, hstranded, rfl⟩
    refine ⟨⟨c, hpc, by omega, (h.answeredAt_iff (hs.calls c hpc hce)).mpr ⟨o, ho⟩,
      (outputName_eq ho).2.symm⟩, fun hmem => ?_⟩
    obtain ⟨o', ho', hname⟩ := mem_map.mp hmem
    obtain ⟨⟨c', hc', -⟩, hnot⟩ := (h.mem_spanOutputs hp hs).mp ho'
    have heq : o' = o := h.outputId_inj (outputName_eq hc').1 (hname ▸ (outputName_eq ho).1)
    exact hnot (heq ▸ hstranded)

/-- With calls open behind a group, exactly outputs and reasoning may follow. -/
theorem accepts_open_iff (hs : Span items p e a T) (hafter : Settled items (T + 1))
    (hbefore : ∀ o c, outputPositions items o = some c → c < p → ¬ IsStranded items o)
    (hstranded : ∃ o c, p ≤ c ∧ c ≤ e ∧ outputPositions items o = some c ∧ IsStranded items o) :
    Accepts validId (.draining (openCalls items p e a T)) ((restFrom env items (T + 1)).flatMap (tokensAt items)) ↔
      ∀ k < items.length, a < k → outputIdAt items k ≠ none ∨ isReasoningAt items k := by
  have hopen := fun id : String => (h.mem_open_iff hp hs : id ∈ _ ↔ _)
  have hne : openCalls items p e a T ≠ [] := by
    obtain ⟨o, c, hpc, hce, ho, hs'⟩ := hstranded
    exact ne_nil_of_mem ((hopen _).mpr ⟨o, c, hpc, hce, ho, hs', rfl⟩)
  constructor
  · intro haccepts
    by_contra hnot
    push Not at hnot
    -- the first item in the way
    have hex : ∃ k, k < items.length ∧ a < k ∧ outputIdAt items k = none ∧
        isReasoningAt items k = false := by
      obtain ⟨k, hk, hak, hout, hr⟩ := hnot
      exact ⟨k, hk, hak, hout, by simpa using hr⟩
    obtain ⟨hk, hak, hout, hr⟩ := Nat.find_spec hex
    set k := Nat.find hex with hkdef
    have hTk : T + 1 ≤ k := by
      by_contra hkT
      obtain ⟨c, hc, -⟩ := answersBetween_iff.mp (hs.answers k hak (by omega))
      rw [(outputName_eq hc).1] at hout
      cases hout
    refine h.not_accepts_of_open env hafter hne hTk hk (fun i hTi hik => ?_) hout hr haccepts
    by_contra hcontra
    rw [not_or, not_not, Bool.not_eq_true] at hcontra
    exact Nat.find_min hex hik ⟨by omega, by have := hs.block_le; omega, hcontra⟩
  · intro hquiet
    have hnil : restFrom env items items.length = leftover env items := by
      simp [restFrom]
    have hsame : ∀ id, id ∈ openCalls items p e a T ↔ id ∈ (leftover env items).map (outputName items) := by
      intro id
      rw [hopen, mem_map]
      constructor
      · rintro ⟨o, c, -, -, -, hs', rfl⟩
        exact ⟨o, (h.mem_leftover env).mpr hs', rfl⟩
      · rintro ⟨o, ho, rfl⟩
        have hs' := (h.mem_leftover env).mp ho
        obtain ⟨c, hc⟩ := hs'.output
        refine ⟨o, c, ?_, ?_, hc, hs', rfl⟩
        · by_contra hcp
          exact hbefore o c hc (by omega) hs'
        · -- behind the group there is no call
          have hcall := isCallAt_of_outputPositions hc
          refine hs.call_le hcall ?_
          by_contra hTc
          rw [isCallAt_of_quiet (hquiet c (lt_length_of_isCallAt hcall)
            (by have := hs.block_le; omega))] at hcall
          cases hcall
    have hsub : ((leftover env items).map (outputName items)).Subperm (openCalls items p e a T) :=
      subperm_of_subset (h.nodup_leftover env) fun id hid => (hsame id).mpr hid
    have hdone : (openCalls items p e a T).diff ((leftover env items).map (outputName items)) = [] := by
      refine eq_nil_iff_forall_not_mem.mpr fun id hid => ?_
      rw [openCalls, (List.Nodup.diff (h.nodup_awaited hs)).mem_sdiff_iff] at hid
      exact hid.2 ((hsame id).mp hid.1)
    rw [restFrom_split env (show T + 1 ≤ items.length from hs.lt_length) le_rfl, hnil,
      flatMap_append, h.tokens_leftover, accepts_append_iff
        (run_draining_reasoning (h.tokens_quiet hafter le_rfl fun k hTk hk =>
          hquiet k hk (by have := hs.block_le; omega))), Accepts, run_outputs hsub, hdone]

theorem settled_after_span (hs : Span items p e a T) : Settled items (T + 1) := by
  intro o c hc hcT
  have hpe := hs.start_le
  rcases Nat.lt_or_ge c p with hcp | hpc
  · have := hp o c hc hcp
    have := hs.last_le
    have := hs.block_le
    omega
  · have hce := hs.call_le (isCallAt_of_outputPositions hc) (by omega)
    have := (h.placed_mem_span hs hc hpc hce).2.1
    omega

/-- **What is still to come is accepted exactly when the condition holds from there on**, at
positions where nothing is open and no earlier output is to come. -/
theorem accepts_restFrom_iff (hlen : p ≤ items.length)
    (hbefore : ∀ o c, outputPositions items o = some c → c < p → ¬ IsStranded items o) :
    Accepts validId (.draining []) ((restFrom env items p).flatMap (tokensAt items)) ↔
      SendableFrom items p := by
  induction hm : items.length - p using Nat.strong_induction_on generalizing p with
  | _ m ih =>
    rcases hlen.eq_or_lt with rfl | hlt
    · -- the end: nothing is stranded
      have hnone : leftover env items = [] :=
        eq_nil_iff_forall_not_mem.mpr fun o ho => by
          have hs := (h.mem_leftover env).mp ho
          obtain ⟨c, hc⟩ := hs.output
          exact hbefore o c hc (lt_length_of_isCallAt (isCallAt_of_outputPositions hc)) hs
      refine iff_of_true (by simp [restFrom, hnone, Accepts]) (sendableFrom_of_no_call fun k hk => ?_)
      by_contra hcall
      have := lt_length_of_isCallAt (by simpa using hcall)
      omega
    rcases hcall : isCallAt items p with - | -
    · -- a position between groups
      have hne : ∀ o c, outputPositions items o = some c → c ≠ p := by
        rintro o c hc rfl
        exact outputPositions_ne hcall hc
      have hnext : Settled items (p + 1) := fun o c hc hcp => by
        have := hp o c hc (by have := hne o c hc; omega)
        omega
      have hbefore' : ∀ o c, outputPositions items o = some c → c < p + 1 → ¬ IsStranded items o :=
        fun o c hc hcp => hbefore o c hc (by have := hne o c hc; omega)
      rw [sendableFrom_succ_iff hcall, ← ih _ (by omega) hnext hlt hbefore' rfl,
        restFrom_split env (Nat.le_succ p) hlt, flatMap_append]
      have hrange : List.range' p (p + 1 - p) = [p] := by
        rw [show p + 1 - p = 1 by omega]
        rfl
      rw [hrange, flatMap_singleton,
        h.emit_of_no_call hp le_rfl fun c hpc hcp => by rwa [le_antisymm hcp hpc]]
      split
      · next hout =>
        rcases h.tokensAt_other hlt hcall hout with ⟨-, ht⟩ | ⟨-, -, ht⟩ | ⟨-, -, ht⟩ <;>
          rw [flatMap_singleton, ht] <;> rfl
      · rfl
    · -- a group
      obtain ⟨e, a, T, hs⟩ := exists_span hcall
      have hpT : p ≤ T := hs.start_le.trans (hs.last_le.trans hs.block_le)
      have hT := hs.lt_length
      have hafter := h.settled_after_span hp hs
      obtain ⟨hfits, hsplit⟩ := h.run_span hp hs
      rw [sendableFrom_span_iff hs, restFrom_split env (show p ≤ T + 1 by omega) hT,
        flatMap_append, h.emit_span hp hs]
      by_cases hfit : Fits items p e a
      swap
      · exact iff_of_false (not_accepts_append (hsplit hfit)) fun hsend => hfit hsend.1
      rw [accepts_append_iff (hfits hfit)]
      by_cases hstranded : ∃ o c, p ≤ c ∧ c ≤ e ∧ outputPositions items o = some c ∧
          IsStranded items o
      · rw [h.accepts_open_iff env hp hs hafter hbefore hstranded]
        refine ⟨fun hquiet => ⟨hfit, fun _ => hquiet, sendableFrom_of_no_call fun k hTk => ?_⟩,
          fun hsend => hsend.2.1 hstranded⟩
        rcases hk : isCallAt items k with - | -
        · rfl
        · rw [isCallAt_of_quiet (hquiet k (lt_length_of_isCallAt hk)
            (by have := hs.block_le; omega))] at hk
          cases hk
      · have hopen : openCalls items p e a T = [] :=
          eq_nil_iff_forall_not_mem.mpr fun id hid => by
            obtain ⟨o, c, hpc, hce, ho, hs', -⟩ := (h.mem_open_iff hp hs).mp hid
            exact hstranded ⟨o, c, hpc, hce, ho, hs'⟩
        rw [hopen, ih _ (by omega) hafter hT (fun o c hc hcT hs' => ?_) rfl]
        · exact ⟨fun hsend => ⟨hfit, fun hex => absurd hex hstranded, hsend⟩, fun hsend => hsend.2.2⟩
        · rcases Nat.lt_or_ge c p with hcp | hpc
          · exact hbefore o c hc hcp hs'
          · exact hstranded ⟨o, c, hpc, hs.call_le (isCallAt_of_outputPositions hc) (by omega), hc,
              hs'⟩

end ToolHistory

end Rest

/-! ### The condition -/

section Condition

variable {o c last blockEnd t : ℕ}

theorem outputPositions_order {first last k d : ℕ} (hd : outputPositions items k = some d)
    {first' : ℕ} (hyes : answersBetween items first last k)
    (hno : answersBetween items first' last k = false) : d < first' := by
  obtain ⟨d', hd', -, hlast⟩ := answersBetween_iff.mp hyes
  cases hd.symm.trans hd'
  by_contra hle
  rw [answersBetween_iff.mpr ⟨d, hd, Nat.le_of_not_lt hle, hlast⟩] at hno
  cases hno

namespace ToolHistory

variable (h : ToolHistory items)

include h

/-- An output directly behind the block leaves exactly when that of an earlier call comes first. -/
theorem moves_iff {p e a T : ℕ} (hs : Span items p e a T)
    (hall : ∀ k, a < k → k ≤ t → answersBetween items p e k) (hat : a < t) :
    moveTarget items t ≠ none ↔ ∃ k < t, a < k ∧
      (outputPositions items k).any fun d => (outputPositions items t).any fun d' => d < d' := by
  obtain ⟨d', hd', hpd, hde⟩ := answersBetween_iff.mp (hall t hat le_rfl)
  have hcases := moveTarget_cases h.outputsFollowCalls hd'
  have hself := answersFrom_self hd'
  simp only [hs.blockEndOf hpd hde, hs.answersFrom hpd hde] at hcases hself
  -- a position of the stretch that answers no call from `d'` on answers an earlier one
  have hearlier : ∀ k, a < k → k ≤ t → answersBetween items d' e k = false →
      ∃ k < t, a < k ∧
        (outputPositions items k).any fun d => (outputPositions items t).any fun d' => d < d' := by
    intro k hak hkt hno
    obtain ⟨d, hd, -⟩ := answersBetween_iff.mp (hall k hak hkt)
    have hne : k ≠ t := by
      rintro rfl
      rw [hself] at hno
      cases hno
    exact ⟨k, by omega, hak, by
      simpa [hd, hd'] using outputPositions_order hd (hall k hak hkt) hno⟩
  constructor
  · intro hmoves
    rcases hcases with ⟨hnone, -⟩ | ⟨u, -, hau, hut, -, hstop⟩ | ⟨-, hstop⟩
    · exact absurd hnone hmoves
    · exact hearlier (u + 1) (by omega) (by omega) hstop
    · exact hearlier (a + 1) (by omega) hat hstop
  · rintro ⟨k, hkt, hak, hearlier⟩ hnone
    rcases hcases with ⟨-, hkept⟩ | ⟨u, hu, -⟩ | ⟨hu, -⟩
    · obtain ⟨d, hd, hde', -⟩ := answersBetween_iff.mp (hkept k hak hkt.le)
      simp only [hd, hd', Option.any_some, decide_eq_true_eq] at hearlier
      omega
    all_goals
      rw [hnone] at hu
      cases hu

theorem strandedAt_of_isStranded (hc : outputPositions items o = some c) (ho : IsStranded items o) :
    ∃ t, StrandedAt items o c (batchEnd items c) (blockEndOf items c) t := by
  obtain ⟨t, ht, hskip⟩ := ho
  obtain ⟨e, a, T, hs⟩ := exists_span (isCallAt_of_outputPositions hc)
  have hce := hs.start_le
  have hcases := moveTarget_cases h.outputsFollowCalls hc
  simp only [hs.blockEndOf le_rfl hce, hs.answersFrom le_rfl hce] at hcases
  rw [hs.batchEnd le_rfl hce, hs.blockEndOf le_rfl hce]
  rcases hcases with ⟨hnone, -⟩ | ⟨u, hu, hau, huo, hall, hstop⟩ | ⟨hu, -⟩
  · rw [hnone] at ht
    cases ht
  · cases hu.symm.trans ht
    exact ⟨t, hc, fun k _ => hs.calls k, hs.callsStop, fun k _ => hs.block k, hs.blockStops,
      fun k _ => hall k, hstop, ⟨hce, hs.last_le, hau, huo⟩,
      (h.moves_iff hs hall hau).mp (h.skips_iff.mp hskip)⟩
  · -- the end of the block stays
    cases hu.symm.trans ht
    rw [skips_of_not_output (hs.not_output (hce.trans hs.last_le) le_rfl)] at hskip
    cases hskip

theorem isStranded_of_strandedAt (hst : StrandedAt items o c last blockEnd t) :
    IsStranded items o ∧ blockEnd = blockEndOf items c := by
  obtain ⟨hc, hcalls, hcallsStop, hblock, hblockStops, hstretch, hstretchStops,
    ⟨hcl, hlb, hbt, hto⟩, hmoves⟩ := hst
  obtain ⟨callId, hout, -⟩ := outputPositions_spec hc
  have holen := lt_length_of_outputIdAt hout
  obtain ⟨e, a, T, hs⟩ := exists_span (isCallAt_of_outputPositions hc)
  have hce := hs.start_le
  have hlast : batchEnd items c = last := extend_eq (fun _ => lt_length_of_isCallAt) hcl
    (fun k hck hkl => hcalls k (by omega) (by omega) hkl) hcallsStop
  rw [hs.batchEnd le_rfl hce] at hlast
  subst hlast
  have hend : assistantBlockEnd items e = blockEnd :=
    extend_eq (fun _ => lt_length_of_isCoalescingAt) hlb
      (fun k hlk hkb => hblock k (by omega) hlk hkb) hblockStops
  have ha : blockEndOf items c = blockEnd := by rw [blockEndOf, hs.batchEnd le_rfl hce, hend]
  rw [hs.blockEndOf le_rfl hce] at ha
  subst ha
  have hall : ∀ k, a < k → k ≤ t → answersBetween items c e k = true := fun k hak hkt =>
    hstretch k (by omega) hak hkt
  have hcases := moveTarget_cases h.outputsFollowCalls hc
  simp only [hs.blockEndOf le_rfl hce, hs.answersFrom le_rfl hce] at hcases
  refine ⟨⟨t, ?_, h.skips_iff.mpr ((h.moves_iff hs hall hbt).mpr hmoves)⟩,
    (hs.blockEndOf le_rfl hce).symm⟩
  rcases hcases with ⟨-, hkept⟩ | ⟨u, hu, hau, huo, hall', hstop⟩ | ⟨-, hstop⟩
  · rw [hkept (t + 1) (by omega) (by omega)] at hstretchStops
    cases hstretchStops
  · -- both stretches are the longest one
    rcases Nat.lt_trichotomy u t with hlt | rfl | hlt
    · rw [hall (u + 1) (by omega) (by omega)] at hstop
      cases hstop
    · exact hu
    · rw [hall' (t + 1) (by omega) (by omega)] at hstretchStops
      cases hstretchStops
  · rw [hall (a + 1) (by omega) hbt] at hstop
    cases hstop

theorem sendable_iff : Sendable items ↔ SendableFrom items 0 := by
  constructor
  · intro hsend
    constructor
    · intro j i hij _ hcalls hi hj
      have hjlen := lt_length_of_isCallAt (hcalls j hij.le le_rfl)
      obtain ⟨hstop, hquiet⟩ := hsend.synthetic j hjlen i hij (fun k _ => hcalls k) hi hj
      refine ⟨hstop, fun k hjk hbetween => ?_⟩
      rcases Nat.lt_or_ge k items.length with hk | hk
      · exact hquiet k hk hjk hbetween
      · simp [isAssistantAt, getElem?_eq_none hk]
    · intro o c _ hc ho
      obtain ⟨t, hst⟩ := h.strandedAt_of_isStranded hc ho
      obtain ⟨callId, hout, -⟩ := outputPositions_spec hc
      obtain ⟨hcl, hlb, hbt, hto⟩ := hst.order
      exact hsend.stranded o (lt_length_of_outputIdAt hout) c (by omega) _ (by omega) _ (by omega) t
        (by omega) hst
  · intro hsend
    constructor
    · intro j hj i hij hcalls hi hans
      obtain ⟨hstop, hquiet⟩ := hsend.synthetic j i hij (Nat.zero_le i)
        (fun k hik hkj => hcalls k (by omega) hik hkj) hi hans
      exact ⟨hstop, fun k _ => hquiet k⟩
    · intro o _ c _ last _ blockEnd _ t _ hst k hk hbk
      obtain ⟨hstranded, rfl⟩ := h.isStranded_of_strandedAt hst
      exact hsend.stranded o c (Nat.zero_le c) hst.answers hstranded k hk hbk

end ToolHistory

end Condition

/-- **Chat Completions accepts a normalized history exactly when the history is sendable.** -/
theorem chat_accepts_normalized_iff (env : Env) (ser : Serializer)
    (inputModalities : List InputModality) (h : ToolHistory items) :
    (chatMessagesFromItems ser
        ((normalizeHistory env inputModalities items).map (·.item))).isOk = true ↔
      Sendable items := by
  have hrest : (reorderPlan items).rebuilt env.drain = restFrom env items 0 := by
    rw [restFrom, ← range_eq_range']
    rfl
  rw [chatMessagesFromItems_isOk_iff, map_map, h.sendable_iff,
    ← h.accepts_restFrom_iff env (fun _ _ _ hc => absurd hc (Nat.not_lt_zero _)) (Nat.zero_le _)
      (fun _ _ _ hc => absurd hc (Nat.not_lt_zero _)),
    ← hrest, ← h.tokens_normalizeHistory env inputModalities]
  rfl

def toolCall (callId : String) : ResponseItemEnvelope :=
  .new (.customToolCall none callId "apply_patch" none "")

def toolOutput (callId : String) : ResponseItemEnvelope :=
  .new (.customToolCallOutput none callId none (.fromText "Done!") none)

def saying (role text : String) : ResponseItemEnvelope :=
  .new (.message none role [.inputText text])

def sampleSerializer : Serializer := ⟨id, "\n".intercalate⟩

/-- A missing output of the last call and a late output of the one before it are repaired. -/
theorem late_and_missing_outputs_are_sendable :
    ToolHistory [toolCall "a", toolCall "b", saying "user" "go on", toolOutput "a"] ∧
    (chatMessagesFromItems sampleSerializer ((normalizeHistory ⟨id, id, fun _ => .refl _⟩ []
      [toolCall "a", toolCall "b", saying "user" "go on", toolOutput "a"]).map (·.item))).isOk
        = true :=
  ⟨by decide, (chat_accepts_normalized_iff _ _ _ (by decide)).mpr (by decide)⟩

/-- Three calls in parallel of which only the second has no output: its synthetic output splits the
calls. Three calls whose first output is late: it ends up behind the user's message. -/
theorem missing_middle_and_late_first_output_are_refused :
    (ToolHistory [toolCall "a", toolCall "b", toolCall "c", toolOutput "a", toolOutput "c"] ∧
      (chatMessagesFromItems sampleSerializer ((normalizeHistory ⟨id, id, fun _ => .refl _⟩ []
        [toolCall "a", toolCall "b", toolCall "c", toolOutput "a", toolOutput "c"]).map
          (·.item))).isOk = false) ∧
    (ToolHistory [toolCall "a", toolCall "b", toolCall "c", toolOutput "b", toolOutput "c",
        saying "user" "go on", toolOutput "a"] ∧
      (chatMessagesFromItems sampleSerializer ((normalizeHistory ⟨id, id, fun _ => .refl _⟩ []
        [toolCall "a", toolCall "b", toolCall "c", toolOutput "b", toolOutput "c",
          saying "user" "go on", toolOutput "a"]).map (·.item))).isOk = false) := by
  decide

end Normalize

end CodexPlus
