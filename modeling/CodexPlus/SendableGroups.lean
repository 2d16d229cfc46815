/-
CodexPlus/SendableGroups.lean

How the rebuilt positions of a history are read, run by run.  A run of calls, the assistant block
behind it and the outputs that stand or are moved behind the block make one
group (`Span`); everything a group emits belongs to it (`emit_span`), and the outputs of
its calls that it does not emit are stranded behind the whole history
(`mem_spanOutputs`).  Reading a group leaves the calls of these open (`run_span`).
-/
import CodexPlus.ToolHistory

namespace CodexPlus

open List

namespace Normalize

open CallGroups Chat

variable {items : List ResponseItemEnvelope}

/-! ### Groups by position -/

/-- Calls from `p` to `e`, the assistant block up to `a`, and up to `T` outputs of these calls. -/
structure Span (items : List ResponseItemEnvelope) (p e a T : ℕ) : Prop where
  start_le : p ≤ e
  last_le : e ≤ a
  block_le : a ≤ T
  lt_length : T < items.length
  calls : ∀ k, p ≤ k → k ≤ e → isCallAt items k = true
  callsStop : isCallAt items (e + 1) = false
  block : ∀ k, e < k → k ≤ a → isCoalescingAt items k = true
  blockStops : isCoalescingAt items (a + 1) = false
  answers : ∀ k, a < k → k ≤ T → answersBetween items p e k = true
  answersStop : answersBetween items p e (T + 1) = false

variable {p : ℕ}

theorem exists_span (hp : isCallAt items p) : ∃ e a T, Span items p e a T := by
  have hplen := lt_length_of_isCallAt hp
  have helen : batchEnd items p < items.length := extend_lt hplen
  have halen : blockEndOf items p < items.length := extend_lt helen
  refine ⟨batchEnd items p, blockEndOf items p,
    extend items (answersFrom items p) (blockEndOf items p), le_extend, le_extend, le_extend,
    extend_lt halen, fun k hpk hke => ?_, extend_succ fun _ => lt_length_of_isCallAt,
    fun k => extend_pos, extend_succ fun _ => lt_length_of_isCoalescingAt, fun k => extend_pos,
    extend_succ fun _ => lt_length_of_answersFrom⟩
  rcases hpk.eq_or_lt with rfl | hpk
  · exact hp
  · exact extend_pos hpk hke

variable {k : ℕ}

theorem outputIdAt_of_isCoalescingAt (h : isCoalescingAt items k) : outputIdAt items k = none := by
  rcases hout : outputIdAt items k with - | callId
  · rfl
  · rw [isCoalescingAt_of_output hout] at h
    cases h

theorem isCallAt_of_isCoalescingAt (h : isCoalescingAt items k) : isCallAt items k = false := by
  have hlen := lt_length_of_isCoalescingAt h
  simp only [isCoalescingAt, getElem?_eq_itemAt hlen, Option.any_some] at h
  rw [isCallAt, callIdAt_eq hlen]
  generalize (itemAt items k).item = item at h
  cases item <;> first | rfl | cases h

variable {c t : ℕ}

namespace Span

variable {p e a T : ℕ} (hs : Span items p e a T)

include hs

theorem batchEnd (hpc : p ≤ c) (hce : c ≤ e) : batchEnd items c = e :=
  extend_eq (fun _ => lt_length_of_isCallAt) hce (fun k hk hke => hs.calls k (by omega) hke)
    hs.callsStop

theorem blockEndOf (hpc : p ≤ c) (hce : c ≤ e) : blockEndOf items c = a := by
  rw [Normalize.blockEndOf, hs.batchEnd hpc hce]
  exact extend_eq (fun _ => lt_length_of_isCoalescingAt) hs.last_le hs.block hs.blockStops

theorem answersFrom (hpc : p ≤ c) (hce : c ≤ e) (k : ℕ) :
    answersFrom items c k = answersBetween items c e k := by
  rw [Normalize.answersFrom, hs.batchEnd hpc hce]

/-- Between the run and the end of the group there is no call. -/
theorem not_call (hek : e < k) (hkT : k ≤ T) : isCallAt items k = false := by
  rcases Nat.lt_or_ge a k with hak | hka
  · obtain ⟨c, hc, -⟩ := answersBetween_iff.mp (hs.answers k hak hkT)
    obtain ⟨callId, hout, -⟩ := outputPositions_spec hc
    exact isCallAt_of_output hout
  · exact isCallAt_of_isCoalescingAt (hs.block k hek hka)

theorem call_le (hc : isCallAt items c) (hcT : c ≤ T) : c ≤ e := by
  by_contra hec
  rw [hs.not_call (Nat.lt_of_not_le hec) hcT] at hc
  cases hc

theorem not_output (hpk : p ≤ k) (hka : k ≤ a) : outputIdAt items k = none := by
  rcases Nat.lt_or_ge e k with hek | hke
  · exact outputIdAt_of_isCoalescingAt (hs.block k hek hka)
  · exact outputIdAt_of_isCallAt (hs.calls k hpk hke)

/-- Answers to calls of the run that reach back to the block lie in the group. -/
theorem le_of_answers (hpc : p ≤ c)
    (hall : ∀ i, a < i → i ≤ t → answersBetween items c e i) : t ≤ T := by
  by_contra hlt
  have hnext := answersBetween_mono hpc (hall (T + 1) (by have := hs.block_le; omega) (by omega))
  rw [hs.answersStop] at hnext
  cases hnext

end Span

/-! ### Where outputs end up -/

/-- The position an output stands at, or moves behind. -/
def placed (items : List ResponseItemEnvelope) (o : ℕ) : ℕ := (moveTarget items o).getD o

/-- The output moves behind a position that does not stay. -/
def IsStranded (items : List ResponseItemEnvelope) (o : ℕ) : Prop :=
  ∃ t, moveTarget items o = some t ∧ (reorderPlan items).skips t = true

variable {o : ℕ}

theorem output_of_moveTarget (ht : moveTarget items o = some t) :
    ∃ c, outputPositions items o = some c := by
  rcases hc : outputPositions items o with - | c
  · rw [moveTarget_of_not_output hc] at ht
    cases ht
  · exact ⟨c, rfl⟩

theorem output_of_mem_movedTo (ho : o ∈ (reorderPlan items).movedTo t) :
    placed items o = t ∧ ∃ c, outputPositions items o = some c := by
  have ht : moveTarget items o = some t := (Relocation.Plan.mem_movedTo.mp ho).2.2
  exact ⟨by simp [placed, ht], output_of_moveTarget ht⟩

variable {a i : ℕ}

namespace ToolHistory

variable (h : ToolHistory items)

include h

theorem skips_iff : (reorderPlan items).skips i ↔ moveTarget items i ≠ none := by
  simp [Relocation.Plan.skips, reorderPlan, h.not_duplicate, Option.isSome_iff_ne_none]

theorem le_placed (ho : outputPositions items o = some c) : c ≤ placed items o := by
  have hc : c ≤ blockEndOf items c := (le_extend (p := isCallAt items)).trans le_extend
  have hco := h.outputsFollowCalls o c ho
  unfold placed
  rcases moveTarget_cases h.outputsFollowCalls ho with ⟨ht, -⟩ | ⟨t, ht, hlt, -⟩ | ⟨ht, -⟩ <;>
    rw [ht] <;> simp only [Option.getD_none, Option.getD_some] <;> omega

/-- The outputs of a group's calls end up behind its block and within the group. -/
theorem placed_mem_span {e T : ℕ} (hs : Span items p e a T)
    (ho : outputPositions items o = some c) (hpc : p ≤ c) (hce : c ≤ e) :
    a ≤ placed items o ∧ placed items o ≤ T ∧ (moveTarget items o = none → a < o) := by
  have hcases := moveTarget_cases h.outputsFollowCalls ho
  simp only [hs.blockEndOf hpc hce, hs.answersFrom hpc hce] at hcases
  have hao : a < o := by
    have := blockEndOf_lt h.outputsFollowCalls (answersFrom_self ho)
    rwa [hs.blockEndOf hpc hce] at this
  have haT := hs.block_le
  unfold placed
  rcases hcases with ⟨ht, hall⟩ | ⟨t, ht, hlt, -, hall, -⟩ | ⟨ht, -⟩ <;>
    rw [ht] <;> simp only [Option.getD_none, Option.getD_some]
  · exact ⟨hao.le, hs.le_of_answers hpc hall, fun _ => hao⟩
  · exact ⟨hlt.le, hs.le_of_answers hpc hall, fun _ => hao⟩
  · exact ⟨le_rfl, haT, fun _ => hao⟩

end ToolHistory

/-- No output of a call before `p` stands at `p` or behind it, or moves there. -/
def Settled (items : List ResponseItemEnvelope) (p : ℕ) : Prop :=
  ∀ o c, outputPositions items o = some c → c < p → placed items o < p

/-! ### What a position emits -/

section Emit

variable {p e a T i : ℕ}

theorem emit_eq_singleton (hstays : outputIdAt items i = none)
    (hmoved : (reorderPlan items).movedTo i = []) : (reorderPlan items).emit i = [i] := by
  simp [Relocation.Plan.emit, skips_of_not_output hstays, hmoved]

/-- Nothing moves behind a position from which no call reaches back to settled ones. -/
theorem ToolHistory.movedTo_eq_nil (h : ToolHistory items) (hp : Settled items p) (hpi : p ≤ i)
    (hcalls : ∀ o c, outputPositions items o = some c → p ≤ c → c ≤ i → placed items o ≠ i) :
    (reorderPlan items).movedTo i = [] := by
  refine eq_nil_iff_forall_not_mem.mpr fun o ho => ?_
  obtain ⟨hplaced, c, hc⟩ := output_of_mem_movedTo ho
  rcases Nat.lt_or_ge c p with hcp | hpc
  · have := hp o c hc hcp
    omega
  · exact hcalls o c hc hpc (hplaced ▸ h.le_placed hc) hplaced

theorem outputPositions_ne (hc : isCallAt items c = false) : outputPositions items o ≠ some c := by
  intro ho
  rw [isCallAt_of_outputPositions ho] at hc
  cases hc

/-- Where no call lies between, outputs leave and everything else stays alone. -/
theorem ToolHistory.emit_of_no_call (h : ToolHistory items) (hp : Settled items p) (hpi : p ≤ i)
    (hcalls : ∀ c, p ≤ c → c ≤ i → isCallAt items c = false) :
    (reorderPlan items).emit i = if outputIdAt items i = none then [i] else [] := by
  split
  · next hout =>
    exact emit_eq_singleton hout (h.movedTo_eq_nil hp hpi fun o c hc hpc hci =>
      absurd hc (outputPositions_ne (hcalls c hpc hci)))
  · next hout =>
    obtain ⟨callId, hout⟩ := Option.ne_none_iff_exists'.mp hout
    obtain ⟨c, hci, hc, -⟩ := h.callsPrecedeOutputs.outputPositions hout
    have hcp : c < p := by
      by_contra hpc
      exact outputPositions_ne (hcalls c (by omega) hci.le) hc
    have hplaced := hp i c hc hcp
    have hskip : (reorderPlan items).skips i = true := by
      rw [h.skips_iff]
      intro hnone
      simp only [placed, hnone, Option.getD_none] at hplaced
      omega
    simp [Relocation.Plan.emit, hskip]

/-- The outputs a group emits. -/
def spanOutputs (items : List ResponseItemEnvelope) (a T : ℕ) : List ℕ :=
  (reorderPlan items).movedTo a ++ (List.range' (a + 1) (T - a)).flatMap (reorderPlan items).emit

theorem range'_append_of_le {q r : ℕ} (hpq : p ≤ q) (hqr : q ≤ r) :
    List.range' p (q - p) ++ List.range' q (r - q) = List.range' p (r - p) := by
  have happend := List.range'_append_1 (s := p) (m := q - p) (n := r - q)
  rwa [Nat.add_sub_cancel' hpq, show q - p + (r - q) = r - p by omega] at happend

theorem range'_split (hpa : p ≤ a) (T : ℕ) (haT : a ≤ T) :
    List.range' p (T + 1 - p) = List.range' p (a - p) ++ a :: List.range' (a + 1) (T - a) := by
  rw [← List.range'_succ, show T - a + 1 = T + 1 - a by omega, range'_append_of_le hpa (by omega)]

section

variable (h : ToolHistory items) (hp : Settled items p) (hs : Span items p e a T)

include h hp hs

/-- **A group emits its calls, its block and then outputs.** -/
theorem ToolHistory.emit_span :
    (List.range' p (T + 1 - p)).flatMap (reorderPlan items).emit
      = List.range' p (a + 1 - p) ++ spanOutputs items a T := by
  have hpa : p ≤ a := hs.start_le.trans hs.last_le
  have hbefore : (List.range' p (a - p)).flatMap (reorderPlan items).emit
      = List.range' p (a - p) := by
    conv_rhs => rw [← flatMap_singleton' (List.range' p (a - p))]
    refine flatMap_congr fun i hi => ?_
    obtain ⟨hpi, hia⟩ := mem_range'_1.mp hi
    refine emit_eq_singleton (hs.not_output hpi (by omega))
      (h.movedTo_eq_nil hp hpi fun o c hc hpc hci hplaced => ?_)
    have hce := hs.call_le (isCallAt_of_outputPositions hc) (by have := hs.block_le; omega)
    have := (h.placed_mem_span hs hc hpc hce).1
    omega
  have hat : (reorderPlan items).emit a = a :: (reorderPlan items).movedTo a := by
    simp [Relocation.Plan.emit, skips_of_not_output (hs.not_output hpa le_rfl)]
  have hcalls : List.range' p (a + 1 - p) = List.range' p (a - p) ++ [a] := by
    have := range'_split hpa a le_rfl
    simpa using this
  rw [range'_split hpa T hs.block_le, flatMap_append, flatMap_cons, hbefore, hat, hcalls,
    spanOutputs]
  simp

/-- Exactly the outputs of the group's calls that are not stranded. -/
theorem ToolHistory.mem_spanOutputs :
    o ∈ spanOutputs items a T ↔
      (∃ c, outputPositions items o = some c ∧ p ≤ c ∧ c ≤ e) ∧ ¬ IsStranded items o := by
  have hpa : p ≤ a := hs.start_le.trans hs.last_le
  have haT := hs.block_le
  have hstays : (reorderPlan items).skips a = false :=
    skips_of_not_output (hs.not_output hpa le_rfl)
  -- what moves behind a position of the group that stays
  have hmoved : ∀ t, a ≤ t → t ≤ T → (reorderPlan items).skips t = false →
      o ∈ (reorderPlan items).movedTo t →
      (∃ c, outputPositions items o = some c ∧ p ≤ c ∧ c ≤ e) ∧ ¬ IsStranded items o := by
    intro t hat htT ht ho
    obtain ⟨hplaced, c, hc⟩ := output_of_mem_movedTo ho
    have htarget : moveTarget items o = some t := (Relocation.Plan.mem_movedTo.mp ho).2.2
    have hct := h.le_placed hc
    refine ⟨⟨c, hc, ?_, ?_⟩, ?_⟩
    · by_contra hcp
      have := hp o c hc (by omega)
      omega
    · exact hs.call_le (isCallAt_of_outputPositions hc) (by omega)
    · rintro ⟨u, hu, hskip⟩
      cases htarget.symm.trans hu
      rw [ht] at hskip
      cases hskip
  rw [spanOutputs, mem_append, mem_flatMap]
  constructor
  · rintro (ho | ⟨j, hj, ho⟩)
    · exact hmoved a le_rfl haT hstays ho
    · obtain ⟨haj, hjT⟩ := mem_range'_1.mp hj
      obtain ⟨hskip, rfl | ho⟩ := Relocation.Plan.mem_emit.mp ho
      · refine ⟨answersBetween_iff.mp (hs.answers o (by omega) (by omega)), ?_⟩
        rintro ⟨t, ht, -⟩
        have hskip' : (reorderPlan items).skips o = true := h.skips_iff.mpr (by simp [ht])
        rw [hskip'] at hskip
        cases hskip
      · exact hmoved j (by omega) (by omega) hskip ho
  · rintro ⟨⟨c, hc, hpc, hce⟩, hnot⟩
    obtain ⟨hle, hge, hbehind⟩ := h.placed_mem_span hs hc hpc hce
    have hmem : ∀ j, a < j → j ≤ T → j ∈ List.range' (a + 1) (T - a) := fun j haj hjT =>
      mem_range'_1.mpr ⟨haj, by omega⟩
    rcases ht : moveTarget items o with - | t
    · simp only [placed, ht, Option.getD_none] at hge
      have hskip : (reorderPlan items).skips o = false := by
        rw [← Bool.not_eq_true, h.skips_iff, ht]
        simp
      exact .inr ⟨o, hmem o (hbehind ht) hge, Relocation.Plan.mem_emit.mpr ⟨hskip, .inl rfl⟩⟩
    · simp only [placed, ht, Option.getD_some] at hle hge
      obtain ⟨callId, hout, -⟩ := outputPositions_spec hc
      have ho : o ∈ (reorderPlan items).movedTo t := Relocation.Plan.mem_movedTo.mpr
        ⟨lt_length_of_outputIdAt hout, h.not_duplicate o, ht⟩
      have hskip : (reorderPlan items).skips t = false := by
        rw [← Bool.not_eq_true]
        exact fun hskip => hnot ⟨t, ht, hskip⟩
      rcases hle.eq_or_lt with rfl | hat
      · exact .inl ho
      · exact .inr ⟨t, hmem t hat hge, Relocation.Plan.mem_emit.mpr ⟨hskip, .inr ho⟩⟩

theorem ToolHistory.nodup_spanOutputs : (spanOutputs items a T).Nodup := by
  have hnodup := Relocation.Plan.nodup_flatMap_emit (p := reorderPlan items)
    (nodup_range' (s := p) (n := T + 1 - p))
  rw [h.emit_span hp hs] at hnodup
  exact (nodup_append.mp hnodup).2.1

/-- If a call of the group has an output, the group emits one: an output directly behind the block
stays. -/
theorem ToolHistory.spanOutputs_ne_nil (hc : outputPositions items o = some c) (hpc : p ≤ c)
    (hce : c ≤ e) : spanOutputs items a T ≠ [] := by
  by_cases hstranded : IsStranded items o
  swap
  · exact ne_nil_of_mem ((h.mem_spanOutputs hp hs).mpr ⟨⟨c, hc, hpc, hce⟩, hstranded⟩)
  obtain ⟨t, ht, hskip⟩ := hstranded
  have hpa : p ≤ a := hs.start_le.trans hs.last_le
  have hcases := moveTarget_cases h.outputsFollowCalls hc
  simp only [hs.blockEndOf hpc hce, hs.answersFrom hpc hce] at hcases
  rcases hcases with ⟨hnone, -⟩ | ⟨u, -, hau, -, hall, -⟩ | ⟨hblock, -⟩
  · rw [hnone] at ht
    cases ht
  · obtain ⟨d, hd, hcd, hde⟩ := answersBetween_iff.mp (hall (a + 1) (by omega) hau)
    refine ne_nil_of_mem ((h.mem_spanOutputs hp hs).mpr
      ⟨⟨d, hd, hpc.trans hcd, hde⟩, ?_⟩)
    rintro ⟨v, hv, -⟩
    have := moveTarget_lt h.outputsFollowCalls hv
    have hplaced := (h.placed_mem_span hs hd (hpc.trans hcd) hde).1
    simp only [placed, hv, Option.getD_some] at hplaced
    omega
  · cases hblock.symm.trans ht
    rw [skips_of_not_output (hs.not_output hpa le_rfl)] at hskip
    cases hskip

end

end Emit

/-! ### The tokens of a position -/

variable {l : List ℕ}

section Tokens

variable (items) in
def callName (c : ℕ) : String := (callIdAt items c).getD ""

variable (items) in
def outputName (o : ℕ) : String := (outputIdAt items o).getD ""

theorem callIdAt_eq_callName (hc : isCallAt items c) :
    callIdAt items c = some (callName items c) := by
  obtain ⟨callId, hid⟩ := Option.isSome_iff_exists.mp hc
  simp [callName, hid]

theorem outputName_eq (ho : outputPositions items o = some c) :
    outputIdAt items o = some (outputName items o) ∧ outputName items o = callName items c := by
  obtain ⟨callId, hout, hcall⟩ := outputPositions_spec ho
  simp [outputName, callName, hout, hcall]

/-- A call is collected if it has an output, and answered on the spot if not. -/
theorem tokensAt_call (hc : isCallAt items c) :
    tokensAt items c = rowTokens [(callName items c, decide (AnsweredAt items c))] := by
  have hid := callIdAt_eq_callName hc
  have htoken : wireToken (itemAt items c).item = .call (callName items c) := by
    rw [callIdAt_eq (lt_length_of_isCallAt hc)] at hid
    generalize (itemAt items c).item = item at hid
    cases item with
    | functionCall | customToolCall => cases hid; rfl
    | localShellCall id callId action | toolSearchCall id callId execution arguments =>
      cases hid; rfl
    | _ => cases hid
  rw [tokensAt, hid, htoken]
  by_cases hans : AnsweredAt items c <;> simp [rowTokens, hans]

theorem ToolHistory.tokensAt_output (h : ToolHistory items)
    (ho : outputIdAt items o ≠ none) : tokensAt items o = [.output (outputName items o)] := by
  obtain ⟨callId, hid⟩ := Option.ne_none_iff_exists'.mp ho
  have hlen := lt_length_of_outputIdAt hid
  have hname : outputName items o = callId := by simp [outputName, hid]
  have hnocall : callIdAt items o = none := by
    simpa [isCallAt] using isCallAt_of_output hid
  have htoken : wireToken (itemAt items o).item = .output callId := by
    have hkind := h.kindAt hlen
    rw [outputIdAt_eq hlen] at hid
    generalize (itemAt items o).item = item at hid hkind
    cases item with
    | functionCallOutput | customToolCallOutput => cases hid; rfl
    | toolSearchOutput => cases hkind
    | _ => cases hid
  rw [tokensAt, hnocall, htoken, hname]

/-- Everything else is one token. -/
theorem ToolHistory.tokensAt_other (h : ToolHistory items) (hi : i < items.length)
    (hcall : isCallAt items i = false) (hout : outputIdAt items i = none) :
    (isReasoningAt items i ∧ tokensAt items i = [.reasoning]) ∨
    (isAssistantAt items i ∧ isReasoningAt items i = false ∧
      tokensAt items i = [.assistant]) ∨
    (isCoalescingAt items i = false ∧ isReasoningAt items i = false ∧
      tokensAt items i = [.other]) := by
  have hnocall : callIdAt items i = none := by simpa [isCallAt] using hcall
  have hkind := h.kindAt hi
  simp only [tokensAt, hnocall, isReasoningAt, isAssistantAt, isCoalescingAt, getElem?_eq_itemAt hi,
    Option.any_some]
  rw [callIdAt_eq hi] at hnocall
  rw [outputIdAt_eq hi] at hout
  generalize (itemAt items i).item = item at hkind hnocall hout
  cases item with
  | message _ role =>
    by_cases hrole : role = "assistant" <;>
      simp [wireToken, ResponseItem.isAssistantCoalescingItem, hrole]
  | reasoning => exact .inl ⟨rfl, rfl⟩
  | functionCall | customToolCall => cases hnocall
  | customToolCallOutput => cases hout
  | functionCallOutput _ callId => rw [show callId = none from hout] at hkind; cases hkind
  | _ => cases hkind

theorem ToolHistory.flatMap_tokensAt_outputs (h : ToolHistory items)
    (hl : ∀ o ∈ l, outputIdAt items o ≠ none) :
    l.flatMap (tokensAt items) = (l.map (outputName items)).map .output := by
  induction l with
  | nil => rfl
  | cons o l ih =>
    obtain ⟨ho, hrest⟩ := forall_mem_cons.mp hl
    rw [flatMap_cons, h.tokensAt_output ho, ih hrest]
    rfl

theorem flatMap_tokensAt_calls (hl : ∀ c ∈ l, isCallAt items c) :
    l.flatMap (tokensAt items)
      = rowTokens (l.map fun c => (callName items c, decide (AnsweredAt items c))) := by
  rw [rowTokens, flatMap_map]
  refine flatMap_congr fun c hc => ?_
  rw [tokensAt_call (hl c hc)]
  simp [rowTokens]

end Tokens

/-! ### Reading a group -/

section Group

variable {p e a T : ℕ} (items) in
/-- The `n` calls from `p` on, with whether each has an output. -/
def rowFrom (p n : ℕ) : List (String × Bool) :=
  (List.range' p n).map fun c => (callName items c, decide (AnsweredAt items c))

theorem pairwise_range'_iff {R : ℕ → ℕ → Prop} {n : ℕ} :
    (List.range' p n).Pairwise R ↔ ∀ i j, p ≤ i → i < j → j < p + n → R i j := by
  simp only [pairwise_iff_getElem, length_range', getElem_range', Nat.one_mul]
  constructor
  · intro hall i j hpi hij hj
    have hR := hall (i - p) (j - p) (by omega) (by omega) (by omega)
    rwa [Nat.add_sub_cancel' hpi, Nat.add_sub_cancel' (by omega)] at hR
  · exact fun hall i j hi hj hij => hall _ _ (by omega) (by omega) (by omega)

theorem orderly_rowFrom {n : ℕ} : Orderly (rowFrom items p n) ↔
    ∀ i j, p ≤ i → i < j → j < p + n → AnsweredAt items i → AnsweredAt items j := by
  rw [Orderly, rowFrom, pairwise_map, pairwise_range'_iff]
  simp

theorem dropLast_rowFrom (n : ℕ) : (rowFrom items p (n + 1)).dropLast = rowFrom items p n := by
  rw [rowFrom, List.range'_concat, map_append, map_singleton, dropLast_concat, rowFrom]

theorem mem_awaited_rowFrom {n : ℕ} {id : String} : id ∈ awaited (rowFrom items p n) ↔
    ∃ c, p ≤ c ∧ c < p + n ∧ AnsweredAt items c ∧ callName items c = id := by
  simp only [awaited, rowFrom, mem_map, mem_filter, mem_range'_1]
  constructor
  · rintro ⟨x, ⟨⟨c, hc, rfl⟩, hans⟩, rfl⟩
    exact ⟨c, hc.1, hc.2, by simpa using hans, rfl⟩
  · rintro ⟨c, hpc, hcn, hans, rfl⟩
    exact ⟨_, ⟨⟨c, ⟨hpc, hcn⟩, rfl⟩, by simpa using hans⟩, rfl⟩

/-- No synthetic output splits the group. -/
def Fits (items : List ResponseItemEnvelope) (p e a : ℕ) : Prop :=
  ∀ j ≤ e, ∀ i < j, p ≤ i → AnsweredAt items i → ¬ AnsweredAt items j →
    j = e ∧ ∀ k, e < k → k ≤ a → isReasoningAt items k = true

theorem fits_iff (hpe : p ≤ e) : Fits items p e a ↔
    Orderly (rowFrom items p (e + 1 - p)).dropLast ∧
      (Orderly (rowFrom items p (e + 1 - p)) ∨
        ∀ k, e < k → k ≤ a → isReasoningAt items k) := by
  rw [show e + 1 - p = e - p + 1 by omega, dropLast_rowFrom, orderly_rowFrom, orderly_rowFrom]
  constructor
  · intro hfits
    refine ⟨fun i j hpi hij hj hi => ?_, ?_⟩
    · by_contra hans
      have := (hfits j (by omega) i hij hpi hi hans).1
      omega
    · by_contra hboth
      rw [not_or] at hboth
      refine hboth.1 fun i j hpi hij hj hi => ?_
      by_contra hans
      exact hboth.2 (hfits j (by omega) i hij hpi hi hans).2
  · rintro ⟨hlast, hrow⟩ j hje i hij hpi hi hans
    have hj : j = e := by
      by_contra hne
      exact hans (hlast i j hpi hij (by omega) hi)
    refine ⟨hj, ?_⟩
    rcases hrow with hrow | hblock
    · exact absurd (hrow i j hpi hij (by omega) hi) hans
    · exact hblock

variable (items) in
/-- The calls that a group leaves open. -/
def openCalls (p e a T : ℕ) : List String :=
  (awaited (rowFrom items p (e + 1 - p))).diff ((spanOutputs items a T).map (outputName items))

namespace ToolHistory

variable (h : ToolHistory items)

include h

theorem callName_inj {d : ℕ} (hc : isCallAt items c) (hd : isCallAt items d)
    (heq : callName items c = callName items d) : c = d :=
  h.callId_inj (callIdAt_eq_callName hc) (heq ▸ callIdAt_eq_callName hd)

theorem nodup_map_callName (hl : l.Nodup) (hcalls : ∀ c ∈ l, isCallAt items c) :
    (l.map (callName items)).Nodup :=
  hl.map_on fun _ hc _ hd heq => h.callName_inj (hcalls _ hc) (hcalls _ hd) heq

theorem nodup_map_outputName (hl : l.Nodup)
    (hout : ∀ o ∈ l, ∃ c, outputPositions items o = some c) : (l.map (outputName items)).Nodup := by
  refine hl.map_on fun o ho o' ho' heq => ?_
  obtain ⟨c, hc⟩ := hout o ho
  obtain ⟨c', hc'⟩ := hout o' ho'
  exact h.outputId_inj (outputName_eq hc).1 (heq ▸ (outputName_eq hc').1)

variable (hp : Settled items p) (hs : Span items p e a T)

include hs

omit h in
theorem call_of_mem_range' (hc : c ∈ List.range' p (e + 1 - p)) : isCallAt items c := by
  obtain ⟨hpc, hce⟩ := mem_range'_1.mp hc
  exact hs.calls c hpc (by omega)

include hp in
/-- The group's outputs answer awaited calls, each its own. -/
theorem subperm_awaited :
    ((spanOutputs items a T).map (outputName items)).Subperm
      (awaited (rowFrom items p (e + 1 - p))) := by
  have hmem : ∀ o ∈ spanOutputs items a T, ∃ c, outputPositions items o = some c ∧ p ≤ c ∧ c ≤ e :=
    fun o ho => ((h.mem_spanOutputs hp hs).mp ho).1
  refine subperm_of_subset (h.nodup_map_outputName (h.nodup_spanOutputs hp hs) fun o ho => ?_)
    fun id hid => ?_
  · obtain ⟨c, hc, -⟩ := hmem o ho
    exact ⟨c, hc⟩
  · obtain ⟨o, ho, rfl⟩ := mem_map.mp hid
    obtain ⟨c, hc, hpc, hce⟩ := hmem o ho
    exact mem_awaited_rowFrom.mpr ⟨c, hpc, by omega,
      (h.answeredAt_iff (hs.calls c hpc hce)).mpr ⟨o, hc⟩, (outputName_eq hc).2.symm⟩

theorem tokensAt_block (hek : e < k) (hka : k ≤ a) :
    tokensAt items k = if isReasoningAt items k then [.reasoning] else [.assistant] := by
  have hblock := hs.block k hek hka
  rcases h.tokensAt_other (lt_length_of_isCoalescingAt hblock) (isCallAt_of_isCoalescingAt hblock)
    (outputIdAt_of_isCoalescingAt hblock) with ⟨hr, ht⟩ | ⟨-, hr, ht⟩ | ⟨hno, -⟩
  · rw [ht, if_pos hr]
  · rw [ht, hr]
    rfl
  · rw [hblock] at hno
    cases hno

theorem mem_blockTokens {t : Token String}
    (ht : t ∈ (List.range' (e + 1) (a - e)).flatMap (tokensAt items)) :
    ∃ k, e < k ∧ k ≤ a ∧ t = if isReasoningAt items k then .reasoning else .assistant := by
  obtain ⟨k, hk, ht⟩ := mem_flatMap.mp ht
  obtain ⟨hek, hka⟩ := mem_range'_1.mp hk
  rw [h.tokensAt_block hs hek (by omega)] at ht
  refine ⟨k, hek, by omega, ?_⟩
  rcases hr : isReasoningAt items k with - | - <;> simpa [hr] using ht

theorem run_block {s : State String}
    (hok : (∀ calls, s = .draining calls → calls = []) ∨
      ∀ k, e < k → k ≤ a → isReasoningAt items k) :
    run validId s ((List.range' (e + 1) (a - e)).flatMap (tokensAt items)) = some s := by
  rcases hok with hidle | hreasoning
  · refine run_said hidle fun t ht => ?_
    obtain ⟨k, -, -, rfl⟩ := h.mem_blockTokens hs ht
    split <;> simp
  · have hall : ∀ t ∈ (List.range' (e + 1) (a - e)).flatMap (tokensAt items), t = .reasoning := by
      intro t ht
      obtain ⟨k, hek, hka, rfl⟩ := h.mem_blockTokens hs ht
      rw [if_pos (hreasoning k hek hka)]
    rcases s with calls | calls
    · exact run_said (by simp) fun t ht => .inr (hall t ht)
    · exact run_draining_reasoning hall

theorem run_block_eq_none {calls : List String} (hne : calls ≠ [])
    (hek : e < k) (hka : k ≤ a) (hk : isReasoningAt items k = false) :
    run validId (.draining calls) ((List.range' (e + 1) (a - e)).flatMap (tokensAt items))
      = none := by
  rw [run_draining_said hne, if_pos]
  · refine mem_flatMap.mpr ⟨k, mem_range'_1.mpr ⟨hek, by omega⟩, ?_⟩
    simp [h.tokensAt_block hs hek hka, hk]
  · intro t ht
    obtain ⟨k, -, -, rfl⟩ := h.mem_blockTokens hs ht
    split <;> simp

include hp

theorem flatMap_tokensAt_span :
    (List.range' p (a + 1 - p) ++ spanOutputs items a T).flatMap (tokensAt items)
      = rowTokens (rowFrom items p (e + 1 - p)) ++
        (List.range' (e + 1) (a - e)).flatMap (tokensAt items) ++
        ((spanOutputs items a T).map (outputName items)).map .output := by
  have hpe := hs.start_le
  have hea := hs.last_le
  have hsplit := range'_append_of_le (show p ≤ e + 1 by omega) (Nat.add_le_add_right hea 1)
  rw [Nat.add_sub_add_right] at hsplit
  have hcalls : (List.range' p (e + 1 - p)).flatMap (tokensAt items)
      = rowTokens (rowFrom items p (e + 1 - p)) :=
    flatMap_tokensAt_calls fun c hc => call_of_mem_range' hs hc
  have houts : (spanOutputs items a T).flatMap (tokensAt items)
      = ((spanOutputs items a T).map (outputName items)).map .output := by
    refine h.flatMap_tokensAt_outputs fun o ho => ?_
    obtain ⟨⟨c, hc, -⟩, -⟩ := (h.mem_spanOutputs hp hs).mp ho
    rw [(outputName_eq hc).1]
    simp
  rw [flatMap_append, ← hsplit, flatMap_append, hcalls, houts]

/-- **Reading a group** leaves the calls open whose outputs it does not emit. -/
theorem run_span :
    (Fits items p e a →
      run validId (.draining []) ((List.range' p (a + 1 - p) ++ spanOutputs items a T).flatMap
        (tokensAt items)) = some (.draining (openCalls items p e a T))) ∧
    (¬ Fits items p e a →
      run validId (.draining []) ((List.range' p (a + 1 - p) ++ spanOutputs items a T).flatMap
        (tokensAt items)) = none) := by
  rw [h.flatMap_tokensAt_span hp hs, fits_iff hs.start_le, run_append, run_append]
  have hcall : ∀ c ∈ List.range' p (e + 1 - p), isCallAt items c = true := fun c hc =>
    call_of_mem_range' hs hc
  rw [openCalls]
  set row := rowFrom items p (e + 1 - p) with hrow
  have hvalid : ∀ x ∈ row, validId x.1 = true := by
    intro x hx
    obtain ⟨c, hc, rfl⟩ := mem_map.mp hx
    simpa [validId] using h.callId_ne (callIdAt_eq_callName (hcall c hc))
  have hnodup : (row.map (·.1)).Nodup := by
    rw [hrow, rowFrom, map_map]
    exact h.nodup_map_callName nodup_range' hcall
  obtain ⟨horderly, hlast, hbad⟩ := run_rowTokens hvalid hnodup
  have houts : run validId (.draining (awaited row))
      (((spanOutputs items a T).map (outputName items)).map .output)
        = some (.draining ((awaited row).diff ((spanOutputs items a T).map (outputName items)))) :=
    run_outputs (h.subperm_awaited hp hs)
  by_cases hdrop : Orderly row.dropLast
  swap
  · refine ⟨fun hfits => absurd hfits.1 hdrop, fun _ => ?_⟩
    rw [hbad hdrop]
    rfl
  by_cases hall : Orderly row
  · refine ⟨fun _ => ?_, fun hfits => absurd ⟨hdrop, .inl hall⟩ hfits⟩
    rw [horderly hall, Option.bind_some, opening]
    split
    · next hnil =>
      -- no call of the group has an output
      rw [h.run_block hs (.inl fun calls hcalls => by cases hcalls; rfl)]
      rwa [hnil] at houts ⊢
    · next hne =>
      obtain ⟨id, hid⟩ := exists_mem_of_ne_nil _ hne
      obtain ⟨c, hpc, hce, hans, -⟩ := mem_awaited_rowFrom.mp hid
      obtain ⟨o, ho⟩ := (h.answeredAt_iff (hs.calls c hpc (by omega))).mp hans
      rw [h.run_block hs (.inl fun calls hcalls => by cases hcalls), Option.bind_some,
        run_collecting_outputs, houts]
      simpa using h.spanOutputs_ne_nil hp hs ho hpc (by omega)
  · obtain ⟨hrun, hne⟩ := hlast hall hdrop
    rw [hrun, Option.bind_some]
    refine ⟨fun hfits => ?_, fun hfits => ?_⟩
    · rw [h.run_block hs (.inr (hfits.2.resolve_left hall)), Option.bind_some, houts]
    · have hnot : ¬ ∀ k, e < k → k ≤ a → isReasoningAt items k = true := fun hreasoning =>
        hfits ⟨hdrop, .inr hreasoning⟩
      push Not at hnot
      obtain ⟨k, hek, hka, hk⟩ := hnot
      rw [h.run_block_eq_none hs hne hek hka (by simpa using hk)]
      rfl

end ToolHistory

end Group

end Normalize

end CodexPlus
