/-
CodexPlus/BarrierClose.lean

What closing the write barrier is for: after a flush every call that was open has
one output behind it, and recording never drops the output of an open call.

The manager finds both by call id alone.  A flush builds the output of a call from the
first recorded item with its id, a batch drops an output whose id an earlier flush has
closed.  So the guarantee is one for runs in which an id is not used again while it is
open or before the next flush after it was closed by one (`RunDistinct`); `Tidy` is what
then holds between two operations.
-/
import CodexPlus.BarrierOrder
import Mathlib.Data.List.Nodup

namespace CodexPlus

open List ContextManager

open OpenCalls

namespace ContextManager

/-! ### Runs under either policy -/

/-- The entry points of the barrier, with the policy of the provider. -/
inductive BarrierOp where
  | record (slots : List (Option ResponseItemEnvelope)) (policy : TruncationPolicy)
      (barrierPolicy : ToolPairBarrierPolicy)
  | flush (policy : TruncationPolicy)

variable (env : RecorderEnv) (m : ContextManager)

def applyOp : BarrierOp → ContextManager
  | .record slots policy barrierPolicy =>
    (m.recordAnnotatedItemsWithBarrierPolicy env slots policy barrierPolicy).1
  | .flush policy => (m.flushToolPairBarrier env policy).1

def runOps (ops : List BarrierOp) : ContextManager := ops.foldl (applyOp env) .new

/-! ### What closing has to do -/

/-- The output answers one of the calls: it names it, or it has an empty id and some call is open. -/
def AnswersOpen (openCalls : List String) (item : ResponseItem) : Prop :=
  ∃ callId, item.outputCallId = some callId ∧
    (callId ∈ openCalls ∨ callId = "" ∧ openCalls ≠ [])

/-- The outputs of a call that stand behind position `i`. -/
def outputsBehind (items : List ResponseItemEnvelope) (i : ℕ) (callId : String) : ℕ :=
  (items.drop (i + 1)).countP fun e => e.item.outputCallId == some callId

/-- **A flush leaves no call open and one output behind each call that was; a batch keeps the outputs
of open calls.** -/
def StepCloses : BarrierOp → Prop
  | .record slots policy barrierPolicy => ∀ k e, slots[k]? = some (some e) →
      AnswersOpen (m.openBefore slots k) e.item →
      (m.recordAnnotatedItemsWithBarrierPolicy env slots policy barrierPolicy).2.2[k]? = some (some e)
  | .flush policy => (m.flushToolPairBarrier env policy).1.openToolCalls = [] ∧
      ∀ p ∈ waitingAt (m.items.map (·.mark)),
        outputsBehind (m.flushToolPairBarrier env policy).1.items p.1 p.2 = 1

/-! ### When it does -/

/-- A call is recorded under an id that is not empty, not open, and not closed by the last flush. -/
def BatchDistinct (slots : List (Option ResponseItemEnvelope)) : Prop :=
  ∀ k e callId, slots[k]? = some (some e) → e.mark = .opens callId →
    callId ≠ "" ∧ callId ∉ m.openBefore slots k ∧ callId ∉ m.synthesizedToolCalls

def StepDistinct : BarrierOp → Prop
  | .record slots _ _ => m.BatchDistinct slots
  | .flush _ => m.Closable

/-- Every step of the run meets its condition in the state it starts from. -/
def RunDistinct (ops : List BarrierOp) : Prop :=
  ∀ before op after, ops = before ++ op :: after → (runOps env before).StepDistinct op

/-- What holds between two operations. -/
structure Tidy (m : ContextManager) : Prop where
  waiting_eq : waiting (m.items.map (·.mark)) = m.openToolCalls
  distinct : Distinct (m.items.map (·.mark))
  named : ∀ callId ∈ m.openToolCalls, callId ≠ "" ∧ callId ∉ m.synthesizedToolCalls
  synthesizedNamed : "" ∉ m.synthesizedToolCalls
  queueInert : ∀ d ∈ m.deferredUserContext, d.envelope.mark = .inert

end ContextManager

/-! ### Items -/

variable {callId : String}

open ResponseItemEnvelope

section Items

variable {e : ResponseItemEnvelope}

theorem isApiMessage_of_mark (h : e.mark ≠ .inert) : e.item.isApiMessage e.metadata := by
  rcases e with ⟨item, metadata⟩
  cases item <;> first | rfl | exact absurd rfl h

theorem mark_of_gatedContext {policy : ToolPairBarrierPolicy} (h : e.item.isBarrierGatedContext policy) :
    e.mark = .inert := by
  rcases e with ⟨item, metadata⟩
  cases policy <;> cases item <;> first | rfl | cases h

open ResponseItem

/-- An output that names its call closes it. -/
theorem mark_closes_of_output (hne : callId ≠ "")
    (h : e.item.outputCallId = some callId) : e.mark = .closes callId := by
  rcases e with ⟨item, metadata⟩
  cases item <;> simp_all [outputCallId, mark, pairMark,
    toolPairCallId, isToolCallItem, isToolOutputItem]

theorem output_of_mark_closes (h : e.mark = .closes callId) :
    e.item.outputCallId = some callId := by
  rcases e with ⟨item, metadata⟩
  cases item
  case functionCallOutput _ id _ _ _ _ | toolSearchOutput _ id _ _ _ _ =>
    rcases id with - | id
    · cases h
    rcases eq_or_ne id "" with rfl | hne
    · cases h
    · rw [mark_closes_of_output hne rfl] at h
      cases h
      rfl
  case customToolCallOutput _ id _ _ _ =>
    rcases eq_or_ne id "" with rfl | hne
    · cases h
    · rw [mark_closes_of_output hne rfl] at h
      cases h
      rfl
  case toolSearchCall _ id _ _ | localShellCall _ id _ => rcases id with - | id <;> cases h
  all_goals cases h

theorem outputCallId_of_mark_inert (h : e.mark = .inert) : e.item.outputCallId = none := by
  rcases hid : e.item.outputCallId with - | callId
  · rfl
  rcases e with ⟨item, metadata⟩
  cases item <;> simp_all [outputCallId, mark, pairMark,
    toolPairCallId, isToolCallItem, isToolOutputItem]
  all_goals split at h <;> cases h

end Items

/-! ### Recording -/

variable {openCalls : List String}

theorem mem_of_mem_step {mark : Mark String}
    (h : callId ∈ step openCalls mark) : callId ∈ openCalls ∨ mark = .opens callId := by
  cases mark with
  | opens =>
    rcases mem_append.mp h with h | h
    · exact .inl h
    · rw [mem_singleton.mp h]
      exact .inr rfl
  | closes => exact .inl (mem_of_mem_erase h)
  | closesOldest => exact .inl (mem_of_mem_tail h)
  | inert => exact .inl h

variable {e : ResponseItemEnvelope}

namespace ContextManager

variable {env : RecorderEnv} {m m' : ContextManager} (env)

/-- The marks after an item was recorded, or passed over by the recorder. -/
theorem recordBarrierItem_marks (m : ContextManager) (e : ResponseItemEnvelope)
    (policy : TruncationPolicy) :
    (m.recordBarrierItem env e policy).items.map (·.mark) = m.items.map (·.mark) ++ [e.mark] ∨
      e.mark = .inert ∧ (m.recordBarrierItem env e policy).items = m.items := by
  rcases hapi : e.item.isApiMessage e.metadata with - | -
  · refine .inr ⟨?_, by simp [recordBarrierItem, hapi]⟩
    by_contra hmark
    rw [isApiMessage_of_mark hmark] at hapi
    cases hapi
  · refine .inl ?_
    simp [recordBarrierItem, hapi, processed_mark]

/-- One item, whose call opens under a new id. -/
theorem Tidy.recorded (h : Tidy m) (env : RecorderEnv) (policy : TruncationPolicy)
    (hnew : ∀ callId, e.mark = .opens callId →
      callId ≠ "" ∧ callId ∉ m.openToolCalls ∧ callId ∉ m.synthesizedToolCalls) :
    Tidy { m.recordBarrierItem env e policy with openToolCalls := step m.openToolCalls e.mark } := by
  have hnamed : ∀ callId ∈ step m.openToolCalls e.mark,
      callId ≠ "" ∧ callId ∉ m.synthesizedToolCalls := by
    intro callId hmem
    rcases mem_of_mem_step hmem with hmem | hmark
    · exact h.named callId hmem
    · exact ⟨(hnew callId hmark).1, (hnew callId hmark).2.2⟩
  rcases recordBarrierItem_marks env m e policy with hmarks | ⟨hmark, hitems⟩
  · refine ⟨?_, ?_, by simpa using hnamed, by simpa using h.synthesizedNamed,
      by simpa using h.queueInert⟩
    · rw [hmarks, waiting_concat, h.waiting_eq]
    · rw [hmarks]
      refine h.distinct.concat fun callId hmark => ?_
      rw [h.waiting_eq]
      exact (hnew callId hmark).2.1
  · refine ⟨?_, ?_, by simpa using hnamed, by simpa using h.synthesizedNamed,
      by simpa using h.queueInert⟩
    · rw [hitems, h.waiting_eq, hmark]
      rfl
    · rw [hitems]
      exact h.distinct

/-- Only items that open and close nothing were recorded. -/
structure RecordsInert (m m' : ContextManager) : Prop where
  openToolCalls : m'.openToolCalls = m.openToolCalls
  synthesizedToolCalls : m'.synthesizedToolCalls = m.synthesizedToolCalls
  deferredUserContext : m'.deferredUserContext = m.deferredUserContext
  items : ∃ extra, m'.items = m.items ++ extra ∧ ∀ e ∈ extra, e.mark = .inert

theorem recordBarrierItem_inert (m : ContextManager)
    (he : e.mark = .inert) (policy : TruncationPolicy) :
    RecordsInert m (m.recordBarrierItem env e policy) := by
  refine ⟨by simp, by simp, by simp, ?_⟩
  rw [recordBarrierItem]
  split
  · refine ⟨[processed env e policy], rfl, fun e' he' => ?_⟩
    rw [mem_singleton.mp he', processed_mark, he]
  · exact ⟨[], (append_nil _).symm, by simp⟩

theorem RecordsInert.trans {m'' : ContextManager} (h : RecordsInert m m') (h' : RecordsInert m' m'') :
    RecordsInert m m'' := by
  obtain ⟨extra, hitems, hextra⟩ := h.items
  obtain ⟨extra', hitems', hextra'⟩ := h'.items
  refine ⟨h'.openToolCalls.trans h.openToolCalls, h'.synthesizedToolCalls.trans h.synthesizedToolCalls,
    h'.deferredUserContext.trans h.deferredUserContext, extra ++ extra', ?_, ?_⟩
  · rw [hitems', hitems, append_assoc]
  · intro e he
    exact (mem_append.mp he).elim (hextra e) (hextra' e)

theorem foldl_record_inert (queue : List DeferredUserContext)
    (hqueue : ∀ d ∈ queue, d.envelope.mark = .inert) (m : ContextManager) :
    RecordsInert m (queue.foldl (fun m d => m.recordBarrierItem env d.envelope d.policy) m) := by
  induction queue generalizing m with
  | nil => exact ⟨rfl, rfl, rfl, [], (append_nil _).symm, by simp⟩
  | cons d _ ih =>
    obtain ⟨hd, hqueue⟩ := forall_mem_cons.mp hqueue
    exact (recordBarrierItem_inert env m hd d.policy).trans (ih hqueue _)

variable {extra log : List (Mark String)}

theorem waiting_append_inert (hextra : ∀ mark ∈ extra, mark = .inert) :
    waiting (log ++ extra) = waiting log := by
  rw [waiting, foldl_append]
  induction extra with
  | nil => rfl
  | cons _ _ ih =>
    obtain ⟨hmark, hextra⟩ := forall_mem_cons.mp hextra
    rw [hmark]
    exact ih hextra

/-- Marks that open nothing. -/
theorem distinct_append (h : Distinct log)
    (hextra : ∀ mark ∈ extra, ∀ callId, mark ≠ .opens callId) : Distinct (log ++ extra) := by
  induction extra using List.reverseRecOn with
  | nil => rwa [append_nil]
  | append_singleton _ mark ih =>
    rw [← append_assoc]
    refine (ih fun mark' hmark' => hextra mark' (mem_append_left _ hmark')).concat ?_
    intro callId heq
    exact absurd heq (hextra mark (mem_append_right _ (mem_singleton.mpr rfl)) callId)

theorem Tidy.recordsInert (h : Tidy m) (hrec : RecordsInert m m') : Tidy m' := by
  obtain ⟨extra, hitems, hextra⟩ := hrec.items
  have hmarks : ∀ mark ∈ extra.map (·.mark), mark = .inert := by
    intro mark hmark
    obtain ⟨e, he, rfl⟩ := mem_map.mp hmark
    exact hextra e he
  refine ⟨?_, ?_, ?_, ?_, ?_⟩
  · rw [hitems, map_append, waiting_append_inert hmarks, h.waiting_eq, hrec.openToolCalls]
  · rw [hitems, map_append]
    refine distinct_append h.distinct fun mark hmark callId => ?_
    rw [hmarks mark hmark]
    exact fun heq => by cases heq
  · rw [hrec.openToolCalls, hrec.synthesizedToolCalls]
    exact h.named
  · rw [hrec.synthesizedToolCalls]
    exact h.synthesizedNamed
  · rw [hrec.deferredUserContext]
    exact h.queueInert

/-- Releasing the queue. -/
theorem releaseDeferred_inert (hqueue : ∀ d ∈ m.deferredUserContext, d.envelope.mark = .inert) :
    RecordsInert { m with deferredUserContext := [] } (m.releaseDeferred env) :=
  foldl_record_inert env _ hqueue _

theorem Tidy.emptyQueue (h : Tidy m) : Tidy { m with deferredUserContext := [] } :=
  ⟨h.waiting_eq, h.distinct, h.named, h.synthesizedNamed, by simp⟩

theorem Tidy.releaseDeferred (h : Tidy m) (env : RecorderEnv) : Tidy (m.releaseDeferred env) :=
  h.emptyQueue.recordsInert (releaseDeferred_inert env h.queueInert)

end ContextManager

/-! ### One batch -/

/-- The loop invariant: `done` are the slots handled so far of a batch that started from `m`. -/
structure BatchTidy (m : ContextManager) (done : List (Option ResponseItemEnvelope)) (b : Batch) :
    Prop where
  manager : b.manager.Tidy
  nowInert : ∀ d ∈ b.deferredNow, d.envelope.mark = .inert
  openToolCalls : b.manager.openToolCalls = m.openBefore done done.length
  synthesizedToolCalls : b.manager.synthesizedToolCalls = m.synthesizedToolCalls

section Batch

variable {env : RecorderEnv} {m : ContextManager} {done : List (Option ResponseItemEnvelope)} {b : Batch}

section

variable (h : BatchTidy m done b)
include h

theorem BatchTidy.releaseIfClosed (env : RecorderEnv) :
    BatchTidy m done (b.releaseIfClosed env) := by
  rw [Batch.releaseIfClosed]
  split
  · have hrec := releaseDeferred_inert env h.manager.queueInert
    exact ⟨h.manager.releaseDeferred env, h.nowInert, hrec.openToolCalls.trans h.openToolCalls,
      hrec.synthesizedToolCalls.trans h.synthesizedToolCalls⟩
  · exact h

theorem BatchTidy.isLateOutput_eq (item : ResponseItem) :
    b.manager.isLateOutput item = m.isLateOutput item := by
  rw [isLateOutput, isLateOutput, h.synthesizedToolCalls]

/-- An item that is recorded. -/
theorem BatchTidy.record (env : RecorderEnv) (hlate : m.isLateOutput e.item = false)
    (hnew : ∀ callId, e.mark = .opens callId →
      callId ≠ "" ∧ callId ∉ b.manager.openToolCalls ∧ callId ∉ b.manager.synthesizedToolCalls)
    (policy : TruncationPolicy) :
    BatchTidy m (done ++ [some e])
      (Batch.settle env
        { b with
          manager := b.manager.recordBarrierItem env e policy
          sealed := b.sealed ++ [e] } e.item) := by
  have hafter : step b.manager.openToolCalls e.item.pairMark
      = m.openBefore (done ++ [some e]) (done ++ [some e]).length := by
    rw [openBefore_concat, ← h.openToolCalls, openAfter, hlate]
    rfl
  set recorded : Batch :=
    { b with
      manager := b.manager.recordBarrierItem env e policy
      sealed := b.sealed ++ [e] } with hrec
  -- the recorded batch with the open calls the item leaves
  have hstepped : BatchTidy m (done ++ [some e])
      { recorded with
        manager :=
          { recorded.manager with
            openToolCalls := step recorded.manager.openToolCalls e.item.pairMark } } := by
    refine ⟨?_, h.nowInert, ?_, by simpa [hrec] using h.synthesizedToolCalls⟩
    · simpa [hrec, mark] using h.manager.recorded env policy hnew
    · simpa [hrec] using hafter
  rcases settle_cases env recorded e.item with ⟨hmark, heq⟩ | ⟨callId, hmark, heq⟩ | heq
  · rw [heq]
    rw [hmark] at hstepped
    exact hstepped
  · rw [heq]
    rw [hmark] at hstepped
    exact hstepped
  · rw [heq]
    exact hstepped.releaseIfClosed env

/-- A slot that leaves the batch as it was. -/
theorem BatchTidy.skip {slot : Option ResponseItemEnvelope}
    (hopen : m.openAfter b.manager.openToolCalls slot = b.manager.openToolCalls) :
    BatchTidy m (done ++ [slot]) b :=
  ⟨h.manager, h.nowInert, by rw [openBefore_concat, ← h.openToolCalls, hopen], h.synthesizedToolCalls⟩

end

/-- **One slot.**  What is no late output and no gated context stays in its slot. -/
theorem recordSlot_tidy (env : RecorderEnv) (h : BatchTidy m done b) (slot : Option ResponseItemEnvelope)
    (policy : TruncationPolicy) (barrierPolicy : ToolPairBarrierPolicy)
    (hnew : ∀ e callId, slot = some e → e.mark = .opens callId →
      callId ≠ "" ∧ callId ∉ b.manager.openToolCalls ∧ callId ∉ b.manager.synthesizedToolCalls) :
    BatchTidy m (done ++ [slot]) (recordSlot env policy barrierPolicy b slot).1 ∧
      ∀ e, slot = some e → e.mark ≠ .inert → m.isLateOutput e.item = false →
        (recordSlot env policy barrierPolicy b slot).2 = some e := by
  rcases slot with - | e
  · refine ⟨h.skip rfl, ?_⟩
    intro e he
    cases he
  rcases hlate : m.isLateOutput e.item with - | -
  · by_cases hgated : (e.item.isBarrierGatedContext barrierPolicy && !b.manager.openToolCalls.isEmpty) = true
    · -- gated context waits; it opens and closes nothing
      have hinert := mark_of_gatedContext ((Bool.and_eq_true _ _).mp hgated).1
      have hslot : recordSlot env policy barrierPolicy b (some e) =
          ({ b with deferredNow := b.deferredNow ++ [⟨e, policy⟩] }, none) := by
        simp [recordSlot, h.isLateOutput_eq, hlate, hgated]
      rw [hslot]
      refine ⟨⟨h.manager, ?_, ?_, h.synthesizedToolCalls⟩, ?_⟩
      · intro d hd
        rcases mem_append.mp hd with hd | hd
        · exact h.nowInert d hd
        · rw [mem_singleton.mp hd]
          exact hinert
      · rw [openBefore_concat, ← h.openToolCalls, openAfter, hlate, hinert]
        rfl
      · intro e' he' hmark
        cases he'
        exact absurd hinert hmark
    · have hslot : recordSlot env policy barrierPolicy b (some e) =
          (Batch.settle env
            { b with
              manager := b.manager.recordBarrierItem env e policy
              sealed := b.sealed ++ [e] } e.item, some e) := by
        simp [recordSlot, h.isLateOutput_eq, hlate, hgated]
      rw [hslot]
      refine ⟨h.record env hlate (fun callId => hnew e callId rfl) policy, ?_⟩
      intro e' he' _ _
      rw [he']
  · have hslot : recordSlot env policy barrierPolicy b (some e) = (b, none) := by
      simp [recordSlot, h.isLateOutput_eq, hlate]
    rw [hslot]
    refine ⟨h.skip (by simp [openAfter, hlate]), ?_⟩
    intro e' he' _ hnot
    cases he'
    rw [hlate] at hnot
    cases hnot

theorem openBefore_append (m : ContextManager) (done rest : List (Option ResponseItemEnvelope)) {k : ℕ}
    (h : k ≤ done.length) : m.openBefore (done ++ rest) k = m.openBefore done k := by
  rw [openBefore, openBefore, take_append_of_le_length h]

/-- **The rest of a batch**: the invariant, and the outputs of open calls stay in their slots. -/
theorem recordSlots_tidy (env : RecorderEnv) (h : BatchTidy m done b)
    (slots : List (Option ResponseItemEnvelope)) (policy : TruncationPolicy)
    (barrierPolicy : ToolPairBarrierPolicy) (hok : m.BatchDistinct (done ++ slots)) :
    BatchTidy m (done ++ slots) (recordSlots env policy barrierPolicy b slots).1 ∧
      ∀ k e, slots[k]? = some (some e) →
        ContextManager.AnswersOpen (m.openBefore (done ++ slots) (done.length + k)) e.item →
        (recordSlots env policy barrierPolicy b slots).2[k]? = some (some e) := by
  induction slots generalizing done b with
  | nil =>
    refine ⟨by rw [append_nil]; exact h, fun k e hk => ?_⟩
    cases hk
  | cons slot slots ih =>
    have hat : (done ++ slot :: slots)[done.length]? = some slot := by
      rw [getElem?_append_right le_rfl, Nat.sub_self]
      rfl
    have hopen : b.manager.openToolCalls = m.openBefore (done ++ slot :: slots) done.length := by
      rw [openBefore_append m done _ le_rfl]
      exact h.openToolCalls
    have hnew : ∀ e callId, slot = some e → e.mark = .opens callId →
        callId ≠ "" ∧ callId ∉ b.manager.openToolCalls ∧ callId ∉ b.manager.synthesizedToolCalls := by
      intro e callId hslot hmark
      rw [hopen, h.synthesizedToolCalls]
      exact hok done.length e callId (by rw [hat, hslot]) hmark
    obtain ⟨hslot, hkept⟩ := recordSlot_tidy env h slot policy barrierPolicy hnew
    have hsplit : done ++ slot :: slots = (done ++ [slot]) ++ slots := append_cons _ _ _
    rw [hsplit] at hok ⊢
    obtain ⟨hrest, hlater⟩ := ih hslot hok
    refine ⟨hrest, fun k e hk hanswers => ?_⟩
    rcases k with - | k
    · -- the output of an open call is not late: no open call was closed by a flush
      have heq : slot = some e := Option.some.inj hk
      rw [Nat.add_zero, ← hsplit, ← hopen] at hanswers
      obtain ⟨callId, hid, hcase⟩ := hanswers
      have hfresh : callId ∉ b.manager.synthesizedToolCalls := by
        rcases hcase with hmem | ⟨rfl, -⟩
        · exact (h.manager.named callId hmem).2
        · exact h.manager.synthesizedNamed
      refine congrArg some (hkept e heq ?_ ?_)
      · intro hinert
        rw [outputCallId_of_mark_inert hinert] at hid
        cases hid
      · rw [← h.isLateOutput_eq, isLateOutput]
        have hpair : e.item.toolPairCallId = some callId := by
          rcases e with ⟨item, metadata⟩
          cases item <;> first | exact hid | cases hid
        rw [hpair]
        simp [hfresh]
    · refine hlater k e hk ?_
      rw [length_append, length_singleton, Nat.add_assoc, Nat.add_comm 1 k]
      exact hanswers

end Batch

/-! ### The flush -/

namespace ContextManager

variable (env : RecorderEnv) {m : ContextManager}

/-- Closing calls that have a source records one output for each, in order. -/
theorem foldl_closeWithSynthetic_items (policy : TruncationPolicy)
    {r : ContextManager × List ResponseItemEnvelope} (hnamed : ∀ callId ∈ openCalls, callId ≠ "")
    (hsrc : ∀ callId ∈ openCalls, ∃ e ∈ r.1.items, IsSource callId e) :
    let r' := openCalls.foldl (closeWithSynthetic env policy) r
    (∃ outs : List ResponseItemEnvelope, r'.1.items = r.1.items ++ outs ∧
        outs.map (·.mark) = openCalls.map .closes) ∧
      r'.1.openToolCalls = r.1.openToolCalls ∧
      r'.1.deferredUserContext = r.1.deferredUserContext ∧
      r'.1.synthesizedToolCalls = openCalls.reverse ++ r.1.synthesizedToolCalls := by
  induction openCalls generalizing r with
  | nil => exact ⟨⟨[], (append_nil _).symm, rfl⟩, rfl, rfl, rfl⟩
  | cons callId _ ih =>
    obtain ⟨hname, hnamed⟩ := forall_mem_cons.mp hnamed
    obtain ⟨⟨e, he, hsource⟩, hsrc⟩ := forall_mem_cons.mp hsrc
    obtain ⟨out, hout, hgated, hmark⟩ := exists_syntheticOutputForCall env he hsource
    rw [if_neg hname] at hmark
    have hone : closeWithSynthetic env policy r callId =
        (({ r.1 with synthesizedToolCalls := callId :: r.1.synthesizedToolCalls
            } : ContextManager).recordBarrierItem env out policy, r.2 ++ [out]) := by
      simp only [closeWithSynthetic, hout]
    have hitems := recordBarrierItem_items_of_not_gated env
      { r.1 with synthesizedToolCalls := callId :: r.1.synthesizedToolCalls } hgated policy
    obtain ⟨⟨outs, houts, hmarks⟩, hopen, hqueue, hsynthesized⟩ :=
      ih (r := closeWithSynthetic env policy r callId) hnamed fun other hother => by
        obtain ⟨e', he', hsource'⟩ := hsrc other hother
        refine ⟨e', ?_, hsource'⟩
        rw [hone, hitems]
        exact mem_append_left _ he'
    rw [foldl_cons]
    refine ⟨⟨processed env out policy :: outs, ?_, ?_⟩, ?_, ?_, ?_⟩
    · rw [houts, hone, hitems, append_assoc]
      rfl
    · rw [map_cons, map_cons, hmarks, processed_mark, hmark]
    · rw [hopen, hone]
      simp
    · rw [hqueue, hone]
      simp
    · rw [hsynthesized, hone, reverse_cons]
      simp

theorem foldl_step_closes (openCalls : List String) :
    (openCalls.map Mark.closes).foldl step openCalls = [] := by
  induction openCalls with
  | nil => rfl
  | cons _ _ ih =>
    rw [map_cons, foldl_cons, step, erase_cons_head]
    exact ih

/-- **A flush**: what it leaves behind, and one output behind each call that was open. -/
theorem Tidy.flush (h : Tidy m) (hclosable : m.Closable) (env : RecorderEnv) (policy : TruncationPolicy) :
    Tidy (m.flushToolPairBarrier env policy).1 ∧ StepCloses env m (.flush policy) := by
  obtain ⟨⟨outs, houts, hmarks⟩, hopen, hqueue, hsynthesized⟩ :=
    foldl_closeWithSynthetic_items env policy
      (r := ({ m with synthesizedToolCalls := [], openToolCalls := [] }, []))
      (fun callId hmem => (h.named callId hmem).1) hclosable
  set r := m.openToolCalls.foldl (closeWithSynthetic env policy)
    ({ m with synthesizedToolCalls := [], openToolCalls := [] }, []) with hr
  have hitems : r.1.items = m.items ++ outs := houts
  have hempty : r.1.openToolCalls = [] := hopen
  have hclosed : Tidy r.1 := by
    refine ⟨?_, ?_, ?_, ?_, ?_⟩
    · rw [hitems, map_append, hmarks, waiting, foldl_append]
      show (m.openToolCalls.map Mark.closes).foldl step (waiting (m.items.map (·.mark))) = _
      rw [h.waiting_eq, foldl_step_closes, hempty]
    · rw [hitems, map_append, hmarks]
      refine distinct_append h.distinct fun mark hmark callId => ?_
      obtain ⟨id, -, rfl⟩ := mem_map.mp hmark
      exact fun heq => by cases heq
    · rw [hempty]
      intro callId hmem
      cases hmem
    · rw [hsynthesized]
      intro hmem
      rw [append_nil, mem_reverse] at hmem
      exact (h.named "" hmem).1 rfl
    · rw [hqueue]
      exact h.queueInert
  have hflush : (m.flushToolPairBarrier env policy).1 = r.1.releaseDeferred env := rfl
  have hrec := releaseDeferred_inert env hclosed.queueInert
  rw [StepCloses, hflush]
  refine ⟨hclosed.releaseDeferred env, hrec.openToolCalls.trans hempty, ?_⟩
  rintro ⟨i, callId⟩ hp
  obtain ⟨hlt, hnone⟩ := h.distinct.not_closes hp
  have hwaits : callId ∈ m.openToolCalls := by
    rw [← h.waiting_eq, ← waitingAt_map_snd]
    exact mem_map_of_mem hp
  have hname := (h.named callId hwaits).1
  rw [length_map] at hlt
  obtain ⟨extra, hextra, hinert⟩ := hrec.items
  -- behind the call: the rest of the history, the outputs of the flush, and released context
  have hdrop : (r.1.releaseDeferred env).items.drop (i + 1) = m.items.drop (i + 1) ++ (outs ++ extra) := by
    rw [hextra, show items { r.1 with deferredUserContext := [] } = m.items ++ outs from hitems,
      append_assoc, drop_append_of_le_length hlt]
  rw [outputsBehind, hdrop, countP_append, countP_append]
  have hbefore : (m.items.drop (i + 1)).countP (fun e => e.item.outputCallId == some callId) = 0 := by
    rw [countP_eq_zero]
    intro e he hid
    obtain ⟨j, hj⟩ := mem_iff_getElem?.mp he
    rw [getElem?_drop] at hj
    refine hnone (i + 1 + j) (by show i < i + 1 + j; omega) ?_
    rw [getElem?_map, hj, Option.map_some, mark_closes_of_output hname (by simpa using hid)]
  have hextra : extra.countP (fun e => e.item.outputCallId == some callId) = 0 := by
    rw [countP_eq_zero]
    intro e he hid
    rw [outputCallId_of_mark_inert (hinert e he)] at hid
    cases hid
  have hone : outs.countP (fun e => e.item.outputCallId == some callId) = 1 := by
    have hcount : outs.countP (fun e => e.item.outputCallId == some callId)
        = (outs.map (·.mark)).countP (· == .closes callId) := by
      rw [countP_map]
      refine countP_congr fun e _ => ?_
      show (e.item.outputCallId == some callId) = true ↔ (e.mark == .closes callId) = true
      rw [beq_iff_eq, beq_iff_eq]
      exact ⟨mark_closes_of_output hname, output_of_mark_closes⟩
    rw [hcount, hmarks, countP_map]
    have hnodup : m.openToolCalls.Nodup := h.waiting_eq ▸ h.distinct.nodup
    have heq : m.openToolCalls.countP ((· == Mark.closes callId) ∘ Mark.closes)
        = m.openToolCalls.count callId := by
      refine countP_congr fun id _ => ?_
      simp
    rw [heq]
    exact count_eq_one_of_mem hnodup hwaits
  rw [hbefore, hextra, hone]

/-! ### Whole runs -/

/-- **A batch** keeps the invariant and the outputs of open calls. -/
theorem Tidy.record (h : Tidy m) (env : RecorderEnv) {slots : List (Option ResponseItemEnvelope)}
    (hok : m.BatchDistinct slots) (policy : TruncationPolicy) (barrierPolicy : ToolPairBarrierPolicy) :
    Tidy (m.recordAnnotatedItemsWithBarrierPolicy env slots policy barrierPolicy).1 ∧
      StepCloses env m (.record slots policy barrierPolicy) := by
  have hstart : BatchTidy m [] (startBatch env m) := by
    have hfirst : BatchTidy m [] ⟨m, [], [], []⟩ := ⟨h, by simp, rfl, rfl⟩
    exact hfirst.releaseIfClosed env
  obtain ⟨hloop, hkept⟩ := recordSlots_tidy env hstart slots policy barrierPolicy hok
  set b := (recordSlots env policy barrierPolicy (startBatch env m) slots).1 with hb
  -- the batch hands its own queue over
  have hhanded : BatchTidy m slots
      { b with
        manager :=
          { b.manager with deferredUserContext := b.manager.deferredUserContext ++ b.deferredNow }
        deferredNow := [] } := by
    refine ⟨⟨hloop.manager.waiting_eq, hloop.manager.distinct, hloop.manager.named,
      hloop.manager.synthesizedNamed, ?_⟩, by simp, hloop.openToolCalls, hloop.synthesizedToolCalls⟩
    intro d hd
    exact (mem_append.mp hd).elim (hloop.manager.queueInert d) (hloop.nowInert d)
  refine ⟨(hhanded.releaseIfClosed env).manager, fun k e hk hanswers => ?_⟩
  refine hkept k e hk ?_
  rw [length_nil, Nat.zero_add]
  exact hanswers

theorem Tidy.new : Tidy .new := by
  refine ⟨rfl, ?_, by simp [ContextManager.new], by simp [ContextManager.new],
    by simp [ContextManager.new]⟩
  intro before callId hpre
  exact absurd (prefix_nil.mp hpre) (by simp)

theorem Tidy.apply (h : Tidy m) (env : RecorderEnv) {op : BarrierOp} (hok : m.StepDistinct op) :
    Tidy (m.applyOp env op) ∧ StepCloses env m op := by
  cases op with
  | record _ policy barrierPolicy => exact h.record env hok policy barrierPolicy
  | flush policy => exact h.flush hok env policy

theorem tidy_runOps {ops : List BarrierOp} (hok : RunDistinct env ops) : Tidy (runOps env ops) := by
  induction ops using List.reverseRecOn with
  | nil => exact Tidy.new
  | append_singleton ops op ih =>
    have hbefore : RunDistinct env ops := fun before op' after heq =>
      hok before op' (after ++ [op]) (by simp [heq])
    have hstep : (runOps env ops).StepDistinct op := hok ops op [] rfl
    have happly := ((ih hbefore).apply env hstep).1
    rw [runOps, foldl_append]
    exact happly

/-- **Closing the barrier closes every call**, at every step of a run that uses no call id again while
it is open or closed by the last flush, and whose open calls can be answered. -/
theorem barrier_closes_calls (env : RecorderEnv) (ops : List BarrierOp) (hok : RunDistinct env ops)
    (before : List BarrierOp) (op : BarrierOp) (after : List BarrierOp)
    (hops : ops = before ++ op :: after) : StepCloses env (runOps env before) op := by
  have hbefore : RunDistinct env before := fun before' op' after' heq =>
    hok before' op' (after' ++ op :: after) (by rw [hops, heq]; simp)
  exact ((tidy_runOps env hbefore).apply env (hok before op after hops)).2

/-- A call, and the flush that closes it. -/
theorem flushed_call_closed :
    StepCloses plainEnv (runOps plainEnv [.record [some (call "a")] (.bytes 1000) .adjacentResults])
      (.flush (.bytes 1000)) := by
  refine barrier_closes_calls plainEnv
    [.record [some (call "a")] (.bytes 1000) .adjacentResults, .flush (.bytes 1000)] ?_ _ _ [] rfl
  intro before op after hops
  rcases before with - | ⟨first, - | ⟨second, before⟩⟩
  · obtain ⟨rfl, -⟩ := List.cons.inj hops
    intro k e callId hk hmark
    rcases k with - | k
    · cases hk
      cases hmark
      decide
    · cases hk
  · obtain ⟨rfl, hrest⟩ := List.cons.inj hops
    obtain ⟨rfl, -⟩ := List.cons.inj hrest
    intro callId hmem
    refine ⟨call "a", by decide, ?_, fun c a heq => by cases heq⟩
    rw [mem_singleton.mp hmem]
    rfl
  · obtain ⟨-, hrest⟩ := List.cons.inj hops
    cases before <;> cases hrest

/-- A call under an id the last flush closed loses its output while it is open; and a local shell
call without an item id is closed without an output. -/
theorem reusedId_output_dropped :
    ((runOps plainEnv [.record [some (call "a")] (.bytes 1000) .adjacentResults, .flush (.bytes 1000),
          .record [some (call "a")] (.bytes 1000) .adjacentResults]).openToolCalls = ["a"] ∧
      ((runOps plainEnv [.record [some (call "a")] (.bytes 1000) .adjacentResults, .flush (.bytes 1000),
          .record [some (call "a")] (.bytes 1000) .adjacentResults]
        ).recordAnnotatedItemsWithBarrierPolicy plainEnv [some (output "a")] (.bytes 1000)
          .adjacentResults).2.2 = [none]) ∧
    (runOps plainEnv [.record [some (.new (.localShellCall none (some "a") "ls"))] (.bytes 1000)
        .adjacentResults, .flush (.bytes 1000)]).items = [.new (.localShellCall none (some "a") "ls")] := by
  decide

end ContextManager

end CodexPlus
