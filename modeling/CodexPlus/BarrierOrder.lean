/-
CodexPlus/BarrierOrder.lean

What the tool-pair write barrier is for: gated context is neither lost nor
repeated nor reordered, and none is recorded between a call and its output.

The loop invariant relates the recorded items, the queue that outlives a batch
and the queue of the batch at work (`BatchInv`); `recordSlot_inv` is the step,
`recordSlots_inv` the loop and `run_keepsContext` a whole run.
-/
import Mathlib.Data.List.ReduceOption
import CodexPlus.ToolPairBarrier

namespace CodexPlus

open List

open OpenCalls

/-! ### What a run has to keep -/

namespace ResponseItemEnvelope

variable (e : ResponseItemEnvelope)

def mark : Mark String := e.item.pairMark

def isGated : Bool := e.item.isBarrierGatedContext .adjacentResults

/-- Gated context that the recorder keeps. -/
def isAdmitted : Bool := e.isGated && e.item.isApiMessage e.metadata

end ResponseItemEnvelope

namespace ContextManager

/-- The gated items a run was given, in order. -/
def admitted (ops : List Op) : List ResponseItemEnvelope :=
  ops.flatMap fun
    | .record items _ => items.reduceOption.filter (·.isAdmitted)
    | .flush _ => []

/-- **Nothing is lost, repeated or out of order, and no gated item follows an unanswered call.** -/
structure KeepsContext (m : ContextManager) (given : List ResponseItemEnvelope) : Prop where
  order : m.items.filter (·.isGated)
    ++ (m.deferredUserContext.map (·.envelope)).filter (·.isAdmitted) = given
  paired : ∀ i e, m.items[i]? = some e → e.isGated →
    Answered ((m.items.take i).map (·.mark))

/-! ### When it is kept -/

variable (m : ContextManager)

/-- The open calls after one more slot of a batch that started from `m`. -/
def openAfter (openCalls : List String) : Option ResponseItemEnvelope → List String
  | none => openCalls
  | some e => if m.isLateOutput e.item then openCalls else step openCalls e.mark

/-- The calls that are open when a batch from `m` reaches its slot `k`. -/
def openBefore (slots : List (Option ResponseItemEnvelope)) (k : ℕ) : List String :=
  (slots.take k).foldl m.openAfter m.openToolCalls

/-- Once a gated item of the batch had to wait, no later one finds every call closed. -/
def BatchInOrder (slots : List (Option ResponseItemEnvelope)) : Prop :=
  ∀ i j e e', i < j → slots[i]? = some (some e) → slots[j]? = some (some e') →
    e.isAdmitted → e'.isAdmitted → m.openBefore slots i ≠ [] → m.openBefore slots j ≠ []

/-- The items a synthetic output for `callId` can be built from: any call with this id but a local
shell call without an item id. -/
def IsSource (callId : String) (e : ResponseItemEnvelope) : Prop :=
  e.item.toolCallId = some callId ∧ ∀ c a, e.item ≠ .localShellCall none c a

/-- Every open call has a recorded item its synthetic output can be built from. -/
def Closable : Prop :=
  ∀ callId ∈ m.openToolCalls, ∃ e ∈ m.items, IsSource callId e

def StepInOrder : Op → Prop
  | .record slots _ => m.BatchInOrder slots
  | .flush _ => m.Closable

/-- Every step of the run meets its condition in the state it starts from. -/
def RunInOrder (env : RecorderEnv) (ops : List Op) : Prop :=
  ∀ before op after, ops = before ++ op :: after → (run env before).StepInOrder op

end ContextManager

/-! ### Items -/

open ResponseItemEnvelope

open ResponseItem

section Items

variable (env : RecorderEnv) (e : ResponseItemEnvelope) (policy : TruncationPolicy)

@[simp] theorem processed_mark : (processed env e policy).mark = e.mark := by
  rcases e with ⟨item, metadata⟩
  cases item <;> rfl

@[simp] theorem processed_isGated : (processed env e policy).isGated = e.isGated := by
  rcases e with ⟨item, metadata⟩
  cases item <;> rfl

variable {e : ResponseItemEnvelope}

theorem processed_of_gated (h : e.isGated) (policy : TruncationPolicy) :
    processed env e policy = e := by
  rcases e with ⟨item, metadata⟩
  cases item <;> first | rfl | cases h

/-- Gated context neither opens nor closes a call. -/
theorem mark_of_gated (h : e.isGated) : e.mark = .inert := by
  rcases e with ⟨item, metadata⟩
  cases item <;> first | rfl | cases h

/-- Every item that is not gated is one the recorder keeps. -/
theorem isApiMessage_of_not_gated (h : e.isGated = false) : e.item.isApiMessage e.metadata := by
  rcases e with ⟨item, metadata⟩
  cases item
  case message id role content =>
    have hrole : role = "assistant" := by
      simpa [isGated, isBarrierGatedContext] using h
    simp [isApiMessage, hrole]
  all_goals first | rfl | cases h

end Items

/-! ### Recording -/

/-- Each gated item stands where no call waits for its output. -/
def Settled (items : List ResponseItemEnvelope) : Prop :=
  ∀ before e, before ++ [e] <+: items → e.isGated → waiting (before.map (·.mark)) = []

variable {e : ResponseItemEnvelope}

theorem Settled.concat {items : List ResponseItemEnvelope} (h : Settled items)
    (he : e.isGated → waiting (items.map (·.mark)) = []) :
    Settled (items ++ [e]) := by
  intro before e' hpre hgated
  rcases prefix_concat_iff.mp hpre with heq | hpre
  · obtain ⟨rfl, hlast⟩ := append_inj' heq rfl
    cases hlast
    exact he hgated
  · exact h before e' hpre hgated

variable {openCalls : List String}

namespace ContextManager

variable (env : RecorderEnv) (m : ContextManager) (e : ResponseItemEnvelope)
  (policy : TruncationPolicy)

@[simp] theorem recordBarrierItem_openToolCalls :
    (m.recordBarrierItem env e policy).openToolCalls = m.openToolCalls := by
  unfold recordBarrierItem; split <;> rfl

@[simp] theorem recordBarrierItem_deferredUserContext :
    (m.recordBarrierItem env e policy).deferredUserContext = m.deferredUserContext := by
  unfold recordBarrierItem; split <;> rfl

@[simp] theorem recordBarrierItem_synthesizedToolCalls :
    (m.recordBarrierItem env e policy).synthesizedToolCalls = m.synthesizedToolCalls := by
  unfold recordBarrierItem; split <;> rfl

variable {e : ResponseItemEnvelope}

/-- Gated context is recorded as it is, or not at all. -/
theorem recordBarrierItem_items_of_gated (h : e.isGated) (policy : TruncationPolicy) :
    (m.recordBarrierItem env e policy).items = m.items ++ [e].filter (·.isAdmitted) := by
  rcases hapi : e.item.isApiMessage e.metadata with - | -
  · simp [recordBarrierItem, hapi, isAdmitted]
  · simp [recordBarrierItem, hapi, isAdmitted, h, processed_of_gated env h]

theorem recordBarrierItem_items_of_not_gated (h : e.isGated = false) (policy : TruncationPolicy) :
    (m.recordBarrierItem env e policy).items = m.items ++ [processed env e policy] := by
  simp [recordBarrierItem, isApiMessage_of_not_gated h]

/-- The recorded items are settled and the open calls are those that wait. -/
structure Paired (items : List ResponseItemEnvelope) (openCalls : List String) : Prop where
  waiting_eq : waiting (items.map (·.mark)) = openCalls
  settled : Settled items

variable {env m}

/-- Gated context recorded while no call is open. -/
theorem Paired.record_gated (h : Paired m.items openCalls) (hopen : openCalls = []) (he : e.isGated)
    (policy : TruncationPolicy) :
    Paired (m.recordBarrierItem env e policy).items openCalls := by
  rw [recordBarrierItem_items_of_gated env m he]
  rcases hadm : e.isAdmitted with - | -
  · simpa [hadm] using h
  have hkept : [e].filter (·.isAdmitted) = [e] := by simp [hadm]
  rw [hkept]
  refine ⟨?_, h.settled.concat fun _ => h.waiting_eq.trans hopen⟩
  rw [map_append, map_singleton, waiting_concat, h.waiting_eq, mark_of_gated he]
  rfl

/-- Any other item recorded: the calls that wait change as the item says. -/
theorem Paired.record_not_gated (h : Paired m.items openCalls) (he : e.isGated = false) (policy : TruncationPolicy) :
    Paired (m.recordBarrierItem env e policy).items (step openCalls e.mark) := by
  rw [recordBarrierItem_items_of_not_gated env m he]
  refine ⟨?_, h.settled.concat fun hg => ?_⟩
  · rw [map_append, map_singleton, waiting_concat, h.waiting_eq, processed_mark]
  · rw [processed_isGated, he] at hg
    cases hg

/-- What recording a queue of gated context does. -/
structure Released (m m' : ContextManager) (queue : List DeferredUserContext) : Prop where
  openToolCalls : m'.openToolCalls = m.openToolCalls
  deferredUserContext : m'.deferredUserContext = m.deferredUserContext
  synthesizedToolCalls : m'.synthesizedToolCalls = m.synthesizedToolCalls
  gated : m'.items.filter (·.isGated)
    = m.items.filter (·.isGated) ++ (queue.map (·.envelope)).filter (·.isAdmitted)
  paired : Paired m.items [] → Paired m'.items []

theorem foldl_recordBarrierItem_released (queue : List DeferredUserContext)
    (hqueue : ∀ d ∈ queue, d.envelope.isGated) (m : ContextManager) :
    Released m (queue.foldl (fun m d => m.recordBarrierItem env d.envelope d.policy) m) queue := by
  induction queue generalizing m with
  | nil => exact ⟨rfl, rfl, rfl, by simp, id⟩
  | cons d _ ih =>
    obtain ⟨hd, hqueue⟩ := forall_mem_cons.mp hqueue
    have hrest := ih hqueue (m.recordBarrierItem env d.envelope d.policy)
    rw [foldl_cons]
    refine ⟨by simpa using hrest.openToolCalls, by simpa using hrest.deferredUserContext,
      by simpa using hrest.synthesizedToolCalls, ?_, fun h => hrest.paired (h.record_gated rfl hd _)⟩
    have hfilter : ([d.envelope].filter (·.isAdmitted)).filter (·.isGated)
        = [d.envelope].filter (·.isAdmitted) := by
      rcases hadm : d.envelope.isAdmitted with - | - <;> simp [hadm, hd]
    rw [hrest.gated, recordBarrierItem_items_of_gated env m hd, filter_append, hfilter,
      append_assoc, ← filter_append]
    rfl

/-- Releasing the queue. -/
theorem releaseDeferred_released (env : RecorderEnv)
    (hqueue : ∀ d ∈ m.deferredUserContext, d.envelope.isGated) :
    Released { m with deferredUserContext := [] } (m.releaseDeferred env) m.deferredUserContext :=
  foldl_recordBarrierItem_released _ hqueue _

end ContextManager

/-! ### One batch -/

variable {slots : List (Option ResponseItemEnvelope)}

open ContextManager

open Batch

section Batch

variable {env : RecorderEnv}

/-- The gated items a batch has in hand: recorded, queued by earlier batches, queued by it. -/
def Batch.held (b : Batch) : List ResponseItemEnvelope :=
  b.manager.items.filter (·.isGated)
    ++ (b.manager.deferredUserContext.map (·.envelope)).filter (·.isAdmitted)
    ++ (b.deferredNow.map (·.envelope)).filter (·.isAdmitted)

/-- The part of the loop invariant that every release of the queue keeps. -/
structure Batch.Sound (b : Batch) (given : List ResponseItemEnvelope) : Prop where
  paired : ContextManager.Paired b.manager.items b.manager.openToolCalls
  queueGated : ∀ d ∈ b.manager.deferredUserContext, d.envelope.isGated
  nowGated : ∀ d ∈ b.deferredNow, d.envelope.isGated
  held : b.held = given

/-- What a release of the queue leaves as it was. -/
structure Batch.SameCalls (b b' : Batch) : Prop where
  openToolCalls : b'.manager.openToolCalls = b.manager.openToolCalls
  synthesizedToolCalls : b'.manager.synthesizedToolCalls = b.manager.synthesizedToolCalls
  deferredNow : b'.deferredNow = b.deferredNow

theorem Batch.Sound.releaseIfClosed {b : Batch} {given : List ResponseItemEnvelope}
    (h : b.Sound given) (env : RecorderEnv) :
    (b.releaseIfClosed env).Sound given ∧ b.SameCalls (b.releaseIfClosed env) ∧
      ((b.releaseIfClosed env).manager.openToolCalls = [] →
        (b.releaseIfClosed env).manager.deferredUserContext = []) := by
  unfold Batch.releaseIfClosed
  split
  · next hc =>
    obtain ⟨hopen, -⟩ := (Bool.and_eq_true _ _).mp hc
    have hopen : b.manager.openToolCalls = [] := List.isEmpty_iff.mp hopen
    have hr := releaseDeferred_released env h.queueGated
    refine ⟨⟨?_, ?_, h.nowGated, ?_⟩, ⟨hr.openToolCalls, hr.synthesizedToolCalls, rfl⟩,
      fun _ => hr.deferredUserContext⟩
    · have hp := h.paired
      rw [hopen] at hp
      rw [hr.openToolCalls.trans hopen]
      exact hr.paired hp
    · rw [hr.deferredUserContext]
      simp
    · rw [← h.held]
      simp only [Batch.held]
      rw [hr.gated, hr.deferredUserContext]
      simp
  · next hc =>
    refine ⟨h, ⟨rfl, rfl, rfl⟩, fun hopen => ?_⟩
    simpa [hopen] using hc

/-- The loop invariant: `done` are the slots handled so far of a batch that started from `m`. -/
structure BatchInv (m : ContextManager) (given : List ResponseItemEnvelope)
    (done : List (Option ResponseItemEnvelope)) (b : Batch) : Prop where
  sound : b.Sound (given ++ done.reduceOption.filter (·.isAdmitted))
  released : b.manager.openToolCalls = [] → b.manager.deferredUserContext = []
  openToolCalls : b.manager.openToolCalls = m.openBefore done done.length
  synthesizedToolCalls : b.manager.synthesizedToolCalls = m.synthesizedToolCalls
  waited : (b.deferredNow.map (·.envelope)).filter (·.isAdmitted) ≠ [] →
    ∃ i e, done[i]? = some (some e) ∧ e.isAdmitted ∧ m.openBefore done i ≠ []

variable {m : ContextManager} {given : List ResponseItemEnvelope}
  {done : List (Option ResponseItemEnvelope)} {b : Batch}

theorem openBefore_concat (m : ContextManager) (done : List (Option ResponseItemEnvelope))
    (slot : Option ResponseItemEnvelope) :
    m.openBefore (done ++ [slot]) (done ++ [slot]).length
      = m.openAfter (m.openBefore done done.length) slot := by
  rw [openBefore, openBefore, take_length, take_length, foldl_append]
  rfl

theorem openBefore_concat_of_le (m : ContextManager) {i : ℕ} (h : i ≤ done.length)
    (slot : Option ResponseItemEnvelope) :
    m.openBefore (done ++ [slot]) i = m.openBefore done i := by
  simp [openBefore, take_append_of_le_length h]

/-- An item that waited keeps its place when the batch goes on. -/
theorem exists_waited_concat (slot : Option ResponseItemEnvelope)
    (h : ∃ i e, done[i]? = some (some e) ∧ e.isAdmitted ∧ m.openBefore done i ≠ []) :
    ∃ i e, (done ++ [slot])[i]? = some (some e) ∧ e.isAdmitted ∧
      m.openBefore (done ++ [slot]) i ≠ [] := by
  obtain ⟨i, e, hi, he, hopen⟩ := h
  have hlt : i < done.length := (List.getElem?_eq_some_iff.mp hi).1
  refine ⟨i, e, by rw [getElem?_append_left hlt, hi], he, ?_⟩
  rwa [openBefore_concat_of_le m hlt.le]

/-- A slot that leaves the batch as it was and admits nothing. -/
theorem BatchInv.skip (h : BatchInv m given done b) {slot : Option ResponseItemEnvelope}
    (hopen : m.openAfter b.manager.openToolCalls slot = b.manager.openToolCalls)
    (hnone : slot.toList.filter (·.isAdmitted) = []) : BatchInv m given (done ++ [slot]) b := by
  refine ⟨?_, h.released, ?_, h.synthesizedToolCalls, fun hw => exists_waited_concat _ (h.waited hw)⟩
  · have hsame : (done ++ [slot]).reduceOption.filter (·.isAdmitted)
        = done.reduceOption.filter (·.isAdmitted) := by
      simpa [← concat_eq_append, reduceOption_concat] using hnone
    rw [hsame]
    exact h.sound
  · rw [openBefore_concat, ← h.openToolCalls, hopen]

variable {e : ResponseItemEnvelope}

theorem isGated_of_output (h : e.item.isToolOutputItem) : e.isGated = false := by
  rcases e with ⟨item, metadata⟩
  cases item <;> first | rfl | cases h

theorem toolPairCallId_of_gated (h : e.isGated) : e.item.toolPairCallId = none := by
  rcases e with ⟨item, metadata⟩
  cases item <;> first | rfl | cases h

theorem reduceOption_concat_some (done : List (Option ResponseItemEnvelope))
    (e : ResponseItemEnvelope) :
    (done ++ [some e]).reduceOption.filter (·.isAdmitted)
      = done.reduceOption.filter (·.isAdmitted) ++ [e].filter (·.isAdmitted) := by
  rw [← concat_eq_append, reduceOption_concat, filter_append]
  rfl

/-- The bookkeeping after an item: the open calls change as the item says, and closing the last
one releases the queue. -/
theorem settle_cases (env : RecorderEnv) (b : Batch) (item : ResponseItem) :
    (item.pairMark = .inert ∧ b.settle env item = b) ∨
    (∃ callId, item.pairMark = .opens callId ∧ b.settle env item =
      { b with
        manager := { b.manager with openToolCalls := b.manager.openToolCalls ++ [callId] } }) ∨
    b.settle env item = Batch.releaseIfClosed env
      { b with
        manager :=
          { b.manager with openToolCalls := step b.manager.openToolCalls item.pairMark } } := by
  rcases hid : item.toolPairCallId with - | callId
  · exact .inl ⟨by simp [pairMark, hid], by simp [settle, hid]⟩
  rcases hcall : item.isToolCallItem with - | -
  · rcases hout : item.isToolOutputItem with - | -
    · exact .inl ⟨by simp [pairMark, hid, hcall, hout],
        by simp [settle, hid, hcall, hout]⟩
    · refine .inr (.inr ?_)
      have hclose : step b.manager.openToolCalls item.pairMark
          = closeCall b.manager.openToolCalls callId := by
        simp only [pairMark, hid, hcall, hout, closeCall]
        rcases eq_or_ne callId "" with rfl | hne
        · rfl
        · simp [hne, step]
      rw [hclose]
      simp [settle, hid, hcall, hout]
  · exact .inr (.inl ⟨callId, by simp [pairMark, hid, hcall],
      by simp [settle, hid, hcall]⟩)

section

variable (h : BatchInv m given done b)
include h

/-- A gated item that has to wait. -/
theorem BatchInv.queue (he : e.isGated) (hlate : m.isLateOutput e.item = false)
    (hopen : b.manager.openToolCalls ≠ [])
    (policy : TruncationPolicy) :
    BatchInv m given (done ++ [some e])
      { b with deferredNow := b.deferredNow ++ [⟨e, policy⟩] } := by
  refine ⟨⟨h.sound.paired, h.sound.queueGated, ?_, ?_⟩, h.released, ?_, h.synthesizedToolCalls, ?_⟩
  · intro d hd
    rcases mem_append.mp hd with hd | hd
    · exact h.sound.nowGated d hd
    · obtain rfl := mem_singleton.mp hd
      exact he
  · rw [reduceOption_concat_some, ← append_assoc, ← h.sound.held]
    simp [Batch.held]
  · rw [openBefore_concat, ← h.openToolCalls]
    simp [openAfter, hlate, mark_of_gated he, step]
  · intro hw
    rcases hadm : e.isAdmitted with - | -
    · refine exists_waited_concat _ (h.waited ?_)
      simpa [hadm] using hw
    · refine ⟨done.length, e, by simp, hadm, ?_⟩
      rw [openBefore_concat_of_le m le_rfl, ← h.openToolCalls]
      exact hopen

/-- A gated item recorded at once: every call is closed, so both queues are empty of context that
counts. -/
theorem BatchInv.recordGated (env : RecorderEnv)
    (he : e.isGated) (hlate : m.isLateOutput e.item = false)
    (hopen : b.manager.openToolCalls = []) (hok : m.BatchInOrder (done ++ [some e]))
    (policy : TruncationPolicy) :
    BatchInv m given (done ++ [some e])
      { b with
        manager := b.manager.recordBarrierItem env e policy
        sealed := b.sealed ++ [e] } := by
  have hnow : e.isAdmitted → (b.deferredNow.map (·.envelope)).filter (·.isAdmitted) = [] := by
    intro hadm
    by_contra hne
    obtain ⟨i, e', hi, he', hw⟩ := h.waited hne
    have hlt : i < done.length := (List.getElem?_eq_some_iff.mp hi).1
    refine hok i done.length e' e hlt ?_ (by simp) he' hadm ?_ ?_
    · rw [getElem?_append_left hlt, hi]
    · rwa [openBefore_concat_of_le m hlt.le]
    · rw [openBefore_concat_of_le m le_rfl, ← h.openToolCalls, hopen]
  refine ⟨⟨?_, ?_, h.sound.nowGated, ?_⟩, ?_, ?_, ?_, fun hw => exists_waited_concat _ (h.waited hw)⟩
  · rw [recordBarrierItem_openToolCalls]
    exact h.sound.paired.record_gated hopen he policy
  · simpa using h.sound.queueGated
  · rw [reduceOption_concat_some, ← append_assoc, ← h.sound.held]
    simp only [Batch.held, recordBarrierItem_deferredUserContext,
      recordBarrierItem_items_of_gated env b.manager he, h.released hopen]
    rcases hadm : e.isAdmitted with - | -
    · simp [hadm]
    · simp [hadm, he, hnow hadm]
  · simpa using h.released
  · rw [openBefore_concat, ← h.openToolCalls]
    simp [openAfter, hlate, mark_of_gated he, step]
  · simpa using h.synthesizedToolCalls

/-- Any other item: recorded, and then the open calls change as it says. -/
theorem BatchInv.recordOther
    (he : e.isGated = false) (hlate : m.isLateOutput e.item = false) (policy : TruncationPolicy) :
    BatchInv m given (done ++ [some e])
      (settle env
        { b with
          manager := b.manager.recordBarrierItem env e policy
          sealed := b.sealed ++ [e] } e.item) := by
  have hadm : e.isAdmitted = false := by simp [isAdmitted, he]
  have hgiven : given ++ (done ++ [some e]).reduceOption.filter (·.isAdmitted)
      = given ++ done.reduceOption.filter (·.isAdmitted) := by
    rw [reduceOption_concat_some]
    simp [hadm]
  have hafter : m.openBefore (done ++ [some e]) (done ++ [some e]).length
      = step b.manager.openToolCalls e.item.pairMark := by
    rw [openBefore_concat, ← h.openToolCalls]
    simp [openAfter, hlate, mark]
  set recorded : Batch :=
    { b with
      manager := b.manager.recordBarrierItem env e policy
      sealed := b.sealed ++ [e] } with hrec
  -- the recorded batch with the open calls the item leaves
  have hsound : Batch.Sound
      { recorded with
        manager :=
          { recorded.manager with
            openToolCalls := step recorded.manager.openToolCalls e.item.pairMark } }
      (given ++ (done ++ [some e]).reduceOption.filter (·.isAdmitted)) := by
    rw [hgiven, ← h.sound.held]
    refine ⟨?_, by simpa [hrec] using h.sound.queueGated, h.sound.nowGated, ?_⟩
    · simpa [hrec, mark] using h.sound.paired.record_not_gated he policy
    · simp [hrec, Batch.held, recordBarrierItem_items_of_not_gated env b.manager he,
        he]
  have hwaited := fun hw => exists_waited_concat (some e) (h.waited hw)
  rcases settle_cases env recorded e.item with ⟨hmark, heq⟩ | ⟨callId, hmark, heq⟩ | heq
  · rw [heq]
    rw [hmark] at hsound hafter
    exact ⟨hsound, by simpa [hrec] using h.released, by simpa [hrec, step] using hafter.symm,
      by simpa [hrec] using h.synthesizedToolCalls, hwaited⟩
  · rw [heq]
    rw [hmark] at hsound hafter
    exact ⟨hsound, by simp, by simpa [hrec, step] using hafter.symm,
      by simpa [hrec] using h.synthesizedToolCalls, hwaited⟩
  · obtain ⟨hs, hsame, hrel⟩ := hsound.releaseIfClosed env
    rw [heq]
    refine ⟨hs, hrel, ?_, ?_, ?_⟩
    · rw [hsame.openToolCalls, hafter]
      simp [hrec]
    · rw [hsame.synthesizedToolCalls]
      simpa [hrec] using h.synthesizedToolCalls
    · rw [hsame.deferredNow]
      exact hwaited

theorem isLateOutput_congr (item : ResponseItem) :
    b.manager.isLateOutput item = m.isLateOutput item := by
  simp [isLateOutput, h.synthesizedToolCalls]

end

/-- **One slot keeps the loop invariant.** -/
theorem recordSlot_inv (env : RecorderEnv) (h : BatchInv m given done b) (slot : Option ResponseItemEnvelope)
    (hok : m.BatchInOrder (done ++ [slot])) (policy : TruncationPolicy) :
    BatchInv m given (done ++ [slot]) (recordSlot env policy .adjacentResults b slot).1 := by
  rcases slot with - | e
  · exact h.skip rfl rfl
  rcases hlate : m.isLateOutput e.item with - | -
  · rcases hg : e.isGated with - | -
    · have hg' : e.item.isBarrierGatedContext .adjacentResults = false := hg
      simpa [recordSlot, isLateOutput_congr h, hlate, hg'] using h.recordOther hg hlate policy
    · have hg' : e.item.isBarrierGatedContext .adjacentResults = true := hg
      by_cases hopen : b.manager.openToolCalls = []
      · simpa [recordSlot, isLateOutput_congr h, hlate, hg', hopen, settle,
          toolPairCallId_of_gated hg] using h.recordGated env hg hlate hopen hok policy
      · simpa [recordSlot, isLateOutput_congr h, hlate, hg', hopen] using
          h.queue hg hlate hopen policy
  · -- a late output: dropped, and it is no gated context
    have hout : e.item.isToolOutputItem := ((Bool.and_eq_true _ _).mp hlate).1
    have hskip : BatchInv m given (done ++ [some e]) b :=
      h.skip (by simp [openAfter, hlate])
        (by simp [isAdmitted, isGated_of_output hout])
    simpa [recordSlot, isLateOutput_congr h, hlate] using hskip

/-- The condition on a batch is one on each of its beginnings. -/
theorem BatchInOrder.of_append {rest : List (Option ResponseItemEnvelope)}
    (h : m.BatchInOrder (slots ++ rest)) : m.BatchInOrder slots := by
  intro i j e e' hij hi hj he he' hopen
  have hlt : ∀ {k e}, slots[k]? = some e → k < slots.length := fun hk =>
    (List.getElem?_eq_some_iff.mp hk).1
  have hsame : ∀ {k e}, slots[k]? = some e →
      m.openBefore (slots ++ rest) k = m.openBefore slots k := fun hk => by
    simp [openBefore, take_append_of_le_length (hlt hk).le]
  rw [← hsame hj]
  refine h i j e e' hij ?_ ?_ he he' (by rwa [hsame hi])
  · rw [getElem?_append_left (hlt hi), hi]
  · rw [getElem?_append_left (hlt hj), hj]

/-- The loop over the remaining slots keeps the invariant. -/
theorem recordSlots_inv (env : RecorderEnv) (h : BatchInv m given done b) (slots : List (Option ResponseItemEnvelope))
    (hok : m.BatchInOrder (done ++ slots)) (policy : TruncationPolicy) :
    BatchInv m given (done ++ slots) (recordSlots env policy .adjacentResults b slots).1 := by
  induction slots generalizing done b with
  | nil => simpa [recordSlots] using h
  | cons slot _ ih =>
    rw [append_cons] at hok ⊢
    have hstep := recordSlot_inv env h slot (BatchInOrder.of_append hok) policy
    exact ih hstep hok

end Batch

/-! ### Whole runs -/

namespace ContextManager

variable {env : RecorderEnv} {m : ContextManager} {given : List ResponseItemEnvelope}

/-- What holds of the manager between two operations. -/
structure Inv (m : ContextManager) (given : List ResponseItemEnvelope) : Prop where
  paired : Paired m.items m.openToolCalls
  queueGated : ∀ d ∈ m.deferredUserContext, d.envelope.isGated
  order : m.items.filter (·.isGated)
    ++ (m.deferredUserContext.map (·.envelope)).filter (·.isAdmitted) = given

theorem Inv.startBatch (h : Inv m given) (env : RecorderEnv) : BatchInv m given [] (startBatch env m) := by
  have hsound : Batch.Sound ⟨m, [], [], []⟩ given :=
    ⟨h.paired, h.queueGated, by simp, by simpa [Batch.held] using h.order⟩
  obtain ⟨hs, hsame, hrel⟩ := hsound.releaseIfClosed env
  rw [ContextManager.startBatch]
  refine ⟨by simpa using hs, hrel, by simpa [openBefore] using hsame.openToolCalls,
    hsame.synthesizedToolCalls, ?_⟩
  rw [hsame.deferredNow]
  simp

theorem Inv.record (h : Inv m given) (hok : m.BatchInOrder slots) (policy : TruncationPolicy) :
    Inv (m.recordAnnotatedItemsWithBarrierPolicy env slots policy .adjacentResults).1
      (given ++ slots.reduceOption.filter (·.isAdmitted)) := by
  have hloop := recordSlots_inv env (h.startBatch env) slots (by simpa using hok) policy
  rw [nil_append] at hloop
  set b := (recordSlots env policy .adjacentResults (ContextManager.startBatch env m) slots).1
  -- the batch hands its own queue over and releases it when no call is open
  have hsound : Batch.Sound
      { b with
        manager :=
          { b.manager with deferredUserContext := b.manager.deferredUserContext ++ b.deferredNow }
        deferredNow := [] } (given ++ slots.reduceOption.filter (·.isAdmitted)) := by
    refine ⟨hloop.sound.paired, ?_, by simp, ?_⟩
    · intro d hd
      exact (mem_append.mp hd).elim (hloop.sound.queueGated d) (hloop.sound.nowGated d)
    · rw [← hloop.sound.held]
      simp [Batch.held]
  obtain ⟨hs, hsame, -⟩ := hsound.releaseIfClosed env
  refine ⟨hs.paired, hs.queueGated, ?_⟩
  have hheld := hs.held
  rw [Batch.held, hsame.deferredNow, map_nil, filter_nil, append_nil] at hheld
  exact hheld

variable {item : ResponseItem} {callId : String} {uuidV5 : String → String}

theorem abortedOutput_spec {out : ResponseItem} (h : abortedOutput uuidV5 callId item = some out) :
    (ResponseItemEnvelope.new out).isGated = false ∧
      (ResponseItemEnvelope.new out).mark = if callId = "" then .closesOldest else .closes callId := by
  cases item <;> cases h <;> exact ⟨rfl, rfl⟩

theorem abortedOutput_isSome
    (h : item.toolCallId = some callId) : (abortedOutput uuidV5 callId item).isSome := by
  cases item <;> first | rfl | cases h

variable (env : RecorderEnv)

/-- A flush finds an output for a call it has a source for, and that output answers the call. -/
theorem exists_syntheticOutputForCall (he : e ∈ m.items) (hsrc : IsSource callId e) :
    ∃ out, m.syntheticOutputForCall env callId = some out ∧ out.isGated = false ∧
      out.mark = if callId = "" then .closesOldest else .closes callId := by
  have hsome : (m.syntheticOutputForCall env callId).isSome := by
    rw [syntheticOutputForCall, Option.isSome_map, findSome?_isSome_iff]
    refine ⟨e, he, ?_⟩
    obtain ⟨hid, hshell⟩ := hsrc
    split
    · next c a heq => exact absurd heq (hshell c a)
    · rw [if_pos hid]
      exact abortedOutput_isSome hid
  obtain ⟨out, hout⟩ := Option.isSome_iff_exists.mp hsome
  obtain ⟨item, hfind, rfl⟩ := Option.map_eq_some_iff.mp hout
  obtain ⟨e', -, he'⟩ := exists_of_findSome?_eq_some hfind
  refine ⟨_, hout, ?_⟩
  split at he'
  · cases he'
  · split at he'
    · exact abortedOutput_spec he'
    · cases he'

variable {r : ContextManager × List ResponseItemEnvelope} (policy : TruncationPolicy)

/-- Closing one call: its synthetic output is recorded and nothing else changes but the ids that
were closed so. -/
theorem closeWithSynthetic_paired {rest : List String}
    (hp : Paired r.1.items (callId :: rest)) (hsrc : ∃ e ∈ r.1.items, IsSource callId e) :
    let r' := closeWithSynthetic env policy r callId
    Paired r'.1.items rest ∧ r.1.items <+: r'.1.items ∧
      r'.1.items.filter (·.isGated) = r.1.items.filter (·.isGated) ∧
      r'.1.openToolCalls = r.1.openToolCalls ∧
      r'.1.deferredUserContext = r.1.deferredUserContext := by
  obtain ⟨e, he, hsrc⟩ := hsrc
  obtain ⟨out, hout, hgated, hmark⟩ := exists_syntheticOutputForCall env he hsrc
  have hstep : step (callId :: rest) out.mark = rest := by
    rw [hmark]
    split <;> simp [step]
  intro r'
  have hr' : r'.1 = { r.1 with synthesizedToolCalls := callId :: r.1.synthesizedToolCalls
      }.recordBarrierItem env out policy := by
    simp only [r', closeWithSynthetic, hout]
  have hitems := recordBarrierItem_items_of_not_gated env
    { r.1 with synthesizedToolCalls := callId :: r.1.synthesizedToolCalls } hgated policy
  rw [← hr'] at hitems
  refine ⟨?_, ?_, ?_, by rw [hr']; simp, by rw [hr']; simp⟩
  · have hnew : Paired (items
        { r.1 with synthesizedToolCalls := callId :: r.1.synthesizedToolCalls })
        (callId :: rest) := hp
    rw [← hstep, hr']
    exact hnew.record_not_gated hgated policy
  · rw [hitems]
    exact prefix_append _ _
  · rw [hitems, filter_append]
    simp [hgated]

/-- Closing all open calls, oldest first. -/
theorem foldl_closeWithSynthetic_paired (hp : Paired r.1.items openCalls)
    (hsrc : ∀ callId ∈ openCalls, ∃ e ∈ r.1.items, IsSource callId e) :
    let r' := openCalls.foldl (closeWithSynthetic env policy) r
    Paired r'.1.items [] ∧
      r'.1.items.filter (·.isGated) = r.1.items.filter (·.isGated) ∧
      r'.1.openToolCalls = r.1.openToolCalls ∧
      r'.1.deferredUserContext = r.1.deferredUserContext := by
  induction openCalls generalizing r with
  | nil => exact ⟨hp, rfl, rfl, rfl⟩
  | cons _ _ ih =>
    obtain ⟨hhead, hrest⟩ := forall_mem_cons.mp hsrc
    obtain ⟨hp', hpre, hg, ho, hd⟩ := closeWithSynthetic_paired env policy hp hhead
    obtain ⟨hp'', hg', ho', hd'⟩ := ih hp' fun callId' hmem =>
      (hrest callId' hmem).imp fun e he => ⟨hpre.subset he.1, he.2⟩
    exact ⟨hp'', hg'.trans hg, ho'.trans ho, hd'.trans hd⟩

theorem Inv.flush (h : Inv m given) (hok : m.Closable) (env : RecorderEnv)
    (policy : TruncationPolicy) : Inv (m.flushToolPairBarrier env policy).1 given := by
  obtain ⟨hp, hg, ho, hd⟩ := foldl_closeWithSynthetic_paired env policy
    (r := ({ m with synthesizedToolCalls := [], openToolCalls := [] }, [])) h.paired hok
  set r := m.openToolCalls.foldl (closeWithSynthetic env policy)
    ({ m with synthesizedToolCalls := [], openToolCalls := [] }, []) with hr
  have hgated : ∀ d ∈ r.1.deferredUserContext, d.envelope.isGated := by
    rw [hd]
    exact h.queueGated
  have hrel := releaseDeferred_released env hgated
  show Inv (r.1.releaseDeferred env) given
  refine ⟨?_, by rw [hrel.deferredUserContext]; simp, ?_⟩
  · rw [hrel.openToolCalls, ho]
    exact hrel.paired hp
  · rw [hrel.deferredUserContext, hrel.gated, map_nil, filter_nil, append_nil, hg, hd]
    exact h.order

theorem Inv.new : Inv .new [] :=
  ⟨⟨rfl, fun before e h => absurd (prefix_nil.mp h) (by simp)⟩, by simp [ContextManager.new], rfl⟩

theorem Inv.apply (h : Inv m given) (env : RecorderEnv) {op : Op} (hok : m.StepInOrder op) :
    Inv (m.apply env op) (given ++ admitted [op]) := by
  cases op with
  | record _ policy => simpa [admitted, ContextManager.apply] using h.record hok policy
  | flush policy => simpa [admitted, ContextManager.apply] using h.flush hok env policy

/-- The invariant holds after every run whose steps meet their condition. -/
theorem run_inv {ops : List Op} (hok : RunInOrder env ops) : Inv (run env ops) (admitted ops) := by
  induction ops using List.reverseRecOn with
  | nil => exact Inv.new
  | append_singleton ops op ih =>
    have hbefore : RunInOrder env ops := fun before op' after heq =>
      hok before op' (after ++ [op]) (by simp [heq])
    have hstep : (run env ops).StepInOrder op := hok ops op [] rfl
    have happly := (ih hbefore).apply env hstep
    simpa [run, admitted] using happly

/-- The invariant says what the barrier is for. -/
theorem Inv.keepsContext (h : Inv m given) : m.KeepsContext given := by
  refine ⟨h.order, fun i e hi he => answered_of_waiting_eq_nil (h.paired.settled _ e ?_ he)⟩
  obtain ⟨hlt, rfl⟩ := List.getElem?_eq_some_iff.mp hi
  rw [take_append_getElem hlt]
  exact take_prefix _ _

/-- **The write barrier neither loses, repeats nor reorders gated context** in any state of a run
whose batches do not overtake themselves and whose flushes can answer every open call. -/
theorem barrier_keepsContext_of_runInOrder (env : RecorderEnv) (ops : List Op)
    (hok : RunInOrder env ops) (reached : List Op) (hreached : reached <+: ops) :
    (run env reached).KeepsContext (admitted reached) := by
  obtain ⟨rest, rfl⟩ := hreached
  have hprefixes : RunInOrder env reached := fun before op after heq =>
    hok before op (after ++ rest) (by simp [heq])
  exact (run_inv env hprefixes).keepsContext

/-! ### A batch that overtakes itself, and a call no flush answers -/

/-- A recorder that truncates nothing. -/
def plainEnv : RecorderEnv := ⟨fun output _ => output, id, id⟩

def call (callId : String) : ResponseItemEnvelope := .new (.functionCall none "exec" none "" callId)

def output (callId : String) : ResponseItemEnvelope :=
  .new (.functionCallOutput none (some callId) none none (.fromText "ok") none)

def userMessage (text : String) : ResponseItemEnvelope :=
  .new (.message none "user" [.inputText text])

/-- Two messages that both wait for the output keep their order. -/
theorem waiting_messages_keep_order :
    (run plainEnv [.record [some (call "a"), some (userMessage "1"), some (userMessage "2"),
      some (output "a")] (.bytes 1000)]).items
        = [call "a", output "a", userMessage "1", userMessage "2"] ∧
    (run plainEnv [.record [some (call "a"), some (userMessage "1"), some (userMessage "2"),
      some (output "a")] (.bytes 1000)]).KeepsContext [userMessage "1", userMessage "2"] := by
  refine ⟨by decide, ?_⟩
  have hok : RunInOrder plainEnv [.record [some (call "a"), some (userMessage "1"),
      some (userMessage "2"), some (output "a")] (.bytes 1000)] := by
    intro before op after heq
    obtain ⟨rfl, h⟩ | ⟨_, -, h⟩ := cons_eq_append_iff.mp heq
    · cases h
      intro i j e e' hij hi hj he he'
      match i, j, hij with
      | 0, _, _ => cases hi; exact absurd he (by decide)
      | 1, 2, _ => intro _; decide
      | 1, 3, _ => cases hj; exact absurd he' (by decide)
      | 2, 3, _ => cases hj; exact absurd he' (by decide)
      | i + 3, j + 4, _ => cases hj
      | 1, j + 4, _ => cases hj
      | 2, j + 4, _ => cases hj
    · simp at h
  exact barrier_keepsContext_of_runInOrder plainEnv _ hok _ prefix_rfl

/-- **Overtaking inside a batch, and a call left open by a flush.** The first message waits for the
output and is recorded after the second, which found the call closed; and a local shell call
without an item id gets no synthetic output, so the queued message follows an unanswered call. -/
theorem batch_overtakes_itself_and_flush_leaves_call :
    ¬ (run plainEnv [.record [some (call "a"), some (userMessage "1"), some (output "a"),
        some (userMessage "2")] (.bytes 1000)]).KeepsContext [userMessage "1", userMessage "2"] ∧
    ¬ (run plainEnv [.record [some (.new (.localShellCall none (some "a") "ls")),
        some (userMessage "1")] (.bytes 1000), .flush (.bytes 1000)]).KeepsContext
          [userMessage "1"] := by
  refine ⟨fun h => absurd h.order (by decide), fun h => ?_⟩
  obtain ⟨answer, hanswer, -⟩ := h.paired 1 (userMessage "1") (by decide) (by decide)
  have hlt := (hanswer 0 "a" (by decide)).lt_length
  have hpos := (hanswer 0 "a" (by decide)).1
  have hlen : ((List.take 1 (run plainEnv [.record
      [some (.new (.localShellCall none (some "a") "ls")), some (userMessage "1")] (.bytes 1000),
      .flush (.bytes 1000)]).items).map (·.mark)).length = 1 := by decide
  omega

end ContextManager

end CodexPlus
