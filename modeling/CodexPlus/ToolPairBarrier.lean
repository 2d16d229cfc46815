/-
CodexPlus/ToolPairBarrier.lean

The tool-pair write barrier of context_manager/history.rs.  While a recorded
call waits for its output, context that may not stand between the two is queued
and recorded once every call is answered.

Three lists are in play: the recorded items, the queue that outlives a batch,
and the queue of the batch at work.  `recordSlot` is one turn of the batch loop,
`ContextManager.run` a sequence of batches and flushes from an empty manager.

The barrier keeps admission order and adjacency as long as a batch does not
let one gated item wait and then finds all calls closed for a later one, and a
flush can build an output for every open call.
-/
import CodexPlus.ResponseItem

namespace CodexPlus

inductive TruncationPolicy where
  | bytes (limit : Nat)
  | tokens (limit : Nat)
  deriving DecidableEq, Repr

inductive ToolPairBarrierPolicy where
  | contextOnly
  | adjacentResults
  deriving DecidableEq, Repr

namespace ResponseItem

def isBarrierGatedContext (item : ResponseItem) : ToolPairBarrierPolicy → Bool
  | .contextOnly =>
    match item with
    | message _ role _ => role = "user"
    | agentMessage .. => true
    | _ => false
  | .adjacentResults =>
    match item with
    | reasoning .. => false
    | message _ role _ => role ≠ "assistant"
    | functionCall .. | customToolCall .. | toolSearchCall .. | localShellCall ..
    | functionCallOutput .. | customToolCallOutput .. | toolSearchOutput .. => false
    | _ => true

/-- Whether the recorder keeps an item at all. -/
def isApiMessage (item : ResponseItem) (metadata : Option CodexHarnessMetadata) : Bool :=
  match item with
  | message _ role _ => role ≠ "system"
  | configurationUpdate _ => metadata.any (·.harnessAuthoredConfiguration)
  | compactionTrigger | other => false
  | _ => true

end ResponseItem

/-! ### The manager and its recorder -/

structure DeferredUserContext where
  envelope : ResponseItemEnvelope
  policy : TruncationPolicy
  deriving DecidableEq, Repr

/-- The barrier's part of the context manager. The source keeps `synthesized_tool_calls` as a hash
set; only membership is read. -/
structure ContextManager where
  items : List ResponseItemEnvelope
  openToolCalls : List String
  deferredUserContext : List DeferredUserContext
  synthesizedToolCalls : List String
  deriving DecidableEq, Repr

def ContextManager.new : ContextManager := ⟨[], [], [], []⟩

/-- What recording takes from elsewhere: the truncation of output payloads and UUIDs. -/
structure RecorderEnv where
  truncateFunctionOutputPayload :
    FunctionCallOutputPayload → TruncationPolicy → FunctionCallOutputPayload
  withSerializationAllowance : TruncationPolicy → TruncationPolicy
  uuidV5 : String → String

section Model

variable (env : RecorderEnv)

/-- The copy of an item that is recorded: output payloads are cut to the history budget. -/
def processed (envelope : ResponseItemEnvelope) (policy : TruncationPolicy) :
    ResponseItemEnvelope :=
  let policy := match envelope.metadata.bind (·.historyTruncationTokenLimit) with
    | some limit => .tokens limit
    | none => env.withSerializationAllowance policy
  match envelope.item with
  | .functionCallOutput id callId name toolNamespace output passthrough =>
    { envelope with
      item := .functionCallOutput id callId name toolNamespace
        (env.truncateFunctionOutputPayload output policy) passthrough }
  | .customToolCallOutput id callId name output passthrough =>
    { envelope with
      item := .customToolCallOutput id callId name
        (env.truncateFunctionOutputPayload output policy) passthrough }
  | _ => envelope

namespace ContextManager

variable (m : ContextManager)

def recordBarrierItem (envelope : ResponseItemEnvelope)
    (policy : TruncationPolicy) : ContextManager :=
  if envelope.item.isApiMessage envelope.metadata then
    { m with items := m.items ++ [processed env envelope policy] }
  else m

/-- Takes the queue and records it in order. -/
def releaseDeferred : ContextManager :=
  m.deferredUserContext.foldl (fun m entry => m.recordBarrierItem env entry.envelope entry.policy)
    { m with deferredUserContext := [] }

/-- An output for a call that a flush has already closed with a synthetic result. -/
def isLateOutput (item : ResponseItem) : Bool :=
  item.isToolOutputItem && item.toolPairCallId.any (m.synthesizedToolCalls.contains ·)

/-- The output a flush records for an open call: the first recorded call with its id decides. -/
def syntheticOutputForCall (callId : String) : Option ResponseItemEnvelope :=
  (m.items.findSome? fun envelope =>
    match envelope.item with
    -- a local shell call without an item id is passed over
    | .localShellCall none _ _ => none
    | item =>
      if item.toolCallId = some callId then abortedOutput env.uuidV5 callId item else none).map
    ResponseItemEnvelope.new

end ContextManager

/-! ### One batch -/

/-- The local variables of `record_annotated_items_with_barrier_policy`. -/
structure Batch where
  manager : ContextManager
  deferredNow : List DeferredUserContext
  sealed : List ResponseItemEnvelope
  flushed : List ResponseItemEnvelope
  deriving DecidableEq, Repr

structure BarrierAwareRecordOutcome where
  sealed : List ResponseItemEnvelope
  flushed : List ResponseItemEnvelope
  deriving DecidableEq, Repr

/-- The queue is recorded when no call is open. -/
def Batch.releaseIfClosed (b : Batch) : Batch :=
  if b.manager.openToolCalls.isEmpty && !b.manager.deferredUserContext.isEmpty then
    { b with
      manager := b.manager.releaseDeferred env
      sealed := b.sealed ++ b.manager.deferredUserContext.map (·.envelope)
      flushed := b.flushed ++ b.manager.deferredUserContext.map (·.envelope) }
  else b

def closeCall (openCalls : List String) (callId : String) : List String :=
  -- an answer without a call id closes the oldest open call
  if callId = "" then openCalls.tail else openCalls.erase callId

/-- Bookkeeping after an item was recorded. -/
def Batch.settle (b : Batch) (item : ResponseItem) : Batch :=
  match item.toolPairCallId with
  | none => b
  | some callId =>
    if item.isToolCallItem then
      { b with
        manager := { b.manager with openToolCalls := b.manager.openToolCalls ++ [callId] } }
    else if item.isToolOutputItem then
      Batch.releaseIfClosed env
        { b with
          manager :=
            { b.manager with openToolCalls := closeCall b.manager.openToolCalls callId } }
    else b

/-- One turn of the loop over the slots of a batch; the second component is what is left in the
slot. -/
def recordSlot (policy : TruncationPolicy) (barrierPolicy : ToolPairBarrierPolicy) (b : Batch) :
    Option ResponseItemEnvelope → Batch × Option ResponseItemEnvelope
  | none => (b, none)
  | some envelope =>
    if b.manager.isLateOutput envelope.item then (b, none)
    else if envelope.item.isBarrierGatedContext barrierPolicy
        && !b.manager.openToolCalls.isEmpty then
      ({ b with deferredNow := b.deferredNow ++ [⟨envelope, policy⟩] }, none)
    else
      let recorded : Batch :=
        { b with
          manager := b.manager.recordBarrierItem env envelope policy
          sealed := b.sealed ++ [envelope] }
      (recorded.settle env envelope.item, some envelope)

/-- The loop over the slots of a batch. -/
def recordSlots (policy : TruncationPolicy) (barrierPolicy : ToolPairBarrierPolicy) :
    Batch → List (Option ResponseItemEnvelope) → Batch × List (Option ResponseItemEnvelope)
  | b, [] => (b, [])
  | b, slot :: slots =>
    let r := recordSlot env policy barrierPolicy b slot
    let rest := recordSlots policy barrierPolicy r.1 slots
    (rest.1, r.2 :: rest.2)

namespace ContextManager

variable (m : ContextManager)

def startBatch : Batch := Batch.releaseIfClosed env ⟨m, [], [], []⟩

def finishBatch (b : Batch) : Batch :=
  Batch.releaseIfClosed env
    { b with
      manager :=
        { b.manager with deferredUserContext := b.manager.deferredUserContext ++ b.deferredNow }
      deferredNow := [] }

/-- Returns the manager, the outcome, and what is left in the slots: an empty slot was queued or
dropped. -/
def recordAnnotatedItemsWithBarrierPolicy
    (items : List (Option ResponseItemEnvelope)) (policy : TruncationPolicy)
    (barrierPolicy : ToolPairBarrierPolicy) :
    ContextManager × BarrierAwareRecordOutcome × List (Option ResponseItemEnvelope) :=
  let r := recordSlots env policy barrierPolicy (startBatch env m) items
  let b := finishBatch env r.1
  (b.manager, ⟨b.sealed, b.flushed⟩, r.2)

/-! ### The flush -/

/-- Closes one open call with a synthetic output, where one can be built; `r.2` are the items
recorded so far. -/
def closeWithSynthetic (policy : TruncationPolicy)
    (r : ContextManager × List ResponseItemEnvelope) (callId : String) :
    ContextManager × List ResponseItemEnvelope :=
  let synthetic := r.1.syntheticOutputForCall env callId
  let m := { r.1 with synthesizedToolCalls := callId :: r.1.synthesizedToolCalls }
  match synthetic with
  | some envelope => (m.recordBarrierItem env envelope policy, r.2 ++ [envelope])
  | none => (m, r.2)

/-- Returns the manager and the items the flush recorded. -/
def flushToolPairBarrier (policy : TruncationPolicy) : ContextManager × List ResponseItemEnvelope :=
  let r := m.openToolCalls.foldl (closeWithSynthetic env policy)
    ({ m with synthesizedToolCalls := [], openToolCalls := [] }, [])
  (r.1.releaseDeferred env, r.2 ++ r.1.deferredUserContext.map (·.envelope))

/-! ### Runs -/

/-- The two entry points of the barrier. -/
inductive Op where
  | record (items : List (Option ResponseItemEnvelope)) (policy : TruncationPolicy)
  | flush (policy : TruncationPolicy)

def apply : Op → ContextManager
  | .record items policy =>
    (m.recordAnnotatedItemsWithBarrierPolicy env items policy .adjacentResults).1
  | .flush policy => (m.flushToolPairBarrier env policy).1

def run (ops : List Op) : ContextManager := ops.foldl (apply env) .new

end ContextManager

end Model

end CodexPlus
