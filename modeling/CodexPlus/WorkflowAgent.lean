/-
CodexPlus/WorkflowAgent.lean

One agent call of a workflow script (`invoke_agent` in `workflow/src/runtime/delegate.rs`):
the input checks, the index and journal key of the call, the replay of a journaled
outcome, and the retry loop that runs agents until the call is answered.

What the loop observes of the outside world is a list of `AttemptReport`s, one per
agent started: the agent's result, its usage, a cancellation, the user's action.  The
loop is a recursion on that list, and `none` means that it is still running when the
reports end.  Progress events, log lines, run-wide token counters and the list of
failures for the final report are not modelled: no branch of the call reads them.

`resumed_call_same_outcome_iff` compares the two places where a journaled call gets its
answer: the end of the live call and the replay in a later session.
-/
import CodexPlus.WorkflowInputs

namespace CodexPlus

namespace Workflow

/-! ### Calls and outcomes -/

/-- `AgentResultMode` -/
inductive AgentResultMode where
  | value
  | settled
  deriving DecidableEq

/-- `WorkflowAgentFailureKind` -/
inductive WorkflowAgentFailureKind where
  | failed
  | terminalApi
  | cancelled
  | stalled
  | throttled
  | blocked
  | skipped
  deriving DecidableEq

/-- `failure_kind_name` -/
def failureKindName : WorkflowAgentFailureKind → String
  | .failed => "failed"
  | .terminalApi => "terminalApi"
  | .cancelled => "cancelled"
  | .stalled => "stalled"
  | .throttled => "throttled"
  | .blocked => "blocked"
  | .skipped => "skipped"

/-- `WorkflowTokenUsage` -/
structure WorkflowTokenUsage where
  totalTokens : Nat
  toolUses : Nat

/-- `u64::saturating_add` -/
def saturatingAdd (a b : Nat) : Nat := min (a + b) (2 ^ 64 - 1)

def WorkflowTokenUsage.add (a b : WorkflowTokenUsage) : WorkflowTokenUsage :=
  ⟨saturatingAdd a.totalTokens b.totalTokens, saturatingAdd a.toolUses b.toolUses⟩

def WorkflowTokenUsage.max (a b : WorkflowTokenUsage) : WorkflowTokenUsage :=
  ⟨Nat.max a.totalTokens b.totalTokens, Nat.max a.toolUses b.toolUses⟩

/-- `WorkflowAgentResult` -/
structure WorkflowAgentResult where
  value : Json
  usage : WorkflowTokenUsage
  agentId : Option String
  model : Option String
  fallbackModel : Option String

/-- `WorkflowAgentFailure` -/
structure WorkflowAgentFailure where
  kind : WorkflowAgentFailureKind
  message : String
  usage : WorkflowTokenUsage

/-- `WorkflowAgentOutcome` -/
inductive WorkflowAgentOutcome where
  | success
  | failure (kind : WorkflowAgentFailureKind) (message : String)
  deriving DecidableEq

/-- `WorkflowJournalResult` -/
structure WorkflowJournalResult where
  result : WorkflowAgentResult
  outcome : WorkflowAgentOutcome

/-- `WorkflowEffort` -/
inductive WorkflowEffort where
  | low
  | medium
  | high
  | xhigh
  | max
  deriving DecidableEq

/-- The lower-case name `serde` gives an effort. -/
def WorkflowEffort.name : WorkflowEffort → String
  | low => "low"
  | medium => "medium"
  | high => "high"
  | xhigh => "xhigh"
  | max => "max"

/-- `WorkflowAgentOptions`; an isolation is the text `serde` gives it. -/
structure WorkflowAgentOptions where
  label : Option String
  phase : Option String
  schema : Option Json
  model : Option String
  effort : Option WorkflowEffort
  isolation : Option String
  agentType : Option String
  stallMs : Option Nat
  inputs : Option (List (String × WorkflowInputArtifactRef))

/-- `AgentToolInput` -/
structure AgentToolInput where
  index : Nat
  invocationId : String
  prompt : String
  options : WorkflowAgentOptions
  phaseTitle : Option String
  resultMode : AgentResultMode

/-! ### Tool results -/

/-- The object `workflow_tool_result` builds. -/
structure ToolResult where
  value : Json
  tokens : Nat
  artifact : Option WorkflowInputArtifactRef

/-- JavaScript keeps the token count exactly. -/
def exactTokens (host : WorkflowHost) (tokens : Nat) : Bool :=
  losslessNumber host.float (toString tokens)

/-- `workflow_tool_result`: the numbers of the object are those of the value and the
token count. -/
def workflowToolResult (host : WorkflowHost) (value : Json) (tokens : Nat)
    (artifact : Option WorkflowInputArtifactRef) : Except String ToolResult :=
  if value.allNumbers (losslessNumber host.float) && exactTokens host tokens then
    .ok ⟨value, tokens, artifact⟩
  else .error ("workflow tool result: " ++ exactIntegerGuidance)

/-- `workflow_tool_result_with_artifact` -/
def workflowToolResultWithArtifact (host : WorkflowHost) (value : Json) (tokens : Nat) :
    Except String ToolResult :=
  match validateWorkflowInputValue host.float value "workflow tool result" with
  | .error e => .error e
  | .ok () =>
    match host.put value with
    | .error e => .error e
    | .ok artifact => workflowToolResult host value tokens (some artifact)

def maxSettledFailureMessageBytes : Nat := 512

/-- `agent_success_value` -/
def agentSuccessValue : AgentResultMode → Json → Json
  | .value, value => value
  | .settled, value => .object [("status", .string "fulfilled"), ("value", value)]

/-- `agent_failure_value` -/
def agentFailureValue : AgentResultMode → WorkflowAgentFailureKind → String → Json
  | .value, _, _ => .null
  | .settled, kind, message =>
    .object [("status", .string "rejected"), ("reason", .object
      [("kind", .string (failureKindName kind)),
       ("message", .string (truncateUtf8 message maxSettledFailureMessageBytes))])]

/-- `cached_outcome_is_replayable` -/
def cachedOutcomeIsReplayable : WorkflowAgentOutcome → Bool
  | .success => true
  | .failure kind _ => kind = .skipped

/-! ### The journal key -/

/-- `workflow_cache_key`; the selected options are listed in the order of the map. -/
def workflowCacheKey (host : WorkflowHost) (cacheRoot invocationId prompt : String)
    (options : WorkflowAgentOptions) (resultMode : AgentResultMode)
    (inputsSha256 : Option String) : String :=
  let entry (key : String) (value : Option Json) : List (String × Json) :=
    (value.map fun v => (key, v)).toList
  let selected :=
    entry "agentType" (options.agentType.map .string) ++
    entry "effort" (options.effort.map fun e => .string e.name) ++
    entry "inputsSha256" (inputsSha256.map .string) ++
    entry "isolation" (options.isolation.map .string) ++
    entry "model" (options.model.map .string) ++
    entry "resultMode" (if resultMode = .settled then some (.string "settled") else none) ++
    entry "schema" (options.schema.map Json.canonical)
  "v6:" ++ host.sha256 (utf8 cacheRoot ++ [0] ++ utf8 invocationId ++ [0] ++ utf8 prompt ++ [0] ++
    utf8 (host.toJsonText selected))

def workflowCacheRoot : String := "workflow"

/-- The journal key of a call; the inputs' digest is a check of its own. -/
def journalKey (host : WorkflowHost) (input : AgentToolInput) (inputsSha256 : Option String) :
    String :=
  workflowCacheKey host workflowCacheRoot input.invocationId input.prompt input.options
    input.resultMode inputsSha256

/-! ### Sessions and what a call observes -/

/-- The newest record of a key in the journal. -/
inductive JournalEntry where
  | started
  | result (r : WorkflowJournalResult)

/-- A `WorkflowJournal`, by the newest record of every key. -/
abbrev Journal := String → Option JournalEntry

/-- `WorkflowJournal::replay` -/
def Journal.replay (journal : Journal) (key : String) : Option WorkflowJournalResult :=
  match journal key with
  | some (.result r) => some r
  | _ => none

/-- `InvocationState` -/
structure InvocationState where
  agentCount : Nat
  nextIndex : Nat
  invocationIndices : List (String × Nat)
  rerunFrom : Option Nat

/-- What one session brings to a call. -/
structure Session where
  stallRetries : Nat
  invocations : InvocationState
  journal : Option Journal

/-- The two cancellation tokens of a call. -/
inductive Cancellation where
  | workflow
  | tool
  deriving DecidableEq

def Cancellation.message : Cancellation → String
  | workflow => "workflow cancelled"
  | tool => "workflow agent call cancelled"

/-- `AgentAction` -/
inductive AgentAction where
  | none
  | skip
  | retry
  deriving DecidableEq

/-- What `await_user_decision` can resolve to, apart from a cancellation. -/
inductive UserDecision where
  | retry
  | skip
  deriving DecidableEq

/-- What the loop observes of one started agent. -/
structure AttemptReport where
  /-- the usage of the last progress update -/
  lastUsage : WorkflowTokenUsage
  result : Except WorkflowAgentFailure WorkflowAgentResult
  /-- a cancellation seen while waiting for the agent or right after it ended -/
  cancelled : Option Cancellation
  action : AgentAction
  /-- the error of the journal write that ends the call, if it fails -/
  journalError : Option String
  /-- a cancellation during the delay before a retry -/
  interrupted : Option Cancellation
  /-- the user's decision on a stalled agent -/
  decision : Option UserDecision
  /-- the error of taking a concurrency permit again, if it fails -/
  permitError : Option String

/-- What one call observes. -/
structure CallEvents where
  replayError : Option String
  permitError : Option String
  startedError : Option String
  attempts : List AttemptReport

/-- How a call ended: the script's answer, the outcome it journaled, and the number of
agents it started. -/
structure AgentRun where
  answer : Except String ToolResult
  journaled : Option WorkflowJournalResult
  started : Nat

/-! ### The retry loop -/

/-- The loop's own variables. -/
structure LoopState where
  stallRetriesUsed : Nat
  throttleRetried : Bool
  usage : WorkflowTokenUsage
  started : Nat

/-- The larger of the usage reported while the agent ran and at its end. -/
def AttemptReport.usage (report : AttemptReport) : WorkflowTokenUsage :=
  report.lastUsage.max <| match report.result with
    | .ok success => success.usage
    | .error failure => failure.usage

/-- The record `append_failure` writes. -/
def failureRecord (kind : WorkflowAgentFailureKind) (message : String)
    (usage : WorkflowTokenUsage) : WorkflowJournalResult :=
  ⟨⟨.null, usage, none, none, none⟩, .failure kind message⟩

/-- Journal an outcome, if there is a journal, and answer with `answer` once it is written. -/
def journalThen (hasJournal : Bool) (journalError : Option String) (context : String)
    (record : WorkflowJournalResult) (answer : Except String ToolResult) (started : Nat) :
    AgentRun :=
  match hasJournal, journalError with
  | false, _ => ⟨answer, none, started⟩
  | true, some e => ⟨.error (context ++ e), none, started⟩
  | true, none => ⟨answer, some record, started⟩

def persistFailureContext : String := "workflow journal could not persist agent failure: "

/-- The end of a call that the user skips, from the running agent or from a stalled one. -/
def skipByUser (host : WorkflowHost) (hasJournal : Bool) (mode : AgentResultMode)
    (report : AttemptReport) (usage : WorkflowTokenUsage) (started : Nat) : AgentRun :=
  journalThen hasJournal report.journalError persistFailureContext
    (failureRecord .skipped "skipped by user" usage)
    (workflowToolResult host (agentFailureValue mode .skipped "skipped by user")
      usage.totalTokens none) started

/-- The message of a failure as the script and the journal get it. -/
def reportedMessage (mode : AgentResultMode) (message : String) : String :=
  if mode = .settled then truncateUtf8 message maxSettledFailureMessageBytes else message

/-- The answer to a call whose agent failed with `message`. -/
def failureAnswer (host : WorkflowHost) (mode : AgentResultMode)
    (kind : WorkflowAgentFailureKind) (message : String) (usage : WorkflowTokenUsage) :
    Except String ToolResult :=
  if mode = .settled then
    workflowToolResult host (agentFailureValue mode kind message) usage.totalTokens none
  else .error message

/-- The `loop` of `invoke_agent`. -/
def attemptLoop (host : WorkflowHost) (stallRetries : Nat) (hasJournal : Bool)
    (mode : AgentResultMode) (label : String) : List AttemptReport → LoopState → Option AgentRun
  | [], _ => none
  | report :: rest, s =>
    let usage := s.usage.add report.usage
    let started := s.started + 1
    match report.cancelled, report.action, report.result with
    | some c, _, _ => some ⟨.error c.message, none, started⟩
    | none, .skip, _ => some (skipByUser host hasJournal mode report usage started)
    | none, .retry, _ =>
      attemptLoop host stallRetries hasJournal mode label rest
        { s with usage := usage, started := started }
    | none, .none, .ok result =>
      match workflowToolResultWithArtifact host (agentSuccessValue mode result.value)
          usage.totalTokens with
      | .error e => some ⟨.error e, none, started⟩
      | .ok toolResult =>
        some (journalThen hasJournal report.journalError
          ("workflow journal could not persist result for agent " ++ label ++ ": ")
          ⟨{ result with usage := usage }, .success⟩ (.ok toolResult) started)
    | none, .none, .error failure =>
      if failure.kind = .stalled && s.stallRetriesUsed < stallRetries then
        match report.interrupted with
        | some c => some ⟨.error c.message, none, started⟩
        | none =>
          attemptLoop host stallRetries hasJournal mode label rest
            { s with stallRetriesUsed := s.stallRetriesUsed + 1, usage := usage,
                     started := started }
      else if failure.kind = .throttled && !s.throttleRetried then
        -- this delay only watches the workflow's own cancellation
        match report.interrupted with
        | some .workflow => some ⟨.error Cancellation.workflow.message, none, started⟩
        | _ =>
          attemptLoop host stallRetries hasJournal mode label rest
            { s with throttleRetried := true, usage := usage, started := started }
      else
        match failure.kind with
        | .stalled =>
          match report.decision, report.permitError with
          | some .retry, some e => some ⟨.error e, none, started⟩
          | some .retry, none =>
            attemptLoop host stallRetries hasJournal mode label rest
              { s with usage := usage, started := started }
          | some .skip, _ => some (skipByUser host hasJournal mode report usage started)
          | none, _ => some ⟨.error "workflow cancelled", none, started⟩
        | .skipped =>
          -- an agent that reports itself skipped is answered, but not journaled
          let message := reportedMessage mode failure.message
          some ⟨failureAnswer host mode .skipped message usage, none, started⟩
        | .cancelled => some ⟨.error failure.message, none, started⟩
        | kind =>
          let message := reportedMessage mode failure.message
          some (journalThen hasJournal report.journalError persistFailureContext
            (failureRecord kind message usage) (failureAnswer host mode kind message usage)
            started)

/-! ### The whole call -/

/-- `is_bidi_control` -/
def isBidiControl (c : Char) : Bool :=
  c.toNat = 0x061C || c.toNat = 0x200E || c.toNat = 0x200F ||
    (0x202A ≤ c.toNat && c.toNat ≤ 0x202E) || (0x2066 ≤ c.toNat && c.toNat ≤ 0x2069)

/-- `sanitize_progress_text` -/
def sanitizeProgressText (value : String) : String :=
  String.ofList (value.toList.filterMap fun c =>
    if c = '\n' || c = '\r' || c = '\t' then some ' '
    else if isControl c || isBidiControl c then none
    else some c)

def maxWorkflowProgressTextBytes : Nat := 256

def maxWorkflowAgentStallMs : Nat := 30 * 60 * 1000

/-- `ensure_progress_text_bound` on an optional text -/
def ensureProgressTextBound (field : String) : Option String → Except String Unit
  | none => .ok ()
  | some value =>
    if value.utf8ByteSize > maxWorkflowProgressTextBytes then .error ("use a concise " ++ field)
    else .ok ()

/-- The call with its progress texts sanitized. -/
def sanitizeInput (raw : AgentToolInput) : AgentToolInput :=
  { raw with
    options := { raw.options with
      label := raw.options.label.map sanitizeProgressText
      phase := raw.options.phase.map sanitizeProgressText }
    phaseTitle := raw.phaseTitle.map sanitizeProgressText }

/-- The checks before the call gets its index, and the digest of its inputs. -/
def checkInput (host : WorkflowHost) (input : AgentToolInput) : Except String (Option String) := do
  let inputsSha256 ← workflowAgentInputsSha256 host input.options.inputs
  ensureProgressTextBound "workflow agent label" input.options.label
  ensureProgressTextBound "workflow phase title" input.options.phase
  ensureProgressTextBound "workflow phase title" input.phaseTitle
  if input.options.stallMs.any (· > maxWorkflowAgentStallMs) then
    .error "choose stallMs within the supported workflow agent timeout range"
  else return inputsSha256

/-- The index of a call: the one its invocation id has, else the one it asks for, else the
next free one. -/
def assignIndex (s : InvocationState) (invocationId : String) (requested : Nat) :
    Nat × InvocationState :=
  let s := { s with agentCount := saturatingAdd s.agentCount 1 }
  match s.invocationIndices.lookup invocationId with
  | some index => (index, s)
  | none =>
    let index := if s.invocationIndices.any (·.2 = requested) then s.nextIndex else requested
    (index, { s with
      nextIndex :=
        if s.invocationIndices.any (·.2 = requested) then saturatingAdd s.nextIndex 1
        else max s.nextIndex (saturatingAdd requested 1)
      invocationIndices := (invocationId, index) :: s.invocationIndices })

/-- The answer `invoke_agent` gives from a journaled outcome. -/
def replayAnswer (host : WorkflowHost) (mode : AgentResultMode) (cached : WorkflowJournalResult) :
    Except String ToolResult :=
  match cached.outcome with
  | .success => workflowToolResultWithArtifact host (agentSuccessValue mode cached.result.value) 0
  | .failure kind message =>
    if mode = .settled then workflowToolResult host (agentFailureValue mode kind message) 0 none
    else .error message

/-- How a call ended and the journal it leaves. -/
structure CallResult where
  run : AgentRun
  journal : Option Journal

/-- The journal after a call that was not replayed: `append_started`, then the outcome. -/
def Journal.afterCall (journal : Journal) (key : String) (journaled : Option WorkflowJournalResult) :
    Journal :=
  Function.update journal key
    (some (match journaled with
      | some r => .result r
      | none => .started))

/-- The replay decision of `invoke_agent`: a journaled outcome that is replayable and, in a
rerun, belongs to an earlier call. -/
def replayable (session : Session) (index : Nat) (key : String) : Option WorkflowJournalResult :=
  (session.journal.bind fun journal => journal.replay key).filter fun cached =>
    session.invocations.rerunFrom.all (index < ·) && cachedOutcomeIsReplayable cached.outcome

/-- `invoke_agent` -/
def invokeAgent (host : WorkflowHost) (session : Session) (raw : AgentToolInput)
    (events : CallEvents) : Option CallResult :=
  let failed (message : String) : Option CallResult :=
    some ⟨⟨.error message, none, 0⟩, session.journal⟩
  let input := sanitizeInput raw
  match checkInput host input with
  | .error e => failed e
  | .ok inputsSha256 =>
    let index := (assignIndex session.invocations input.invocationId input.index).1
    let key := journalKey host input inputsSha256
    let label := input.options.label.getD ("agent-" ++ toString (index + 1))
    match session.journal.isSome, events.replayError with
    | true, some e =>
      failed ("workflow journal replay failed for agent " ++ label ++ ": " ++ e)
    | _, _ =>
      match replayable session index key with
      | some cached =>
        some ⟨⟨replayAnswer host input.resultMode cached, none, 0⟩, session.journal⟩
      | none =>
        match events.permitError, session.journal.isSome, events.startedError with
        | some e, _, _ => failed e
        | none, true, some e =>
          failed ("workflow journal could not durably start agent " ++ label ++ ": " ++ e)
        | none, hasJournal, _ =>
          (attemptLoop host session.stallRetries hasJournal input.resultMode label
            events.attempts ⟨0, false, ⟨0, 0⟩, 0⟩).map fun run =>
              ⟨run, session.journal.map fun journal => journal.afterCall key run.journaled⟩

/-- The journal key under which a call is looked up, when its input is accepted. -/
def callKey (host : WorkflowHost) (raw : AgentToolInput) : Option String :=
  match checkInput host (sanitizeInput raw) with
  | .error _ => none
  | .ok inputsSha256 => some (journalKey host (sanitizeInput raw) inputsSha256)

/-! ### Where a journaled outcome comes from -/

section Live

variable {host : WorkflowHost} {stallRetries : Nat} {hasJournal : Bool} {mode : AgentResultMode}
  {label : String} {record : WorkflowJournalResult}

/-- The answer a call ends with when it journals `record`, for the two outcomes that a later
session replays. -/
inductive LiveAnswer (host : WorkflowHost) (mode : AgentResultMode) :
    WorkflowJournalResult → Except String ToolResult → Prop
  | success (result : WorkflowAgentResult) (toolResult : ToolResult)
      (h : workflowToolResultWithArtifact host (agentSuccessValue mode result.value)
        result.usage.totalTokens = .ok toolResult) :
      LiveAnswer host mode ⟨result, .success⟩ (.ok toolResult)
  | skipped (usage : WorkflowTokenUsage) :
      LiveAnswer host mode (failureRecord .skipped "skipped by user" usage)
        (workflowToolResult host (agentFailureValue mode .skipped "skipped by user")
          usage.totalTokens none)

variable {answer : Except String ToolResult} {started : Nat}

theorem journalThen_journaled {journalError : Option String} {context : String}
    {written : WorkflowJournalResult}
    (h : (journalThen hasJournal journalError context written answer started).journaled
      = some record) :
    hasJournal ∧ written = record ∧
      (journalThen hasJournal journalError context written answer started).answer = answer := by
  cases hasJournal <;> cases journalError <;> simp_all [journalThen]

theorem skipByUser_live {report : AttemptReport} {usage : WorkflowTokenUsage}
    (h : (skipByUser host hasJournal mode report usage started).journaled = some record) :
    hasJournal ∧
      LiveAnswer host mode record
        (skipByUser host hasJournal mode report usage started).answer := by
  obtain ⟨hhas, rfl, hanswer⟩ := journalThen_journaled h
  unfold skipByUser
  rw [hanswer]
  exact ⟨hhas, .skipped usage⟩

/-- **A replayable outcome is journaled by a success or by one of the two user skips.** -/
theorem attemptLoop_live (reports : List AttemptReport) :
    ∀ (s : LoopState) (run : AgentRun),
      attemptLoop host stallRetries hasJournal mode label reports s = some run →
      run.journaled = some record → cachedOutcomeIsReplayable record.outcome →
      hasJournal ∧ LiveAnswer host mode record run.answer := by
  induction reports with
  | nil => intro s run h; simp [attemptLoop] at h
  | cons _ _ ih =>
    intro s run h hj hr
    simp only [attemptLoop] at h
    split at h
    · cases h; simp at hj
    · cases h; exact skipByUser_live hj
    · exact ih _ run h hj hr
    · rename_i result _ _ _
      split at h
      · cases h; simp at hj
      · rename_i toolResult htool
        cases h
        obtain ⟨hhas, rfl, hanswer⟩ := journalThen_journaled hj
        rw [hanswer]
        exact ⟨hhas, .success _ toolResult htool⟩
    · rename_i failure _ _ _
      split at h
      · -- automatic retry of a stalled agent
        split at h
        · cases h; simp at hj
        · exact ih _ run h hj hr
      · split at h
        · -- the one retry of a throttled agent
          split at h
          · cases h; simp at hj
          · exact ih _ run h hj hr
        · split at h
          · split at h
            · cases h; simp at hj
            · exact ih _ run h hj hr
            · cases h; exact skipByUser_live hj
            · cases h; simp at hj
          · cases h; simp at hj
          · cases h; simp at hj
          · -- the other failures are journaled with their own kind, which is never replayed
            rename_i hskipped _
            cases h
            obtain ⟨-, rfl, -⟩ := journalThen_journaled hj
            simp only [failureRecord, cachedOutcomeIsReplayable, decide_eq_true_eq] at hr
            exact absurd hr hskipped

/-! ### The live answer and the replayed one -/

/-- What the script gets: the value and the artifact it stands for, or a thrown error. -/
def scriptOutcome : Except String ToolResult → Option (Json × Option WorkflowInputArtifactRef)
  | .ok r => some (r.value, r.artifact)
  | .error _ => none

/-- A replay reports no tokens, and `0` is exact when it parses to a float printed `0.0`. -/
theorem exactTokens_zero {zero : host.float.F64} (hparse : host.float.parse "0" = some zero)
    (hprint : host.float.print zero = some "0.0") : exactTokens host 0 := by
  have hsafe : (parseI64 ['0']).any (fun i => i.natAbs ≤ maxJavascriptSafeInteger) = true := by
    decide
  have hcanonical : canonicalDecimal "0" = canonicalDecimal "0.0" := by decide
  show losslessNumber host.float "0" = true
  simp [losslessNumber, hsafe, hparse, javascriptNumberRoundTrips, hprint, hcanonical]

theorem agentFailureValue_allNumbers (test : String → Bool) (kind : WorkflowAgentFailureKind)
    (message : String) : (agentFailureValue mode kind message).allNumbers test := by
  cases mode <;> simp [agentFailureValue, Json.allNumbers, Json.allNumbersEntries]

theorem workflowToolResult_failure (kind : WorkflowAgentFailureKind) (message : String)
    (tokens : Nat) :
    workflowToolResult host (agentFailureValue mode kind message) tokens none =
      if exactTokens host tokens then .ok ⟨agentFailureValue mode kind message, tokens, none⟩
      else .error ("workflow tool result: " ++ exactIntegerGuidance) := by
  simp [workflowToolResult, agentFailureValue_allNumbers]

/-- The token count only decides whether the result is an error. -/
theorem workflowToolResultWithArtifact_zero {value : Json} {tokens : Nat} {r : ToolResult}
    (hzero : exactTokens host 0)
    (h : workflowToolResultWithArtifact host value tokens = .ok r) :
    workflowToolResultWithArtifact host value 0 = .ok { r with tokens := 0 } := by
  unfold workflowToolResultWithArtifact at h ⊢
  split at h
  · cases h
  split at h
  · cases h
  unfold workflowToolResult at h ⊢
  split at h
  · rename_i hok
    rw [Bool.and_eq_true] at hok
    cases h
    rw [if_pos (by rw [hok.1, hzero]; rfl)]
  · cases h

/-- **Replay against live answer.**  A replayed success always agrees.  A replayed skip is a
value in settled mode and an error in value mode; the live skip is a value in both, unless
its token count is not exact. -/
theorem replayAnswer_same_iff
    (hzero : exactTokens host 0) (h : LiveAnswer host mode record answer) :
    scriptOutcome (replayAnswer host mode record) = scriptOutcome answer ↔
      record.outcome = .success ∨
        (mode = .settled ↔ exactTokens host record.result.usage.totalTokens) := by
  cases h with
  | success _ _ hlive =>
    have hreplay := workflowToolResultWithArtifact_zero hzero hlive
    simp [replayAnswer, hreplay, scriptOutcome]
  | skipped usage =>
    simp only [replayAnswer, failureRecord, workflowToolResult_failure, hzero, if_true,
      reduceCtorEq, false_or]
    by_cases htokens : exactTokens host usage.totalTokens = true
    all_goals cases mode <;> simp [htokens, scriptOutcome]

/-! ### A call and its resumption -/

variable {raw : AgentToolInput} {events : CallEvents}

/-- A call that journals a replayable outcome was accepted, ran live, and left that outcome
as the newest record of its key. -/
theorem invokeAgent_journaled {live : Session}
    {result : CallResult} (hcall : invokeAgent host live raw events = some result)
    (hjournaled : result.run.journaled = some record)
    (hreplay : cachedOutcomeIsReplayable record.outcome) :
    ∃ key, callKey host raw = some key ∧
      LiveAnswer host raw.resultMode record result.run.answer ∧
      result.journal.bind (· key) = some (.result record) := by
  unfold invokeAgent at hcall
  simp only at hcall
  rcases hcheck : checkInput host (sanitizeInput raw) with e | sha
  · rw [hcheck] at hcall
    cases hcall; simp at hjournaled
  rw [hcheck] at hcall
  refine ⟨journalKey host (sanitizeInput raw) sha, by simp [callKey, hcheck], ?_⟩
  simp only at hcall
  split at hcall
  · cases hcall; simp at hjournaled
  split at hcall
  · cases hcall; simp at hjournaled
  split at hcall
  · cases hcall; simp at hjournaled
  · cases hcall; simp at hjournaled
  · rw [Option.map_eq_some_iff] at hcall
    obtain ⟨run, hloop, rfl⟩ := hcall
    obtain ⟨hhas, hlive⟩ := attemptLoop_live _ _ _ hloop hjournaled hreplay
    obtain ⟨journal, hjournal⟩ := Option.isSome_iff_exists.mp hhas
    have hrun : run.journaled = some record := hjournaled
    exact ⟨hlive, by simp [hjournal, Journal.afterCall, hrun]⟩

/-- A session without a rerun request answers a journaled, replayable call from the journal. -/
theorem invokeAgent_replays {later : Session} {key : String} (hkey : callKey host raw = some key)
    (hnewest : later.journal.bind (· key) = some (.result record))
    (hreplay : cachedOutcomeIsReplayable record.outcome)
    (hrerun : later.invocations.rerunFrom = none) (hread : events.replayError = none) :
    invokeAgent host later raw events =
      some ⟨⟨replayAnswer host raw.resultMode record, none, 0⟩, later.journal⟩ := by
  rcases hcheck : checkInput host (sanitizeInput raw) with e | sha
  · simp [callKey, hcheck] at hkey
  obtain rfl : journalKey host (sanitizeInput raw) sha = key := by
    simpa [callKey, hcheck] using hkey
  obtain ⟨journal, hjournal, hentry⟩ := Option.bind_eq_some_iff.mp hnewest
  have hcached : ∀ index, replayable later index (journalKey host (sanitizeInput raw) sha)
      = some record := by
    simp [replayable, hjournal, Journal.replay, hentry, hrerun, hreplay]
  have hsome : later.journal.isSome = true := by simp [hjournal]
  unfold invokeAgent
  simp only [hcheck, hread, hcached, hsome]
  rfl

end Live

/-- **A resumed workflow call.**  A call that was answered and journaled as a success or as
skipped is answered from the journal by every later session that has no rerun request and
reads the same record; no agent is started.  The script gets the same outcome exactly when
the call succeeded or, for a skip, when its mode is settled if and only if the token count
of the live call is exact in JavaScript. -/
theorem resumed_call_same_outcome_iff (host : WorkflowHost) (zero : host.float.F64)
    (hparse : host.float.parse "0" = some zero) (hprint : host.float.print zero = some "0.0")
    (live later : Session) (raw : AgentToolInput) (index : Nat) (events laterEvents : CallEvents)
    (result : CallResult) (record : WorkflowJournalResult)
    (hcall : invokeAgent host live raw events = some result)
    (hjournaled : result.run.journaled = some record)
    (hreplay : cachedOutcomeIsReplayable record.outcome)
    (hjournal : ∀ key, callKey host raw = some key →
      later.journal.bind (· key) = result.journal.bind (· key))
    (hrerun : later.invocations.rerunFrom = none) (hread : laterEvents.replayError = none) :
    ∃ again, invokeAgent host later { raw with index := index } laterEvents = some again ∧
      again.run.started = 0 ∧
      (scriptOutcome again.run.answer = scriptOutcome result.run.answer ↔
        record.outcome = .success ∨
          (raw.resultMode = .settled ↔ exactTokens host record.result.usage.totalTokens)) := by
  obtain ⟨key, hkey, hlive, hnewest⟩ := invokeAgent_journaled hcall hjournaled hreplay
  have hkey' : callKey host { raw with index := index } = some key := hkey
  have hagain := invokeAgent_replays hkey' ((hjournal key hkey).trans hnewest) hreplay hrerun hread
  exact ⟨_, hagain, rfl, replayAnswer_same_iff (exactTokens_zero hparse hprint) hlive⟩

/-! ### Two skipped calls -/

section Runs

/-- A host whose floats are the texts they print as. -/
def textHost : WorkflowHost where
  float := ⟨String, some, fun s => some (s ++ ".0"), fun _ => true, fun _ => true, fun _ => false⟩
  sha256 := fun _ => ""
  toJsonText := fun _ => ""
  put := fun _ => .ok ⟨"", .value⟩

/-- A session with an empty journal and no automatic retries. -/
def emptySession : Session := ⟨0, ⟨0, 0, [], none⟩, some fun _ => none⟩

variable (mode : AgentResultMode)

def plainCall : AgentToolInput :=
  ⟨0, "agent:0", "prompt", ⟨none, none, none, none, none, none, none, none, none⟩, none, mode⟩

/-- The user skips the first agent while it runs. -/
def skippedEvents : CallEvents :=
  ⟨none, none, none,
    [⟨⟨0, 0⟩, .ok ⟨.null, ⟨0, 0⟩, none, none, none⟩, none, .skip, none, none, none, none⟩]⟩

def noEvents : CallEvents := ⟨none, none, none, []⟩

/-- The run of a skipped call and of its resumption. -/
def skippedRun : CallResult :=
  ⟨⟨workflowToolResult textHost (agentFailureValue mode .skipped "skipped by user") 0 none,
    some (failureRecord .skipped "skipped by user" ⟨0, 0⟩), 1⟩,
    some (Journal.afterCall (fun _ => none) "v6:"
      (some (failureRecord .skipped "skipped by user" ⟨0, 0⟩)))⟩

theorem skippedRun_eq :
    invokeAgent textHost emptySession (plainCall mode) skippedEvents = some (skippedRun mode) := by
  cases mode <;> rfl

theorem skipped_settled_call_replays_same :
    ∃ again, invokeAgent textHost { emptySession with journal := (skippedRun .settled).journal }
        { plainCall .settled with index := 0 } noEvents = some again ∧
      again.run.started = 0 ∧
      (scriptOutcome again.run.answer = scriptOutcome (skippedRun .settled).run.answer ↔
        WorkflowAgentOutcome.failure .skipped "skipped by user" = .success ∨
          (AgentResultMode.settled = .settled ↔ exactTokens textHost 0)) :=
  resumed_call_same_outcome_iff textHost "0" rfl rfl emptySession
    { emptySession with journal := (skippedRun .settled).journal } (plainCall .settled) 0
    skippedEvents noEvents (skippedRun .settled) (failureRecord .skipped "skipped by user" ⟨0, 0⟩)
    (skippedRun_eq .settled) rfl rfl (fun _ _ => rfl) rfl rfl

/-- Skipped in value mode: the script first gets `null`, and an error once it is resumed. -/
theorem skipped_value_call_replays_as_error :
    (invokeAgent textHost emptySession (plainCall .value) skippedEvents).map
        (fun r => scriptOutcome r.run.answer) = some (some (.null, none)) ∧
    ((invokeAgent textHost emptySession (plainCall .value) skippedEvents).bind fun r =>
      invokeAgent textHost { emptySession with journal := r.journal } (plainCall .value)
        noEvents).map (fun r => (scriptOutcome r.run.answer, r.run.started)) = some (none, 0) := by
  exact ⟨rfl, rfl⟩

end Runs

end Workflow

end CodexPlus
